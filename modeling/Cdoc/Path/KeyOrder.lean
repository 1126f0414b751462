import Cdoc.Path.LseqSegments
import Cdoc.Path.RoundTrip

/-!
# The order of keys

The bytes of a path are compared as keys of the store.  Behind its first
delimiter a path is a concatenation of *steps*: an element with the
delimiter which follows it, or the terminator.  Steps form an ordered code,
because the first byte of a step tells its kind and no element is continued
by the delimiter.  Byte order of complete paths is therefore decided at the
first step in which they differ, and byte prefixes which end in a delimiter
respect the boundaries of elements.
-/

namespace Cdoc.Path

open Cdoc.Foundation

/-! ## Paths of documents -/

/-- An element of a document path: a valid field or a built index. -/
inductive Element where
  | field (name : String) (valid : Field.isValid name = true)
  | index (segments : List Segment) (nonempty : segments ≠ [])
      (proper : Proper segments)

/-- The argument which the writer receives for an element. -/
def Element.pathElement : Element → PathElement
  | .field name _ => .field name
  | .index segments _ _ => .index ⟨encodeSegments segments⟩

/-- An element of a path or its terminator. -/
inductive Step where
  | element (element : Element)
  | tail (terminator : Terminator)

/-- A complete path. -/
structure DocumentPath where
  elements : List Element
  terminator : Terminator

namespace DocumentPath

/-- The elements of a path and, last, its terminator. -/
def steps (path : DocumentPath) : List Step :=
  path.elements.map Step.element ++ [Step.tail path.terminator]

/-- The key of a path, or the error of the writer. -/
def write (path : DocumentPath) : Except PathError Bytes :=
  writePath (path.elements.map Element.pathElement) path.terminator

end DocumentPath

namespace Step

/--
The kinds of steps in document order: empty field, index, counter, last
write wins, chunk, non-empty field.
-/
def rank : Step → Nat
  | .element (.field name _) => if name = "" then 0 else 5
  | .element (.index _ _ _) => 1
  | .tail (.counter _) => 2
  | .tail .lww => 3
  | .tail (.chunked _) => 4

/-- The order of two steps of one kind. -/
def PayloadLess : Step → Step → Prop
  | .element (.field left _), .element (.field right _) =>
      strBytes left < strBytes right
  | .element (.index left _ _), .element (.index right _ _) =>
      left < right
  | .tail (.counter left), .tail (.counter right) =>
      left.val.toNat < right.val.toNat
  | .tail (.chunked left), .tail (.chunked right) =>
      left.toNat < right.toNat
  | _, _ => False

/-- Document order of two steps: by kind, then by content. -/
def Less (left right : Step) : Prop :=
  left.rank < right.rank ∨
    left.rank = right.rank ∧ PayloadLess left right

/-- The bytes of a step; those of an element include the next delimiter. -/
def encode : Step → Bytes
  | .element entry => entry.pathElement.body ++ [DELIMITER]
  | .tail terminator => terminator.body

end Step

/-! ## The first byte of a step -/

/-- The kind of step which starts with a byte. -/
def rankOfByte (byte : UInt8) : Nat :=
  if byte.toNat = 0 then 0
  else if byte.toNat ≤ 4 then 1
  else if byte.toNat ≤ 29 then 2
  else if byte.toNat ≤ 30 then 3
  else if byte.toNat ≤ 31 then 4
  else 5

theorem lt_of_rankOfByte_lt {left right : UInt8}
    (less : rankOfByte left < rankOfByte right) : left < right := by
  rw [UInt8.lt_iff_toNat_lt]
  unfold rankOfByte at less
  split_ifs at less <;> omega

theorem strBytes_injective : Function.Injective strBytes := by
  intro left right equal
  have arrays : left.toByteArray = right.toByteArray := by
    apply ByteArray.ext
    exact Array.toList_inj.mp equal
  exact String.toByteArray_inj.mp arrays

theorem strBytes_eq_nil_iff {name : String} :
    strBytes name = [] ↔ name = "" := by
  constructor
  · intro empty
    exact strBytes_injective empty
  · rintro rfl
    rfl

theorem PathElement.segment_injective :
    Function.Injective PathElement.segment := by
  intro left right same
  cases left with
  | field name =>
      cases right with
      | field other =>
          rw [strBytes_injective (Field.mk.inj (PathSegment.field.inj same))]
      | index other => cases same
  | index position =>
      cases right with
      | field other => cases same
      | index other =>
          cases same
          rfl

/-- The bytes of a proper segment start with a number from one to four. -/
theorem Segment.write_head {segment : Segment}
    (nonzero : segment.pid.val ≠ 0) :
    ∃ first rest, segment.write = first :: rest ∧
      1 ≤ first.toNat ∧ first.toNat ≤ 4 := by
  have fits : segment.pid.val.toNat < 256 ^ 4 := segment.pid.val.toNat_lt
  have short := VarInt.byteLength_le 4 segment.pid.val.toNat
  have positive : VarInt.byteLength 4 segment.pid.val.toNat ≠ 0 := by
    rw [Ne, VarInt.byteLength_eq_zero_iff fits]
    intro zero
    exact nonzero (UInt32.toNat_inj.mp zero)
  refine ⟨_, _, by
    rw [Segment.write, VarInt.BE32.write, VarInt.write_eq fits,
      List.cons_append], ?_⟩
  rw [UInt8.toNat_ofNat', Nat.mod_eq_of_lt (by omega)]
  omega

/-- The first byte of a step tells its kind. -/
theorem Step.encode_head (step : Step) :
    ∃ first rest, step.encode = first :: rest ∧
      rankOfByte first = step.rank := by
  match step with
  | .element (.field name valid) =>
      cases bytes : strBytes name with
      | nil =>
          refine ⟨DELIMITER, [], by
            simp [Step.encode, Element.pathElement, PathElement.body,
              bytes], ?_⟩
          rw [Step.rank, if_pos (strBytes_eq_nil_iff.mp bytes)]
          rfl
      | cons first others =>
          have large := Field.isValid_iff.mp valid first
            (by simp [bytes])
          have nonempty : name ≠ "" := by
            intro empty
            simp [strBytes_eq_nil_iff.mpr empty] at bytes
          simp only [UInt8.le_iff_toNat_le, UInt8.reduceToNat] at large
          refine ⟨first, others ++ [DELIMITER], by
            simp [Step.encode, Element.pathElement, PathElement.body,
              bytes], ?_⟩
          rw [Step.rank, if_neg nonempty]
          unfold rankOfByte
          split_ifs <;> omega
  | .element (.index [] nonempty proper) => exact absurd rfl nonempty
  | .element (.index (head :: others) nonempty proper) =>
      rcases Segment.write_head proper.head with
        ⟨first, rest, shape, bounds⟩
      refine ⟨first, rest ++ encodeSegments others ++ [DELIMITER], by
        simp [Step.encode, Element.pathElement, PathElement.body,
          shape], ?_⟩
      change rankOfByte first = 1
      unfold rankOfByte
      split_ifs <;> omega
  | .tail (.counter pid) => exact ⟨_, _, rfl, rfl⟩
  | .tail .lww => exact ⟨_, _, rfl, rfl⟩
  | .tail (.chunked endIndex) => exact ⟨_, _, rfl, rfl⟩

/-! ## The code of steps -/

/-- Steps of one kind are compared by their content. -/
theorem Step.payload_trichotomy {left right : Step}
    (sameKind : left.rank = right.rank) :
    Step.PayloadLess left right ∨ left = right ∨
      Step.PayloadLess right left := by
  match left, right with
  | .element (.field left _), .element (.field right _) =>
      rcases lt_trichotomy (strBytes left) (strBytes right) with
        less | equal | greater
      · exact Or.inl less
      · rcases strBytes_injective equal with rfl
        exact Or.inr (Or.inl rfl)
      · exact Or.inr (Or.inr greater)
  | .element (.index left _ _), .element (.index right _ _) =>
      rcases lt_trichotomy left right with less | rfl | greater
      · exact Or.inl less
      · exact Or.inr (Or.inl rfl)
      · exact Or.inr (Or.inr greater)
  | .tail (.counter ⟨left⟩), .tail (.counter ⟨right⟩) =>
      rcases VarInt.code32.trichotomy left right with
        less | rfl | greater
      · exact Or.inl less
      · exact Or.inr (Or.inl rfl)
      · exact Or.inr (Or.inr greater)
  | .tail .lww, .tail .lww => exact Or.inr (Or.inl rfl)
  | .tail (.chunked left), .tail (.chunked right) =>
      rcases VarInt.code64.trichotomy left right with
        less | rfl | greater
      · exact Or.inl less
      · exact Or.inr (Or.inl rfl)
      · exact Or.inr (Or.inr greater)
  -- the remaining pairs have different kinds
  | .element (.field name _), .element (.index _ _ _)
  | .element (.index _ _ _), .element (.field name _)
  | .element (.field name _), .tail (.counter _)
  | .tail (.counter _), .element (.field name _)
  | .element (.field name _), .tail .lww
  | .tail .lww, .element (.field name _)
  | .element (.field name _), .tail (.chunked _)
  | .tail (.chunked _), .element (.field name _) =>
      simp only [Step.rank] at sameKind
      split at sameKind <;> omega
  | .element (.index _ _ _), .tail (.counter _)
  | .element (.index _ _ _), .tail .lww
  | .element (.index _ _ _), .tail (.chunked _)
  | .tail (.counter _), .element (.index _ _ _)
  | .tail .lww, .element (.index _ _ _)
  | .tail (.chunked _), .element (.index _ _ _)
  | .tail (.counter _), .tail .lww
  | .tail (.counter _), .tail (.chunked _)
  | .tail .lww, .tail (.counter _)
  | .tail .lww, .tail (.chunked _)
  | .tail (.chunked _), .tail (.counter _)
  | .tail (.chunked _), .tail .lww =>
      simp [Step.rank] at sameKind

theorem Step.less_trichotomy (left right : Step) :
    Step.Less left right ∨ left = right ∨ Step.Less right left := by
  rcases Nat.lt_trichotomy left.rank right.rank with
    less | same | greater
  · exact Or.inl (Or.inl less)
  · rcases Step.payload_trichotomy same with less | equal | greater
    · exact Or.inl (Or.inr ⟨same, less⟩)
    · exact Or.inr (Or.inl equal)
    · exact Or.inr (Or.inr (Or.inr ⟨same.symm, greater⟩))
  · exact Or.inr (Or.inr (Or.inl greater))

/-- A smaller field is smaller whatever follows the two delimiters. -/
theorem field_delimited_lt {left right : Bytes} (less : left < right)
    (valid : ∀ byte ∈ right, 32 ≤ byte) (leftRest rightRest : Bytes) :
    left ++ DELIMITER :: leftRest < right ++ DELIMITER :: rightRest := by
  have above : ∀ byte ∈ right, ∃ letter rest,
      OrderedCode.letter.encode byte = letter :: rest ∧
        DELIMITER < letter := by
    intro byte member
    exact ⟨byte, [], rfl,
      lt_of_lt_of_le (by decide) (valid byte member)⟩
  have terminated := OrderedCode.letter.flatMap_terminated_lt
    (List.lex_lt.mpr less) above leftRest rightRest
  rwa [OrderedCode.flatMap_letter, OrderedCode.flatMap_letter]
    at terminated

/-- A smaller index is smaller whatever follows the two delimiters. -/
theorem index_delimited_lt {left right : List Segment}
    (less : left < right) (proper : Proper right)
    (leftRest rightRest : Bytes) :
    encodeSegments left ++ DELIMITER :: leftRest <
      encodeSegments right ++ DELIMITER :: rightRest := by
  apply Segment.code.flatMap_terminated_lt (List.lex_lt.mpr less)
  intro segment member
  rcases Segment.write_head (proper segment member) with
    ⟨first, rest, shape, low, -⟩
  exact ⟨first, rest, shape, UInt8.lt_iff_toNat_lt.mpr low⟩

theorem Step.payload_lt_append {left right : Step}
    (less : Step.PayloadLess left right) (leftRest rightRest : Bytes) :
    left.encode ++ leftRest < right.encode ++ rightRest := by
  match left, right, less with
  | .element (.field left _), .element (.field right valid), less =>
      simp only [Step.encode, Element.pathElement, PathElement.body,
        List.append_assoc, List.singleton_append]
      exact field_delimited_lt less (Field.isValid_iff.mp valid) _ _
  | .element (.index left _ _), .element (.index right _ proper), less =>
      simp only [Step.encode, Element.pathElement, PathElement.body,
        List.append_assoc, List.singleton_append]
      exact index_delimited_lt less proper _ _
  | .tail (.counter left), .tail (.counter right), less =>
      simp only [Step.encode, Terminator.body, List.cons_append]
      exact List.cons_lt_cons_iff.mpr (Or.inr ⟨rfl,
        beBytes_append_lt left.val.toNat_lt right.val.toNat_lt less
          _ _⟩)
  | .tail (.chunked left), .tail (.chunked right), less =>
      simp only [Step.encode, Terminator.body, List.cons_append]
      exact List.cons_lt_cons_iff.mpr (Or.inr ⟨rfl,
        VarInt.code64.lt_append less _ _⟩)

/-- Steps in document order are an ordered code. -/
def Step.code : OrderedCode Step UInt8 where
  encode := Step.encode
  Less := Step.Less
  trichotomy := Step.less_trichotomy
  lt_append {left right} less leftRest rightRest := by
    rcases less with kinds | ⟨-, payloads⟩
    · rcases left.encode_head with
        ⟨leftFirst, leftOthers, leftShape, leftRank⟩
      rcases right.encode_head with
        ⟨rightFirst, rightOthers, rightShape, rightRank⟩
      rw [leftShape, rightShape, List.cons_append, List.cons_append,
        List.cons_lt_cons_iff]
      rw [← leftRank, ← rightRank] at kinds
      exact Or.inl (lt_of_rankOfByte_lt kinds)
    · exact Step.payload_lt_append payloads leftRest rightRest
  encode_ne_nil step := by
    rcases step.encode_head with ⟨first, rest, shape, -⟩
    simp [shape]

/-! ## Complete paths -/

/-- Delimiters in front of elements are delimiters behind them. -/
theorem elementBytes_delimiter (elements : List Element)
    (rest : Bytes) :
    elementBytes (elements.map Element.pathElement) ++
        DELIMITER :: rest =
      DELIMITER ::
        ((elements.map Step.element).flatMap Step.encode ++ rest) := by
  induction elements with
  | nil => rfl
  | cons head tail induction =>
      simp only [List.map_cons, elementBytes_cons, List.cons_append,
        List.append_assoc, induction, List.flatMap_cons, Step.encode,
        List.nil_append]

theorem DocumentPath.write_eq_ok {path : DocumentPath} {bytes : Bytes}
    (written : path.write = .ok bytes) :
    bytes = DELIMITER :: path.steps.flatMap Step.code.encode := by
  rw [(writePath_eq_ok written).2, elementBytes_delimiter]
  simp only [DocumentPath.steps, List.flatMap_append,
    List.flatMap_singleton]
  rfl

/-- A terminator ends the steps of a path. -/
theorem DocumentPath.steps_eq_of_isPrefix {left right : DocumentPath}
    (before : left.steps <+: right.steps) :
    left.steps = right.steps := by
  rcases before with ⟨rest, whole⟩
  rcases List.eq_nil_or_concat rest with rfl | ⟨others, last, rfl⟩
  · rwa [List.append_nil] at whole
  · unfold DocumentPath.steps at whole
    rw [List.concat_eq_append, ← List.append_assoc] at whole
    have elements := (List.append_inj' whole rfl).1
    have member : Step.tail left.terminator ∈
        right.elements.map Step.element := by
      rw [← elements]
      simp
    simp at member

/--
Byte order of complete paths is document order, decided at the first step in
which the paths differ.
-/
theorem DocumentPath.write_lt_iff_firstDifference
    {left right : DocumentPath} {leftBytes rightBytes : Bytes}
    (leftWritten : left.write = .ok leftBytes)
    (rightWritten : right.write = .ok rightBytes) :
    (leftBytes < rightBytes ↔
        FirstDifference Step.Less left.steps right.steps) ∧
      (leftBytes = rightBytes ↔ left.steps = right.steps) := by
  rcases DocumentPath.write_eq_ok leftWritten with rfl
  rcases DocumentPath.write_eq_ok rightWritten with rfl
  have smaller : ∀ {first second : DocumentPath},
      FirstDifference Step.Less first.steps second.steps →
        DELIMITER :: first.steps.flatMap Step.code.encode <
          DELIMITER :: second.steps.flatMap Step.code.encode := by
    intro first second difference
    have words := Step.code.flatMap_append_lt_of_firstDifference
      difference [] []
    rw [List.append_nil, List.append_nil] at words
    exact List.cons_lt_cons_iff.mpr (Or.inr ⟨rfl, words⟩)
  refine ⟨⟨fun less => ?_, smaller⟩, ?_⟩
  · rcases prefix_or_firstDifference Step.less_trichotomy
      left.steps right.steps with before | after | less' | greater
    · rw [DocumentPath.steps_eq_of_isPrefix before] at less
      exact (lt_irrefl _ less).elim
    · rw [DocumentPath.steps_eq_of_isPrefix after] at less
      exact (lt_irrefl _ less).elim
    · exact less'
    · exact (lt_asymm less (smaller greater)).elim
  · constructor
    · intro equal
      exact Step.code.flatMap_injective (List.cons.inj equal).2
    · intro equal
      rw [equal]

/--
The content of the field `a` comes before that of the field `ab`, although
the byte after the common `a` is a delimiter in one path only.
-/
theorem DocumentPath.write_lt_iff_firstDifference_fields :
    ([0, 97, 0, 30] : Bytes) < [0, 97, 98, 0, 30] ∧
      (([0, 97, 0, 30] : Bytes) < [0, 97, 98, 0, 30] ↔
        FirstDifference Step.Less
          (DocumentPath.mk [.field "a" (by decide)] .lww).steps
          (DocumentPath.mk [.field "ab" (by decide)] .lww).steps) := by
  have shorter :
      (DocumentPath.mk [.field "a" (by decide)] .lww).write =
        .ok [0, 97, 0, 30] := by
    decide
  have longer :
      (DocumentPath.mk [.field "ab" (by decide)] .lww).write =
        .ok [0, 97, 98, 0, 30] := by
    decide
  exact ⟨by decide,
    (DocumentPath.write_lt_iff_firstDifference shorter longer).1⟩

/-! ## Subtrees -/

/-- The bytes of the elements of `elements`, when the writer accepts them. -/
def writeSubtree (elements : List Element) : Except PathError Bytes :=
  writeElements (elements.map Element.pathElement)

/-- A list of elements starts the steps of a path and is not all of them. -/
def ProperPrefix (elements : List Element) (path : DocumentPath) : Prop :=
  ∃ rest, rest ≠ [] ∧ elements.map Step.element ++ rest = path.steps

theorem properPrefix_iff {elements : List Element}
    {path : DocumentPath} :
    ProperPrefix elements path ↔
      elements.map Step.element <+: path.steps := by
  constructor
  · rintro ⟨rest, -, whole⟩
    exact ⟨rest, whole⟩
  · rintro ⟨rest, whole⟩
    refine ⟨rest, ?_, whole⟩
    rintro rfl
    have member : Step.tail path.terminator ∈
        elements.map Step.element := by
      rw [← List.append_nil (elements.map Step.element), whole]
      simp [DocumentPath.steps]
    simp at member

/--
The bytes of an element list and a delimiter start a complete path exactly
when the elements are a proper prefix of its steps.
-/
theorem DocumentPath.delimited_prefix_iff {elements : List Element}
    {path : DocumentPath} {node bytes : Bytes}
    (nodeWritten : writeSubtree elements = .ok node)
    (written : path.write = .ok bytes) :
    node ++ [DELIMITER] <+: bytes ↔ ProperPrefix elements path := by
  rcases (writeElements_eq_ok nodeWritten).2 with rfl
  rcases DocumentPath.write_eq_ok written with rfl
  rw [elementBytes_delimiter, List.append_nil, List.cons_prefix_cons,
    properPrefix_iff]
  simp only [true_and]
  exact Step.code.flatMap_prefix_iff

end Cdoc.Path
