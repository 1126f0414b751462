import Cdoc.Leaves
import Cdoc.Query.Macro
import Cdoc.Siblings

/-!
# The mutation macro

`mutation!` builds a mutation out of tokens while a program is compiled.  Its
rules are functions here, as those of `query!` are.  The value of an entry is
an expression, of which there are literals and variables, and its key is a
literal or a variable.

The macro composes mutations at the top only.  Nothing is lost by this: a
mutation can be flattened, and no callback can tell the flat one from it.
-/

namespace Cdoc.Mutation

open Cdoc.Foundation
open Cdoc.Path

/-! ## Flattening -/

section Flattening

variable {Value : Type}

mutual

/-- What a mutation is composed of. -/
def parts : Mutation Value → List (Mutation Value)
  | .apply segment op => [.apply segment op]
  | .nested segment mutations => [.nested segment (partsAll mutations)]
  | .compose mutations => partsAll mutations

/-- The parts of mutations in order. -/
def partsAll : List (Mutation Value) → List (Mutation Value)
  | [] => []
  | mutation :: mutations => parts mutation ++ partsAll mutations

end

/-- The same mutation with one composition, at the top. -/
def flattened (self : Mutation Value) : Mutation Value :=
  .compose self.parts

theorem partsAll_append (first others : List (Mutation Value)) :
    partsAll (first ++ others) = partsAll first ++ partsAll others := by
  induction first with
  | nil => rfl
  | cons head tail induction =>
      rw [List.cons_append, partsAll, partsAll, induction, List.append_assoc]

theorem segmentsAll_append (first others : List (Mutation Value)) :
    segmentsAll (first ++ others) =
      segmentsAll first ++ segmentsAll others := by
  induction first with
  | nil => rfl
  | cons head tail induction =>
      rw [List.cons_append, segmentsAll, segmentsAll, induction,
        List.append_assoc]

theorem valuesAll_append (first others : List (Mutation Value)) :
    valuesAll (first ++ others) = valuesAll first ++ valuesAll others := by
  induction first with
  | nil => rfl
  | cons head tail induction =>
      rw [List.cons_append, valuesAll, valuesAll, induction,
        List.append_assoc]

mutual

theorem partsAll_parts : ∀ mutation : Mutation Value,
    partsAll (parts mutation) = parts mutation
  | .apply segment op => rfl
  | .nested segment mutations => by
      simp only [parts, partsAll, partsAll_partsAll mutations,
        List.append_nil]
  | .compose mutations => partsAll_partsAll mutations

theorem partsAll_partsAll : ∀ mutations : List (Mutation Value),
    partsAll (partsAll mutations) = partsAll mutations
  | [] => rfl
  | mutation :: mutations => by
      rw [partsAll, partsAll_append, partsAll_parts mutation,
        partsAll_partsAll mutations]

end

mutual

theorem segmentsAll_parts : ∀ mutation : Mutation Value,
    segmentsAll (parts mutation) = segments mutation
  | .apply segment op => rfl
  | .nested segment mutations => by
      simp only [parts, segmentsAll, segments,
        segmentsAll_partsAll mutations, List.append_nil]
  | .compose mutations => segmentsAll_partsAll mutations

theorem segmentsAll_partsAll : ∀ mutations : List (Mutation Value),
    segmentsAll (partsAll mutations) = segmentsAll mutations
  | [] => rfl
  | mutation :: mutations => by
      rw [partsAll, segmentsAll_append, segmentsAll_parts mutation,
        segmentsAll_partsAll mutations, segmentsAll]

end

mutual

theorem valuesAll_parts : ∀ mutation : Mutation Value,
    valuesAll (parts mutation) = values mutation
  | .apply segment (.assign value) => rfl
  | .apply segment .delete => rfl
  | .nested segment mutations => by
      simp only [parts, valuesAll, values, valuesAll_partsAll mutations,
        List.append_nil]
  | .compose mutations => valuesAll_partsAll mutations

theorem valuesAll_partsAll : ∀ mutations : List (Mutation Value),
    valuesAll (partsAll mutations) = valuesAll mutations
  | [] => rfl
  | mutation :: mutations => by
      rw [partsAll, valuesAll_append, valuesAll_parts mutation,
        valuesAll_partsAll mutations, valuesAll]

end

end Flattening

/-! ## The walk through a flat mutation -/

section Walk

variable {Value ε σ : Type} (intoWriter : Value → Except ε Bytes)
variable (f : Bytes → Bytes → Descent (Error ε) σ Unit)

theorem forEachAll_append (first others : List (Mutation Value))
    (trunc : Nat) (w : PathWriter) :
    forEachAll intoWriter f (first ++ others) trunc w =
      (do
        let w ← forEachAll intoWriter f first trunc w
        forEachAll intoWriter f others trunc w) := by
  induction first generalizing w with
  | nil => simp only [List.nil_append, forEachAll, pure_bind]
  | cons head tail induction =>
      simp only [List.cons_append, forEachAll, bind_assoc, induction]

mutual

/-- The parts of a child do what the child does, and cut the buffer back. -/
theorem forEachAll_parts :
    ∀ (mutation : Mutation Value) (above : List Segment) (w : PathWriter),
      Holds above w →
      forEachAll intoWriter f (parts mutation) w.writer.length w =
        (do
          let out ← forEachInternal intoWriter f mutation w
          return out.truncate w.writer.length)
  | .apply segment op, above, w, holds => by
      simp only [parts, forEachAll]
  | .nested segment mutations, above, w, holds => by
      have written : Ensures (orPath (segment.write w) :
          Descent (Error ε) σ PathWriter) (Holds (above ++ [segment])) :=
        ensures_orPath fun _ accepted => holds.write accepted
      have same : forEachInternal intoWriter f
          (.nested segment (partsAll mutations)) w =
          forEachInternal intoWriter f (.nested segment mutations) w := by
        simp only [forEachInternal]
        exact written.bind_congr fun out extended =>
          forEachAll_partsAll mutations _ out extended
      simp only [parts, forEachAll, same]
  | .compose mutations, above, w, holds => by
      have restored := (delegates_forEachAll intoWriter f mutations above w
        holds).ensures
      rw [parts, forEachAll_partsAll mutations above w holds,
        forEachInternal, ← bind_pure (forEachAll _ _ _ _ _), bind_assoc]
      refine restored.bind_congr fun out same => ?_
      rw [pure_bind, PathWriter.truncate, holds.buffer, ← same.buffer,
        List.take_length]

/-- Between children the buffer is that of the node. -/
theorem forEachAll_partsAll :
    ∀ (mutations : List (Mutation Value)) (above : List Segment)
      (w : PathWriter), Holds above w →
      forEachAll intoWriter f (partsAll mutations) w.writer.length w =
        forEachAll intoWriter f mutations w.writer.length w
  | [], above, w, holds => rfl
  | mutation :: mutations, above, w, holds => by
      rw [partsAll, forEachAll_append,
        forEachAll_parts mutation above w holds, bind_assoc, forEachAll]
      refine (delegates_forEachInternal intoWriter f mutation above w
        holds).ensures.bind_congr ?_
      rintro out ⟨below, extended⟩
      have restored := holds.truncate extended
      have same : w.writer.length =
          (out.truncate w.writer.length).writer.length := by
        rw [restored.buffer, holds.buffer]
      rw [pure_bind]
      have others := forEachAll_partsAll mutations above
        (out.truncate w.writer.length) restored
      rwa [← same] at others

end

end Walk

/-! ## Rules -/

namespace Macro

open Query.Macro (Tokens)

/--
What the variables of a program are worth as segments and as values, and the
values of its literals.
-/
structure Scope (Value : Type) where
  segment : String → Option Segment
  value : String → Option Value
  text : String → Value
  integer : Nat → Value

section Rules

variable {Value : Type} (scope : Scope Value)

/-- `Op::from($val)`, and what stands behind it.  A number is an `i32`. -/
def operand : Tokens → Option (Value × Tokens)
  | .ident name rest => (scope.value name).map fun value => (value, rest)
  | .string text rest => some (scope.text text, rest)
  | .number count rest =>
      if count.toNat < 2 ^ 31 then some (scope.integer count.toNat, rest)
      else none
  | _ => none

variable {scope} in
theorem sizeOf_operand {tokens rest : Tokens} {value : Value}
    (taken : operand scope tokens = some (value, rest)) :
    sizeOf rest < sizeOf tokens := by
  cases tokens with
  | ident name after =>
      obtain ⟨_, -, same⟩ := Option.map_eq_some_iff.mp taken
      cases same
      simp
  | string text after =>
      cases taken
      simp
  | number count after =>
      rw [operand] at taken
      split_ifs at taken
      cases taken
      simp
  | nil | comma | colon | atSign | paren | brace => cases taken

mutual

/-- `@__entries`. -/
def entries (acc : List (Mutation Value)) (tokens : Tokens) :
    Option (List (Mutation Value)) :=
  match tokens with
  | .nil => some acc
  | .ident name (.colon body) =>
      match scope.segment name with
      | some segment => entry acc segment body
      | none => none
  | .string name (.colon body) => entry acc (.field name) body
  | _ => none
termination_by (sizeOf tokens, 0)

/-- What stands behind a key and its colon. -/
def entry (acc : List (Mutation Value)) (segment : Segment)
    (tokens : Tokens) : Option (List (Mutation Value)) :=
  match tokens with
  | .brace inside rest =>
      match entries [] inside with
      | some mutations => next (acc ++ [.nested segment mutations]) rest
      | none => none
  | .atSign (.ident directive rest) =>
      if directive = "delete" then
        next (acc ++ [.apply segment .delete]) rest
      else none
  | tokens =>
      match _taken : operand scope tokens with
      | some (value, rest) =>
          next (acc ++ [.apply segment (.assign value)]) rest
      | none => none
termination_by (sizeOf tokens, 2)
decreasing_by
  · exact .left _ _ (by simp; omega)
  · exact .left _ _ (by simp)
  · exact .left _ _ (by simp; omega)
  · exact .left _ _ (sizeOf_operand _taken)

/-- More entries behind a comma, or the end. -/
def next (acc : List (Mutation Value)) (tokens : Tokens) :
    Option (List (Mutation Value)) :=
  match tokens with
  | .comma rest => entries acc rest
  | .nil => entries acc .nil
  | _ => none
termination_by (sizeOf tokens, 1)

end

/-- `mutation!`. -/
def mutation : Tokens → Option (Mutation Value)
  | .brace body .nil => (entries scope [] body).map .compose
  | _ => none

end Rules

/-! ## What can be written -/

section Image

variable {Value : Type} {scope : Scope Value}

/-- A segment which a key of the program stands for. -/
def Scope.Addresses (scope : Scope Value) : Segment → Prop
  | .field _ => True
  | segment => ∃ name, scope.segment name = some segment

/-- A value which an expression of the program stands for. -/
def Scope.Denotes (scope : Scope Value) (value : Value) : Prop :=
  (∃ name, scope.value name = some value) ∨
    (∃ text, scope.text text = value) ∨
    ∃ count < 2 ^ 31, scope.integer count = value

/-- All which the mutations are made of can be written in the program. -/
structure Scope.Knows (scope : Scope Value)
    (segments : List Segment) (values : List Value) : Prop where
  segments : ∀ segment ∈ segments, scope.Addresses segment
  values : ∀ value ∈ values, scope.Denotes value

theorem Scope.Knows.append {segments others : List Segment}
    {values more : List Value} (first : scope.Knows segments values)
    (second : scope.Knows others more) :
    scope.Knows (segments ++ others) (values ++ more) where
  segments := List.forall_mem_append.mpr ⟨first.segments, second.segments⟩
  values := List.forall_mem_append.mpr ⟨first.values, second.values⟩

theorem knows_append_iff {segments others : List Segment}
    {values more : List Value} :
    scope.Knows (segments ++ others) (values ++ more) ↔
      scope.Knows segments values ∧ scope.Knows others more := by
  constructor
  · rintro ⟨segmentsKnown, valuesKnown⟩
    rw [List.forall_mem_append] at segmentsKnown valuesKnown
    exact ⟨⟨segmentsKnown.1, valuesKnown.1⟩,
      ⟨segmentsKnown.2, valuesKnown.2⟩⟩
  · rintro ⟨first, second⟩
    exact first.append second

/-- One entry, with the tokens of its block if it has one. -/
def Entered (scope : Scope Value) (size : Nat) : Mutation Value → Prop
  | .apply segment op =>
      scope.Knows (segments (.apply segment op)) (values (.apply segment op))
  | .nested segment mutations => scope.Addresses segment ∧
      ∃ inside : Tokens, sizeOf inside < size ∧
        entries scope [] inside = some mutations
  | .compose _ => False

theorem Entered.mono {size larger : Nat} {mutation : Mutation Value}
    (entered : Entered scope size mutation) (longer : size ≤ larger) :
    Entered scope larger mutation := by
  cases mutation with
  | apply segment op => exact entered
  | nested segment mutations =>
      obtain ⟨addressed, inside, shorter, within⟩ := entered
      exact ⟨addressed, inside, Nat.lt_of_lt_of_le shorter longer, within⟩
  | compose mutations => exact entered

theorem exists_key {segment : Segment}
    (addressed : scope.Addresses segment) (body : Tokens) :
    ∃ tokens, ∀ acc,
      entries scope acc tokens = entry scope acc segment body := by
  cases segment with
  | field name => exact ⟨.string name (.colon body), by simp [entries]⟩
  | fractionalIndex bytes =>
      obtain ⟨name, known⟩ := addressed
      exact ⟨.ident name (.colon body), by simp [entries, known]⟩

theorem entry_of_operand {tokens rest : Tokens} {value : Value}
    (taken : operand scope tokens = some (value, rest))
    (acc : List (Mutation Value)) (segment : Segment) :
    entry scope acc segment tokens =
      next scope (acc ++ [.apply segment (.assign value)]) rest := by
  rw [entry.eq_def]
  split
  · cases taken
  · cases taken
  · split
    · rename_i found
      rw [taken] at found
      cases found
      rfl
    · rename_i missing
      rw [taken] at missing
      cases missing

theorem exists_operand {value : Value} (denoted : scope.Denotes value)
    (rest : Tokens) :
    ∃ tokens, ∀ acc segment, entry scope acc segment tokens =
      next scope (acc ++ [.apply segment (.assign value)]) rest := by
  rcases denoted with ⟨name, known⟩ | ⟨text, rfl⟩ | ⟨count, small, rfl⟩
  · exact ⟨.ident name rest, entry_of_operand (by rw [operand, known]; rfl)⟩
  · exact ⟨.string text rest, entry_of_operand rfl⟩
  · have size : (UInt64.ofNat count).toNat = count := by
      rw [UInt64.toNat_ofNat']
      exact Nat.mod_eq_of_lt (small.trans (by decide))
    refine ⟨.number (UInt64.ofNat count) rest, entry_of_operand ?_⟩
    rw [operand, size, if_pos small]

mutual

/-- The entries of a mutation in front of others. -/
theorem exists_entries : ∀ mutation : Mutation Value,
    scope.Knows (segments mutation) (values mutation) →
    ∀ (rest : Tokens) (tail : List (Mutation Value)),
      (∀ acc, entries scope acc rest = some (acc ++ tail)) →
      ∃ tokens, ∀ acc, entries scope acc tokens =
        some (acc ++ (parts mutation ++ tail))
  | .apply segment .delete, known, rest, tail, written => by
      obtain ⟨tokens, keyed⟩ := exists_key
        (known.segments segment List.mem_cons_self)
        (.atSign (.ident "delete" (.comma rest)))
      refine ⟨tokens, fun acc => ?_⟩
      rw [keyed, entry, if_pos rfl, next, written, parts,
        List.append_assoc]
  | .apply segment (.assign value), known, rest, tail, written => by
      obtain ⟨operands, denoting⟩ := exists_operand
        (known.values value List.mem_cons_self) (.comma rest)
      obtain ⟨tokens, keyed⟩ := exists_key
        (known.segments segment List.mem_cons_self) operands
      refine ⟨tokens, fun acc => ?_⟩
      rw [keyed, denoting, next, written, parts, List.append_assoc]
  | .nested segment mutations, known, rest, tail, written => by
      obtain ⟨addressed, below⟩ := List.forall_mem_cons.mp known.segments
      obtain ⟨inside, within⟩ := exists_entriesAll mutations
        ⟨below, known.values⟩ .nil []
        (fun acc => by rw [entries, List.append_nil])
      obtain ⟨tokens, keyed⟩ := exists_key addressed
        (.brace inside (.comma rest))
      refine ⟨tokens, fun acc => ?_⟩
      rw [keyed, entry, within, List.nil_append, List.append_nil]
      dsimp only
      rw [next, written, parts, List.append_assoc]
  | .compose mutations, known, rest, tail, written =>
      exists_entriesAll mutations known rest tail written

theorem exists_entriesAll : ∀ mutations : List (Mutation Value),
    scope.Knows (segmentsAll mutations) (valuesAll mutations) →
    ∀ (rest : Tokens) (tail : List (Mutation Value)),
      (∀ acc, entries scope acc rest = some (acc ++ tail)) →
      ∃ tokens, ∀ acc, entries scope acc tokens =
        some (acc ++ (partsAll mutations ++ tail))
  | [], known, rest, tail, written => ⟨rest, written⟩
  | mutation :: mutations, known, rest, tail, written => by
      obtain ⟨here, later⟩ := knows_append_iff.mp known
      obtain ⟨others, writtenLater⟩ :=
        exists_entriesAll mutations later rest tail written
      obtain ⟨tokens, writtenHere⟩ :=
        exists_entries mutation here others _ writtenLater
      refine ⟨tokens, fun acc => ?_⟩
      rw [writtenHere, partsAll, List.append_assoc]

end

end Image

end Macro

end Cdoc.Mutation
