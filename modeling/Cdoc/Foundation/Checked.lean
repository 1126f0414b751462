import Cdoc.Foundation.Bytes

/-!
# Computations which may panic

Slicing out of range, overflow of a machine integer and unwrapping an absent
value stop a program.  A `Checked` computation records the first of these
events.  Loops are given an explicit number of rounds; running out of rounds
is a separate outcome, so that termination is a theorem and not a convention.
-/

namespace Cdoc.Foundation

/-- The ways in which a computation stops without a result. -/
inductive Panic where
  | sliceIndex
  | overflow
  | unwrap
  | unfinished
deriving DecidableEq, Repr

/-- A computation which may panic. -/
abbrev Checked := Except Panic

@[simp]
theorem ok_bind {ε α β : Type} (value : α) (next : α → Except ε β) :
    (Except.ok value >>= next) = next value :=
  rfl

@[simp]
theorem error_bind {ε α β : Type} (failure : ε) (next : α → Except ε β) :
    ((Except.error failure : Except ε α) >>= next) = .error failure :=
  rfl

@[simp]
theorem map_ok {ε α β : Type} (function : α → β) (value : α) :
    function <$> (Except.ok value : Except ε α) =
      .ok (function value) :=
  rfl

@[simp]
theorem pure_eq_ok {ε α : Type} (value : α) :
    (pure value : Except ε α) = .ok value :=
  rfl

/-- A successful composite ran its first part successfully. -/
theorem bind_eq_ok_iff {ε α β : Type}
    {first : Except ε α} {next : α → Except ε β} {result : β} :
    (first >>= next) = .ok result ↔
      ∃ value, first = .ok value ∧ next value = .ok result := by
  cases first with
  | error failure => simp
  | ok value => simp

theorem map_eq_ok_iff {ε α β : Type} {function : α → β}
    {first : Except ε α} {result : β} :
    function <$> first = .ok result ↔
      ∃ value, first = .ok value ∧ function value = result := by
  cases first with
  | error failure => simp
  | ok value => simp

/-- The value of a fallible computation which does not panic. -/
def succeeded {ε α : Type} : Checked (Except ε α) → Option α
  | .ok (.ok value) => some value
  | _ => none

theorem succeeded_eq_some_iff {ε α : Type}
    {outcome : Checked (Except ε α)} {value : α} :
    succeeded outcome = some value ↔ outcome = .ok (.ok value) := by
  constructor
  · intro success
    unfold succeeded at success
    split at success
    · rw [Option.some.inj success]
    · cases success
  · rintro rfl
    rfl

/-- The octet at a position. -/
def index (bytes : Bytes) (position : Nat) : Checked UInt8 :=
  match bytes[position]? with
  | some byte => .ok byte
  | none => .error .sliceIndex

/-- The octets from `start` up to but excluding `stop`. -/
def slice (bytes : Bytes) (start stop : Nat) : Checked Bytes :=
  if start ≤ stop ∧ stop ≤ bytes.length then
    .ok ((bytes.take stop).drop start)
  else
    .error .sliceIndex

/-- The octets from `start` on. -/
def sliceFrom (bytes : Bytes) (start : Nat) : Checked Bytes :=
  slice bytes start bytes.length

/-- Addition of 64-bit sizes. -/
def addUsize (left right : Nat) : Checked Nat :=
  if left + right < 2 ^ 64 then .ok (left + right) else .error .overflow

/-- Subtraction of 64-bit sizes. -/
def subUsize (left right : Nat) : Checked Nat :=
  if right ≤ left then .ok (left - right) else .error .overflow

/--
Appending to a vector or to a file, neither of which can hold more bytes
than the largest signed size.
-/
def extendVec (written data : Bytes) : Checked Bytes :=
  if written.length + data.length < 2 ^ 63 then
    .ok (written ++ data)
  else
    .error .overflow

/-- A middle part is read back by its offsets. -/
theorem slice_append_append (before middle after : Bytes) :
    slice (before ++ (middle ++ after)) before.length
        (before.length + middle.length) =
      .ok middle := by
  unfold slice
  rw [if_pos (by simp), ← List.append_assoc,
    List.take_append_of_le_length (by simp),
    List.take_of_length_le (by simp), List.drop_left]

theorem index_at (before : Bytes) (byte : UInt8) (after : Bytes)
    {bytes : Bytes} {position : Nat}
    (shape : bytes = before ++ byte :: after)
    (positions : position = before.length) :
    index bytes position = .ok byte := by
  subst shape positions
  simp [index]

/-- The same with the offsets given by equations. -/
theorem slice_at (before middle after : Bytes) {bytes : Bytes}
    {start stop : Nat} (shape : bytes = before ++ (middle ++ after))
    (starts : start = before.length)
    (stops : stop = start + middle.length) :
    slice bytes start stop = .ok middle := by
  rw [shape, stops, starts, slice_append_append]

theorem slice_of_le {bytes : Bytes} {start stop : Nat}
    (ordered : start ≤ stop) (within : stop ≤ bytes.length) :
    slice bytes start stop = .ok ((bytes.take stop).drop start) := by
  rw [slice, if_pos ⟨ordered, within⟩]

/-- The bytes of a slice which stands between others. -/
theorem drop_take_at (before middle after : Bytes) {bytes : Bytes}
    {start stop : Nat} (shape : bytes = before ++ (middle ++ after))
    (starts : start = before.length)
    (stops : stop = start + middle.length) :
    (bytes.take stop).drop start = middle := by
  have length := congrArg List.length shape
  rw [List.length_append, List.length_append] at length
  have sliced := slice_at before middle after shape starts stops
  rw [slice_of_le (by omega) (by omega)] at sliced
  exact Except.ok.inj sliced

theorem lt_length_of_index {bytes : Bytes} {position : Nat} {byte : UInt8}
    (found : index bytes position = .ok byte) :
    position < bytes.length := by
  by_contra outside
  rw [index, List.getElem?_eq_none (Nat.le_of_not_lt outside)] at found
  cases found

theorem sliceFrom_of_le {bytes : Bytes} {start : Nat}
    (within : start ≤ bytes.length) :
    sliceFrom bytes start = .ok (bytes.drop start) := by
  simp [sliceFrom, slice, within]

@[simp]
theorem sliceFrom_append_length (before after : Bytes) :
    sliceFrom (before ++ after) before.length = .ok after := by
  rw [sliceFrom_of_le (by simp), List.drop_left]

@[simp]
theorem addUsize_of_lt {left right : Nat}
    (fits : left + right < 2 ^ 64) :
    addUsize left right = .ok (left + right) := by
  simp only [addUsize, if_pos fits]

theorem addUsize_eq_ok_iff {left right sum : Nat} :
    addUsize left right = .ok sum ↔
      left + right < 2 ^ 64 ∧ sum = left + right := by
  unfold addUsize
  by_cases fits : left + right < 2 ^ 64
  · rw [if_pos fits, Except.ok.injEq, eq_comm, and_iff_right fits]
  · rw [if_neg fits]
    constructor
    · intro impossible
      cases impossible
    · intro both
      exact absurd both.1 fits

end Cdoc.Foundation
