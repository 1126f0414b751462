import Mathlib.Data.Finset.Max
import Cdoc.Foundation.Combination
import Cdoc.Hlc
import Cdoc.Path.Lseq

/-!
# Last write wins registers

The model of `src/path/lww.rs`.  A register is a byte string which starts
with a header of twelve bytes, a timestamp and a peer identifier, both
big-endian.  Merging keeps one of two registers as a whole: the left one
when its header is greater, and the right one otherwise.

Headers are ordered as their bytes are.  Registers which are told apart by
their headers are therefore merged to the same register in every order, with
every grouping and with every repetition.
-/

namespace Cdoc.Path

open Cdoc.Foundation

/-- The error which a failed cast is turned into. -/
inductive MergeError where
  | zeroCopy
deriving DecidableEq, Repr

/-- The time of a write and the peer which made it. -/
structure LWWHeader where
  timestamp : Timestamp
  pid : PID
deriving DecidableEq, Repr

namespace LWWHeader

/-- The size of a header in bytes. -/
def SIZE : Nat := 12

/-- The derived order: by timestamp, then by peer. -/
def key (header : LWWHeader) : Nat ×ₗ Nat :=
  toLex (header.timestamp.val.toNat, header.pid.val.toNat)

theorem key_injective : Function.Injective key := by
  rintro ⟨⟨leftTime⟩, ⟨leftPid⟩⟩ ⟨⟨rightTime⟩, ⟨rightPid⟩⟩ equal
  have parts := Prod.ext_iff.mp (toLex.injective equal)
  simp only [UInt64.toNat_inj, UInt32.toNat_inj] at parts
  rw [parts.1, parts.2]

instance : LinearOrder LWWHeader :=
  LinearOrder.lift' key key_injective

/-- A header as it lies in memory; every byte pattern is one. -/
def readFromBytes (bytes : Bytes) : LWWHeader where
  timestamp := ⟨UInt64.ofNat (ofBeBytes (bytes.take 8))⟩
  pid := ⟨UInt32.ofNat (ofBeBytes ((bytes.drop 8).take 4))⟩

/-- The header in front of some bytes, and what is behind it. -/
def refFromPrefix (bytes : Bytes) :
    Except MergeError (LWWHeader × Bytes) :=
  if bytes.length < SIZE then
    .error .zeroCopy
  else
    .ok (readFromBytes bytes, bytes.drop SIZE)

/--
`merge`: the entry with the later header, the right one if both are equal.
-/
def merge (left right : Bytes) : Except MergeError Bytes := do
  let (leftHeader, _) ← refFromPrefix left
  let (rightHeader, _) ← refFromPrefix right
  if rightHeader < leftHeader then
    return left
  else
    return right

/-! ## Headers and bytes -/

theorem lt_iff {left right : LWWHeader} :
    left < right ↔
      left.timestamp.val.toNat < right.timestamp.val.toNat ∨
        left.timestamp.val.toNat = right.timestamp.val.toNat ∧
          left.pid.val.toNat < right.pid.val.toNat := by
  change key left < key right ↔ _
  rw [Prod.Lex.lt_iff]
  rfl

/-- The bytes of a header as one number. -/
theorem ofBeBytes_take {bytes : Bytes} (long : SIZE ≤ bytes.length) :
    ofBeBytes (bytes.take SIZE) =
      (readFromBytes bytes).timestamp.val.toNat * 256 ^ 4 +
        (readFromBytes bytes).pid.val.toNat := by
  have enough : 12 ≤ bytes.length := long
  have split : bytes.take SIZE =
      bytes.take 8 ++ (bytes.drop 8).take 4 := by
    rw [← List.take_add]
    rfl
  have timeLength : (bytes.take 8).length = 8 := by
    rw [List.length_take]
    omega
  have pidLength : ((bytes.drop 8).take 4).length = 4 := by
    rw [List.length_take, List.length_drop]
    omega
  have timeFits : ofBeBytes (bytes.take 8) < 2 ^ 64 := by
    have bound := ofBeBytes_lt (bytes.take 8)
    rw [timeLength] at bound
    exact bound
  have pidFits : ofBeBytes ((bytes.drop 8).take 4) < 2 ^ 32 := by
    have bound := ofBeBytes_lt ((bytes.drop 8).take 4)
    rw [pidLength] at bound
    exact bound
  rw [split, ofBeBytes_append, pidLength]
  show _ = (UInt64.ofNat _).toNat * 256 ^ 4 + (UInt32.ofNat _).toNat
  rw [UInt64.toNat_ofNat', UInt32.toNat_ofNat',
    Nat.mod_eq_of_lt timeFits, Nat.mod_eq_of_lt pidFits]

/-- The order of headers is the order of their bytes. -/
theorem readFromBytes_lt_iff {left right : Bytes}
    (leftLong : SIZE ≤ left.length) (rightLong : SIZE ≤ right.length) :
    readFromBytes left < readFromBytes right ↔
      left.take SIZE < right.take SIZE := by
  have same : (left.take SIZE).length = (right.take SIZE).length := by
    rw [List.length_take, List.length_take, Nat.min_eq_left leftLong,
      Nat.min_eq_left rightLong]
  have pidFits (bytes : Bytes) :
      (readFromBytes bytes).pid.val.toNat < 256 ^ 4 :=
    (readFromBytes bytes).pid.val.toNat_lt
  rw [lt_iff_ofBeBytes_lt same, ofBeBytes_take leftLong,
    ofBeBytes_take rightLong, twoDigits_lt_iff (pidFits left)
    (pidFits right), lt_iff]

/-! ## Merging -/

theorem merge_of_long {left right : Bytes}
    (leftLong : SIZE ≤ left.length) (rightLong : SIZE ≤ right.length) :
    merge left right =
      .ok (if right.take SIZE < left.take SIZE then left else right) := by
  have first : refFromPrefix left =
      .ok (readFromBytes left, left.drop SIZE) :=
    if_neg (Nat.not_lt.mpr leftLong)
  have second : refFromPrefix right =
      .ok (readFromBytes right, right.drop SIZE) :=
    if_neg (Nat.not_lt.mpr rightLong)
  simp only [merge, first, second, ok_bind,
    readFromBytes_lt_iff rightLong leftLong]
  split
  · rfl
  · rfl

/-- A merge fails exactly when a register has no header. -/
theorem merge_eq_error_iff {left right : Bytes} :
    merge left right = .error .zeroCopy ↔
      left.length < SIZE ∨ right.length < SIZE := by
  by_cases leftShort : left.length < SIZE
  · have first : refFromPrefix left = .error .zeroCopy :=
      if_pos leftShort
    simp [merge, first, leftShort]
  · by_cases rightShort : right.length < SIZE
    · have first : refFromPrefix left =
          .ok (readFromBytes left, left.drop SIZE) :=
        if_neg leftShort
      have second : refFromPrefix right = .error .zeroCopy :=
        if_pos rightShort
      simp [merge, first, second, rightShort]
    · rw [merge_of_long (Nat.le_of_not_lt leftShort)
        (Nat.le_of_not_lt rightShort)]
      simp [leftShort, rightShort]

theorem merge_keepsGreater :
    Combination.KeepsGreater (fun register : Bytes => register.take SIZE)
      (fun register => SIZE ≤ register.length) merge := by
  intro left right leftLong rightLong
  refine ⟨_, merge_of_long leftLong rightLong, ?_⟩
  split
  · rename_i less
    exact ⟨Or.inl rfl, le_refl _, less.le⟩
  · rename_i notLess
    exact ⟨Or.inr rfl, not_lt.mp notLess, le_refl _⟩

/--
All combinations of a collection give the register with the greatest header.
-/
theorem mergeAll_registers {registers : List Bytes}
    (nonempty : registers ≠ [])
    (long : ∀ register ∈ registers, SIZE ≤ register.length)
    (tagged : ∀ left ∈ registers, ∀ right ∈ registers,
      left.take SIZE = right.take SIZE → left = right) :
    (∃ greatest ∈ registers,
      (∀ register ∈ registers,
        register.take SIZE ≤ greatest.take SIZE) ∧
      ∀ order : Combination Bytes,
        (∀ register, register ∈ order.values ↔ register ∈ registers) →
          order.mergeAll merge = .ok greatest) ∧
    ∀ left right, (∃ failure, merge left right = .error failure) ↔
      left.length < SIZE ∨ right.length < SIZE := by
  constructor
  · rcases Finset.exists_max_image registers.toFinset
        (fun register => register.take SIZE)
        (List.toFinset_nonempty_iff registers |>.mpr nonempty) with
      ⟨greatest, inside, greater⟩
    simp only [List.mem_toFinset] at inside greater
    exact ⟨greatest, inside, greater, fun order same =>
      Combination.mergeAll_converges merge_keepsGreater long tagged
        inside greater same⟩
  · intro left right
    rw [← merge_eq_error_iff]
    constructor
    · rintro ⟨⟨⟩, failed⟩
      exact failed
    · intro failed
      exact ⟨_, failed⟩

/-- Two registers, one of them seen twice, in both orders. -/
theorem mergeAll_registers_repeated :
    ∃ greatest : Bytes,
      Combination.mergeAll merge (.combine
        (.single [0, 0, 0, 0, 0, 0, 0, 9, 0, 0, 0, 2, 5])
        (.combine (.single [0, 0, 0, 0, 0, 0, 0, 9, 0, 0, 0, 1, 7])
          (.single [0, 0, 0, 0, 0, 0, 0, 9, 0, 0, 0, 2, 5]))) =
        .ok greatest ∧
      Combination.mergeAll merge (.combine
        (.single [0, 0, 0, 0, 0, 0, 0, 9, 0, 0, 0, 1, 7])
        (.single [0, 0, 0, 0, 0, 0, 0, 9, 0, 0, 0, 2, 5])) =
        .ok greatest := by
  have registers := mergeAll_registers
    (show [([0, 0, 0, 0, 0, 0, 0, 9, 0, 0, 0, 1, 7] : Bytes),
      [0, 0, 0, 0, 0, 0, 0, 9, 0, 0, 0, 2, 5]] ≠ [] by simp)
    (by decide) (by decide)
  rcases registers.1 with ⟨greatest, -, -, converges⟩
  refine ⟨greatest, converges _ ?_, converges _ ?_⟩
  · intro register
    simp only [Combination.values, List.mem_append, List.mem_cons,
      List.not_mem_nil, or_false]
    constructor
    · rintro (rfl | rfl | rfl)
      · exact Or.inr rfl
      · exact Or.inl rfl
      · exact Or.inr rfl
    · rintro (rfl | rfl)
      · exact Or.inr (Or.inl rfl)
      · exact Or.inl rfl
  · intro register
    simp [Combination.values]

end LWWHeader

end Cdoc.Path
