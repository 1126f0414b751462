import Cdoc.Sst.Read

/-!
# The entries of an index

An entry of the index is a key length, the key, two timestamps and an offset.
Opening a table reads entries one after the other as long as they are whole,
in a file of any contents.
-/

namespace Cdoc.Sst

open Cdoc.Foundation

/-! ## Whole entries -/

/-- The key length at a position of the index. -/
def keyLenAt (mmap : Bytes) (pos : Nat) : Nat :=
  ofLeBytes ((mmap.drop pos).take 2)

/-- The end of the key at a position of the index. -/
def keyEndAt (mmap : Bytes) (pos : Nat) : Nat :=
  pos + 2 + keyLenAt mmap pos

/-- The end of the entry at a position of the index. -/
def entryEndAt (mmap : Bytes) (pos : Nat) : Nat :=
  keyEndAt mmap pos + 16 + 8

/-- The key and the offset at a position of the index. -/
def entryAt (mmap : Bytes) (pos : Nat) : Bytes × Nat :=
  ((mmap.take (keyEndAt mmap pos)).drop (pos + 2),
    ofLeBytes ((mmap.take (entryEndAt mmap pos)).drop
      (keyEndAt mmap pos + 16)))

/-- An entry starts before the end of the index and ends in the file. -/
def WholeAt (mmap : Bytes) (idxEnd pos : Nat) : Prop :=
  pos + 2 ≤ idxEnd ∧ entryEndAt mmap pos ≤ mmap.length

/-- Whole entries from one position to another. -/
inductive WholeEntries (mmap : Bytes) (idxEnd : Nat) :
    Nat → List (Bytes × Nat) → Nat → Prop
  | nil (pos : Nat) : WholeEntries mmap idxEnd pos [] pos
  | cons {pos stop : Nat} {entries : List (Bytes × Nat)}
      (whole : WholeAt mmap idxEnd pos)
      (others : WholeEntries mmap idxEnd (entryEndAt mmap pos) entries
        stop) :
      WholeEntries mmap idxEnd pos (entryAt mmap pos :: entries) stop

theorem WholeEntries.length_le {mmap : Bytes} {idxEnd pos stop : Nat}
    {entries : List (Bytes × Nat)}
    (entriesWhole : WholeEntries mmap idxEnd pos entries stop) :
    entries.length ≤ idxEnd - pos := by
  induction entriesWhole with
  | nil pos => exact Nat.zero_le _
  | cons whole others induction =>
      obtain ⟨starts, -⟩ := whole
      rw [entryEndAt, keyEndAt] at induction
      rw [List.length_cons]
      omega

/-- The whole entries end somewhere. -/
theorem exists_wholeEntries (mmap : Bytes) (idxEnd pos : Nat) :
    ∃ entries stop, WholeEntries mmap idxEnd pos entries stop ∧
      ¬ WholeAt mmap idxEnd stop := by
  induction distance : idxEnd - pos using Nat.strong_induction_on
    generalizing pos with
  | _ size induction =>
      by_cases whole : WholeAt mmap idxEnd pos
      · have starts := whole.1
        have later : pos + 26 ≤ entryEndAt mmap pos := by
          rw [entryEndAt, keyEndAt]
          omega
        obtain ⟨entries, stop, others, ends⟩ := induction
          (idxEnd - entryEndAt mmap pos) (by omega)
          (entryEndAt mmap pos) rfl
        exact ⟨_, stop, WholeEntries.cons whole others, ends⟩
      · exact ⟨[], pos, WholeEntries.nil pos, whole⟩

/-! ## Reading entries -/

theorem keyLenAt_lt (mmap : Bytes) (pos : Nat) :
    keyLenAt mmap pos < 65536 := by
  have short : ((mmap.drop pos).take 2).length ≤ 2 := by
    rw [List.length_take]
    omega
  exact (ofLeBytes_lt _).trans_le (Nat.pow_le_pow_right (by decide) short)

section Reading

variable {mmap : Bytes} {idxEnd pos : Nat}

/-- The two bytes of a key length inside the file. -/
theorem exists_keyLenAt (within : pos + 2 ≤ mmap.length) :
    ∃ low high, index mmap pos = .ok low ∧
      index mmap (pos + 1) = .ok high ∧
      ofLeBytes [low, high] = keyLenAt mmap pos := by
  have split := (List.take_append_drop pos mmap).symm
  have length : (mmap.take pos).length = pos := by
    rw [List.length_take]
    omega
  match shape : mmap.drop pos with
  | [] =>
      have none := congrArg List.length shape
      rw [List.length_drop, List.length_nil] at none
      omega
  | [_] =>
      have single := congrArg List.length shape
      rw [List.length_drop, List.length_singleton] at single
      omega
  | low :: high :: rest =>
      rw [shape] at split
      refine ⟨low, high, index_at _ low (high :: rest) split length.symm,
        index_at (mmap.take pos ++ [low]) high rest ?_ ?_, ?_⟩
      · rw [List.append_assoc]
        exact split
      · rw [List.length_append, length, List.length_singleton]
      · rw [keyLenAt, shape]
        rfl

namespace SSTableReader

/-- One round of the loop of `open` on a whole entry. -/
theorem parseIndex_whole (mapped : mmap.length < 2 ^ 63)
    (whole : WholeAt mmap idxEnd pos) (rounds : Nat)
    (blockIndex : List (Bytes × Nat)) :
    parseIndex mmap idxEnd (rounds + 1) pos blockIndex =
      parseIndex mmap idxEnd rounds (entryEndAt mmap pos)
        (blockIndex ++ [entryAt mmap pos]) := by
  obtain ⟨starts, ends⟩ := whole
  rw [entryEndAt, keyEndAt] at ends
  obtain ⟨low, high, readLow, readHigh, keyLen⟩ :=
    exists_keyLenAt (show pos + 2 ≤ mmap.length by omega)
  have sliceKey := slice_of_le
    (show pos + 2 ≤ pos + 2 + keyLenAt mmap pos by omega)
    (show pos + 2 + keyLenAt mmap pos ≤ mmap.length by omega)
  have sliceOffset := slice_of_le
    (show pos + 2 + keyLenAt mmap pos + 16 ≤
      pos + 2 + keyLenAt mmap pos + 16 + 8 by omega) ends
  rw [parseIndex]
  simp only [if_neg (show ¬ idxEnd ≤ pos by omega),
    addUsize_of_lt (show pos + 2 < 2 ^ 64 by omega), ok_bind,
    if_neg (show ¬ idxEnd < pos + 2 by omega), readLow, readHigh, keyLen,
    addUsize_of_lt (show pos + 2 + keyLenAt mmap pos < 2 ^ 64 by omega),
    addUsize_of_lt
      (show pos + 2 + keyLenAt mmap pos + 16 < 2 ^ 64 by omega),
    addUsize_of_lt
      (show pos + 2 + keyLenAt mmap pos + 16 + 8 < 2 ^ 64 by omega),
    if_neg (Nat.not_lt.mpr ends), sliceKey, sliceOffset]
  rfl

theorem parseIndex_wholeEntries (mapped : mmap.length < 2 ^ 63)
    {stop : Nat} {entries : List (Bytes × Nat)}
    (whole : WholeEntries mmap idxEnd pos entries stop) (rounds : Nat)
    (blockIndex : List (Bytes × Nat)) :
    parseIndex mmap idxEnd (entries.length + rounds) pos blockIndex =
      parseIndex mmap idxEnd rounds stop (blockIndex ++ entries) := by
  induction whole generalizing blockIndex with
  | nil pos => rw [List.length_nil, Nat.zero_add, List.append_nil]
  | cons whole others induction =>
      rw [List.length_cons, Nat.add_right_comm,
        parseIndex_whole mapped whole, induction, List.append_assoc,
        List.singleton_append]

/-- The loop ends with the whole entries if the next length is readable. -/
theorem parseIndex_stop (mapped : mmap.length < 2 ^ 63)
    (small : idxEnd + 4 < 2 ^ 64) (ends : ¬ WholeAt mmap idxEnd pos)
    (readable : pos + 2 ≤ idxEnd → pos + 2 ≤ mmap.length) (rounds : Nat)
    (blockIndex : List (Bytes × Nat)) :
    parseIndex mmap idxEnd (rounds + 1) pos blockIndex =
      .ok blockIndex := by
  rw [parseIndex]
  by_cases behind : idxEnd ≤ pos
  · rw [if_pos behind]
  rw [if_neg behind, addUsize_of_lt (by omega), ok_bind]
  by_cases cut : idxEnd < pos + 2
  · rw [if_pos cut, pure_eq_ok]
  have within := readable (Nat.le_of_not_lt cut)
  have short := keyLenAt_lt mmap pos
  have missing : mmap.length < pos + 2 + keyLenAt mmap pos + 16 + 8 := by
    by_contra whole
    exact ends ⟨Nat.le_of_not_lt cut, Nat.le_of_not_lt whole⟩
  obtain ⟨low, high, readLow, readHigh, keyLen⟩ := exists_keyLenAt within
  simp only [if_neg cut, readLow, readHigh, keyLen, ok_bind,
    addUsize_of_lt (show pos + 2 + keyLenAt mmap pos < 2 ^ 64 by omega),
    addUsize_of_lt
      (show pos + 2 + keyLenAt mmap pos + 16 < 2 ^ 64 by omega),
    addUsize_of_lt
      (show pos + 2 + keyLenAt mmap pos + 16 + 8 < 2 ^ 64 by omega),
    if_pos missing, pure_eq_ok]

/-- It panics where the next length is cut off. -/
theorem parseIndex_cut (starts : pos + 2 ≤ idxEnd)
    (cut : mmap.length < pos + 2) (rounds : Nat)
    (blockIndex : List (Bytes × Nat)) :
    ¬ ∃ result, parseIndex mmap idxEnd (rounds + 1) pos blockIndex =
      .ok result := by
  rintro ⟨result, parsed⟩
  rw [parseIndex, if_neg (by omega), bind_eq_ok_iff] at parsed
  obtain ⟨keyStart, added, parsed⟩ := parsed
  obtain ⟨-, rfl⟩ := addUsize_eq_ok_iff.mp added
  rw [if_neg (by omega), bind_eq_ok_iff] at parsed
  obtain ⟨low, -, parsed⟩ := parsed
  obtain ⟨high, readHigh, -⟩ := bind_eq_ok_iff.mp parsed
  have inside := lt_length_of_index readHigh
  omega

end SSTableReader

end Reading

end Cdoc.Sst
