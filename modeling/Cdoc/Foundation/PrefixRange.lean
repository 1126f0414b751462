import Mathlib.Data.List.Induction
import Cdoc.Foundation.Bytes

/-!
# The range of a prefix

The byte strings which start with a given one are an interval of the
lexicographic order.  Its upper end is found by dropping trailing bytes
`0xff` and incrementing the byte before them; there is none when every byte
is `0xff`.
-/

namespace Cdoc.Foundation

/-- The loop over the bytes from the last to the first. -/
def successorLoop : Bytes → Option Bytes
  | [] => none
  | last :: rest =>
      if last < 0xff then some ((last + 1) :: rest) else successorLoop rest

/-- The least byte string above all those which start with the given one. -/
def prefixSuccessor (stem : Bytes) : Option Bytes :=
  (successorLoop stem.reverse).map List.reverse

theorem prefixSuccessor_nil : prefixSuccessor [] = none :=
  rfl

theorem prefixSuccessor_concat (stem : Bytes) (last : UInt8) :
    prefixSuccessor (stem ++ [last]) =
      if last < 0xff then some (stem ++ [last + 1])
      else prefixSuccessor stem := by
  unfold prefixSuccessor
  rw [List.reverse_append, List.reverse_singleton, List.singleton_append,
    successorLoop]
  split
  · simp
  · rfl

/-- A string is not below what it starts with. -/
theorem not_lt_of_isPrefix {stem key : Bytes} (starts : stem <+: key) :
    ¬ key < stem := by
  rcases starts with ⟨rest, rfl⟩
  induction stem with
  | nil => exact List.not_lt_nil _
  | cons head tail induction =>
      rw [List.cons_append, List.cons_lt_cons_iff]
      rintro (less | ⟨-, less⟩)
      · exact lt_irrefl _ less
      · exact induction less

theorem append_lt_append_iff {stem left right : Bytes} :
    stem ++ left < stem ++ right ↔ left < right := by
  induction stem with
  | nil => rfl
  | cons head tail induction =>
      rw [List.cons_append, List.cons_append, List.cons_lt_cons_iff,
        induction]
      simp

/-- What lies between two strings with a common start has it too. -/
theorem isPrefix_of_between {stem lower upper key : Bytes}
    (above : ¬ key < stem ++ lower) (below : key < stem ++ upper) :
    stem <+: key := by
  induction stem generalizing key with
  | nil => exact List.nil_prefix
  | cons head tail induction =>
      cases key with
      | nil => exact absurd (List.nil_lt_cons _ _) above
      | cons first rest =>
          rw [List.cons_append, List.cons_lt_cons_iff] at above below
          rcases below with less | ⟨rfl, below⟩
          · exact absurd (Or.inl less) above
          · have restAbove : ¬ rest < tail ++ lower :=
              fun less => above (Or.inr ⟨rfl, less⟩)
            exact List.cons_prefix_cons.mpr
              ⟨rfl, induction restAbove below⟩

theorem octet_lt_succ_iff {last byte : UInt8} (small : last < 0xff) :
    byte < last + 1 ↔ byte ≤ last := by
  have increment : (last + 1).toNat = last.toNat + 1 := by
    rw [UInt8.lt_iff_toNat_lt] at small
    rw [UInt8.toNat_add]
    exact Nat.mod_eq_of_lt (by
      simp only [UInt8.reduceToNat] at small ⊢
      omega)
  rw [UInt8.lt_iff_toNat_lt, UInt8.le_iff_toNat_le, increment]
  exact Nat.lt_succ_iff

/-- The strings from `[last]` on, below the next byte, start with it. -/
theorem singleton_range {last : UInt8} {key : Bytes}
    (above : ¬ key < [last])
    (below : ∀ first rest, key = first :: rest → first ≤ last) :
    [last] <+: key := by
  cases key with
  | nil => exact absurd (List.nil_lt_cons _ _) above
  | cons first rest =>
      have upper := below first rest rfl
      rw [List.cons_lt_cons_iff] at above
      have lower : ¬ first < last := fun less => above (Or.inl less)
      rw [le_antisymm upper (not_lt.mp lower)]
      exact ⟨rest, rfl⟩

/-- The range of a prefix, with its upper end if there is one. -/
theorem prefixSuccessor_range (stem key : Bytes) :
    stem <+: key ↔
      ¬ key < stem ∧
        ∀ upper, prefixSuccessor stem = some upper → key < upper := by
  induction stem using List.reverseRecOn with
  | nil =>
      simp [prefixSuccessor_nil]
  | append_singleton stem last induction =>
      rw [prefixSuccessor_concat]
      constructor
      · intro starts
        refine ⟨not_lt_of_isPrefix starts, ?_⟩
        intro upper found
        split at found
        · rename_i small
          cases found
          rcases starts with ⟨rest, rfl⟩
          rw [List.append_assoc, append_lt_append_iff,
            List.singleton_append, List.cons_lt_cons_iff]
          exact Or.inl ((octet_lt_succ_iff small).mpr le_rfl)
        · have shorter := (List.prefix_append _ _).trans starts
          exact (induction.mp shorter).2 upper found
      · rintro ⟨above, below⟩
        split at below
        · rename_i small
          have upper := below _ rfl
          rcases isPrefix_of_between above upper with ⟨rest, rfl⟩
          rw [append_lt_append_iff] at above upper
          rw [List.prefix_append_right_inj]
          refine singleton_range above ?_
          rintro first others rfl
          rcases List.cons_lt_cons_iff.mp upper with less | ⟨-, less⟩
          · exact (octet_lt_succ_iff small).mp less
          · exact absurd less (List.not_lt_nil _)
        · rename_i largest
          have start : stem <+: key := by
            refine induction.mpr ⟨?_, below⟩
            intro less
            apply above
            rcases lt_trichotomy key (stem ++ [last]) with
              smaller | rfl | greater
            · exact smaller
            · exact absurd less
                (not_lt_of_isPrefix (List.prefix_append _ _))
            · exact absurd (greater.trans less)
                (not_lt_of_isPrefix (List.prefix_append _ _))
          rcases start with ⟨rest, rfl⟩
          rw [append_lt_append_iff] at above
          rw [List.prefix_append_right_inj]
          refine singleton_range above ?_
          intro first others _
          rw [UInt8.lt_iff_toNat_lt] at largest
          have bound := first.toNat_lt
          rw [UInt8.le_iff_toNat_le]
          simp only [UInt8.reduceToNat] at largest
          omega

/-! ## Entries selected by prefix -/

/-- The entries whose key starts with `stem`, in order. -/
def startingWith {ν : Type} (stem : Bytes) (entries : List (Bytes × ν)) :
    List (Bytes × ν) :=
  entries.filter fun entry => decide (stem <+: entry.1)

section Selection

variable {ν : Type} {stem : Bytes} {entries : List (Bytes × ν)}

@[simp]
theorem startingWith_nil :
    startingWith stem ([] : List (Bytes × ν)) = [] :=
  rfl

theorem mem_startingWith {entry : Bytes × ν} :
    entry ∈ startingWith stem entries ↔
      entry ∈ entries ∧ stem <+: entry.1 := by
  simp [startingWith]

theorem startingWith_append (left right : List (Bytes × ν)) :
    startingWith stem (left ++ right) =
      startingWith stem left ++ startingWith stem right :=
  List.filter_append left right

theorem startingWith_cons_of_isPrefix {entry : Bytes × ν}
    (starts : stem <+: entry.1) :
    startingWith stem (entry :: entries) =
      entry :: startingWith stem entries :=
  List.filter_cons_of_pos (decide_eq_true starts)

theorem startingWith_cons_of_not_isPrefix {entry : Bytes × ν}
    (differs : ¬ stem <+: entry.1) :
    startingWith stem (entry :: entries) =
      startingWith stem entries :=
  List.filter_cons_of_neg (by simpa using differs)

theorem startingWith_eq_nil (none : ∀ entry ∈ entries, ¬ stem <+: entry.1) :
    startingWith stem entries = [] := by
  apply List.filter_eq_nil_iff.mpr
  intro entry member
  simpa using none entry member

end Selection

end Cdoc.Foundation
