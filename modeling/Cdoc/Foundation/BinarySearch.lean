import Mathlib.Data.List.Basic

/-!
# Binary search

The search of the standard library: the interval is halved until one item is
left, which is compared once more.  `ok` is the index of an equal item,
`error` the index where one could be inserted.

The result is described by the number of items which do not compare as
greater, when these come first.
-/

namespace Cdoc.Foundation

variable {α : Type}

/-- The halving loop, from the interval of `size` items at `base`. -/
def binarySearchLoop (items : List α) (compare : α → Ordering) :
    Nat → Nat → Nat → Nat
  | 0, base, _ => base
  | rounds + 1, base, size =>
      if 1 < size then
        let half := size / 2
        let mid := base + half
        let base :=
          if items[mid]?.map compare = some .gt then base else mid
        binarySearchLoop items compare rounds base (size - half)
      else
        base

/--
`slice::binary_search_by`: the place of an equal item, or else the place where
it could be inserted.
-/
def binarySearchBy (items : List α) (compare : α → Ordering) :
    Except Nat Nat :=
  let base := binarySearchLoop items compare items.length 0 items.length
  match items[base]?.map compare with
  | none => .error 0
  | some .eq => .ok base
  | some .lt => .error (base + 1)
  | some .gt => .error base

/-- The first `count` items do not compare as greater, the others do. -/
def GreaterFrom (items : List α) (compare : α → Ordering)
    (count : Nat) : Prop :=
  count ≤ items.length ∧
    ∀ position item, items[position]? = some item →
      (compare item = .gt ↔ count ≤ position)

theorem binarySearchLoop_spec {items : List α} {compare : α → Ordering}
    {count : Nat} (greater : GreaterFrom items compare count)
    {rounds base size : Nat} (enough : size ≤ rounds + 1)
    (nonempty : 1 ≤ size) (within : base + size ≤ items.length)
    (reached : base = 0 ∨ base < count) (bound : count ≤ base + size) :
    ∃ last, binarySearchLoop items compare rounds base size = last ∧
      last < items.length ∧ (last = 0 ∨ last < count) ∧
      count ≤ last + 1 := by
  induction rounds generalizing base size with
  | zero =>
      exact ⟨base, rfl, by omega, reached, by omega⟩
  | succ rounds induction =>
      rw [binarySearchLoop]
      by_cases several : 1 < size
      · rw [if_pos several]
        have inside : base + size / 2 < items.length := by omega
        have item : items[base + size / 2]? =
            some items[base + size / 2] :=
          List.getElem?_eq_getElem inside
        have decision := greater.2 _ _ item
        dsimp only
        rw [item, Option.map_some]
        by_cases above : compare items[base + size / 2] = .gt
        · rw [if_pos (congrArg some above)]
          have high := decision.mp above
          exact induction (by omega) (by omega) (by omega) reached
            (by omega)
        · rw [if_neg (fun equal => above (Option.some.inj equal))]
          have low : ¬ count ≤ base + size / 2 :=
            fun high => above (decision.mpr high)
          exact induction (by omega) (by omega) (by omega)
            (Or.inr (by omega)) (by omega)
      · rw [if_neg several]
        exact ⟨base, rfl, by omega, reached, by omega⟩

/--
The search finds the last item which is not greater, or reports that there
is none.
-/
theorem binarySearchBy_spec {items : List α} {compare : α → Ordering}
    {count : Nat} (greater : GreaterFrom items compare count) :
    match binarySearchBy items compare with
    | .ok position => position + 1 = count
    | .error position => position = count := by
  unfold binarySearchBy
  by_cases empty : items = []
  · subst empty
    have zero : count = 0 := Nat.le_zero.mp greater.1
    simp [zero]
  · have positive := List.length_pos_of_ne_nil empty
    have counted := greater.1
    rcases binarySearchLoop_spec greater
      (Nat.le_succ items.length) positive (by omega) (Or.inl rfl)
      (by omega) with
      ⟨last, result, inside, reached, bound⟩
    have item : items[last]? = some items[last] :=
      List.getElem?_eq_getElem inside
    have decision := greater.2 _ _ item
    rw [result]
    simp only [item, Option.map_some]
    cases order : compare items[last] with
    | lt =>
        rw [order] at decision
        simp only [reduceCtorEq, false_iff] at decision
        show last + 1 = count
        omega
    | eq =>
        rw [order] at decision
        simp only [reduceCtorEq, false_iff] at decision
        show last + 1 = count
        omega
    | gt =>
        rw [order] at decision
        simp only [true_iff] at decision
        show last = count
        omega

/-! ## Items in any order -/

section AnyOrder

variable {items : List α} {compare : α → Ordering}

theorem binarySearchLoop_range {rounds base size : Nat}
    (nonempty : 1 ≤ size) :
    base ≤ binarySearchLoop items compare rounds base size ∧
      binarySearchLoop items compare rounds base size < base + size := by
  induction rounds generalizing base size with
  | zero =>
      rw [binarySearchLoop]
      omega
  | succ rounds induction =>
      rw [binarySearchLoop]
      by_cases several : 1 < size
      · rw [if_pos several]
        dsimp only
        split
        · have range := @induction base (size - size / 2) (by omega)
          omega
        · have range := @induction (base + size / 2) (size - size / 2)
            (by omega)
          omega
      · rw [if_neg several]
        omega

/-- The loop leaves its first position only for an item not greater. -/
theorem binarySearchLoop_reached (rounds base size : Nat) :
    binarySearchLoop items compare rounds base size = base ∨
      items[binarySearchLoop items compare rounds base size]?.map compare ≠
        some .gt := by
  induction rounds generalizing base size with
  | zero => exact Or.inl rfl
  | succ rounds induction =>
      rw [binarySearchLoop]
      by_cases several : 1 < size
      · rw [if_pos several]
        dsimp only
        by_cases above :
            items[base + size / 2]?.map compare = some .gt
        · rw [if_pos above]
          exact induction base (size - size / 2)
        · rw [if_neg above]
          rcases induction (base + size / 2) (size - size / 2) with
            stays | reached
          · rw [stays]
            exact Or.inr above
          · exact Or.inr reached
      · rw [if_neg several]
        exact Or.inl rfl

/-- A search to which more items are greater ends no later. -/
theorem binarySearchLoop_mono {other : α → Ordering}
    (weaker : ∀ item, compare item = .gt → other item = .gt)
    {rounds base size : Nat} (nonempty : 1 ≤ size) :
    binarySearchLoop items other rounds base size ≤
      binarySearchLoop items compare rounds base size := by
  induction rounds generalizing base size with
  | zero => exact Nat.le_refl _
  | succ rounds induction =>
      rw [binarySearchLoop, binarySearchLoop]
      by_cases several : 1 < size
      · rw [if_pos several, if_pos several]
        dsimp only
        by_cases above : items[base + size / 2]?.map compare = some .gt
        · have otherAbove :
              items[base + size / 2]?.map other = some .gt := by
            obtain ⟨item, found, greater⟩ := Option.map_eq_some_iff.mp above
            exact Option.map_eq_some_iff.mpr
              ⟨item, found, weaker item greater⟩
          rw [if_pos above, if_pos otherAbove]
          exact induction (by omega)
        · rw [if_neg above]
          by_cases otherAbove :
              items[base + size / 2]?.map other = some .gt
          · -- the other search keeps to the items before the middle one
            rw [if_pos otherAbove]
            have late := (@binarySearchLoop_range α items compare rounds
              (base + size / 2) (size - size / 2) (by omega)).1
            have early := (@binarySearchLoop_range α items other rounds
              base (size - size / 2) (by omega)).2
            rcases @binarySearchLoop_reached α items other rounds base
              (size - size / 2) with stays | reached
            · omega
            · have notMiddle : binarySearchLoop items other rounds base
                  (size - size / 2) ≠ base + size / 2 := by
                intro same
                rw [same] at reached
                exact reached otherAbove
              omega
          · rw [if_neg otherAbove]
            exact induction (by omega)
      · simp only [if_neg several, Nat.le_refl]

/-- The position at which the search makes its last comparison. -/
def searchBase (items : List α) (compare : α → Ordering) : Nat :=
  binarySearchLoop items compare items.length 0 items.length

theorem searchBase_lt (nonempty : items ≠ []) :
    searchBase items compare < items.length := by
  have positive := List.length_pos_of_ne_nil nonempty
  have range := (@binarySearchLoop_range α items compare items.length 0
    items.length positive).2
  rwa [Nat.zero_add] at range

theorem searchBase_mono {other : α → Ordering}
    (weaker : ∀ item, compare item = .gt → other item = .gt)
    (nonempty : items ≠ []) :
    searchBase items other ≤ searchBase items compare :=
  binarySearchLoop_mono weaker (List.length_pos_of_ne_nil nonempty)

/-- The result is at the last position or right behind it. -/
theorem binarySearchBy_cases (items : List α) (compare : α → Ordering) :
    binarySearchBy items compare = .ok (searchBase items compare) ∨
      binarySearchBy items compare =
        .error (searchBase items compare + 1) ∨
      binarySearchBy items compare = .error 0 ∧
        searchBase items compare = 0 := by
  have reached := @binarySearchLoop_reached α items compare items.length 0
    items.length
  unfold binarySearchBy searchBase
  generalize last :
    binarySearchLoop items compare items.length 0 items.length = base
  rw [last] at reached
  dsimp only
  cases order : items[base]?.map compare with
  | none =>
      have empty : items = [] := by
        by_contra nonempty
        have inside := @searchBase_lt α items compare nonempty
        rw [searchBase, last] at inside
        rw [List.getElem?_eq_getElem inside] at order
        cases order
      subst empty
      exact Or.inr (Or.inr ⟨rfl, last.symm⟩)
  | some result =>
      cases result with
      | eq => exact Or.inl rfl
      | lt => exact Or.inr (Or.inl rfl)
      | gt =>
          rcases reached with rfl | notGreater
          · exact Or.inr (Or.inr ⟨rfl, rfl⟩)
          · exact absurd order notGreater

end AnyOrder

end Cdoc.Foundation
