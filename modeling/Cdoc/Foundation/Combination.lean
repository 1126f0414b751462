import Mathlib.Order.Lattice

/-!
# Combining values two at a time

The values which replicas exchange are combined in an order, with a grouping
and with repetitions which nobody controls.  A combination is one such way.
An operation which keeps the one of two values with the greater key gives
the value with the greatest key, whatever the way.
-/

namespace Cdoc.Foundation

universe u v

/-- A way of combining values two at a time. -/
inductive Combination (α : Type u) where
  | single (value : α)
  | combine (left right : Combination α)

namespace Combination

variable {α : Type u} {ε : Type u}

/-- The values which are combined, each as often as it is used. -/
def values : Combination α → List α
  | .single value => [value]
  | .combine left right => left.values ++ right.values

/-- Combining with an operation which may fail. -/
def mergeAll (merge : α → α → Except ε α) :
    Combination α → Except ε α
  | .single value => .ok value
  | .combine left right => do
      merge (← left.mergeAll merge) (← right.mergeAll merge)

/-- An operation which keeps the one of two values with the greater key. -/
def KeepsGreater {κ : Type v} [LinearOrder κ] (key : α → κ)
    (allowed : α → Prop) (merge : α → α → Except ε α) : Prop :=
  ∀ left right, allowed left → allowed right →
    ∃ chosen, merge left right = .ok chosen ∧
      (chosen = left ∨ chosen = right) ∧
      key left ≤ key chosen ∧ key right ≤ key chosen

/-- Every combination gives one of its values, with the greatest key. -/
theorem mergeAll_greatest {κ : Type v} [LinearOrder κ] {key : α → κ}
    {allowed : α → Prop} {merge : α → α → Except ε α}
    (keeps : KeepsGreater key allowed merge) (order : Combination α)
    (within : ∀ value ∈ order.values, allowed value) :
    ∃ result ∈ order.values, order.mergeAll merge = .ok result ∧
      ∀ value ∈ order.values, key value ≤ key result := by
  induction order with
  | single value =>
      exact ⟨value, List.mem_singleton_self value, rfl, by
        simp [values]⟩
  | combine left right leftInduction rightInduction =>
      rcases leftInduction (fun value member =>
        within value (List.mem_append_left _ member)) with
        ⟨first, firstMember, firstMerged, firstGreatest⟩
      rcases rightInduction (fun value member =>
        within value (List.mem_append_right _ member)) with
        ⟨second, secondMember, secondMerged, secondGreatest⟩
      rcases keeps first second
        (within first (List.mem_append_left _ firstMember))
        (within second (List.mem_append_right _ secondMember)) with
        ⟨chosen, merged, one, aboveFirst, aboveSecond⟩
      refine ⟨chosen, ?_, ?_, ?_⟩
      · rcases one with rfl | rfl
        · exact List.mem_append_left _ firstMember
        · exact List.mem_append_right _ secondMember
      · rw [mergeAll, firstMerged, secondMerged]
        exact merged
      · intro value member
        rcases List.mem_append.mp member with inLeft | inRight
        · exact (firstGreatest value inLeft).trans aboveFirst
        · exact (secondGreatest value inRight).trans aboveSecond

/-- Values with different keys have one result, which is determined. -/
theorem mergeAll_converges {κ : Type v} [LinearOrder κ] {key : α → κ}
    {allowed : α → Prop} {merge : α → α → Except ε α}
    (keeps : KeepsGreater key allowed merge) {collection : List α}
    (within : ∀ value ∈ collection, allowed value)
    (keyed : ∀ left ∈ collection, ∀ right ∈ collection,
      key left = key right → left = right)
    {greatest : α} (member : greatest ∈ collection)
    (above : ∀ value ∈ collection, key value ≤ key greatest)
    {order : Combination α}
    (same : ∀ value, value ∈ order.values ↔ value ∈ collection) :
    order.mergeAll merge = .ok greatest := by
  rcases mergeAll_greatest keeps order (fun value inside =>
    within value ((same value).mp inside)) with
    ⟨result, inside, merged, resultAbove⟩
  have equal : key result = key greatest :=
    le_antisymm (above result ((same result).mp inside))
      (resultAbove greatest ((same greatest).mpr member))
  rw [merged, keyed result ((same result).mp inside) greatest member equal]

end Combination

end Cdoc.Foundation
