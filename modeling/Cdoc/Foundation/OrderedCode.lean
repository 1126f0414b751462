import Mathlib.Data.List.Lex
import Mathlib.Data.List.Infix
import Mathlib.Data.Prod.Lex

/-!
# Codes which keep order whatever follows

An ordered code sends values of a strictly ordered type to words over an
ordered alphabet so that a smaller value has a smaller word *no matter what
is appended to either word*.  This single law implies that the code is
injective and prefix-free, so that concatenations of code words are parsed
from the left in only one way.

Single letters and pairs are ordered codes.  For lists of values the order
of the concatenated words is the order decided at the first position where
the two lists differ; where one list is a prefix of the other, a closing
letter below every first letter makes the shorter one smaller.
-/

namespace Cdoc.Foundation

universe u v w

/--
A code over the alphabet `β` for the values of `α`, ordered by `Less`.

The law `lt_append` is what makes the code usable inside a longer word.
-/
structure OrderedCode (α : Type u) (β : Type v) [LinearOrder β] where
  encode : α → List β
  Less : α → α → Prop
  trichotomy : ∀ left right,
    Less left right ∨ left = right ∨ Less right left
  lt_append : ∀ {left right}, Less left right →
    ∀ leftRest rightRest,
      encode left ++ leftRest < encode right ++ rightRest
  encode_ne_nil : ∀ value, encode value ≠ []

/--
Two lists differ first at a position where the left entry is the smaller.
-/
def FirstDifference {α : Type u} (Less : α → α → Prop)
    (left right : List α) : Prop :=
  ∃ common leftEntry rightEntry leftRest rightRest,
    left = common ++ leftEntry :: leftRest ∧
      right = common ++ rightEntry :: rightRest ∧
      Less leftEntry rightEntry

theorem FirstDifference.cons {α : Type u} {Less : α → α → Prop}
    {left right : List α} (head : α)
    (difference : FirstDifference Less left right) :
    FirstDifference Less (head :: left) (head :: right) := by
  rcases difference with
    ⟨common, leftEntry, rightEntry, leftRest, rightRest, rfl, rfl, less⟩
  exact ⟨head :: common, leftEntry, rightEntry, leftRest, rightRest,
    rfl, rfl, less⟩

/-- Lists are prefixes of one another or have a first difference. -/
theorem prefix_or_firstDifference {α : Type u} {Less : α → α → Prop}
    (trichotomy : ∀ left right,
      Less left right ∨ left = right ∨ Less right left)
    (left right : List α) :
    left <+: right ∨ right <+: left ∨
      FirstDifference Less left right ∨
      FirstDifference Less right left := by
  induction left generalizing right with
  | nil => exact Or.inl List.nil_prefix
  | cons leftHead leftTail induction =>
      cases right with
      | nil => exact Or.inr (Or.inl List.nil_prefix)
      | cons rightHead rightTail =>
          rcases trichotomy leftHead rightHead with less | rfl | greater
          · exact Or.inr (Or.inr (Or.inl
              ⟨[], leftHead, rightHead, leftTail, rightTail,
                rfl, rfl, less⟩))
          · rcases induction rightTail with
              before | after | less | greater
            · exact Or.inl (List.cons_prefix_cons.mpr ⟨rfl, before⟩)
            · exact Or.inr (Or.inl
                (List.cons_prefix_cons.mpr ⟨rfl, after⟩))
            · exact Or.inr (Or.inr (Or.inl (less.cons leftHead)))
            · exact Or.inr (Or.inr (Or.inr (greater.cons leftHead)))
          · exact Or.inr (Or.inr (Or.inr
              ⟨[], rightHead, leftHead, rightTail, leftTail,
                rfl, rfl, greater⟩))

namespace OrderedCode

variable {α : Type u} {β : Type v} [LinearOrder β]

/-! ## One code word -/

/-- A code word and what follows it are determined by the whole word. -/
theorem append_inj (code : OrderedCode α β)
    {left right : α} {leftRest rightRest : List β}
    (equal : code.encode left ++ leftRest =
      code.encode right ++ rightRest) :
    left = right ∧ leftRest = rightRest := by
  rcases code.trichotomy left right with less | rfl | greater
  · have impossible := code.lt_append less leftRest rightRest
    rw [equal] at impossible
    exact (lt_irrefl _ impossible).elim
  · exact ⟨rfl, List.append_cancel_left equal⟩
  · have impossible := code.lt_append greater rightRest leftRest
    rw [equal] at impossible
    exact (lt_irrefl _ impossible).elim

/-! ## Concatenated code words -/

/-- A concatenation starts another one exactly when the lists do. -/
theorem flatMap_prefix_iff (code : OrderedCode α β)
    {left right : List α} :
    left.flatMap code.encode <+: right.flatMap code.encode ↔
      left <+: right := by
  induction left generalizing right with
  | nil => simp
  | cons leftHead leftTail induction =>
      cases right with
      | nil =>
          simp [code.encode_ne_nil leftHead]
      | cons rightHead rightTail =>
          rw [List.cons_prefix_cons, ← induction]
          simp only [List.flatMap_cons]
          constructor
          · rintro ⟨suffix, equal⟩
            rw [List.append_assoc] at equal
            rcases code.append_inj equal with ⟨sameHead, sameTail⟩
            exact ⟨sameHead, suffix, sameTail⟩
          · rintro ⟨rfl, suffix, equal⟩
            exact ⟨suffix, by rw [List.append_assoc, equal]⟩

theorem flatMap_injective (code : OrderedCode α β) :
    Function.Injective (List.flatMap code.encode) := by
  intro left right equal
  have before : left <+: right :=
    code.flatMap_prefix_iff.mp (equal ▸ List.prefix_refl _)
  have after : right <+: left :=
    code.flatMap_prefix_iff.mp (equal ▸ List.prefix_refl _)
  exact before.eq_of_length_le after.length_le

/-- Past a first difference nothing can change the order. -/
theorem flatMap_append_lt_of_firstDifference (code : OrderedCode α β)
    {left right : List α}
    (difference : FirstDifference code.Less left right)
    (leftRest rightRest : List β) :
    left.flatMap code.encode ++ leftRest <
      right.flatMap code.encode ++ rightRest := by
  rcases difference with
    ⟨common, leftEntry, rightEntry, leftTail, rightTail, rfl, rfl, less⟩
  simp only [List.flatMap_append, List.flatMap_cons, List.append_assoc]
  exact List.append_left_lt (code.lt_append less _ _)

/-- Concatenations are ordered lexicographically by their values. -/
theorem flatMap_lt_of_lex (code : OrderedCode α β)
    {left right : List α} (less : List.Lex code.Less left right) :
    left.flatMap code.encode < right.flatMap code.encode := by
  induction less with
  | nil =>
      rename_i head tail
      rcases List.exists_cons_of_ne_nil (code.encode_ne_nil head) with
        ⟨letter, rest, shape⟩
      simp [shape]
  | rel less =>
      simp only [List.flatMap_cons]
      exact code.lt_append less _ _
  | cons _ induction =>
      simp only [List.flatMap_cons]
      exact List.append_left_lt induction

/--
Concatenations closed by a letter below every first letter are ordered
lexicographically whatever follows the closing letter.
-/
theorem flatMap_terminated_lt (code : OrderedCode α β)
    {left right : List α} (less : List.Lex code.Less left right)
    {terminator : β}
    (below : ∀ value ∈ right, ∃ letter rest,
      code.encode value = letter :: rest ∧ terminator < letter)
    (leftRest rightRest : List β) :
    left.flatMap code.encode ++ terminator :: leftRest <
      right.flatMap code.encode ++ terminator :: rightRest := by
  induction less with
  | nil =>
      rename_i head tail
      rcases below head List.mem_cons_self with
        ⟨letter, rest, shape, smaller⟩
      simp only [List.flatMap_nil, List.nil_append, List.flatMap_cons,
        shape, List.cons_append]
      exact List.cons_lt_cons_iff.mpr (Or.inl smaller)
  | rel less =>
      simp only [List.flatMap_cons, List.append_assoc]
      exact code.lt_append less _ _
  | cons _ induction =>
      simp only [List.flatMap_cons, List.append_assoc]
      exact List.append_left_lt (induction
        fun value member => below value (List.mem_cons_of_mem _ member))

/-! ## Constructions -/

/-- Single letters. -/
def letter : OrderedCode β β where
  encode value := [value]
  Less := (· < ·)
  trichotomy := lt_trichotomy
  lt_append less _ _ := List.cons_lt_cons_iff.mpr (Or.inl less)
  encode_ne_nil _ := by simp

theorem flatMap_letter (word : List β) :
    word.flatMap (letter : OrderedCode β β).encode = word :=
  List.flatMap_singleton' word

/-- Pairs, ordered lexicographically and encoded one after the other. -/
def pair {γ : Type w} (first : OrderedCode α β)
    (second : OrderedCode γ β) : OrderedCode (α × γ) β where
  encode value := first.encode value.1 ++ second.encode value.2
  Less left right :=
    first.Less left.1 right.1 ∨
      left.1 = right.1 ∧ second.Less left.2 right.2
  trichotomy := by
    rintro ⟨leftFirst, leftSecond⟩ ⟨rightFirst, rightSecond⟩
    rcases first.trichotomy leftFirst rightFirst with
      less | rfl | greater
    · exact Or.inl (Or.inl less)
    · rcases second.trichotomy leftSecond rightSecond with
        less | rfl | greater
      · exact Or.inl (Or.inr ⟨rfl, less⟩)
      · exact Or.inr (Or.inl rfl)
      · exact Or.inr (Or.inr (Or.inr ⟨rfl, greater⟩))
    · exact Or.inr (Or.inr (Or.inl greater))
  lt_append := by
    rintro left right (less | ⟨same, less⟩) leftRest rightRest
    · simp only [List.append_assoc]
      exact first.lt_append less _ _
    · simp only [List.append_assoc, same]
      exact List.append_left_lt (second.lt_append less _ _)
  encode_ne_nil value := by
    simp [first.encode_ne_nil value.1]

end OrderedCode

end Cdoc.Foundation
