import Cdoc.Foundation.PrefixRange
import Mathlib.Data.Prod.Lex

/-!
# Numbers as ordered texts

A rendering of the numbers below a bound is *ordered* when a smaller number
has a smaller text whatever follows either text.  Decimal numbers of a fixed
width are ordered.

A number can be split into the block in which it lies and its place in the
block.  Where blocks and places have ordered texts, the text of the block
followed by that of the place is ordered too.  Blocks may have different
lengths, as months have.
-/

namespace Cdoc.Foundation

/-- Smaller numbers below the bound have smaller texts. -/
def OrderedBelow (bound : Nat) (text : Nat → Bytes) : Prop :=
  ∀ left right, left < right → right < bound →
    ∀ leftRest rightRest, text left ++ leftRest < text right ++ rightRest

namespace OrderedBelow

variable {bound : Nat} {text : Nat → Bytes}

theorem mono {smaller : Nat} (ordered : OrderedBelow bound text)
    (le : smaller ≤ bound) : OrderedBelow smaller text :=
  fun left right less small =>
    ordered left right less (small.trans_le le)

/-- A separator behind the text. -/
theorem append (ordered : OrderedBelow bound text) (separator : Bytes) :
    OrderedBelow bound (fun number => text number ++ separator) := by
  intro left right less small leftRest rightRest
  rw [List.append_assoc, List.append_assoc]
  exact ordered left right less small _ _

/-- Numbers which are counted from one. -/
theorem succ (ordered : OrderedBelow (bound + 1) text) :
    OrderedBelow bound (fun number => text (number + 1)) :=
  fun left right less small =>
    ordered (left + 1) (right + 1) (Nat.succ_lt_succ less)
      (Nat.succ_lt_succ small)

/-- The text of a block followed by that of the place in the block. -/
theorem nest (split : Nat → Nat × Nat) (size : Nat → Nat)
    (inner : Nat → Nat → Bytes) {outer : Nat} {label : Nat → Bytes}
    (splitMono : ∀ left right, left < right →
      toLex (split left) < toLex (split right))
    (range : ∀ number, number < bound →
      (split number).1 < outer ∧ (split number).2 < size (split number).1)
    (labels : OrderedBelow outer label)
    (places : ∀ block, block < outer →
      OrderedBelow (size block) (inner block)) :
    OrderedBelow bound (fun number =>
      label (split number).1 ++ inner (split number).1 (split number).2) := by
  intro left right less small leftRest rightRest
  obtain ⟨block, place⟩ := range right small
  rw [List.append_assoc, List.append_assoc]
  rcases Prod.Lex.toLex_lt_toLex.mp (splitMono left right less) with
    earlier | ⟨same, before⟩
  · exact labels _ _ earlier block _ _
  · rw [same, append_lt_append_iff]
    exact places _ block _ _ before place _ _

/-- Blocks of one length. -/
theorem nestDiv {outer size : Nat} (positive : 0 < size)
    (bounded : bound ≤ outer * size) {label inner : Nat → Bytes}
    (labels : OrderedBelow outer label) (places : OrderedBelow size inner) :
    OrderedBelow bound (fun number =>
      label (number / size) ++ inner (number % size)) := by
  refine nest (fun number => (number / size, number % size))
    (fun _ => size) (fun _ => inner) ?_ ?_ labels (fun _ _ => places)
  · intro left right less
    rw [Prod.Lex.toLex_lt_toLex']
    refine ⟨Nat.div_le_div_right less.le, fun sameBlock => ?_⟩
    have leftParts := Nat.div_add_mod left size
    have rightParts := Nat.div_add_mod right size
    dsimp only at sameBlock ⊢
    rw [sameBlock] at leftParts
    omega
  · intro number small
    exact ⟨Nat.div_lt_of_lt_mul (by rw [Nat.mul_comm]; omega),
      Nat.mod_lt _ positive⟩

end OrderedBelow

/-! ## Decimal numbers -/

/-- The text of a number below ten. -/
def decimalDigit (number : Nat) : Bytes :=
  [UInt8.ofNat (0x30 + number)]

/-- A number with leading zeros. -/
def decimal : Nat → Nat → Bytes
  | 0, _ => []
  | width + 1, number =>
      decimalDigit (number / 10 ^ width) ++ decimal width (number % 10 ^ width)

theorem orderedBelow_decimalDigit : OrderedBelow 10 decimalDigit := by
  intro left right less small leftRest rightRest
  refine List.cons_lt_cons_iff.mpr (Or.inl ?_)
  rw [UInt8.lt_iff_toNat_lt, UInt8.toNat_ofNat', UInt8.toNat_ofNat']
  omega

theorem orderedBelow_decimal (width : Nat) :
    OrderedBelow (10 ^ width) (decimal width) := by
  induction width with
  | zero =>
      intro left right less small
      omega
  | succ width induction =>
      refine OrderedBelow.nestDiv (Nat.pow_pos (by decide)) ?_
        orderedBelow_decimalDigit induction
      rw [Nat.pow_succ, Nat.mul_comm]

/-! ## Blocks of different lengths -/

/-- The length of some consecutive blocks. -/
def span (length : Nat → Nat) : Nat → Nat → Nat
  | _, 0 => 0
  | first, count + 1 => length first + span length (first + 1) count

/-- The block in which a number lies, and its place in the block. -/
def locate (length : Nat → Nat) : Nat → Nat → Nat → Nat × Nat
  | 0, first, number => (first, number)
  | rounds + 1, first, number =>
      if number < length first then
        (first, number)
      else
        locate length rounds (first + 1) (number - length first)

section Locate

variable (length : Nat → Nat)

theorem le_locate (rounds first number : Nat) :
    first ≤ (locate length rounds first number).1 := by
  induction rounds generalizing first number with
  | zero => exact le_rfl
  | succ rounds induction =>
      rw [locate]
      split
      · exact le_rfl
      · exact (Nat.le_succ first).trans (induction (first + 1) _)

/-- Later numbers lie in later blocks, or later in the same block. -/
theorem locate_lt_locate (rounds first : Nat) {left right : Nat}
    (less : left < right) :
    toLex (locate length rounds first left) <
      toLex (locate length rounds first right) := by
  rw [Prod.Lex.toLex_lt_toLex]
  induction rounds generalizing first left right with
  | zero => exact Or.inr ⟨rfl, less⟩
  | succ rounds induction =>
      rw [locate, locate]
      by_cases rightInside : right < length first
      · rw [if_pos (less.trans rightInside), if_pos rightInside]
        exact Or.inr ⟨rfl, less⟩
      · rw [if_neg rightInside]
        by_cases leftInside : left < length first
        · rw [if_pos leftInside]
          exact Or.inl (le_locate length rounds (first + 1) _)
        · rw [if_neg leftInside]
          exact induction (first + 1) (by omega)

theorem locate_lt {rounds first number count : Nat}
    (within : number < span length first count) :
    (locate length rounds first number).1 < first + count := by
  induction rounds generalizing first number count with
  | zero =>
      cases count with
      | zero => exact absurd within (Nat.not_lt_zero _)
      | succ count => exact Nat.lt_add_of_pos_right (Nat.succ_pos count)
  | succ rounds induction =>
      cases count with
      | zero => exact absurd within (Nat.not_lt_zero _)
      | succ count =>
          rw [locate]
          split
          · exact Nat.lt_add_of_pos_right (Nat.succ_pos count)
          · rw [span] at within
            have later := @induction (first + 1) (number - length first)
              count (by omega)
            omega

theorem locate_place {rounds first number : Nat}
    (within : number < span length first (rounds + 1)) :
    (locate length rounds first number).2 <
      length (locate length rounds first number).1 := by
  induction rounds generalizing first number with
  | zero => exact within
  | succ rounds induction =>
      rw [locate]
      split
      · assumption
      · rw [span] at within
        exact induction (by omega)

end Locate

end Cdoc.Foundation
