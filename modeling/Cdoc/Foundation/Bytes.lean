import Mathlib.Data.List.Lex
import Mathlib.Data.Nat.Basic
import Mathlib.Tactic.Ring

/-!
# Byte strings and fixed-width integers

Byte strings are lists of octets compared lexicographically, a proper prefix
being the smaller one.  The two fixed-width renderings of a natural number,
most significant byte first and least significant byte first, are defined
together with their inverses.

Truncation is explicit: a rendering of width `width` keeps the value modulo
`256 ^ width`.  The big-endian rendering is the one which respects order.
-/

namespace Cdoc.Foundation

/-- Octets are ordered by value. -/
instance octetLinearOrder : LinearOrder UInt8 where
  le_refl := UInt8.le_refl
  le_trans _ _ _ := UInt8.le_trans
  lt_iff_le_not_ge left right := by
    simp only [UInt8.lt_iff_toNat_lt, UInt8.le_iff_toNat_le]
    omega
  le_antisymm _ _ := UInt8.le_antisymm
  le_total := UInt8.le_total
  toDecidableLE := inferInstance
  toDecidableLT := inferInstance
  toDecidableEq := inferInstance
  min_def _ _ := rfl
  max_def _ _ := rfl
  compare_eq_compareOfLessAndEq _ _ := rfl

/-- A string of octets. -/
abbrev Bytes := List UInt8

/-- The comparison of byte strings is that of their order. -/
theorem compare_eq_gt_iff (left right : Bytes) :
    compare left right = .gt ↔ right < left := by
  induction left generalizing right with
  | nil =>
      cases right with
      | nil => simp
      | cons => simp
  | cons head tail induction =>
      cases right with
      | nil => simp
      | cons other others =>
          have heads : compare head other =
              compareOfLessAndEq head other := rfl
          rw [List.compare_cons_cons, List.cons_lt_cons_iff, heads,
            compareOfLessAndEq]
          rcases lt_trichotomy head other with less | same | more
          · simp [less, less.not_gt, less.ne']
          · simp [same, induction]
          · simp [more, more.not_gt, more.ne']

/-! ## Least significant byte first -/

/-- The `width` low bytes of a number, least significant first. -/
def leBytes : Nat → Nat → Bytes
  | 0, _ => []
  | width + 1, value => UInt8.ofNat value :: leBytes width (value / 256)

/-- The number whose bytes are given least significant first. -/
def ofLeBytes : Bytes → Nat
  | [] => 0
  | byte :: rest => byte.toNat + 256 * ofLeBytes rest

@[simp]
theorem length_leBytes (width value : Nat) :
    (leBytes width value).length = width := by
  induction width generalizing value with
  | zero => rfl
  | succ width induction => simp [leBytes, induction]

theorem ofLeBytes_leBytes
    {width value : Nat} (fits : value < 256 ^ width) :
    ofLeBytes (leBytes width value) = value := by
  induction width generalizing value with
  | zero =>
      have zero : value = 0 := by simpa using fits
      simp [leBytes, ofLeBytes, zero]
  | succ width induction =>
      have quotient : value / 256 < 256 ^ width := by
        rw [pow_succ] at fits
        exact Nat.div_lt_of_lt_mul (by omega)
      rw [leBytes, ofLeBytes, induction quotient, UInt8.toNat_ofNat']
      omega

theorem ofLeBytes_lt (bytes : Bytes) :
    ofLeBytes bytes < 256 ^ bytes.length := by
  induction bytes with
  | nil => simp [ofLeBytes]
  | cons byte rest induction =>
      have octet := byte.toNat_lt
      rw [ofLeBytes, List.length_cons, pow_succ]
      omega

theorem leBytes_ofLeBytes (bytes : Bytes) :
    leBytes bytes.length (ofLeBytes bytes) = bytes := by
  induction bytes with
  | nil => rfl
  | cons byte rest induction =>
      have octet := byte.toNat_lt
      have high : (byte.toNat + 256 * ofLeBytes rest) / 256 =
          ofLeBytes rest := by
        omega
      have low : UInt8.ofNat (byte.toNat + 256 * ofLeBytes rest) =
          byte := by
        apply UInt8.toNat_inj.mp
        rw [UInt8.toNat_ofNat']
        omega
      rw [List.length_cons, ofLeBytes, leBytes, high, low, induction]

/-! ## Most significant byte first -/

/-- The `width` low bytes of a number, most significant first. -/
def beBytes : Nat → Nat → Bytes
  | 0, _ => []
  | width + 1, value =>
      UInt8.ofNat (value / 256 ^ width) :: beBytes width (value % 256 ^ width)

/-- The number whose bytes are given most significant first. -/
def ofBeBytes : Bytes → Nat
  | [] => 0
  | byte :: rest => byte.toNat * 256 ^ rest.length + ofBeBytes rest

@[simp]
theorem length_beBytes (width value : Nat) :
    (beBytes width value).length = width := by
  induction width generalizing value with
  | zero => rfl
  | succ width induction => simp [beBytes, induction]

theorem leadingByte_lt
    {width value : Nat} (fits : value < 256 ^ (width + 1)) :
    value / 256 ^ width < 256 := by
  rw [pow_succ] at fits
  exact Nat.div_lt_of_lt_mul fits

theorem toNat_leadingByte
    {width value : Nat} (fits : value < 256 ^ (width + 1)) :
    (UInt8.ofNat (value / 256 ^ width)).toNat = value / 256 ^ width := by
  rw [UInt8.toNat_ofNat']
  exact Nat.mod_eq_of_lt (leadingByte_lt fits)

theorem ofBeBytes_beBytes
    {width value : Nat} (fits : value < 256 ^ width) :
    ofBeBytes (beBytes width value) = value := by
  induction width generalizing value with
  | zero =>
      have zero : value = 0 := by simpa using fits
      simp [beBytes, ofBeBytes, zero]
  | succ width induction =>
      have remainder : value % 256 ^ width < 256 ^ width :=
        Nat.mod_lt _ (Nat.pow_pos (by decide))
      rw [beBytes, ofBeBytes, length_beBytes, induction remainder,
        toNat_leadingByte fits, Nat.mul_comm]
      exact Nat.div_add_mod value (256 ^ width)

/-- Leading zero bytes do not change a big-endian number. -/
@[simp]
theorem ofBeBytes_replicate_zero_append (count : Nat) (bytes : Bytes) :
    ofBeBytes (List.replicate count 0 ++ bytes) = ofBeBytes bytes := by
  induction count with
  | zero => rfl
  | succ count induction =>
      simp [List.replicate_succ, ofBeBytes, induction]

theorem ofBeBytes_lt (bytes : Bytes) :
    ofBeBytes bytes < 256 ^ bytes.length := by
  induction bytes with
  | nil => simp [ofBeBytes]
  | cons byte rest induction =>
      have octet : byte.toNat < 256 := byte.toNat_lt
      have scaled : (byte.toNat + 1) * 256 ^ rest.length
          ≤ 256 * 256 ^ rest.length :=
        Nat.mul_le_mul_right _ octet
      rw [ofBeBytes, List.length_cons, pow_succ]
      rw [Nat.add_mul] at scaled
      omega

/-- A byte string is the rendering of its number at its own length. -/
theorem beBytes_ofBeBytes (bytes : Bytes) :
    beBytes bytes.length (ofBeBytes bytes) = bytes := by
  induction bytes with
  | nil => rfl
  | cons byte rest induction =>
      have small := ofBeBytes_lt rest
      have positive : 0 < 256 ^ rest.length := Nat.pow_pos (by decide)
      have high : (byte.toNat * 256 ^ rest.length + ofBeBytes rest) /
          256 ^ rest.length = byte.toNat := by
        rw [Nat.add_comm, Nat.add_mul_div_right _ _ positive,
          Nat.div_eq_of_lt small, Nat.zero_add]
      have low : (byte.toNat * 256 ^ rest.length + ofBeBytes rest) %
          256 ^ rest.length = ofBeBytes rest := by
        rw [Nat.add_comm, Nat.add_mul_mod_self_right,
          Nat.mod_eq_of_lt small]
      rw [List.length_cons, ofBeBytes, beBytes, high, low, induction,
        UInt8.ofNat_toNat]

theorem ofBeBytes_append (left right : Bytes) :
    ofBeBytes (left ++ right) =
      ofBeBytes left * 256 ^ right.length + ofBeBytes right := by
  induction left with
  | nil => simp [ofBeBytes]
  | cons byte rest induction =>
      rw [List.cons_append, ofBeBytes, induction, ofBeBytes,
        List.length_append, pow_add, Nat.add_mul, Nat.mul_assoc,
        Nat.add_assoc]

/-- Numbers in two digits are ordered by the higher digit first. -/
theorem twoDigits_lt_iff {high high' low low' base : Nat}
    (small : low < base) (small' : low' < base) :
    high * base + low < high' * base + low' ↔
      high < high' ∨ high = high' ∧ low < low' := by
  rcases Nat.lt_trichotomy high high' with less | rfl | greater
  · have scaled : (high + 1) * base ≤ high' * base :=
      Nat.mul_le_mul_right base less
    rw [Nat.add_mul] at scaled
    omega
  · omega
  · have scaled : (high' + 1) * base ≤ high * base :=
      Nat.mul_le_mul_right base greater
    rw [Nat.add_mul] at scaled
    omega

/-- Byte strings of one length are ordered as big-endian numbers are. -/
theorem lt_iff_ofBeBytes_lt {left right : Bytes}
    (same : left.length = right.length) :
    left < right ↔ ofBeBytes left < ofBeBytes right := by
  induction left generalizing right with
  | nil =>
      have empty : right = [] := List.length_eq_zero_iff.mp same.symm
      simp [empty]
  | cons byte rest induction =>
      cases right with
      | nil => cases same
      | cons other others =>
          have lengths : rest.length = others.length := by
            simpa using same
          have below := ofBeBytes_lt rest
          have otherBelow := ofBeBytes_lt others
          rw [List.cons_lt_cons_iff, induction lengths, ofBeBytes,
            ofBeBytes, lengths, UInt8.lt_iff_toNat_lt, ← UInt8.toNat_inj]
          rw [lengths] at below
          exact (twoDigits_lt_iff below otherBelow).symm

/-- Big-endian renderings of one width are ordered as the numbers are. -/
theorem beBytes_append_lt
    {width left right : Nat}
    (leftFits : left < 256 ^ width) (rightFits : right < 256 ^ width)
    (less : left < right) (leftRest rightRest : Bytes) :
    beBytes width left ++ leftRest < beBytes width right ++ rightRest := by
  induction width generalizing left right with
  | zero =>
      have zero : right = 0 := by simpa using rightFits
      omega
  | succ width induction =>
      have positive : 0 < 256 ^ width :=
        Nat.pow_pos (by decide)
      have quotients : left / 256 ^ width ≤ right / 256 ^ width :=
        Nat.div_le_div_right less.le
      simp only [beBytes, List.cons_append, List.cons_lt_cons_iff]
      rcases quotients.lt_or_eq with below | same
      · left
        rw [UInt8.lt_iff_toNat_lt, toNat_leadingByte leftFits,
          toNat_leadingByte rightFits]
        exact below
      · right
        have remainders :
            left % 256 ^ width < right % 256 ^ width := by
          have leftSplit := Nat.div_add_mod left (256 ^ width)
          have rightSplit := Nat.div_add_mod right (256 ^ width)
          rw [same] at leftSplit
          omega
        exact ⟨by rw [same],
          induction (Nat.mod_lt _ positive) (Nat.mod_lt _ positive)
            remainders⟩

end Cdoc.Foundation
