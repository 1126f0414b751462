import Cdoc.Foundation.Bytes

/-!
# Texts as bytes

The UTF-8 encoding seen from a scanner of bytes.  The characters below 128
are single bytes, and all bytes of the other characters are at least 128.  A
test of bytes which does not tell the latter apart is a test of characters,
and it selects the same part of a text in both views.
-/

namespace Cdoc.Foundation

/-- The bytes of a text. -/
def utf8 (text : List Char) : Bytes :=
  text.flatMap String.utf8EncodeChar

@[simp]
theorem utf8_nil : utf8 [] = [] :=
  rfl

theorem utf8_cons (char : Char) (text : List Char) :
    utf8 (char :: text) = String.utf8EncodeChar char ++ utf8 text :=
  List.flatMap_cons

theorem utf8_append (left right : List Char) :
    utf8 (left ++ right) = utf8 left ++ utf8 right :=
  List.flatMap_append

theorem utf8_eq_nil_iff {text : List Char} : utf8 text = [] ↔ text = [] := by
  cases text with
  | nil => exact ⟨fun _ => rfl, fun _ => rfl⟩
  | cons char text =>
      rw [utf8_cons, List.append_eq_nil_iff]
      constructor
      · intro empty
        exact absurd empty.1 String.utf8EncodeChar_ne_nil
      · intro impossible
        cases impossible

theorem toByteArray_eq_utf8 (text : String) :
    text.toByteArray.data.toList = utf8 text.toList := by
  conv_lhs => rw [← String.ofList_toList (s := text)]
  rw [String.toByteArray_ofList, List.utf8Encode,
    List.data_toByteArray]
  rfl

/-- `std::str::from_utf8`. -/
def fromUtf8 (bytes : Bytes) : Option String :=
  String.fromUTF8? bytes.toByteArray

theorem fromUtf8_utf8 (text : List Char) :
    fromUtf8 (utf8 text) = some (String.ofList text) := by
  have valid : (utf8 text).toByteArray.IsValidUTF8 := ⟨text, rfl⟩
  rw [fromUtf8, String.fromUTF8?, dif_pos valid]
  congr 1

/-! ## Single characters -/

theorem utf8EncodeChar_of_narrow {char : Char} (narrow : char.toNat < 128) :
    String.utf8EncodeChar char = [UInt8.ofNat char.toNat] := by
  have small : char.val.toNat ≤ 127 := Nat.le_of_lt_succ narrow
  rw [String.utf8EncodeChar, if_pos small]
  rfl

theorem utf8EncodeChar_of_wide {char : Char} (wide : 128 ≤ char.toNat) :
    ∀ byte ∈ String.utf8EncodeChar char, 128 ≤ byte.toNat := by
  have large : ¬ char.val.toNat ≤ 127 := Nat.not_le_of_gt wide
  rw [String.utf8EncodeChar, if_neg large]
  intro byte member
  split_ifs at member <;>
    simp only [List.mem_cons, List.not_mem_nil, or_false] at member <;>
    rcases member with rfl | rfl | rfl | rfl <;>
    simp only [UInt8.toNat_ofNat'] <;>
    omega

/-- A character below 128 is recognised by its byte. -/
theorem utf8_eq_cons_iff {mark : Char} (narrow : mark.toNat < 128)
    {text : List Char} {rest : Bytes} :
    utf8 text = UInt8.ofNat mark.toNat :: rest ↔
      ∃ after, text = mark :: after ∧ rest = utf8 after := by
  have code : (UInt8.ofNat mark.toNat).toNat = mark.toNat := by
    rw [UInt8.toNat_ofNat']
    omega
  constructor
  · intro equal
    cases text with
    | nil => cases equal
    | cons char after =>
        rw [utf8_cons] at equal
        by_cases small : char.toNat < 128
        · rw [utf8EncodeChar_of_narrow small] at equal
          obtain ⟨same, rest⟩ := List.cons.inj equal
          have codes : char.toNat = mark.toNat := by
            rw [← code, ← same, UInt8.toNat_ofNat']
            omega
          exact ⟨after, by rw [Char.toNat_inj.mp codes], rest.symm⟩
        · have wide := utf8EncodeChar_of_wide (Nat.le_of_not_lt small)
          cases bytes : String.utf8EncodeChar char with
          | nil => exact absurd bytes String.utf8EncodeChar_ne_nil
          | cons byte others =>
              rw [bytes] at equal wide
              have large := wide byte (List.mem_cons_self ..)
              rw [(List.cons.inj equal).1, code] at large
              exact absurd narrow (Nat.not_lt.mpr large)
  · rintro ⟨after, rfl, rfl⟩
    rw [utf8_cons, utf8EncodeChar_of_narrow narrow]
    rfl

theorem utf8_eq_append_iff {part : List Char}
    (narrow : ∀ char ∈ part, char.toNat < 128) {text : List Char}
    {rest : Bytes} :
    utf8 text = utf8 part ++ rest ↔
      ∃ after, text = part ++ after ∧ rest = utf8 after := by
  constructor
  · intro equal
    induction part generalizing text with
    | nil => exact ⟨text, rfl, equal.symm⟩
    | cons char part induction =>
        have first := narrow char (List.mem_cons_self ..)
        rw [utf8_cons, utf8EncodeChar_of_narrow first] at equal
        obtain ⟨middle, rfl, behind⟩ := (utf8_eq_cons_iff first).mp equal
        obtain ⟨after, rfl, rest⟩ := induction
          (fun other member => narrow other (List.mem_cons_of_mem _ member))
          behind.symm
        exact ⟨after, rfl, rest⟩
  · rintro ⟨after, rfl, rfl⟩
    rw [utf8_append]

/-! ## Tests -/

/-- A test of bytes which is a test of characters. -/
def Agree (onByte : UInt8 → Bool) (onChar : Char → Bool) : Prop :=
  ∀ char, ∀ byte ∈ String.utf8EncodeChar char, onByte byte = onChar char

/-- It is enough to compare the tests below 128. -/
theorem agree_of_narrow {onByte : UInt8 → Bool} {onChar : Char → Bool}
    (other : Bool)
    (narrow : ∀ code < 128,
      onByte (UInt8.ofNat code) = onChar (Char.ofNat code))
    (wideByte : ∀ code < 256, 128 ≤ code →
      onByte (UInt8.ofNat code) = other)
    (wideChar : ∀ char : Char, 128 ≤ char.toNat → onChar char = other) :
    Agree onByte onChar := by
  intro char byte member
  by_cases small : char.toNat < 128
  · rw [utf8EncodeChar_of_narrow small, List.mem_singleton] at member
    rw [member, narrow _ small, Char.ofNat_toNat]
  · have large := Nat.le_of_not_lt small
    have accepted := wideByte byte.toNat byte.toNat_lt
      (utf8EncodeChar_of_wide large byte member)
    rw [UInt8.ofNat_toNat] at accepted
    rw [wideChar char large, accepted]

section Tests

variable {onByte : UInt8 → Bool} {onChar : Char → Bool}

theorem takeWhile_utf8 (agree : Agree onByte onChar) (text : List Char) :
    (utf8 text).takeWhile onByte = utf8 (text.takeWhile onChar) := by
  induction text with
  | nil => rfl
  | cons char text induction =>
      rw [utf8_cons]
      cases accepted : onChar char with
      | true =>
          have all : ∀ byte ∈ String.utf8EncodeChar char,
              onByte byte = true :=
            fun byte member => (agree char byte member).trans accepted
          rw [List.takeWhile_append_of_pos all, induction,
            List.takeWhile_cons_of_pos accepted, utf8_cons]
      | false =>
          rw [List.takeWhile_cons_of_neg (by rw [accepted]; simp)]
          cases bytes : String.utf8EncodeChar char with
          | nil => exact absurd bytes String.utf8EncodeChar_ne_nil
          | cons byte others =>
              have refused : onByte byte = false :=
                (agree char byte (bytes ▸ List.mem_cons_self ..)).trans
                  accepted
              rw [List.cons_append,
                List.takeWhile_cons_of_neg (by rw [refused]; simp)]
              rfl

theorem any_head_utf8 (agree : Agree onByte onChar) (text : List Char) :
    (utf8 text).head?.any onByte = text.head?.any onChar := by
  cases text with
  | nil => rfl
  | cons char text =>
      rw [utf8_cons]
      cases bytes : String.utf8EncodeChar char with
      | nil => exact absurd bytes String.utf8EncodeChar_ne_nil
      | cons byte others =>
          exact agree char byte (bytes ▸ List.mem_cons_self ..)

end Tests

end Cdoc.Foundation
