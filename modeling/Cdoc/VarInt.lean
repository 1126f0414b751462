import Cdoc.Foundation.Checked
import Cdoc.Foundation.OrderedCode
import Cdoc.Foundation.PrefixRange

/-!
# Length-prefixed variable integers

The encoding of `src/varint.rs`: one byte for the number of significant
bytes, then those bytes, most significant first.  Leading zero bytes are
stripped on writing.  Reading copies the announced number of bytes to the
end of a zeroed buffer of the full width; the copy panics when fewer bytes
remain than were announced.

The macro of the source is one pair of functions with the width in bytes as
a parameter.  Its instances for native and for big-endian integers compute
the same bytes and are listed under their types.
-/

namespace Cdoc.VarInt

open Cdoc.Foundation

/-- `read_from` at a width of `size` bytes: the value and the bytes used. -/
def readFrom (size : Nat) (bytes : Bytes) :
    Checked (Option (Nat × Nat)) :=
  match bytes with
  | [] => .ok none
  | first :: _ =>
      let byteCount := first.toNat
      if size < byteCount then
        .ok none
      else do
        let data ← slice bytes 1 (1 + byteCount)
        let buffer := List.replicate (size - byteCount) 0 ++ data
        return some (ofBeBytes buffer, byteCount + 1)

/-- `write` at a width of `size` bytes. -/
def write (size value : Nat) : Bytes :=
  let be := beBytes size value
  let zeros := (be.takeWhile (· == 0)).length
  UInt8.ofNat (size - zeros) :: be.drop zeros

namespace U16

/-- `U16::read_from`. -/
def readFrom := VarInt.readFrom 2

/-- `U16::write`. -/
def write (value : UInt16) := VarInt.write 2 value.toNat

end U16

namespace U32

/-- `U32::read_from`. -/
def readFrom := VarInt.readFrom 4

/-- `U32::write`. -/
def write (value : UInt32) := VarInt.write 4 value.toNat

end U32

namespace U64

/-- `U64::read_from`. -/
def readFrom := VarInt.readFrom 8

/-- `U64::write`. -/
def write (value : UInt64) := VarInt.write 8 value.toNat

end U64

namespace U128

/-- `U128::read_from`. -/
def readFrom := VarInt.readFrom 16

/-- `U128::write`. -/
def write (value : BitVec 128) := VarInt.write 16 value.toNat

end U128

namespace BE16

/-- `BE16::read_from`. -/
def readFrom := VarInt.readFrom 2

/-- `BE16::write`. -/
def write (value : UInt16) := VarInt.write 2 value.toNat

end BE16

namespace BE32

/-- `BE32::read_from`. -/
def readFrom := VarInt.readFrom 4

/-- `BE32::write`. -/
def write (value : UInt32) := VarInt.write 4 value.toNat

end BE32

namespace BE64

/-- `BE64::read_from`. -/
def readFrom := VarInt.readFrom 8

/-- `BE64::write`. -/
def write (value : UInt64) := VarInt.write 8 value.toNat

end BE64

namespace BE128

/-- `BE128::read_from`. -/
def readFrom := VarInt.readFrom 16

/-- `BE128::write`. -/
def write (value : BitVec 128) := VarInt.write 16 value.toNat

end BE128

/-- All instances of `read_from`. -/
def readers : List (Bytes → Checked (Option (Nat × Nat))) :=
  [U16.readFrom, U32.readFrom, U64.readFrom, U128.readFrom,
    BE16.readFrom, BE32.readFrom, BE64.readFrom, BE128.readFrom]

theorem exists_size_of_mem_readers
    {reader : Bytes → Checked (Option (Nat × Nat))}
    (member : reader ∈ readers) :
    ∃ size, size ≤ 16 ∧ reader = readFrom size := by
  simp only [readers, List.mem_cons, List.not_mem_nil, or_false] at member
  rcases member with rfl | rfl | rfl | rfl | rfl | rfl | rfl | rfl
  · exact ⟨2, by decide, rfl⟩
  · exact ⟨4, by decide, rfl⟩
  · exact ⟨8, by decide, rfl⟩
  · exact ⟨16, by decide, rfl⟩
  · exact ⟨2, by decide, rfl⟩
  · exact ⟨4, by decide, rfl⟩
  · exact ⟨8, by decide, rfl⟩
  · exact ⟨16, by decide, rfl⟩

/-! ## Significant bytes -/

/-- The number of leading zero bytes which `write` strips. -/
def leadingZeros (size value : Nat) : Nat :=
  ((beBytes size value).takeWhile (· == 0)).length

/-- The number of bytes which `write` keeps. -/
def byteLength (size value : Nat) : Nat :=
  size - leadingZeros size value

theorem byteLength_le (size value : Nat) :
    byteLength size value ≤ size :=
  Nat.sub_le _ _

theorem leadingZeros_succ_of_lt
    {size value : Nat} (small : value < 256 ^ size) :
    leadingZeros (size + 1) value = leadingZeros size value + 1 := by
  simp [leadingZeros, beBytes, Nat.div_eq_of_lt small,
    Nat.mod_eq_of_lt small]

theorem leadingZeros_succ_of_le
    {size value : Nat} (fits : value < 256 ^ (size + 1))
    (large : 256 ^ size ≤ value) :
    leadingZeros (size + 1) value = 0 := by
  have positive : 0 < value / 256 ^ size :=
    Nat.div_pos large (Nat.pow_pos (by decide))
  have nonzero : UInt8.ofNat (value / 256 ^ size) ≠ 0 := by
    intro zero
    have number := congrArg UInt8.toNat zero
    rw [toNat_leadingByte fits] at number
    simp only [UInt8.toNat_zero] at number
    omega
  simp [leadingZeros, beBytes, nonzero]

/--
What `write` keeps: the rendering of the value at its own byte length, which
is the least width the value fits into.
-/
theorem significant_spec
    {size value : Nat} (fits : value < 256 ^ size) :
    (beBytes size value).drop (leadingZeros size value) =
        beBytes (byteLength size value) value ∧
      value < 256 ^ byteLength size value ∧
      ∀ width, value < 256 ^ width → byteLength size value ≤ width := by
  induction size with
  | zero =>
      simpa [beBytes, byteLength, leadingZeros] using fits
  | succ size induction =>
      by_cases small : value < 256 ^ size
      · have shape := leadingZeros_succ_of_lt small
        have sameLength :
            byteLength (size + 1) value = byteLength size value := by
          simp only [byteLength, shape]
          omega
        rw [sameLength, shape]
        simpa [beBytes, Nat.mod_eq_of_lt small] using induction small
      · have large : 256 ^ size ≤ value := Nat.le_of_not_lt small
        have shape := leadingZeros_succ_of_le fits large
        have fullLength : byteLength (size + 1) value = size + 1 := by
          simp [byteLength, shape]
        rw [fullLength, shape]
        refine ⟨rfl, fits, fun width narrow => ?_⟩
        by_contra short
        have growth : 256 ^ width ≤ 256 ^ size :=
          Nat.pow_le_pow_right (by decide) (by omega)
        omega

theorem write_eq
    {size value : Nat} (fits : value < 256 ^ size) :
    write size value =
      UInt8.ofNat (byteLength size value) ::
        beBytes (byteLength size value) value := by
  rw [← (significant_spec fits).1]
  rfl

@[simp]
theorem length_write
    {size value : Nat} (fits : value < 256 ^ size) :
    (write size value).length = byteLength size value + 1 := by
  simp [write_eq fits]

theorem byteLength_mono
    {size left right : Nat}
    (rightFits : right < 256 ^ size) (less : left ≤ right) :
    byteLength size left ≤ byteLength size right := by
  have leftFits : left < 256 ^ size := by omega
  apply (significant_spec leftFits).2.2
  exact less.trans_lt (significant_spec rightFits).2.1

theorem byteLength_eq_zero_iff
    {size value : Nat} (fits : value < 256 ^ size) :
    byteLength size value = 0 ↔ value = 0 := by
  constructor
  · intro zero
    have bound := (significant_spec fits).2.1
    rw [zero] at bound
    simpa using bound
  · rintro rfl
    exact Nat.le_zero.mp ((significant_spec fits).2.2 0 (by decide))

/-! ## Reading back -/

/--
Reading at any width what was written at another: the same number when it
fits the reader's width, and nothing otherwise.
-/
theorem readFrom_write_append
    {size value : Nat} (fits : value < 256 ^ size)
    (octet : size < 256) (readerSize : Nat) (rest : Bytes) :
    readFrom readerSize (write size value ++ rest) =
      .ok (if value < 256 ^ readerSize then
        some (value, (write size value).length) else none) := by
  rcases significant_spec fits with ⟨_, bound, least⟩
  have lengthOctet :
      (UInt8.ofNat (byteLength size value)).toNat =
        byteLength size value := by
    have short := byteLength_le size value
    rw [UInt8.toNat_ofNat']
    omega
  rw [length_write fits, write_eq fits]
  simp only [readFrom, List.cons_append, lengthOctet]
  by_cases narrow : value < 256 ^ readerSize
  · have within := least readerSize narrow
    have data : slice
        (UInt8.ofNat (byteLength size value) ::
          (beBytes (byteLength size value) value ++ rest))
        1 (1 + byteLength size value) =
          .ok (beBytes (byteLength size value) value) := by
      simpa using slice_append_append
        [UInt8.ofNat (byteLength size value)]
        (beBytes (byteLength size value) value) rest
    rw [if_neg (by omega), if_pos narrow, data]
    simp [ofBeBytes_beBytes bound]
  · have wide : readerSize < byteLength size value := by
      by_contra short
      apply narrow
      exact bound.trans_le
        (Nat.pow_le_pow_right (by decide) (by omega))
    rw [if_pos wide, if_neg narrow]

theorem readFrom_write_append_self
    {size value : Nat} (fits : value < 256 ^ size)
    (octet : size < 256) (rest : Bytes) :
    readFrom size (write size value ++ rest) =
      .ok (some (value, (write size value).length)) := by
  rw [readFrom_write_append fits octet, if_pos fits]

theorem U32.readFrom_write_append (value : UInt32) (rest : Bytes) :
    U32.readFrom (U32.write value ++ rest) =
      .ok (some (value.toNat, (U32.write value).length)) :=
  readFrom_write_append_self value.toNat_lt (by decide) rest

theorem BE32.readFrom_write_append (value : UInt32) (rest : Bytes) :
    BE32.readFrom (BE32.write value ++ rest) =
      .ok (some (value.toNat, (BE32.write value).length)) :=
  readFrom_write_append_self value.toNat_lt (by decide) rest

theorem U64.readFrom_write_append (value : UInt64) (rest : Bytes) :
    U64.readFrom (U64.write value ++ rest) =
      .ok (some (value.toNat, (U64.write value).length)) :=
  readFrom_write_append_self value.toNat_lt (by decide) rest

/-! ## Arbitrary bytes -/

/-- A length byte and that many bytes. -/
def announced (data : Bytes) : Bytes :=
  UInt8.ofNat data.length :: data

/-- A length byte which the width allows, and too few bytes behind it. -/
def Cut (size : Nat) (bytes : Bytes) : Prop :=
  ∃ length rest, bytes = length :: rest ∧ length.toNat ≤ size ∧
    rest.length < length.toNat

/-- Nothing is read from an empty string and behind too large a length. -/
def Unreadable (size : Nat) (bytes : Bytes) : Prop :=
  ∀ length rest, bytes = length :: rest → size < length.toNat

@[simp]
theorem length_announced (data : Bytes) :
    (announced data).length = data.length + 1 :=
  rfl

/-- Leading zero bytes are read, although they are never written. -/
theorem readFrom_announced {size : Nat} (octet : size < 256)
    {data : Bytes} (short : data.length ≤ size) (rest : Bytes) :
    readFrom size (announced data ++ rest) =
      .ok (some (ofBeBytes data, data.length + 1)) := by
  have length : (UInt8.ofNat data.length).toNat = data.length := by
    rw [UInt8.toNat_ofNat']
    omega
  have sliced := slice_append_append [UInt8.ofNat data.length] data rest
  rw [List.singleton_append, List.length_singleton] at sliced
  simp only [readFrom, announced, List.cons_append, length,
    if_neg (Nat.not_lt.mpr short), sliced, ok_bind, pure_eq_ok,
    ofBeBytes_replicate_zero_append]

theorem readFrom_of_unreadable {size : Nat} {bytes : Bytes}
    (unreadable : Unreadable size bytes) :
    readFrom size bytes = .ok none := by
  cases bytes with
  | nil => rfl
  | cons length rest =>
      simp only [readFrom, if_pos (unreadable length rest rfl)]

theorem readFrom_of_cut {size : Nat} {bytes : Bytes}
    (cut : Cut size bytes) :
    readFrom size bytes = .error .sliceIndex := by
  obtain ⟨length, rest, rfl, short, missing⟩ := cut
  have outside : ¬ (1 ≤ 1 + length.toNat ∧
      1 + length.toNat ≤ (length :: rest).length) := by
    rw [List.length_cons]
    omega
  simp only [readFrom, if_neg (Nat.not_lt.mpr short), slice,
    if_neg outside, error_bind]

/-- One of the three holds of every byte string. -/
theorem announced_or_cut (size : Nat) (bytes : Bytes) :
    (∃ data rest, data.length ≤ size ∧ bytes = announced data ++ rest) ∨
      Unreadable size bytes ∨ Cut size bytes := by
  cases bytes with
  | nil =>
      refine Or.inr (Or.inl ?_)
      intro length rest impossible
      cases impossible
  | cons length rest =>
      by_cases short : length.toNat ≤ size
      · by_cases missing : rest.length < length.toNat
        · exact Or.inr (Or.inr ⟨length, rest, rfl, short, missing⟩)
        · have taken : (rest.take length.toNat).length = length.toNat := by
            rw [List.length_take]
            omega
          refine Or.inl ⟨rest.take length.toNat, rest.drop length.toNat,
            by rwa [taken], ?_⟩
          rw [announced, taken, UInt8.ofNat_toNat, List.cons_append,
            List.take_append_drop]
      · refine Or.inr (Or.inl ?_)
        intro other others same
        cases same
        omega

theorem readFrom_ok_iff {size : Nat} (octet : size < 256) (bytes : Bytes) :
    (∃ result, readFrom size bytes = .ok result) ↔ ¬ Cut size bytes := by
  constructor
  · rintro ⟨result, read⟩ cut
    rw [readFrom_of_cut cut] at read
    cases read
  · intro whole
    rcases announced_or_cut size bytes with
      ⟨data, rest, short, rfl⟩ | unreadable | cut
    · exact ⟨_, readFrom_announced octet short rest⟩
    · exact ⟨_, readFrom_of_unreadable unreadable⟩
    · exact absurd cut whole

/-- What has been read stood there, possibly with leading zero bytes. -/
theorem readFrom_eq_some_iff {size : Nat} (octet : size < 256)
    {bytes : Bytes} {value used : Nat} :
    readFrom size bytes = .ok (some (value, used)) ↔
      ∃ data rest, data.length ≤ size ∧ bytes = announced data ++ rest ∧
        value = ofBeBytes data ∧ used = data.length + 1 := by
  constructor
  · intro read
    rcases announced_or_cut size bytes with
      ⟨data, rest, short, rfl⟩ | unreadable | cut
    · rw [readFrom_announced octet short] at read
      simp only [Except.ok.injEq, Option.some.injEq, Prod.mk.injEq]
        at read
      exact ⟨data, rest, short, rfl, read.1.symm, read.2.symm⟩
    · rw [readFrom_of_unreadable unreadable] at read
      cases read
    · rw [readFrom_of_cut cut] at read
      cases read
  · rintro ⟨data, rest, short, rfl, rfl, rfl⟩
    exact readFrom_announced octet short rest

/-- A successful reading does not depend on the bytes behind it. -/
theorem readFrom_append {size value used : Nat} (octet : size < 256)
    {bytes : Bytes}
    (read : readFrom size bytes = .ok (some (value, used)))
    (rest : Bytes) :
    readFrom size (bytes ++ rest) = .ok (some (value, used)) ∧
      0 < used ∧ used ≤ bytes.length := by
  rcases (readFrom_eq_some_iff octet).mp read with
    ⟨data, behind, short, rfl, rfl, rfl⟩
  refine ⟨?_, Nat.succ_pos _, by simp [announced]⟩
  rw [List.append_assoc]
  exact readFrom_announced octet short (behind ++ rest)

theorem Cut.mono {size wider : Nat} (le : size ≤ wider) {bytes : Bytes}
    (cut : Cut size bytes) : Cut wider bytes := by
  obtain ⟨length, rest, rfl, short, missing⟩ := cut
  exact ⟨length, rest, rfl, short.trans le, missing⟩

/-! ## Order -/

/-- Written integers keep their order whatever follows them. -/
theorem write_append_lt
    {size left right : Nat} (octet : size < 256)
    (rightFits : right < 256 ^ size) (less : left < right)
    (leftRest rightRest : Bytes) :
    write size left ++ leftRest < write size right ++ rightRest := by
  have leftFits : left < 256 ^ size := less.trans rightFits
  have leftLength := byteLength_le size left
  have rightLength := byteLength_le size right
  rw [write_eq leftFits, write_eq rightFits, List.cons_append,
    List.cons_append, List.cons_lt_cons_iff, UInt8.lt_iff_toNat_lt,
    UInt8.toNat_ofNat', UInt8.toNat_ofNat',
    Nat.mod_eq_of_lt (by omega), Nat.mod_eq_of_lt (by omega)]
  rcases (byteLength_mono rightFits less.le).lt_or_eq with
    shorter | same
  · exact Or.inl shorter
  · have leftBound := (significant_spec leftFits).2.1
    rw [same] at leftBound ⊢
    exact Or.inr ⟨rfl, beBytes_append_lt leftBound
      (significant_spec rightFits).2.1 less leftRest rightRest⟩

section Wide

variable {size : Nat} {data : Bytes}

theorem byteLength_le_length (octet : data.length ≤ size) :
    byteLength size (ofBeBytes data) ≤ data.length :=
  (significant_spec ((ofBeBytes_lt data).trans_le
    (Nat.pow_le_pow_right (by decide) octet))).2.2 _ (ofBeBytes_lt data)

/-- Without leading zero bytes an integer has been written. -/
theorem announced_eq_write (short : data.length ≤ size)
    (exact_ : data.length = byteLength size (ofBeBytes data)) :
    announced data = write size (ofBeBytes data) := by
  have fits : ofBeBytes data < 256 ^ size :=
    (ofBeBytes_lt data).trans_le
      (Nat.pow_le_pow_right (by decide) short)
  rw [write_eq fits, ← exact_, beBytes_ofBeBytes, announced]

/-- The length byte decides first. -/
theorem announced_lt_write_iff (octet : size < 256)
    (short : data.length ≤ size) {value : Nat}
    (fits : value < 256 ^ size) (rest rightRest : Bytes) :
    announced data ++ rest < write size value ++ rightRest ↔
      data.length < byteLength size value ∨
        data.length = byteLength size value ∧
          data ++ rest <
            beBytes (byteLength size value) value ++ rightRest := by
  have bound := byteLength_le size value
  have number : ∀ length, length ≤ size →
      (UInt8.ofNat length).toNat = length := by
    intro length small
    rw [UInt8.toNat_ofNat']
    omega
  rw [write_eq fits, announced, List.cons_append, List.cons_append,
    List.cons_lt_cons_iff, UInt8.lt_iff_toNat_lt, ← UInt8.toNat_inj,
    number _ short, number _ bound]

/-- Beside its own number a wide integer is smaller only when it is exact. -/
theorem announced_lt_write_self_iff (octet : size < 256)
    (short : data.length ≤ size) (rest rightRest : Bytes) :
    announced data ++ rest <
        write size (ofBeBytes data) ++ rightRest ↔
      data.length = byteLength size (ofBeBytes data) ∧
        rest < rightRest := by
  have fits : ofBeBytes data < 256 ^ size :=
    (ofBeBytes_lt data).trans_le
      (Nat.pow_le_pow_right (by decide) short)
  have least := byteLength_le_length short
  rw [announced_lt_write_iff octet short fits]
  constructor
  · rintro (shorter | ⟨same, less⟩)
    · omega
    · rw [← same, beBytes_ofBeBytes, append_lt_append_iff] at less
      exact ⟨same, less⟩
  · rintro ⟨same, less⟩
    refine Or.inr ⟨same, ?_⟩
    rw [← same, beBytes_ofBeBytes, append_lt_append_iff]
    exact less

/-- It is smaller than the next number unless it is longer. -/
theorem announced_lt_write_succ_iff (octet : size < 256)
    (short : data.length ≤ size)
    (fits : ofBeBytes data + 1 < 256 ^ size) (rest rightRest : Bytes) :
    announced data ++ rest <
        write size (ofBeBytes data + 1) ++ rightRest ↔
      data.length ≤ byteLength size (ofBeBytes data + 1) := by
  rw [announced_lt_write_iff octet short fits]
  constructor
  · rintro (shorter | ⟨same, -⟩)
    · exact shorter.le
    · exact same.le
  · intro le
    rcases le.lt_or_eq with shorter | same
    · exact Or.inl shorter
    · refine Or.inr ⟨same, ?_⟩
      have bound := (significant_spec fits).2.1
      rw [← same] at bound ⊢
      have less := beBytes_append_lt (ofBeBytes_lt data) bound
        (Nat.lt_succ_self _) rest rightRest
      rwa [beBytes_ofBeBytes] at less

end Wide

/-- The ordered code of 32-bit integers. -/
def code32 : OrderedCode UInt32 UInt8 where
  encode := U32.write
  Less left right := left.toNat < right.toNat
  trichotomy left right := by
    rcases Nat.lt_trichotomy left.toNat right.toNat with
      less | equal | greater
    · exact Or.inl less
    · exact Or.inr (Or.inl (UInt32.toNat_inj.mp equal))
    · exact Or.inr (Or.inr greater)
  lt_append {_ right} less :=
    write_append_lt (by decide) right.toNat_lt less
  encode_ne_nil _ := by simp [U32.write, write]

/-- The ordered code of 64-bit integers. -/
def code64 : OrderedCode UInt64 UInt8 where
  encode := U64.write
  Less left right := left.toNat < right.toNat
  trichotomy left right := by
    rcases Nat.lt_trichotomy left.toNat right.toNat with
      less | equal | greater
    · exact Or.inl less
    · exact Or.inr (Or.inl (UInt64.toNat_inj.mp equal))
    · exact Or.inr (Or.inr greater)
  lt_append {_ right} less :=
    write_append_lt (by decide) right.toNat_lt less
  encode_ne_nil _ := by simp [U64.write, write]

/-! ## The types of the source -/

/-- The types which implement the trait. -/
inductive Integer where
  | u16
  | u32
  | u64
  | u128
  | be16
  | be32
  | be64
  | be128
deriving DecidableEq, Repr

namespace Integer

/-- The type of the integers of an instance. -/
def Value : Integer → Type
  | .u16 | .be16 => UInt16
  | .u32 | .be32 => UInt32
  | .u64 | .be64 => UInt64
  | .u128 | .be128 => BitVec 128

/-- `size_of`. -/
def size : Integer → Nat
  | .u16 | .be16 => 2
  | .u32 | .be32 => 4
  | .u64 | .be64 => 8
  | .u128 | .be128 => 16

/-- The number of an integer. -/
def toNat : (integer : Integer) → integer.Value → Nat
  | .u16 | .be16 => UInt16.toNat
  | .u32 | .be32 => UInt32.toNat
  | .u64 | .be64 => UInt64.toNat
  | .u128 | .be128 => BitVec.toNat

/-- `read_from` of an instance. -/
def readFrom : Integer → Bytes → Checked (Option (Nat × Nat))
  | .u16 => U16.readFrom
  | .u32 => U32.readFrom
  | .u64 => U64.readFrom
  | .u128 => U128.readFrom
  | .be16 => BE16.readFrom
  | .be32 => BE32.readFrom
  | .be64 => BE64.readFrom
  | .be128 => BE128.readFrom

/-- `write` of an instance. -/
def write : (integer : Integer) → integer.Value → Bytes
  | .u16 => U16.write
  | .u32 => U32.write
  | .u64 => U64.write
  | .u128 => U128.write
  | .be16 => BE16.write
  | .be32 => BE32.write
  | .be64 => BE64.write
  | .be128 => BE128.write

section Types

variable (integer : Integer)

theorem size_lt : integer.size < 256 := by
  cases integer <;> decide

theorem readFrom_eq : integer.readFrom = VarInt.readFrom integer.size := by
  cases integer <;> rfl

theorem write_eq_write (value : integer.Value) :
    integer.write value =
      VarInt.write integer.size (integer.toNat value) := by
  cases integer <;> rfl

theorem toNat_lt (value : integer.Value) :
    integer.toNat value < 256 ^ integer.size := by
  cases integer with
  | u16 => exact UInt16.toNat_lt value
  | u32 => exact UInt32.toNat_lt value
  | u64 => exact UInt64.toNat_lt value
  | u128 => exact BitVec.isLt value
  | be16 => exact UInt16.toNat_lt value
  | be32 => exact UInt32.toNat_lt value
  | be64 => exact UInt64.toNat_lt value
  | be128 => exact BitVec.isLt value

theorem toNat_injective : Function.Injective integer.toNat := by
  intro left right equal
  cases integer with
  | u16 => exact UInt16.toNat_inj.mp equal
  | u32 => exact UInt32.toNat_inj.mp equal
  | u64 => exact UInt64.toNat_inj.mp equal
  | u128 => exact BitVec.toNat_inj.mp equal
  | be16 => exact UInt16.toNat_inj.mp equal
  | be32 => exact UInt32.toNat_inj.mp equal
  | be64 => exact UInt64.toNat_inj.mp equal
  | be128 => exact BitVec.toNat_inj.mp equal

/-- The ordered code of the integers of one type. -/
def code : OrderedCode integer.Value UInt8 where
  encode := integer.write
  Less left right := integer.toNat left < integer.toNat right
  trichotomy left right := by
    rcases Nat.lt_trichotomy (integer.toNat left) (integer.toNat right) with
      less | equal | greater
    · exact Or.inl less
    · exact Or.inr (Or.inl (integer.toNat_injective equal))
    · exact Or.inr (Or.inr greater)
  lt_append {left right} less leftRest rightRest := by
    rw [write_eq_write, write_eq_write]
    exact write_append_lt integer.size_lt (integer.toNat_lt right) less
      leftRest rightRest
  encode_ne_nil value := by
    rw [write_eq_write]
    exact List.cons_ne_nil _ _

/-- What is read at the width of any type. -/
theorem readFrom_write_append (reader : Integer) (value : integer.Value)
    (rest : Bytes) :
    reader.readFrom (integer.write value ++ rest) =
      .ok (if integer.toNat value < 256 ^ reader.size then
        some (integer.toNat value, (integer.write value).length)
        else none) := by
  rw [readFrom_eq, write_eq_write]
  exact VarInt.readFrom_write_append (integer.toNat_lt value)
    integer.size_lt reader.size rest

/--
Written integers are read back in front of any bytes, no one of them starts
another one, and they keep their order.  A type of another width reads the
number if it fits.
-/
theorem write_embeds (x y : integer.Value) (r s : Bytes) :
    integer.readFrom (integer.write x ++ r) =
        .ok (some (integer.toNat x, (integer.write x).length)) ∧
      (integer.write x <+: integer.write y → x = y) ∧
      (integer.toNat x < integer.toNat y →
        integer.write x ++ r < integer.write y ++ s) ∧
      ∀ reader : Integer, reader.readFrom (integer.write x ++ r) =
        .ok (if integer.toNat x < 256 ^ reader.size then
          some (integer.toNat x, (integer.write x).length) else none) := by
  refine ⟨?_, ?_, ?_, ?_⟩
  · rw [readFrom_write_append, if_pos (integer.toNat_lt x)]
  · rintro ⟨rest, equal⟩
    rw [← List.append_nil (integer.write y)] at equal
    exact (integer.code.append_inj equal).1
  · intro less
    exact integer.code.lt_append less r s
  · intro reader
    exact integer.readFrom_write_append reader x r

end Types

end Integer

end Cdoc.VarInt
