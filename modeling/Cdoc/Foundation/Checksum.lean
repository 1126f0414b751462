import Cdoc.Foundation.Bytes

/-!
# Checksums

A checksum is a function of an initial value and of the bytes fed to it, in
one or several portions.  `crc32` is the checksum of the reflected
polynomial `0xedb88320`, computed bit by bit.
-/

namespace Cdoc.Foundation

/-- The checksum of a byte string from an initial value. -/
abbrev Checksum := UInt32 → Bytes → UInt32

/-- A checksum in progress: its initial value and the bytes fed so far. -/
structure Hasher where
  initial : UInt32
  fed : Bytes

namespace Hasher

/-- A hasher which starts from the given checksum. -/
def newWithInitial (initial : UInt32) : Hasher :=
  ⟨initial, []⟩

/-- A hasher which starts from zero. -/
def new : Hasher :=
  newWithInitial 0

/-- Further bytes are fed. -/
def update (self : Hasher) (data : Bytes) : Hasher :=
  ⟨self.initial, self.fed ++ data⟩

/-- The checksum of all bytes which have been fed. -/
def finalize (checksum : Checksum) (self : Hasher) : UInt32 :=
  checksum self.initial self.fed

end Hasher

/-- One bit of the division. -/
def crc32Bit (state : UInt32) : UInt32 :=
  if state &&& 1 = 1 then (state >>> 1) ^^^ 0xedb88320 else state >>> 1

/-- The register after one byte. -/
def crc32Byte (state : UInt32) (byte : UInt8) : UInt32 :=
  Nat.repeat crc32Bit 8 (state ^^^ byte.toUInt32)

/-- The register starts and ends complemented. -/
def crc32 : Checksum := fun initial data =>
  ~~~ data.foldl crc32Byte (~~~ initial)

-- the check value of the polynomial: the digits one to nine
example :
    crc32 0 [49, 50, 51, 52, 53, 54, 55, 56, 57] = 0xcbf43926 := by
  decide +kernel

end Cdoc.Foundation
