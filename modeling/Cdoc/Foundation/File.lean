import Cdoc.Foundation.Bytes

/-!
# Files

A file is its contents and a position.  Computations which change a state
and may fail keep the state they have reached when they fail; this is what
is left of an interrupted sequence of writes.

A file carries a *fault*: the number of bytes the device still accepts
before it fails, or nothing when it does not fail.  A write which does not
fit into it persists the bytes which do and reports an error.
-/

namespace Cdoc.Foundation

/-- The error which a failing device reports. -/
inductive IoError where
  | device
deriving DecidableEq, Repr

/-- A fallible computation on a state, which survives a failure. -/
abbrev Io (σ α : Type) := EStateM IoError σ α

theorem io_bind_of_ok {σ α β : Type} {first : Io σ α} {next : α → Io σ β}
    {state middle : σ} {value : α}
    (done : first state = .ok value middle) :
    (first >>= next) state = next value middle := by
  simp only [bind, EStateM.bind, done]

theorem io_bind_of_error {σ α β : Type} {first : Io σ α}
    {next : α → Io σ β} {state middle : σ} {failure : IoError}
    (failed : first state = .error failure middle) :
    (first >>= next) state = .error failure middle := by
  simp only [bind, EStateM.bind, failed]

/--
A file with its position.  Its device fails once it has accepted as many bytes
as `fault` says.
-/
structure File where
  contents : Bytes
  position : Nat
  fault : Option Nat
deriving DecidableEq, Repr

/-- A device with the given fault accepts the given number of bytes. -/
def accepts (fault : Option Nat) (length : Nat) : Bool :=
  match fault with
  | none => true
  | some accepted => decide (length ≤ accepted)

namespace File

/-- A new, empty file on a device without a fault. -/
def empty : File :=
  ⟨[], 0, none⟩

/-- Contents cut or filled up with zeros to a length. -/
def resize (contents : Bytes) (length : Nat) : Bytes :=
  contents.take length ++ List.replicate (length - contents.length) 0

/-- The contents after writing at a position. -/
def overwrite (contents : Bytes) (position : Nat) (data : Bytes) : Bytes :=
  resize contents position ++ data ++
    contents.drop (position + data.length)

/-- `write_all` at the current position. -/
def writeAll (data : Bytes) : Io File Unit := fun file =>
  match file.fault with
  | none =>
      .ok () { file with
        contents := overwrite file.contents file.position data
        position := file.position + data.length }
  | some accepted =>
      let persisted := data.take accepted
      let file := { file with
        contents := overwrite file.contents file.position persisted
        position := file.position + persisted.length
        fault := some (accepted - persisted.length) }
      if data.length ≤ accepted then
        .ok () file
      else
        .error .device file

/-- `File::set_len`: the file is cut or filled with zero bytes. -/
def setLen (length : Nat) : Io File Unit := fun file =>
  .ok () { file with contents := resize file.contents length }

/-- `seek(SeekFrom::Start(position))`. -/
def seek (position : Nat) : Io File Unit := fun file =>
  .ok () { file with position }

/-- `Seek::stream_position`. -/
def streamPosition : Io File Nat := fun file =>
  .ok file.position file

/-- The position is the end of the file. -/
def AtEnd (file : File) : Prop :=
  file.position = file.contents.length

theorem overwrite_end (contents data : Bytes) :
    overwrite contents contents.length data = contents ++ data := by
  simp [overwrite, resize]

/-- Writing over bytes of the same number. -/
theorem overwrite_middle (before after : Bytes) {old data : Bytes}
    (same : old.length = data.length) :
    overwrite (before ++ (old ++ after)) before.length data =
      before ++ (data ++ after) := by
  simp [overwrite, resize, ← same]

/-- The file after appending, with the given fault. -/
def appended (file : File) (data : Bytes) (fault : Option Nat) : File :=
  ⟨file.contents ++ data, file.position + data.length, fault⟩

theorem AtEnd.appended {file : File} (atEnd : file.AtEnd) (data : Bytes)
    (fault : Option Nat) : (file.appended data fault).AtEnd := by
  simp only [AtEnd, File.appended, List.length_append] at atEnd ⊢
  omega

theorem length_resize (contents : Bytes) (length : Nat) :
    (resize contents length).length = length := by
  simp only [resize, List.length_append, List.length_take,
    List.length_replicate]
  omega

/-- The first bytes of a file are what a cut leaves. -/
theorem resize_append_length (before after : Bytes) :
    resize (before ++ after) before.length = before := by
  simp [resize]

end File

/-- `read_exact` from the remaining bytes of a file. -/
def readExact (length : Nat) (rest : Bytes) : Option (Bytes × Bytes) :=
  if length ≤ rest.length then
    some (rest.take length, rest.drop length)
  else
    none

theorem readExact_append (data after : Bytes) :
    readExact data.length (data ++ after) = some (data, after) := by
  simp [readExact]

theorem readExact_append_of_eq {length : Nat} {data : Bytes}
    (exact : data.length = length) (after : Bytes) :
    readExact length (data ++ after) = some (data, after) := by
  rw [← exact, readExact_append]

theorem readExact_eq_some_iff {length : Nat} {rest data after : Bytes} :
    readExact length rest = some (data, after) ↔
      data.length = length ∧ rest = data ++ after := by
  constructor
  · intro read
    unfold readExact at read
    split at read
    · rename_i within
      cases read
      exact ⟨List.length_take_of_le within,
        (List.take_append_drop length rest).symm⟩
    · cases read
  · rintro ⟨exact, rfl⟩
    exact readExact_append_of_eq exact after

end Cdoc.Foundation
