import Cdoc.Foundation.Bytes
import Cdoc.Foundation.Overlay

/-!
# Directories

A directory is a map from file names to contents.  File names are compared
as byte strings, so the entries of the map are in the order in which sorted
paths are.  The extension of a name is what follows its last dot, unless the
dot is the first character or there is none.
-/

namespace Cdoc.Foundation

/-- A directory of files. -/
abbrev Directory := SortedMap Bytes Bytes

namespace Directory

/-- The dot before an extension. -/
def DOT : UInt8 := 0x2e

/-- What stands before and behind the last dot. -/
def splitLastDot (name : Bytes) : Option (Bytes × Bytes) :=
  match name.reverse.dropWhile (· != DOT) with
  | [] => none
  | _ :: before =>
      some (before.reverse,
        (name.reverse.takeWhile (· != DOT)).reverse)

/-- `Path::extension` of a file name. -/
def extension (name : Bytes) : Option Bytes :=
  if name = [DOT, DOT] then
    none
  else
    match splitLastDot name with
    | none => none
    | some (before, after) => if before = [] then none else some after

/-- The files with the given extension, in the order of their names. -/
def filesWith (suffix : Bytes) (directory : Directory) :
    List (Bytes × Bytes) :=
  (directory.select
    (fun name => decide (extension name = some suffix))).entries

/-- `rename`: a file of the new name is replaced. -/
def rename (directory : Directory) (source target : Bytes) :
    Option Directory := do
  let contents ← directory.get source
  return SortedMap.insert (SortedMap.erase directory source) target contents

/-! ## Extensions -/

theorem splitLastDot_append (before : Bytes) {after : Bytes}
    (noDot : DOT ∉ after) :
    splitLastDot (before ++ DOT :: after) = some (before, after) := by
  unfold splitLastDot
  have reversed : (before ++ DOT :: after).reverse =
      after.reverse ++ DOT :: before.reverse := by
    simp
  have plain : ∀ byte ∈ after.reverse, (byte != DOT) = true := by
    intro byte member
    rw [bne_iff_ne]
    rintro rfl
    exact noDot (List.mem_reverse.mp member)
  rw [reversed, List.takeWhile_append_of_pos plain,
    List.dropWhile_append_of_pos plain]
  simp

/-- A dot and a further part is an extension unless nothing precedes it. -/
theorem extension_append {before after : Bytes} (nonempty : before ≠ [])
    (noDot : DOT ∉ after) (named : after ≠ []) :
    extension (before ++ DOT :: after) = some after := by
  have notParent : before ++ DOT :: after ≠ [DOT, DOT] := by
    intro parent
    have length := congrArg List.length parent
    have beforePositive := List.length_pos_of_ne_nil nonempty
    have afterPositive := List.length_pos_of_ne_nil named
    simp only [List.length_append, List.length_cons, List.length_nil]
      at length
    omega
  unfold extension
  rw [if_neg notParent, splitLastDot_append before noDot]
  simp [nonempty]

/-! ## Files with an extension -/

section Changes

variable {suffix name : Bytes} {directory : Directory}

theorem mem_filesWith_insert {contents : Bytes} {file : Bytes × Bytes}
    (member : file ∈
      filesWith suffix (SortedMap.insert directory name contents)) :
    file = (name, contents) ∨ file ∈ filesWith suffix directory := by
  rcases List.mem_filter.mp member with ⟨present, chosen⟩
  rcases mem_insertEntry present with new | before
  · exact Or.inl new
  · exact Or.inr (List.mem_filter.mpr ⟨before, chosen⟩)

theorem mem_filesWith_erase {file : Bytes × Bytes}
    (member : file ∈ filesWith suffix (SortedMap.erase directory name)) :
    file ∈ filesWith suffix directory := by
  rcases List.mem_filter.mp member with ⟨present, chosen⟩
  exact List.mem_filter.mpr ⟨(List.mem_filter.mp present).1, chosen⟩

theorem filesWith_insert_other (other : extension name ≠ some suffix)
    (contents : Bytes) :
    filesWith suffix (SortedMap.insert directory name contents) =
      filesWith suffix directory :=
  congrArg SortedMap.entries
    (SortedMap.select_insert_of_not_selected directory
      (decide_eq_false other) contents)

theorem filesWith_erase_other (other : extension name ≠ some suffix) :
    filesWith suffix (SortedMap.erase directory name) =
      filesWith suffix directory :=
  congrArg SortedMap.entries
    (SortedMap.select_erase_of_not_selected directory
      (decide_eq_false other))

/-- A new file whose name is above all others comes last. -/
theorem filesWith_insert_last (same : extension name = some suffix)
    (greatest : ∀ file ∈ filesWith suffix directory, file.1 < name)
    (contents : Bytes) :
    filesWith suffix (SortedMap.insert directory name contents) =
      filesWith suffix directory ++ [(name, contents)] := by
  unfold filesWith
  rw [SortedMap.select_insert_of_selected directory
    (decide_eq_true same)]
  exact SortedMap.entries_insert_of_greatest _ greatest contents

end Changes

end Directory

end Cdoc.Foundation
