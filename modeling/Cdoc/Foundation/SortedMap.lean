import Mathlib.Data.List.Lex
import Mathlib.Order.Lattice

/-!
# Finite maps as strictly increasing lists

A finite map over a linear order is the list of its entries in strictly
increasing key order.  The order is a field of the structure, so equal maps
have equal lists of entries: `SortedMap.ext_get`.

Inserting, overlaying one map on another and selecting the keys with a
property are described through `lookup`.
-/

namespace Cdoc.Foundation

universe u v

variable {κ : Type u} {ν : Type v} [LinearOrder κ]

/-! ## Entry lists -/

/-- The keys are strictly increasing. -/
def Increasing (entries : List (κ × ν)) : Prop :=
  entries.Pairwise fun left right => left.1 < right.1

/-- The value of the first entry with a key. -/
def lookup (key : κ) : List (κ × ν) → Option ν
  | [] => none
  | (other, value) :: rest =>
      if other = key then some value else lookup key rest

/-- The entries with one of them replaced or added at its place. -/
def insertEntry (key : κ) (value : ν) : List (κ × ν) → List (κ × ν)
  | [] => [(key, value)]
  | (other, old) :: rest =>
      if key < other then
        (key, value) :: (other, old) :: rest
      else if key = other then
        (key, value) :: rest
      else
        (other, old) :: insertEntry key value rest

@[simp]
theorem lookup_nil (key : κ) : lookup key ([] : List (κ × ν)) = none :=
  rfl

theorem lookup_cons (key : κ) (entry : κ × ν) (rest : List (κ × ν)) :
    lookup key (entry :: rest) =
      if entry.1 = key then some entry.2 else lookup key rest :=
  rfl

theorem mem_of_lookup_eq_some {key : κ} {value : ν}
    {entries : List (κ × ν)}
    (found : lookup key entries = some value) :
    (key, value) ∈ entries := by
  induction entries with
  | nil => cases found
  | cons head tail induction =>
      rw [lookup_cons] at found
      by_cases same : head.1 = key
      · rw [if_pos same] at found
        cases found
        subst same
        exact List.mem_cons_self
      · rw [if_neg same] at found
        exact List.mem_cons_of_mem _ (induction found)

theorem lookup_eq_none_iff {key : κ} {entries : List (κ × ν)} :
    lookup key entries = none ↔ ∀ entry ∈ entries, entry.1 ≠ key := by
  induction entries with
  | nil => simp
  | cons head tail induction =>
      rw [lookup_cons]
      by_cases same : head.1 = key
      · rw [if_pos same]
        simp [same]
      · rw [if_neg same, induction]
        simp [same]

/-- In an increasing list the entry of a key is unique. -/
theorem Increasing.lookup_eq_some_iff {key : κ} {value : ν}
    {entries : List (κ × ν)} (increasing : Increasing entries) :
    lookup key entries = some value ↔ (key, value) ∈ entries := by
  constructor
  · exact mem_of_lookup_eq_some
  · intro member
    induction entries with
    | nil => cases member
    | cons head tail induction =>
        rcases List.pairwise_cons.mp increasing with
          ⟨below, tailIncreasing⟩
        rw [lookup_cons]
        rcases List.mem_cons.mp member with rfl | inTail
        · rw [if_pos rfl]
        · rw [if_neg (below _ inTail).ne,
            induction tailIncreasing inTail]

/-- Increasing lists with the same values are equal. -/
theorem Increasing.ext {left right : List (κ × ν)}
    (leftIncreasing : Increasing left)
    (rightIncreasing : Increasing right)
    (same : ∀ key, lookup key left = lookup key right) :
    left = right := by
  have members : ∀ entry, entry ∈ left ↔ entry ∈ right := by
    rintro ⟨key, value⟩
    rw [← leftIncreasing.lookup_eq_some_iff,
      ← rightIncreasing.lookup_eq_some_iff, same]
  have leftDistinct : left.Nodup :=
    List.Pairwise.imp (fun less equal => less.ne (congrArg _ equal))
      leftIncreasing
  have rightDistinct : right.Nodup :=
    List.Pairwise.imp (fun less equal => less.ne (congrArg _ equal))
      rightIncreasing
  exact ((List.perm_ext_iff_of_nodup leftDistinct rightDistinct).mpr
    members).eq_of_pairwise
      (fun _ _ _ _ less greater => (lt_asymm less greater).elim)
      leftIncreasing rightIncreasing

theorem lookup_insertEntry (key other : κ) (value : ν)
    (entries : List (κ × ν)) :
    lookup other (insertEntry key value entries) =
      if key = other then some value else lookup other entries := by
  induction entries with
  | nil => rfl
  | cons head tail induction =>
      rcases head with ⟨present, old⟩
      rw [insertEntry]
      split
      · rw [lookup_cons]
      · split
        · rename_i same
          rw [lookup_cons, lookup_cons]
          by_cases sought : key = other
          · rw [if_pos sought, if_pos sought]
          · rw [if_neg sought, if_neg sought,
              if_neg (fun equal => sought (same.trans equal))]
        · rename_i different
          rw [lookup_cons, lookup_cons, induction]
          by_cases present' : present = other
          · subst present'
            rw [if_pos rfl, if_pos rfl, if_neg different]
          · rw [if_neg present', if_neg present']

theorem mem_insertEntry {key : κ} {value : ν} {entries : List (κ × ν)}
    {entry : κ × ν} (member : entry ∈ insertEntry key value entries) :
    entry = (key, value) ∨ entry ∈ entries := by
  induction entries with
  | nil => exact Or.inl (List.mem_singleton.mp member)
  | cons head tail induction =>
      rcases head with ⟨present, old⟩
      rw [insertEntry] at member
      split at member
      · rcases List.mem_cons.mp member with new | before
        · exact Or.inl new
        · exact Or.inr before
      · split at member
        · rcases List.mem_cons.mp member with new | before
          · exact Or.inl new
          · exact Or.inr (List.mem_cons_of_mem _ before)
        · rcases List.mem_cons.mp member with rfl | inTail
          · exact Or.inr List.mem_cons_self
          · rcases induction inTail with new | before
            · exact Or.inl new
            · exact Or.inr (List.mem_cons_of_mem _ before)

theorem Increasing.insertEntry {entries : List (κ × ν)}
    (increasing : Increasing entries) (key : κ) (value : ν) :
    Increasing (insertEntry key value entries) := by
  induction entries with
  | nil => exact List.pairwise_singleton _ _
  | cons head tail induction =>
      rcases head with ⟨present, old⟩
      rcases List.pairwise_cons.mp increasing with
        ⟨below, tailIncreasing⟩
      rw [Foundation.insertEntry]
      split
      · rename_i less
        refine List.pairwise_cons.mpr ⟨?_, increasing⟩
        intro entry member
        rcases List.mem_cons.mp member with rfl | inTail
        · exact less
        · exact less.trans (below entry inTail)
      · rename_i notLess
        split
        · rename_i same
          subst same
          exact List.pairwise_cons.mpr ⟨below, tailIncreasing⟩
        · rename_i different
          refine List.pairwise_cons.mpr
            ⟨?_, induction tailIncreasing⟩
          intro entry member
          rcases mem_insertEntry member with rfl | inTail
          · exact lt_of_le_of_ne (not_lt.mp notLess) (Ne.symm different)
          · exact below entry inTail

/-- Selecting keys with a property. -/
theorem lookup_filter (selected : κ → Bool) (key : κ)
    (entries : List (κ × ν)) :
    lookup key (entries.filter fun entry => selected entry.1) =
      if selected key then lookup key entries else none := by
  induction entries with
  | nil => simp
  | cons head tail induction =>
      rw [List.filter_cons]
      by_cases same : head.1 = key
      · subst same
        by_cases chosen : selected head.1 = true
        · simp [chosen, lookup_cons]
        · simp only [chosen, if_neg, Bool.false_eq_true,
            not_false_eq_true]
          rw [induction, if_neg chosen]
      · split
        · rw [lookup_cons, lookup_cons, if_neg same, if_neg same,
            induction]
        · rw [lookup_cons, if_neg same, induction]

theorem Increasing.filter {entries : List (κ × ν)}
    (increasing : Increasing entries) (selected : κ × ν → Bool) :
    Increasing (entries.filter selected) :=
  List.Pairwise.filter selected increasing

/-- Inserting one list after another: the later entries win. -/
theorem lookup_foldl_insertEntry {upper : List (κ × ν)}
    (increasing : Increasing upper) (lower : List (κ × ν)) (key : κ) :
    lookup key (upper.foldl
        (fun entries entry => insertEntry entry.1 entry.2 entries)
        lower) =
      (lookup key upper).or (lookup key lower) := by
  induction upper generalizing lower with
  | nil => simp
  | cons head tail induction =>
      rcases List.pairwise_cons.mp increasing with
        ⟨below, tailIncreasing⟩
      rw [List.foldl_cons, induction tailIncreasing,
        lookup_insertEntry, lookup_cons]
      by_cases same : head.1 = key
      · have absent : lookup key tail = none := by
          rw [lookup_eq_none_iff]
          intro entry member equal
          exact (below entry member).ne (same.trans equal.symm)
        rw [if_pos same, if_pos same, absent]
        rfl
      · rw [if_neg same, if_neg same]

/-! ## Maps -/

/-- A finite map: entries in strictly increasing key order. -/
structure SortedMap (κ : Type u) (ν : Type v) [LinearOrder κ] where
  entries : List (κ × ν)
  increasing : Increasing entries

namespace SortedMap

/-- The map without entries. -/
def empty : SortedMap κ ν :=
  ⟨[], List.Pairwise.nil⟩

/-- The value of a key, if it has one. -/
def get (map : SortedMap κ ν) (key : κ) : Option ν :=
  lookup key map.entries

/-- The map in which the key has the value, whatever it had before. -/
def insert (map : SortedMap κ ν) (key : κ) (value : ν) :
    SortedMap κ ν :=
  ⟨insertEntry key value map.entries, map.increasing.insertEntry key value⟩

/-- All entries of a list inserted in turn. -/
def insertAll (map : SortedMap κ ν) (entries : List (κ × ν)) :
    SortedMap κ ν :=
  entries.foldl (fun map entry => map.insert entry.1 entry.2) map

/-- Maps with the same values are equal. -/
theorem ext_get {left right : SortedMap κ ν}
    (same : ∀ key, left.get key = right.get key) : left = right := by
  rcases left with ⟨leftEntries, leftIncreasing⟩
  rcases right with ⟨rightEntries, rightIncreasing⟩
  have entries : leftEntries = rightEntries :=
    leftIncreasing.ext rightIncreasing same
  subst entries
  rfl

@[simp]
theorem get_empty (key : κ) : (empty : SortedMap κ ν).get key = none :=
  rfl

theorem get_insert (map : SortedMap κ ν) (key other : κ) (value : ν) :
    (map.insert key value).get other =
      if key = other then some value else map.get other :=
  lookup_insertEntry key other value map.entries

@[simp]
theorem get_insert_self (map : SortedMap κ ν) (key : κ) (value : ν) :
    (map.insert key value).get key = some value := by
  rw [get_insert, if_pos rfl]

theorem entries_insertAll (map : SortedMap κ ν)
    (entries : List (κ × ν)) :
    (map.insertAll entries).entries =
      entries.foldl
        (fun present entry => insertEntry entry.1 entry.2 present)
        map.entries := by
  unfold insertAll
  induction entries generalizing map with
  | nil => rfl
  | cons head tail induction =>
      rw [List.foldl_cons, List.foldl_cons, induction]
      rfl

/-- What is found was inserted or was there before. -/
theorem get_insertAll_eq_some {map : SortedMap κ ν}
    {entries : List (κ × ν)} {key : κ} {value : ν}
    (found : (map.insertAll entries).get key = some value) :
    (key, value) ∈ entries ∨ map.get key = some value := by
  induction entries generalizing map with
  | nil => exact Or.inr found
  | cons head tail induction =>
      rcases induction found with inTail | before
      · exact Or.inl (List.mem_cons_of_mem _ inTail)
      · rw [get_insert] at before
        split at before
        · rename_i same
          cases before
          subst same
          exact Or.inl (List.mem_cons_self ..)
        · exact Or.inr before

/-- Inserting the entries of a map overlays it. -/
theorem get_insertAll (map : SortedMap κ ν) {entries : List (κ × ν)}
    (increasing : Increasing entries) (key : κ) :
    (map.insertAll entries).get key =
      (lookup key entries).or (map.get key) := by
  unfold get
  rw [entries_insertAll, lookup_foldl_insertEntry increasing]

end SortedMap

end Cdoc.Foundation
