import Mathlib.Data.List.Induction
import Cdoc.Foundation.SortedMap

/-!
# Layers of maps

A map may be spread over layers, the upper ones hiding the lower ones.  What
a stack of layers stands for can be read off in two ways: by asking one
layer after the other from the top, and by inserting one layer after the
other from the bottom.  Selecting some of the keys may be done on each layer
or on the whole.
-/

namespace Cdoc.Foundation.SortedMap

universe u v

variable {κ : Type u} {ν : Type v} [LinearOrder κ]

/-! ## Two layers -/

/-- The lower map with the entries of the upper one on top. -/
def overlay (lower upper : SortedMap κ ν) : SortedMap κ ν :=
  lower.insertAll upper.entries

@[simp]
theorem get_overlay (lower upper : SortedMap κ ν) (key : κ) :
    (lower.overlay upper).get key =
      (upper.get key).or (lower.get key) :=
  get_insertAll lower upper.increasing key

@[simp]
theorem overlay_empty (lower : SortedMap κ ν) :
    lower.overlay empty = lower :=
  rfl

/-- A layer which is written twice counts once. -/
theorem overlay_overlay_self (lower upper : SortedMap κ ν) :
    (lower.overlay upper).overlay upper = lower.overlay upper := by
  apply ext_get
  intro key
  simp only [get_overlay]
  cases upper.get key <;> rfl

/--
A middle layer may be left out exactly when it is hidden by the upper layer
or repeats the lower one.
-/
theorem overlay_eq_overlay_overlay_iff
    (lower middle upper : SortedMap κ ν) :
    lower.overlay upper = lower.overlay (middle.overlay upper) ↔
      ∀ key value, (middle.overlay upper).get key = some value →
        upper.get key ≠ none ∨ lower.get key = some value := by
  constructor
  · intro same key value found
    by_cases hidden : upper.get key = none
    · have lookups := congrArg (fun map => map.get key) same
      simp only [get_overlay, hidden, Option.none_or] at lookups found
      rw [found] at lookups
      exact Or.inr lookups
    · exact Or.inl hidden
  · intro recoverable
    apply ext_get
    intro key
    rw [get_overlay, get_overlay, get_overlay]
    cases top : upper.get key with
    | some value => rfl
    | none =>
        cases kept : middle.get key with
        | none => rfl
        | some value =>
            have found : (middle.overlay upper).get key = some value := by
              rw [get_overlay, top, kept]
              rfl
            rcases recoverable key value found with hidden | repeated
            · exact absurd top hidden
            · exact repeated

theorem overlay_insert (lower upper : SortedMap κ ν) (key : κ)
    (value : ν) :
    lower.overlay (upper.insert key value) =
      (lower.overlay upper).insert key value := by
  apply ext_get
  intro other
  rw [get_overlay, get_insert, get_insert, get_overlay]
  split
  · rfl
  · rfl

@[simp]
theorem insertAll_nil (map : SortedMap κ ν) : map.insertAll [] = map :=
  rfl

theorem insertAll_append (map : SortedMap κ ν)
    (left right : List (κ × ν)) :
    map.insertAll (left ++ right) =
      (map.insertAll left).insertAll right :=
  List.foldl_append

theorem insertAll_concat (map : SortedMap κ ν)
    (entries : List (κ × ν)) (entry : κ × ν) :
    map.insertAll (entries ++ [entry]) =
      (map.insertAll entries).insert entry.1 entry.2 :=
  insertAll_append map entries [entry]

/-- Insertions into the upper layer are insertions into the whole. -/
theorem overlay_insertAll (lower upper : SortedMap κ ν)
    (entries : List (κ × ν)) :
    lower.overlay (upper.insertAll entries) =
      (lower.overlay upper).insertAll entries := by
  induction entries using List.reverseRecOn with
  | nil => rfl
  | append_singleton entries entry induction =>
      rw [insertAll_concat, insertAll_concat, overlay_insert, induction]

theorem get_insertAll_eq_none_iff {entries : List (κ × ν)} {key : κ} :
    ((empty : SortedMap κ ν).insertAll entries).get key = none ↔
      key ∉ entries.map Prod.fst := by
  induction entries using List.reverseRecOn with
  | nil => simp
  | append_singleton entries entry induction =>
      rw [insertAll_concat, get_insert]
      by_cases same : entry.1 = key
      · simp [same]
      · simp [same, Ne.symm same, induction]

/-! ## Many layers -/

/-- The map of a list of layers, the uppermost first. -/
def stack : List (SortedMap κ ν) → SortedMap κ ν
  | [] => empty
  | upper :: layers => (stack layers).overlay upper

/-! ## Selected keys -/

/-- The entries whose key is selected. -/
def select (selected : κ → Bool) (map : SortedMap κ ν) :
    SortedMap κ ν :=
  ⟨map.entries.filter (fun entry => selected entry.1),
    map.increasing.filter _⟩

theorem get_select (selected : κ → Bool) (map : SortedMap κ ν)
    (key : κ) :
    (map.select selected).get key =
      if selected key then map.get key else none :=
  lookup_filter selected key map.entries

theorem select_overlay (selected : κ → Bool)
    (lower upper : SortedMap κ ν) :
    (lower.overlay upper).select selected =
      (lower.select selected).overlay (upper.select selected) := by
  apply ext_get
  intro key
  rw [get_overlay, get_select, get_select, get_select, get_overlay]
  split
  · rfl
  · rfl

theorem select_insert_of_selected {selected : κ → Bool}
    (map : SortedMap κ ν) {key : κ} (chosen : selected key = true)
    (value : ν) :
    (map.insert key value).select selected =
      (map.select selected).insert key value := by
  apply ext_get
  intro other
  rw [get_select, get_insert, get_insert, get_select]
  by_cases same : key = other
  · simp [← same, chosen]
  · simp [same]

theorem select_insert_of_not_selected {selected : κ → Bool}
    (map : SortedMap κ ν) {key : κ} (skipped : selected key = false)
    (value : ν) :
    (map.insert key value).select selected = map.select selected := by
  apply ext_get
  intro other
  rw [get_select, get_insert, get_select]
  by_cases same : key = other
  · simp [← same, skipped]
  · simp [same]

/-- Without the given key. -/
def erase (map : SortedMap κ ν) (key : κ) : SortedMap κ ν :=
  map.select (fun other => decide (other ≠ key))

theorem select_erase_of_not_selected {selected : κ → Bool}
    (map : SortedMap κ ν) {key : κ} (skipped : selected key = false) :
    (map.erase key).select selected = map.select selected := by
  apply ext_get
  intro other
  rw [erase, get_select, get_select, get_select]
  by_cases same : other = key
  · simp [same, skipped]
  · simp [same]

/-- A key above all others is inserted at the end. -/
theorem entries_insert_of_greatest (map : SortedMap κ ν) {key : κ}
    (greatest : ∀ entry ∈ map.entries, entry.1 < key) (value : ν) :
    (map.insert key value).entries = map.entries ++ [(key, value)] := by
  show insertEntry key value map.entries = _
  generalize map.entries = entries at greatest
  induction entries with
  | nil => rfl
  | cons head tail induction =>
      have less := greatest head List.mem_cons_self
      rw [insertEntry, if_neg less.not_gt, if_neg less.ne',
        induction fun entry member =>
          greatest entry (List.mem_cons_of_mem _ member)]
      rfl

end Cdoc.Foundation.SortedMap
