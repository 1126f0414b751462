import Cdoc.Path.LseqOrder
import Mathlib.Data.List.Nodup

/-!
# Concurrent runs of two peers

Two peers who have not seen each other's work fill the same gap, each by a
run of insertions after its previous element.  Where a peer's first segment
goes is decided by the two neighbours of the gap:

* it owns a segment of the lower neighbour whose successor still fits below
  the upper one (`OwnSlot`), and increments that segment;
* otherwise, past the end of the upper neighbour, any segment of the lower
  neighbour is incremented, whoever owns it (`OpenSlot`);
* otherwise the peer appends a segment of its own.

In the first and third case all elements of the run keep a segment of the
peer at one place.  In the second case two peers compute the same bytes.
-/

namespace Cdoc.Path

open Cdoc.Foundation

/-! ## Where the first new segment goes -/

/-- A peer can increment a segment of its own below the upper bound. -/
def OwnSlot (pid : PID) (lo hi : List Segment) : Prop :=
  ∃ pair ∈ lo.zip hi, pair.1.pid = pid ∧
    ∃ n, pair.1.successor = .ok n ∧ n < pair.2

/-- Some segment past the end of the upper bound can be incremented. -/
def OpenSlot (lo hi : List Segment) : Prop :=
  ∃ l ∈ lo.drop hi.length, ∃ n, l.successor = .ok n ∧ n < Segment.max

theorem ownSlot_cons_cons {pid : PID} {l h : Segment}
    {ls hs : List Segment} :
    OwnSlot pid (l :: ls) (h :: hs) ↔
      (l.pid = pid ∧ ∃ n, l.successor = .ok n ∧ n < h) ∨
        OwnSlot pid ls hs := by
  simp [OwnSlot]

theorem openSlot_cons_cons {l h : Segment} {ls hs : List Segment} :
    OpenSlot (l :: ls) (h :: hs) ↔ OpenSlot ls hs := by
  simp [OpenSlot]

theorem openSlot_cons_nil {l : Segment} {ls : List Segment} :
    OpenSlot (l :: ls) [] ↔
      (∃ n, l.successor = .ok n ∧ n < Segment.max) ∨
        OpenSlot ls [] := by
  simp [OpenSlot]

/-- All segments of the list are copied on the way to what follows it. -/
def Copied (pid : PID) (lo hi : List Segment) : Prop :=
  ¬ OwnSlot pid lo hi ∧ ¬ OpenSlot lo hi

theorem copied_nil (pid : PID) (hi : List Segment) :
    Copied pid [] hi := by
  simp [Copied, OwnSlot, OpenSlot]

theorem copied_cons_cons {pid : PID} {l h : Segment}
    {ls hs : List Segment} :
    Copied pid (l :: ls) (h :: hs) ↔
      ¬ (l.pid = pid ∧ ∃ n, l.successor = .ok n ∧ n < h) ∧
        Copied pid ls hs := by
  rw [Copied, Copied, ownSlot_cons_cons, openSlot_cons_cons, not_or,
    and_assoc]

theorem copied_cons_nil {pid : PID} {l : Segment}
    {ls : List Segment} :
    Copied pid (l :: ls) [] ↔
      ¬ (∃ n, l.successor = .ok n ∧ n < Segment.max) ∧
        Copied pid ls [] := by
  simp [Copied, openSlot_cons_nil, OwnSlot]

/-- Copied segments come back in front of what is generated after them. -/
theorem betweenSegments_copied {pid : PID}
    {stem rest hi new : List Segment} (copied : Copied pid stem hi)
    (produced : betweenSegments pid (stem ++ rest) hi = .ok new) :
    ∃ tail, new = stem ++ tail ∧
      betweenSegments pid rest (hi.drop stem.length) = .ok tail := by
  induction stem generalizing hi new with
  | nil => exact ⟨new, rfl, produced⟩
  | cons l ls induction =>
      cases hi with
      | nil =>
          rcases copied_cons_nil.mp copied with ⟨blocked, copiedTail⟩
          rcases betweenSegments_cons_nil produced with
            ⟨n, step, ⟨free, _⟩ | ⟨_, tail, found, rfl⟩⟩
          · exact (blocked ⟨n, step, free⟩).elim
          · rcases induction copiedTail found with ⟨tail', rfl, inner⟩
            exact ⟨tail', rfl, by simpa using inner⟩
      | cons h hs =>
          rcases copied_cons_cons.mp copied with ⟨blocked, copiedTail⟩
          rcases betweenSegments_cons_cons produced with
            ⟨n, step, ⟨free, own, _⟩ | ⟨_, tail, found, rfl⟩⟩
          · exact (blocked ⟨own, n, step, free⟩).elim
          · rcases induction copiedTail found with ⟨tail', rfl, inner⟩
            exact ⟨tail', rfl, by simpa using inner⟩

/-- The first segment a peer increments is one of its own. -/
theorem ownSlot_split {pid : PID} {lo hi : List Segment}
    (slot : OwnSlot pid lo hi) :
    ∃ stem l rest n, lo = stem ++ l :: rest ∧ l.pid = pid ∧
      l.successor = .ok n ∧ stem.length < hi.length ∧
      Copied pid stem hi ∧
      ∀ new, betweenSegments pid lo hi = .ok new → new = stem ++ [n] := by
  induction lo generalizing hi with
  | nil => simp [OwnSlot] at slot
  | cons l ls induction =>
      cases hi with
      | nil => simp [OwnSlot] at slot
      | cons h hs =>
          by_cases here :
              l.pid = pid ∧ ∃ n, l.successor = .ok n ∧ n < h
          · rcases here with ⟨own, n, step, free⟩
            refine ⟨[], l, ls, n, rfl, own, step, by simp,
              copied_nil pid _, ?_⟩
            intro new produced
            rcases betweenSegments_cons_cons produced with
              ⟨n', step', ⟨_, _, rfl⟩ | ⟨blocked, _⟩⟩
            · rw [Except.ok.inj (step.symm.trans step')]
              rfl
            · rw [← Except.ok.inj (step.symm.trans step')] at blocked
              exact (blocked ⟨free, own⟩).elim
          · have later : OwnSlot pid ls hs :=
              (ownSlot_cons_cons.mp slot).resolve_left here
            rcases induction later with
              ⟨stem, l', rest, n, rfl, own, step, short, copied, result⟩
            refine ⟨l :: stem, l', rest, n, rfl, own, step,
              by simpa using short,
              copied_cons_cons.mpr ⟨here, copied⟩, ?_⟩
            intro new produced
            rcases betweenSegments_cons_cons produced with
              ⟨n', step', ⟨free, own', _⟩ | ⟨_, tail, found, rfl⟩⟩
            · exact (here ⟨own', n', step', free⟩).elim
            · rw [result tail found]
              rfl

/-- Without an own segment the first open one is incremented. -/
theorem openSlot_split {lo hi : List Segment} (slot : OpenSlot lo hi) :
    ∃ stem n, hi.length ≤ stem.length ∧ stem <+: lo ∧
      ∀ pid, ¬ OwnSlot pid lo hi →
        Copied pid stem hi ∧
          ∀ new, betweenSegments pid lo hi = .ok new →
            new = stem ++ [n] := by
  induction lo generalizing hi with
  | nil => simp [OpenSlot] at slot
  | cons l ls induction =>
      cases hi with
      | nil =>
          by_cases here : ∃ n, l.successor = .ok n ∧ n < Segment.max
          · rcases here with ⟨n, step, free⟩
            refine ⟨[], n, le_rfl, List.nil_prefix, fun pid _ =>
              ⟨copied_nil pid [], fun new produced => ?_⟩⟩
            rcases betweenSegments_cons_nil produced with
              ⟨n', step', ⟨_, rfl⟩ | ⟨blocked, _⟩⟩
            · rw [Except.ok.inj (step.symm.trans step')]
              rfl
            · rw [← Except.ok.inj (step.symm.trans step')] at blocked
              exact (blocked free).elim
          · have later : OpenSlot ls [] :=
              (openSlot_cons_nil.mp slot).resolve_left here
            rcases induction later with ⟨stem, n, _, isPrefix, result⟩
            refine ⟨l :: stem, n, Nat.zero_le _,
              List.cons_prefix_cons.mpr ⟨rfl, isPrefix⟩,
              fun pid none => ?_⟩
            obtain ⟨copied, last⟩ := result pid (by simp [OwnSlot])
            refine ⟨copied_cons_nil.mpr ⟨here, copied⟩,
              fun new produced => ?_⟩
            rcases betweenSegments_cons_nil produced with
              ⟨n', step, ⟨free, _⟩ | ⟨_, tail, found, rfl⟩⟩
            · exact (here ⟨n', step, free⟩).elim
            · rw [last tail found]
              rfl
      | cons h hs =>
          rcases induction (openSlot_cons_cons.mp slot) with
            ⟨stem, n, long, isPrefix, result⟩
          refine ⟨l :: stem, n, by simpa using long,
            List.cons_prefix_cons.mpr ⟨rfl, isPrefix⟩,
            fun pid none => ?_⟩
          rw [ownSlot_cons_cons, not_or] at none
          rcases result pid none.2 with ⟨copied, last⟩
          refine ⟨copied_cons_cons.mpr ⟨none.1, copied⟩,
            fun new produced => ?_⟩
          rcases betweenSegments_cons_cons produced with
            ⟨n', step, ⟨free, own, _⟩ | ⟨_, tail, found, rfl⟩⟩
          · exact (none.1 ⟨own, n', step, free⟩).elim
          · rw [last tail found]
            rfl

/-! ## Runs on segments -/

/-- Indices generated one after another below the same upper bound. -/
def RunFrom (pid : PID) (hi : List Segment) :
    List Segment → List (List Segment) → Prop
  | _, [] => True
  | lo, index :: rest =>
      betweenSegments pid lo hi = .ok index ∧ RunFrom pid hi index rest

/-- A run is strictly increasing and above the element it starts from. -/
theorem RunFrom.increasing {pid : PID} {hi lo : List Segment}
    {indices : List (List Segment)} (run : RunFrom pid hi lo indices) :
    (lo :: indices).Pairwise (· < ·) := by
  induction indices generalizing lo with
  | nil => exact List.pairwise_singleton _ _
  | cons index rest induction =>
      have above := betweenSegments_gt run.1
      have later := induction run.2
      refine List.pairwise_cons.mpr ⟨?_, later⟩
      intro entry member
      rcases List.mem_cons.mp member with rfl | inRest
      · exact above
      · exact above.trans (List.rel_of_pairwise_cons later inRest)

/-- The index has a segment of the peer right after the stem. -/
def Within (stem : List Segment) (pid : PID) (low : Nat)
    (index : List Segment) : Prop :=
  ∃ seq rest, index = stem ++ ⟨pid, seq⟩ :: rest ∧ low ≤ seq.toNat

theorem betweenSegments_own_head {pid : PID} {seq : UInt32}
    {rest hi new : List Segment}
    (produced : betweenSegments pid (⟨pid, seq⟩ :: rest) hi = .ok new) :
    ∃ seq' rest', new = ⟨pid, seq'⟩ :: rest' ∧
      seq.toNat ≤ seq'.toNat := by
  have incremented {n : Segment}
      (step : Segment.successor ⟨pid, seq⟩ = .ok n) :
      ∃ seq' rest', [n] = (⟨pid, seq'⟩ :: rest' : List Segment) ∧
        seq.toNat ≤ seq'.toNat := by
    rcases Segment.successor_eq_ok_iff.mp step with ⟨samePid, sequence⟩
    rcases n with ⟨nPid, nSeq⟩
    simp only at samePid sequence
    exact ⟨nSeq, [], by rw [samePid], by omega⟩
  cases hi with
  | nil =>
      rcases betweenSegments_cons_nil produced with
        ⟨n, step, ⟨_, rfl⟩ | ⟨_, tail, _, rfl⟩⟩
      · exact incremented step
      · exact ⟨seq, tail, rfl, le_rfl⟩
  | cons h hs =>
      rcases betweenSegments_cons_cons produced with
        ⟨n, step, ⟨_, _, rfl⟩ | ⟨_, tail, _, rfl⟩⟩
      · exact incremented step
      · exact ⟨seq, tail, rfl, le_rfl⟩

/-- Once a peer has its own segment, its run stays behind it. -/
theorem RunFrom.within {pid : PID} {stem hi lo : List Segment}
    {low : Nat} {indices : List (List Segment)}
    (copied : Copied pid stem hi) (start : Within stem pid low lo)
    (run : RunFrom pid hi lo indices) :
    ∀ index ∈ indices, Within stem pid low index := by
  induction indices generalizing lo with
  | nil => simp
  | cons first rest induction =>
      rcases run with ⟨produced, run⟩
      rcases start with ⟨seq, after, rfl, bound⟩
      rcases betweenSegments_copied copied produced with ⟨tail, rfl, inner⟩
      rcases betweenSegments_own_head inner with ⟨seq', after', rfl, grown⟩
      have here : Within stem pid low (stem ++ ⟨pid, seq'⟩ :: after') :=
        ⟨seq', after', rfl, bound.trans grown⟩
      intro index member
      rcases List.mem_cons.mp member with rfl | inRest
      · exact here
      · exact induction here run index inRest

theorem RunFrom.stem_prefix {pid : PID} {stem hi lo : List Segment}
    {indices : List (List Segment)}
    (copied : Copied pid stem hi) (start : stem <+: lo)
    (run : RunFrom pid hi lo indices) :
    ∀ index ∈ indices, stem <+: index := by
  induction indices generalizing lo with
  | nil => simp
  | cons first rest induction =>
      rcases run with ⟨produced, run⟩
      rcases start with ⟨after, rfl⟩
      rcases betweenSegments_copied copied produced with ⟨tail, rfl, _⟩
      have here : stem <+: stem ++ tail := List.prefix_append _ _
      intro index member
      rcases List.mem_cons.mp member with rfl | inRest
      · exact here
      · exact induction here run index inRest

/-- A run from an own slot stays above the segment it incremented. -/
theorem RunFrom.ownSlot {pid : PID} {hi lo : List Segment}
    {indices : List (List Segment)} (slot : OwnSlot pid lo hi)
    (run : RunFrom pid hi lo indices) :
    ∃ stem l rest, lo = stem ++ l :: rest ∧ l.pid = pid ∧
      stem.length < hi.length ∧
      ∀ index ∈ indices, Within stem pid (l.seq.toNat + 1) index := by
  rcases ownSlot_split slot with
    ⟨stem, l, rest, n, rfl, own, step, short, copied, result⟩
  refine ⟨stem, l, rest, rfl, own, short, ?_⟩
  cases indices with
  | nil => simp
  | cons first others =>
      rcases run with ⟨produced, run⟩
      rcases Segment.successor_eq_ok_iff.mp step with ⟨samePid, sequence⟩
      have here : Within stem pid (l.seq.toNat + 1) first := by
        refine ⟨n.seq, [], ?_, by omega⟩
        rw [result first produced, ← own, ← samePid]
      intro index member
      rcases List.mem_cons.mp member with rfl | later
      · exact here
      · exact run.within copied here index later

/-- A run which copies the lower bound appends a segment of its own. -/
theorem RunFrom.appended {pid : PID} {hi lo : List Segment}
    {indices : List (List Segment)} (copied : Copied pid lo hi)
    (run : RunFrom pid hi lo indices) :
    ∀ index ∈ indices, Within lo pid 1 index := by
  cases indices with
  | nil => simp
  | cons first others =>
      rcases run with ⟨produced, run⟩
      have here : Within lo pid 1 first := by
        have whole : betweenSegments pid (lo ++ []) hi = .ok first := by
          simpa using produced
        rcases betweenSegments_copied copied whole with ⟨tail, rfl, inner⟩
        simp only [betweenSegments, tailSegments, Except.ok.injEq] at inner
        subst inner
        cases hi.drop lo.length with
        | nil => exact ⟨2, [], rfl, by decide⟩
        | cons h hs =>
            rw [ownSegments]
            split
            · exact ⟨2, [], rfl, by decide⟩
            · exact ⟨1, _, rfl, by decide⟩
      intro index member
      rcases List.mem_cons.mp member with rfl | later
      · exact here
      · exact run.within copied here index later

/-! ## Two runs side by side -/

/-- All entries differ, and one list lies entirely before the other. -/
def Separated {α : Type} [LT α] (xs ys : List α) : Prop :=
  (xs ++ ys).Nodup ∧
    ((∀ x ∈ xs, ∀ y ∈ ys, x < y) ∨ ∀ x ∈ xs, ∀ y ∈ ys, y < x)

theorem Separated.symm {α : Type} [LT α] {xs ys : List α}
    (separated : Separated xs ys) : Separated ys xs := by
  refine ⟨List.perm_append_comm.nodup separated.1, ?_⟩
  rcases separated.2 with before | after
  · exact Or.inr (fun y inYs x inXs => before x inXs y inYs)
  · exact Or.inl (fun y inYs x inXs => after x inXs y inYs)

/-- Increasing lists are separated as soon as one lies before the other. -/
theorem separated_of_before {α : Type} [LinearOrder α] {xs ys : List α}
    (xsIncreasing : xs.Pairwise (· < ·))
    (ysIncreasing : ys.Pairwise (· < ·))
    (before : ∀ x ∈ xs, ∀ y ∈ ys, x < y) : Separated xs ys := by
  refine ⟨?_, Or.inl before⟩
  have increasing : (xs ++ ys).Pairwise (· < ·) :=
    List.pairwise_append.mpr ⟨xsIncreasing, ysIncreasing, before⟩
  exact increasing.imp fun less => less.ne

/-- An index behind a segment is below those past its successor. -/
theorem lt_of_within {stem index other : List Segment} {l : Segment}
    (isPrefix : stem ++ [l] <+: index)
    (within : Within stem l.pid (l.seq.toNat + 1) other) :
    index < other := by
  rcases isPrefix with ⟨after, rfl⟩
  rcases within with ⟨seq, tail, rfl, above⟩
  rw [List.append_assoc]
  apply List.append_left_lt
  apply List.cons_lt_cons_iff.mpr
  exact Or.inl (Segment.lt_iff.mpr (Or.inr ⟨rfl, by simp only; omega⟩))

/-- Behind one stem the peers decide. -/
theorem lt_of_within_of_pid {stem index other : List Segment}
    {p q : PID} (less : p.val.toNat < q.val.toNat) {low low' : Nat}
    (left : Within stem p low index)
    (right : Within stem q low' other) : index < other := by
  rcases left with ⟨seq, tail, rfl, _⟩
  rcases right with ⟨seq', tail', rfl, _⟩
  apply List.append_left_lt
  apply List.cons_lt_cons_iff.mpr
  exact Or.inl (Segment.lt_iff.mpr (Or.inl less))

theorem prefix_of_lt_length {stem stem' lo rest : List Segment}
    {l : Segment} (split : lo = stem ++ l :: rest)
    (isPrefix : stem' <+: lo) (longer : stem.length < stem'.length) :
    stem ++ [l] <+: stem' := by
  have shorter : stem ++ [l] <+: lo := by
    rw [split]
    exact ⟨rest, by simp⟩
  apply List.prefix_of_prefix_length_le shorter isPrefix
  rw [List.length_append, List.length_singleton]
  exact longer

section TwoPeers

variable {p q : PID} {lo hi : List Segment}
  {xs ys : List (List Segment)}

/-- Whatever the other peer does, an own slot separates the runs. -/
theorem separated_of_ownSlot (different : p ≠ q)
    (slot : OwnSlot p lo hi)
    (left : RunFrom p hi lo xs) (right : RunFrom q hi lo ys) :
    Separated xs ys := by
  have xsIncreasing := (List.pairwise_cons.mp left.increasing).2
  have ysIncreasing := (List.pairwise_cons.mp right.increasing).2
  rcases left.ownSlot slot with ⟨stem, l, rest, split, rfl, short, within⟩
  -- the other run starts with a longer part of the lower bound
  have further (stem' : List Segment) (isPrefix : stem' <+: lo)
      (longer : stem.length < stem'.length)
      (starts : ∀ y ∈ ys, stem' <+: y) : Separated xs ys := by
    apply Separated.symm
    apply separated_of_before ysIncreasing xsIncreasing
    intro y inYs x inXs
    exact lt_of_within
      ((prefix_of_lt_length split isPrefix longer).trans (starts y inYs))
      (within x inXs)
  by_cases slot' : OwnSlot q lo hi
  · rcases right.ownSlot slot' with
      ⟨stem', l', rest', split', rfl, _, within'⟩
    have isPrefix' : stem' <+: lo := by
      rw [split']
      exact List.prefix_append _ _
    have isPrefix : stem <+: lo := by
      rw [split]
      exact List.prefix_append _ _
    rcases Nat.lt_trichotomy stem.length stem'.length with
      longer | same | shorter
    · apply further stem' isPrefix' longer
      intro y inYs
      rcases within' y inYs with ⟨seq, tail, rfl, _⟩
      exact List.prefix_append _ _
    · -- one position has one owner
      have stems : stem = stem' :=
        List.prefix_of_prefix_length_le isPrefix isPrefix' same.le
          |>.eq_of_length same
      rw [split, stems, List.append_cancel_left_eq,
        List.cons.injEq] at split'
      exact (different (congrArg Segment.pid split'.1)).elim
    · apply separated_of_before xsIncreasing ysIncreasing
      intro x inXs y inYs
      rcases within x inXs with ⟨seq, tail, shape, _⟩
      have starts : stem <+: x := by
        rw [shape]
        exact List.prefix_append _ _
      exact lt_of_within
        ((prefix_of_lt_length split' isPrefix shorter).trans starts)
        (within' y inYs)
  · by_cases openSlot : OpenSlot lo hi
    · rcases openSlot_split openSlot with
        ⟨stem', n, long, isPrefix', result⟩
      rcases result q slot' with ⟨copied, _⟩
      exact further stem' isPrefix' (by omega)
        (right.stem_prefix copied isPrefix')
    · apply further lo (List.prefix_refl lo)
      · rw [split]
        simp
      · exact right.stem_prefix ⟨slot', openSlot⟩ (List.prefix_refl lo)

/-- Peers who both append are separated by their identifiers. -/
theorem separated_of_copied (different : p ≠ q)
    (copiedP : Copied p lo hi) (copiedQ : Copied q lo hi)
    (left : RunFrom p hi lo xs) (right : RunFrom q hi lo ys) :
    Separated xs ys := by
  have xsIncreasing := (List.pairwise_cons.mp left.increasing).2
  have ysIncreasing := (List.pairwise_cons.mp right.increasing).2
  have withinP := left.appended copiedP
  have withinQ := right.appended copiedQ
  have values : p.val.toNat ≠ q.val.toNat := by
    intro equal
    exact different (congrArg PID.mk (UInt32.toNat_inj.mp equal))
  rcases Nat.lt_or_gt_of_ne values with less | greater
  · apply separated_of_before xsIncreasing ysIncreasing
    intro x inXs y inYs
    exact lt_of_within_of_pid less (withinP x inXs) (withinQ y inYs)
  · apply Separated.symm
    apply separated_of_before ysIncreasing xsIncreasing
    intro y inYs x inXs
    exact lt_of_within_of_pid greater (withinQ y inYs) (withinP x inXs)

/-- The exact condition under which two non-empty runs are separated. -/
theorem separated_iff (different : p ≠ q)
    (xsNonempty : xs ≠ []) (ysNonempty : ys ≠ [])
    (left : RunFrom p hi lo xs) (right : RunFrom q hi lo ys) :
    Separated xs ys ↔
      OwnSlot p lo hi ∨ OwnSlot q lo hi ∨ ¬ OpenSlot lo hi := by
  constructor
  · intro separated
    by_contra neither
    simp only [not_or, not_not] at neither
    rcases neither with ⟨noneP, noneQ, openSlot⟩
    rcases openSlot_split openSlot with ⟨stem, n, _, _, result⟩
    rcases List.exists_cons_of_ne_nil xsNonempty with ⟨x, xs', rfl⟩
    rcases List.exists_cons_of_ne_nil ysNonempty with ⟨y, ys', rfl⟩
    have same : x = y := by
      rw [(result p noneP).2 x left.1, (result q noneQ).2 y right.1]
    have distinct := separated.1
    rw [List.nodup_append] at distinct
    exact distinct.2.2 x List.mem_cons_self y List.mem_cons_self same
  · rintro (slotP | slotQ | closed)
    · exact separated_of_ownSlot different slotP left right
    · exact (separated_of_ownSlot different.symm slotQ right left).symm
    · by_cases slotP : OwnSlot p lo hi
      · exact separated_of_ownSlot different slotP left right
      · by_cases slotQ : OwnSlot q lo hi
        · exact (separated_of_ownSlot different.symm slotQ right left).symm
        · exact separated_of_copied different ⟨slotP, closed⟩
            ⟨slotQ, closed⟩ left right

end TwoPeers

/-! ## Runs of the byte-level generator -/

/-- A peer inserts `count` elements, each after its previous one. -/
def betweenRun (prev next : Option FractionalIndex) (pid : PID) :
    Nat → Checked (List Bytes)
  | 0 => .ok []
  | count + 1 => do
      let index ← FractionalIndex.between prev next pid
      let rest ← betweenRun (some ⟨index⟩) next pid count
      return index :: rest

theorem betweenRun_encode {pid : PID} (nonzero : pid.val ≠ 0)
    {prev next : Option FractionalIndex} {lo hi : List Segment}
    (properLo : Proper lo) (properHi : Proper hi)
    (loBytes : (prev.map FractionalIndex.bytes).getD [] =
      encodeSegments lo)
    (hiBytes : (next.map FractionalIndex.bytes).getD [] =
      encodeSegments hi)
    {count : Nat} {indices : List Bytes}
    (produced : betweenRun prev next pid count = .ok indices) :
    ∃ segments, indices = segments.map encodeSegments ∧
      RunFrom pid hi lo segments ∧ segments.length = count := by
  induction count generalizing prev lo indices with
  | zero =>
      simp only [betweenRun, Except.ok.injEq] at produced
      exact ⟨[], produced.symm, trivial, rfl⟩
  | succ count induction =>
      simp only [betweenRun, bind_eq_ok_iff, FractionalIndex.between,
        loBytes, hiBytes, writeFractionalIndex_encode pid properLo
        properHi] at produced
      rcases produced with ⟨index, first, rest, later, produced⟩
      rcases map_eq_ok_iff.mp first with ⟨new, found, rfl⟩
      have proper := betweenSegments_proper nonzero properLo found
      rcases induction proper rfl later with
        ⟨segments, rfl, run, length⟩
      refine ⟨new :: segments, ?_, ⟨found, run⟩, by simp [length]⟩
      simpa using produced.symm

/-- Encoding keeps separation. -/
theorem separated_map_encode {xs ys : List (List Segment)} :
    Separated (xs.map encodeSegments) (ys.map encodeSegments) ↔
      Separated xs ys := by
  unfold Separated
  rw [← List.map_append, List.nodup_map_iff encodeSegments_injective]
  simp [encodeSegments_lt_iff]

namespace SharedList

/-- Whatever is generated from encoded neighbours is encoded. -/
theorem insert_encoded {list list' : List Bytes} {insertion : Insertion}
    (nonzero : insertion.pid.val ≠ 0) (shape : Shape 0xffffffff list)
    (inserted : insert list insertion = .ok list') :
    Shape 0xffffffff list' := by
  rcases shape.prev insertion.gap with ⟨lo, loBytes, loBounded⟩
  rcases shape.nextBytes insertion.gap with ⟨hi, hiBytes, hiBounded⟩
  simp only [insert, bind_eq_ok_iff, generate_eq loBounded.proper
    hiBounded.proper loBytes hiBytes] at inserted
  rcases inserted with ⟨index, generated, inserted⟩
  rcases map_eq_ok_iff.mp generated with ⟨new, found, rfl⟩
  have proper :=
    betweenSegments_proper nonzero loBounded.proper found
  have nonempty : new ≠ [] := by
    rintro rfl
    exact List.not_lt_nil lo (betweenSegments_gt found)
  rw [← Except.ok.inj inserted]
  intro entry member
  simp only [List.mem_append, List.mem_cons] at member
  rcases member with before | rfl | after
  · exact shape entry (List.mem_of_mem_take before)
  · refine ⟨new, rfl, nonempty, fun segment inside => ?_⟩
    have bound := segment.seq.toNat_lt
    exact ⟨proper segment inside, by omega⟩
  · exact shape entry (List.mem_of_mem_drop after)

theorem insertAll_encoded {list list' : List Bytes}
    {insertions : List Insertion}
    (nonzero : ∀ insertion ∈ insertions, insertion.pid.val ≠ 0)
    (shape : Shape 0xffffffff list)
    (inserted : insertAll list insertions = .ok list') :
    Shape 0xffffffff list' := by
  induction insertions generalizing list with
  | nil =>
      rcases Except.ok.inj inserted with rfl
      exact shape
  | cons insertion rest induction =>
      simp only [insertAll, bind_eq_ok_iff] at inserted
      rcases inserted with ⟨middle, first, later⟩
      exact induction
        (fun other member => nonzero other (List.mem_cons_of_mem _ member))
        (insert_encoded (nonzero insertion List.mem_cons_self) shape first)
        later

/--
At the gap one of the two peers owns a segment it can increment, or no
segment is open to everybody.
-/
def ExclusiveSlots (list : List Bytes) (gap : Nat) (p q : PID) : Prop :=
  ∀ lo hi, ((prev list gap).getD ⟨[]⟩).segments = .ok lo →
    ((next list gap).getD ⟨[]⟩).segments = .ok hi →
    OwnSlot p lo hi ∨ OwnSlot q lo hi ∨ ¬ OpenSlot lo hi

/--
Two peers fill the same gap of a list built by earlier insertions.  Their
runs neither collide nor interleave exactly when the slots at the gap are
exclusive.
-/
theorem runs_separated_iff_exclusiveSlots
    (history : List Insertion)
    (nonzero : ∀ insertion ∈ history, insertion.pid.val ≠ 0)
    (list : List Bytes) (built : insertAll [] history = .ok list)
    (gap : Nat) (p q : PID) (properP : p.val ≠ 0) (properQ : q.val ≠ 0)
    (different : p ≠ q) (m n : Nat) (someP : 1 ≤ m) (someQ : 1 ≤ n)
    (xs ys : List Bytes)
    (left : betweenRun (prev list gap) (next list gap) p m = .ok xs)
    (right : betweenRun (prev list gap) (next list gap) q n = .ok ys) :
    Separated xs ys ↔ ExclusiveSlots list gap p q := by
  have shape : Shape 0xffffffff list :=
    insertAll_encoded nonzero (by simp [Shape]) built
  rcases shape.prev gap with ⟨lo, loBytes, loBounded⟩
  rcases shape.nextBytes gap with ⟨hi, hiBytes, hiBounded⟩
  rcases betweenRun_encode properP
      loBounded.proper hiBounded.proper
      ((neighbour_bytes _).trans loBytes)
      ((neighbour_bytes _).trans hiBytes) left with
    ⟨xSegments, rfl, runP, xLength⟩
  rcases betweenRun_encode properQ
      loBounded.proper hiBounded.proper
      ((neighbour_bytes _).trans loBytes)
      ((neighbour_bytes _).trans hiBytes) right with
    ⟨ySegments, rfl, runQ, yLength⟩
  have xNonempty : xSegments ≠ [] := by
    rintro rfl
    simp only [List.length_nil] at xLength
    omega
  have yNonempty : ySegments ≠ [] := by
    rintro rfl
    simp only [List.length_nil] at yLength
    omega
  rw [separated_map_encode,
    separated_iff different xNonempty yNonempty runP runQ]
  have loSegments : ((prev list gap).getD ⟨[]⟩).segments = .ok lo := by
    rw [← FractionalIndex.segments_encode loBounded.proper, ← loBytes]
  have hiSegments : ((next list gap).getD ⟨[]⟩).segments = .ok hi := by
    rw [← FractionalIndex.segments_encode hiBounded.proper, ← hiBytes]
  constructor
  · intro slots lo' hi' loParsed hiParsed
    rcases Except.ok.inj (loSegments.symm.trans loParsed) with rfl
    rcases Except.ok.inj (hiSegments.symm.trans hiParsed) with rfl
    exact slots
  · intro exclusive
    exact exclusive lo hi loSegments hiSegments

/--
Peers 1 and 2 both append to a list which holds one element of peer 1, and
generate the same index.
-/
theorem append_runs_collide :
    insertAll [] [⟨0, ⟨1⟩⟩] = .ok [[1, 1, 1, 2]] ∧
      betweenRun (prev [[1, 1, 1, 2]] 1) (next [[1, 1, 1, 2]] 1) ⟨1⟩ 1 =
        .ok [[1, 1, 1, 3]] ∧
      betweenRun (prev [[1, 1, 1, 2]] 1) (next [[1, 1, 1, 2]] 1) ⟨2⟩ 1 =
        .ok [[1, 1, 1, 3]] ∧
      ¬ Separated [[1, 1, 1, 3]] ([[1, 1, 1, 3]] : List Bytes) := by
  refine ⟨rfl, rfl, rfl, ?_⟩
  rintro ⟨distinct, _⟩
  exact absurd distinct (by decide)

/-- Peers 2 and 3 both insert two elements before one of peer 4. -/
theorem runs_separated_iff_exclusiveSlots_before :
    Separated ([[1, 2, 1, 2], [1, 2, 1, 3]] : List Bytes)
        [[1, 3, 1, 2], [1, 3, 1, 3]] ↔
      ExclusiveSlots [[1, 4, 1, 2]] 0 ⟨2⟩ ⟨3⟩ :=
  runs_separated_iff_exclusiveSlots [⟨0, ⟨4⟩⟩] (by decide)
    [[1, 4, 1, 2]] rfl 0 ⟨2⟩ ⟨3⟩ (by decide) (by decide) (by decide)
    2 2 (by decide) (by decide) _ _ rfl rfl

end SharedList

end Cdoc.Path
