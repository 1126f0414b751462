import Cdoc.Path.LseqOrder

/-!
# Edits of a single peer

When every index of a list was generated by one peer, an insertion of that
peer finds room at every gap.  The reason is the shape of such an index: all
its segments belong to the peer, no sequence number is zero, and the last one
is at least two.  `Owned` states it, and every insertion restores it.
-/

namespace Cdoc.Path

open Cdoc.Foundation

/-! ## Indices of one peer -/

/-- Segments of one peer, counted from one, the last of them from two. -/
inductive Owned (pid : PID) : List Segment → Prop
  | last {seq : UInt32} (two : 2 ≤ seq.toNat) : Owned pid [⟨pid, seq⟩]
  | cons {seq : UInt32} {tail : List Segment} (one : 1 ≤ seq.toNat)
      (owned : Owned pid tail) : Owned pid (⟨pid, seq⟩ :: tail)

theorem Owned.ne_nil {pid : PID} {segments : List Segment}
    (owned : Owned pid segments) : segments ≠ [] := by
  cases owned <;> simp

theorem Owned.proper {pid : PID} (nonzero : pid.val ≠ 0)
    {segments : List Segment} (owned : Owned pid segments) :
    Proper segments := by
  induction owned with
  | last => simp [Proper, nonzero]
  | cons one owned induction =>
      exact proper_cons.mpr ⟨nonzero, induction⟩

/-- What is left of an index after its first segment. -/
theorem Owned.tail {pid : PID} {head : Segment} {tail : List Segment}
    (owned : Owned pid (head :: tail)) : tail = [] ∨ Owned pid tail := by
  cases owned with
  | last two => exact Or.inl rfl
  | cons one owned => exact Or.inr owned

theorem Owned.head {pid : PID} {head : Segment} {tail : List Segment}
    (owned : Owned pid (head :: tail)) :
    head.pid = pid ∧ 1 ≤ head.seq.toNat := by
  cases owned with
  | last two => exact ⟨rfl, (Nat.le_succ 1).trans two⟩
  | cons one owned => exact ⟨rfl, one⟩

/-- A segment of the peer in front keeps the shape. -/
theorem Owned.push {pid : PID} {head : Segment} {tail : List Segment}
    (own : head.pid = pid) (one : 1 ≤ head.seq.toNat)
    (owned : Owned pid tail) : Owned pid (head :: tail) := by
  obtain ⟨_, seq⟩ := head
  subst own
  exact Owned.cons one owned

/-- The successor of a counted segment may stand last. -/
theorem Owned.successor {pid : PID} {l n : Segment}
    (own : l.pid = pid) (one : 1 ≤ l.seq.toNat)
    (step : l.successor = .ok n) : Owned pid [n] := by
  obtain ⟨samePid, next⟩ := Segment.successor_eq_ok_iff.mp step
  obtain ⟨nPid, nSeq⟩ := n
  obtain rfl : nPid = pid := samePid.trans own
  have two : 2 ≤ nSeq.toNat := by
    change nSeq.toNat = l.seq.toNat + 1 at next
    omega
  exact Owned.last two

/--
An index of the peer is above the endless repetition of its first
segment.
-/
theorem Owned.replicate_lt {pid : PID} {segments : List Segment}
    (owned : Owned pid segments) :
    List.replicate segments.length ⟨pid, 1⟩ < segments := by
  induction owned with
  | last two =>
      refine List.cons_lt_cons_iff.mpr (Or.inl ?_)
      exact Segment.lt_iff.mpr (Or.inr ⟨rfl, two⟩)
  | @cons seq tail one owned induction =>
      rw [List.length_cons, List.replicate_succ, List.cons_lt_cons_iff]
      rcases Nat.eq_or_lt_of_le one with first | later
      · have same : (1 : UInt32) = seq := UInt32.toNat_inj.mp first
        exact Or.inr ⟨by rw [same], induction⟩
      · exact Or.inl (Segment.lt_iff.mpr (Or.inr ⟨rfl, later⟩))

/-- A proper suffix of an index of the peer has the same shape. -/
theorem Owned.suffix {pid : PID} {front back : List Segment}
    (owned : Owned pid (front ++ back)) (nonempty : back ≠ []) :
    Owned pid back := by
  induction front with
  | nil => exact owned
  | cons head front induction =>
      rcases owned.tail with exhausted | rest
      · have both := List.append_eq_nil_iff.mp exhausted
        exact (nonempty both.2).elim
      · exact induction rest

/-- Below an index of its own, the peer has room above any smaller one. -/
theorem Owned.room {pid : PID} {lo hi : List Segment}
    (owned : Owned pid hi) (ordered : lo < hi) : Room pid lo hi := by
  rintro ⟨back, rfl⟩
  have nonempty : back ≠ [] := by
    rintro rfl
    rw [List.append_nil] at ordered
    exact lt_irrefl lo ordered
  have above := (owned.suffix nonempty).replicate_lt
  simpa using above

/-! ## One insertion -/

theorem ownSegments_owned (pid : PID) (hi : List Segment) :
    Owned pid (ownSegments pid hi) := by
  have last : Owned pid [⟨pid, 2⟩] := Owned.last le_rfl
  induction hi with
  | nil => exact last
  | cons h hs induction =>
      rw [ownSegments]
      split
      · exact last
      · exact Owned.cons le_rfl induction

/-- The generator restores the shape, whatever the upper neighbour is. -/
theorem betweenSegments_owned {pid : PID} {lo hi new : List Segment}
    (owned : lo = [] ∨ Owned pid lo)
    (produced : betweenSegments pid lo hi = .ok new) : Owned pid new := by
  induction lo generalizing hi new with
  | nil =>
      simp only [betweenSegments, tailSegments, Except.ok.injEq]
        at produced
      rw [← produced]
      exact ownSegments_owned pid hi
  | cons l ls induction =>
      have owned := owned.resolve_left (List.cons_ne_nil l ls)
      obtain ⟨own, one⟩ := owned.head
      cases hi with
      | nil =>
          rcases betweenSegments_cons_nil produced with
            ⟨n, step, ⟨_, rfl⟩ | ⟨_, tail, found, rfl⟩⟩
          · exact Owned.successor own one step
          · exact Owned.push own one (induction owned.tail found)
      | cons h hs =>
          rcases betweenSegments_cons_cons produced with
            ⟨n, step, ⟨_, _, rfl⟩ | ⟨_, tail, found, rfl⟩⟩
          · exact Owned.successor own one step
          · exact Owned.push own one (induction owned.tail found)

namespace SharedList

/-- Every index of the list was shaped by one peer. -/
def OwnedBy (pid : PID) (list : List Bytes) : Prop :=
  ∀ index ∈ list, ∃ segments,
    index = encodeSegments segments ∧ Owned pid segments

/-- The generated index is not empty and passes the validity check. -/
def Accepted (list : List Bytes) (insertion : Insertion) : Prop :=
  ∃ index, generate list insertion = .ok index ∧ index ≠ [] ∧
    FractionalIndex.new index = .ok (some ⟨index⟩)

/-- Segments of the left neighbour, none at the start of the list. -/
theorem OwnedBy.prev {pid : PID} {list : List Bytes}
    (owned : OwnedBy pid list) (gap : Nat) :
    ∃ lo, ((SharedList.prev list gap).getD ⟨[]⟩).bytes =
        encodeSegments lo ∧ (lo = [] ∨ Owned pid lo) := by
  cases found : (list.take gap).getLast? with
  | none => exact ⟨[], by simp [SharedList.prev, found], Or.inl rfl⟩
  | some lower =>
      have member : lower ∈ list :=
        List.mem_of_mem_take (List.mem_of_getLast? found)
      obtain ⟨segments, equal, shaped⟩ := owned lower member
      exact ⟨segments, by simp [SharedList.prev, found, equal],
        Or.inr shaped⟩

/-- Segments of the right neighbour, where there is one. -/
theorem OwnedBy.next {pid : PID} {list : List Bytes}
    (owned : OwnedBy pid list) (gap : Nat) :
    SharedList.next list gap = none ∨
      ∃ hi, SharedList.next list gap = some ⟨encodeSegments hi⟩ ∧
        Owned pid hi := by
  cases found : (list.drop gap).head? with
  | none => exact Or.inl (by simp [SharedList.next, found])
  | some upper =>
      have member : upper ∈ list :=
        List.mem_of_mem_drop (List.mem_of_head? found)
      obtain ⟨segments, equal, shaped⟩ := owned upper member
      exact Or.inr ⟨segments,
        by simp [SharedList.next, found, equal], shaped⟩

theorem proper_of_nil_or_owned {pid : PID} (nonzero : pid.val ≠ 0)
    {segments : List Segment} (owned : segments = [] ∨ Owned pid segments) :
    Proper segments := by
  rcases owned with rfl | owned
  · exact proper_nil
  · exact owned.proper nonzero

/-- In a sorted list of its own the peer finds room at every gap. -/
theorem OwnedBy.roomy {pid : PID} (nonzero : pid.val ≠ 0)
    {list : List Bytes} (owned : OwnedBy pid list)
    (sorted : list.Pairwise (· < ·)) (gap : Nat) :
    Roomy list ⟨gap, pid⟩ := by
  obtain ⟨lo, loBytes, loOwned⟩ := owned.prev gap
  rcases owned.next gap with atEnd | ⟨hi, hiBytes, hiOwned⟩
  · simp [Roomy, atEnd]
  · have ordered := lo_lt_hi sorted loBytes hiBytes hiOwned.ne_nil
    exact (roomy_iff (proper_of_nil_or_owned nonzero loOwned)
      (hiOwned.proper nonzero) loBytes hiBytes).mpr
      (hiOwned.room ordered)

/-- What the peer generates in a list of its own has the shape again. -/
theorem OwnedBy.generate {pid : PID} (nonzero : pid.val ≠ 0)
    {list : List Bytes} (owned : OwnedBy pid list) {gap : Nat}
    {index : Bytes}
    (generated : SharedList.generate list ⟨gap, pid⟩ = .ok index) :
    ∃ segments, index = encodeSegments segments ∧ Owned pid segments := by
  obtain ⟨lo, loBytes, loOwned⟩ := owned.prev gap
  obtain ⟨hi, hiBytes, hiOwned⟩ :
      ∃ hi, ((SharedList.next list gap).getD ⟨[]⟩).bytes =
        encodeSegments hi ∧ (hi = [] ∨ Owned pid hi) := by
    rcases owned.next gap with atEnd | ⟨hi, found, shaped⟩
    · exact ⟨[], by rw [atEnd]; rfl, Or.inl rfl⟩
    · exact ⟨hi, by rw [found]; rfl, Or.inr shaped⟩
  rw [generate_eq (proper_of_nil_or_owned nonzero loOwned)
    (proper_of_nil_or_owned nonzero hiOwned) loBytes hiBytes] at generated
  obtain ⟨new, produced, rfl⟩ := map_eq_ok_iff.mp generated
  exact ⟨new, rfl, betweenSegments_owned loOwned produced⟩

theorem OwnedBy.accepted {pid : PID} (nonzero : pid.val ≠ 0)
    {list : List Bytes} (owned : OwnedBy pid list) {gap : Nat}
    {index : Bytes}
    (generated : SharedList.generate list ⟨gap, pid⟩ = .ok index) :
    Accepted list ⟨gap, pid⟩ := by
  obtain ⟨segments, rfl, shaped⟩ := owned.generate nonzero generated
  refine ⟨_, generated, ?_, ?_⟩
  · intro empty
    exact shaped.ne_nil (encodeSegments_injective empty)
  · exact FractionalIndex.new_encode (shaped.proper nonzero)

theorem OwnedBy.insert {pid : PID} (nonzero : pid.val ≠ 0)
    {list list' : List Bytes} (owned : OwnedBy pid list) {gap : Nat}
    (inserted : SharedList.insert list ⟨gap, pid⟩ = .ok list') :
    OwnedBy pid list' := by
  simp only [SharedList.insert, bind_eq_ok_iff, pure_eq_ok,
    Except.ok.injEq] at inserted
  obtain ⟨index, generated, rfl⟩ := inserted
  intro entry member
  simp only [List.mem_append, List.mem_cons] at member
  rcases member with before | rfl | after
  · exact owned entry (List.mem_of_mem_take before)
  · exact owned.generate nonzero generated
  · exact owned entry (List.mem_of_mem_drop after)

/-! ## Runs -/

theorem EveryStep.imp {property weaker : List Bytes → Insertion → Prop}
    (implies : ∀ list insertion,
      property list insertion → weaker list insertion)
    {list : List Bytes} {insertions : List Insertion}
    (every : EveryStep property list insertions) :
    EveryStep weaker list insertions := by
  induction insertions generalizing list with
  | nil => trivial
  | cons insertion rest induction =>
      exact ⟨implies _ _ every.1,
        fun list' inserted => induction (every.2 list' inserted)⟩

/-- A run of one peer meets room and produces accepted indices. -/
theorem everyStep_of_ownedBy {pid : PID} (nonzero : pid.val ≠ 0)
    {bound : Nat} (one : 1 ≤ bound) {list : List Bytes} {gaps : List Nat}
    (room : bound + gaps.length ≤ 0xffffffff)
    (shape : Shape bound list) (sorted : list.Pairwise (· < ·))
    (owned : OwnedBy pid list) :
    EveryStep (fun list insertion =>
        Accepted list insertion ∧ Roomy list insertion)
      list (gaps.map fun gap => ⟨gap, pid⟩) := by
  induction gaps generalizing bound list with
  | nil => trivial
  | cons gap gaps induction =>
      simp only [List.length_cons] at room
      have roomHere : bound < 0xffffffff := by omega
      have roomy := owned.roomy nonzero sorted gap
      obtain ⟨index, generated, -⟩ :=
        @generate_spec bound list ⟨gap, pid⟩ one roomHere nonzero
          shape sorted
      refine ⟨⟨owned.accepted nonzero generated, roomy⟩, ?_⟩
      intro list' inserted
      obtain ⟨after, insertedAfter, shapeAfter, sortedAfter⟩ :=
        @insert_spec bound list ⟨gap, pid⟩ one roomHere nonzero
          shape sorted roomy
      obtain rfl := Except.ok.inj (insertedAfter.symm.trans inserted)
      exact induction (by omega) (by omega) shapeAfter sortedAfter
        (owned.insert nonzero inserted)

/--
One peer inserts into a list which starts empty, at any gaps.  Every index
it generates is accepted, and the list is strictly increasing after every
insertion.
-/
theorem singlePeer_sorted (value : UInt32) (pid : PID)
    (made : PID.new value = some pid) (gaps : List Nat)
    (short : gaps.length < 2 ^ 31) :
    EveryStep Accepted [] (gaps.map fun gap => ⟨gap, pid⟩) ∧
      ∀ count, ∃ list,
        insertAll [] ((gaps.map fun gap => ⟨gap, pid⟩).take count) =
            .ok list ∧
          list.Pairwise (· < ·) := by
  have nonzero : pid.val ≠ 0 := by
    intro zero
    rw [PID.new] at made
    split at made
    · cases made
    · rename_i proper
      rw [← Option.some.inj made] at zero
      exact proper zero
  have shape : Shape 1 [] := by simp [Shape]
  have owned : OwnedBy pid [] := by simp [OwnedBy]
  have every := everyStep_of_ownedBy nonzero le_rfl
    (show 1 + gaps.length ≤ 0xffffffff by omega) shape
    List.Pairwise.nil owned
  refine ⟨every.imp fun _ _ both => both.1, ?_⟩
  intro count
  refine insertAll_sorted le_rfl ?_ ?_ shape List.Pairwise.nil
    (every.imp fun _ _ both => both.2) count
  · rw [List.length_map]
    omega
  · intro insertion member
    obtain ⟨gap, _, rfl⟩ := List.mem_map.mp member
    exact nonzero

/-- Peer 7 inserts at the start, before that, and between the two. -/
theorem singlePeer_sorted_three :
    EveryStep Accepted [] ([0, 0, 1].map fun gap => ⟨gap, ⟨7⟩⟩) ∧
      ∀ count, ∃ list,
        insertAll [] (([0, 0, 1].map fun gap => ⟨gap, ⟨7⟩⟩).take count) =
            .ok list ∧
          list.Pairwise (· < ·) :=
  singlePeer_sorted 7 ⟨7⟩ (by decide) [0, 0, 1] (by decide)

end SharedList

end Cdoc.Path
