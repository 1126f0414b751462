import Cdoc.Path.LseqSegments

/-!
# Order of generated indices

A new index is always above its lower neighbour.  It is below its upper
neighbour except in one situation: the segments of the lower neighbour are a
proper prefix of those of the upper one, and what the upper one adds is not
above an endless repetition of the inserting peer's first segment.  `Roomy`
is the exact condition.

The last section inserts elements into one shared list, each at any gap and
by any peer, and shows that a run keeps the list sorted exactly when every
insertion finds room.
-/

namespace Cdoc.Path

open Cdoc.Foundation

/-! ## Above the lower neighbour -/

theorem ownSegments_ne_nil (pid : PID) (hi : List Segment) :
    ownSegments pid hi ≠ [] := by
  cases hi with
  | nil => simp [ownSegments]
  | cons h hs =>
      rw [ownSegments]
      split <;> simp

theorem tailSegments_gt {pid : PID} {lo hi new : List Segment}
    (produced : tailSegments pid lo hi = .ok new) : lo < new := by
  induction lo generalizing hi new with
  | nil =>
      rcases List.exists_cons_of_ne_nil (ownSegments_ne_nil pid hi) with
        ⟨head, tail, shape⟩
      simp only [tailSegments, shape, Except.ok.injEq] at produced
      subst produced
      exact List.nil_lt_cons head tail
  | cons l ls induction =>
      simp only [tailSegments, bind_eq_ok_iff] at produced
      rcases produced with ⟨n, step, produced⟩
      split at produced
      · simp only [Except.ok.injEq] at produced
        subst produced
        exact List.cons_lt_cons_iff.mpr
          (Or.inl (Segment.lt_of_successor step))
      · rcases map_eq_ok_iff.mp produced with ⟨tail, rest, rfl⟩
        exact List.cons_lt_cons_iff.mpr
          (Or.inr ⟨rfl, induction rest⟩)

/-- What one round of the first loop can do. -/
theorem betweenSegments_cons_cons {pid : PID}
    {l h : Segment} {ls hs new : List Segment}
    (produced : betweenSegments pid (l :: ls) (h :: hs) = .ok new) :
    ∃ n, l.successor = .ok n ∧
      (n < h ∧ l.pid = pid ∧ new = [n] ∨
        ¬ (n < h ∧ l.pid = pid) ∧
          ∃ tail, betweenSegments pid ls hs = .ok tail ∧
            new = l :: tail) := by
  simp only [betweenSegments, bind_eq_ok_iff] at produced
  rcases produced with ⟨n, step, produced⟩
  have samePid := (Segment.successor_eq_ok_iff.mp step).1
  rw [samePid] at produced
  refine ⟨n, step, ?_⟩
  split at produced
  · rename_i own
    simp only [Except.ok.injEq] at produced
    exact Or.inl ⟨own.1, own.2, produced.symm⟩
  · rename_i notOwn
    rcases map_eq_ok_iff.mp produced with ⟨tail, rest, rfl⟩
    exact Or.inr ⟨notOwn, tail, rest, rfl⟩

theorem betweenSegments_nil_right (pid : PID) (lo : List Segment) :
    betweenSegments pid lo [] = tailSegments pid lo [] := by
  cases lo <;> rfl

/-- What one round does once the upper neighbour is exhausted. -/
theorem betweenSegments_cons_nil {pid : PID}
    {l : Segment} {ls new : List Segment}
    (produced : betweenSegments pid (l :: ls) [] = .ok new) :
    ∃ n, l.successor = .ok n ∧
      (n < Segment.max ∧ new = [n] ∨
        ¬ n < Segment.max ∧
          ∃ tail, betweenSegments pid ls [] = .ok tail ∧
            new = l :: tail) := by
  simp only [betweenSegments, tailSegments, bind_eq_ok_iff] at produced
  rcases produced with ⟨n, step, produced⟩
  refine ⟨n, step, ?_⟩
  by_cases free : n < Segment.max
  · replace produced := (if_pos free).symm.trans produced
    exact Or.inl ⟨free, (Except.ok.inj produced).symm⟩
  · replace produced := (if_neg free).symm.trans produced
    rw [List.tail_nil, ← betweenSegments_nil_right] at produced
    rcases map_eq_ok_iff.mp produced with ⟨tail, rest, rfl⟩
    exact Or.inr ⟨free, tail, rest, rfl⟩

/-- A generated index is above its lower neighbour. -/
theorem betweenSegments_gt {pid : PID} {lo hi new : List Segment}
    (produced : betweenSegments pid lo hi = .ok new) : lo < new := by
  induction lo generalizing hi new with
  | nil => exact tailSegments_gt produced
  | cons l ls induction =>
      cases hi with
      | nil => exact tailSegments_gt produced
      | cons h hs =>
          rcases betweenSegments_cons_cons produced with
            ⟨n, step, ⟨_, _, rfl⟩ | ⟨_, tail, rest, rfl⟩⟩
          · exact List.cons_lt_cons_iff.mpr
              (Or.inl (Segment.lt_of_successor step))
          · exact List.cons_lt_cons_iff.mpr
              (Or.inr ⟨rfl, induction rest⟩)

/-! ## Below the upper neighbour -/

/-- The room which a peer needs between two segment lists. -/
def Room (pid : PID) (lo hi : List Segment) : Prop :=
  lo <+: hi →
    List.replicate (hi.length - lo.length) ⟨pid, 1⟩ < hi.drop lo.length

instance (pid : PID) (lo hi : List Segment) :
    Decidable (Room pid lo hi) :=
  inferInstanceAs (Decidable (_ → _))

theorem Segment.one_lt_two (pid : PID) :
    (⟨pid, 1⟩ : Segment) < ⟨pid, 2⟩ :=
  Segment.lt_of_successor (Segment.successor_one pid)

theorem ownSegments_lt_iff (pid : PID) (hi : List Segment) :
    ownSegments pid hi < hi ↔
      List.replicate hi.length ⟨pid, 1⟩ < hi := by
  induction hi with
  | nil => simp
  | cons h hs induction =>
      rw [ownSegments, List.length_cons, List.replicate_succ,
        List.cons_lt_cons_iff]
      split
      · rename_i free
        have first : (⟨pid, 1⟩ : Segment) < h :=
          (Segment.one_lt_two pid).trans free
        exact iff_of_true
          (List.cons_lt_cons_iff.mpr (Or.inl free)) (Or.inl first)
      · rw [List.cons_lt_cons_iff, induction]

theorem room_cons_cons {pid : PID} {head : Segment}
    {lo hi : List Segment} :
    Room pid (head :: lo) (head :: hi) ↔ Room pid lo hi := by
  simp [Room, List.cons_prefix_cons]

/-- A generated index is below its upper neighbour exactly with room. -/
theorem betweenSegments_lt_iff {pid : PID} {lo hi new : List Segment}
    (ordered : lo < hi)
    (produced : betweenSegments pid lo hi = .ok new) :
    new < hi ↔ Room pid lo hi := by
  induction lo generalizing hi new with
  | nil =>
      simp only [betweenSegments, tailSegments, Except.ok.injEq]
        at produced
      subst produced
      simpa [Room] using ownSegments_lt_iff pid hi
  | cons l ls induction =>
      cases hi with
      | nil => exact (List.not_lt_nil _ ordered).elim
      | cons h hs =>
          have cases := betweenSegments_cons_cons produced
          rcases List.cons_lt_cons_iff.mp ordered with
            less | ⟨rfl, tails⟩
          · -- the neighbours already differ: any result fits below
            have room : Room pid (l :: ls) (h :: hs) := by
              intro isPrefix
              have same := (List.cons_prefix_cons.mp isPrefix).1
              exact (less.ne same).elim
            rcases cases with ⟨n, step, ⟨free, _, rfl⟩ | ⟨_, tail, _, rfl⟩⟩
            · exact iff_of_true
                (List.cons_lt_cons_iff.mpr (Or.inl free)) room
            · exact iff_of_true
                (List.cons_lt_cons_iff.mpr (Or.inl less)) room
          · rcases cases with ⟨n, step, ⟨free, _, _⟩ | ⟨_, tail, rest, rfl⟩⟩
            · exact (lt_asymm free (Segment.lt_of_successor step)).elim
            · rw [room_cons_cons, ← induction tails rest,
                List.cons_lt_cons_iff]
              simp

/-! ## Peers and sequence numbers of a generated index -/

/-- Every segment has a proper peer and a bounded sequence number. -/
def Bounded (bound : Nat) (segments : List Segment) : Prop :=
  ∀ segment ∈ segments,
    segment.pid.val ≠ 0 ∧ segment.seq.toNat ≤ bound

theorem Bounded.proper {bound : Nat} {segments : List Segment}
    (bounded : Bounded bound segments) : Proper segments :=
  fun segment member => (bounded segment member).1

theorem Bounded.mono {low high : Nat} {segments : List Segment}
    (bounded : Bounded low segments) (le : low ≤ high) :
    Bounded high segments :=
  fun segment member =>
    ⟨(bounded segment member).1, (bounded segment member).2.trans le⟩

theorem bounded_cons {bound : Nat} {head : Segment}
    {tail : List Segment} :
    Bounded bound (head :: tail) ↔
      (head.pid.val ≠ 0 ∧ head.seq.toNat ≤ bound) ∧
        Bounded bound tail := by
  simp [Bounded]

theorem ownSegments_bounded {pid : PID} (nonzero : pid.val ≠ 0)
    (hi : List Segment) : Bounded 2 (ownSegments pid hi) := by
  induction hi with
  | nil => simp [ownSegments, Bounded, nonzero]
  | cons h hs induction =>
      rw [ownSegments]
      split
      · simp [Bounded, nonzero]
      · rw [bounded_cons]
        exact ⟨⟨nonzero, show (1 : UInt32).toNat ≤ 2 by decide⟩, induction⟩

theorem Segment.successor_of_bounded {segment : Segment} {bound : Nat}
    (small : segment.seq.toNat ≤ bound) (room : bound < 0xffffffff) :
    ∃ n, segment.successor = .ok n ∧ n.pid = segment.pid ∧
      n.seq.toNat ≤ bound + 1 := by
  have notLargest : segment.seq ≠ 0xffffffff := by
    intro equal
    rw [equal] at small
    simp only [UInt32.reduceToNat] at small
    omega
  have step : segment.successor =
      .ok ⟨segment.pid, segment.seq + 1⟩ := if_neg notLargest
  have sequence := (Segment.successor_eq_ok_iff.mp step).2
  exact ⟨_, step, rfl, by omega⟩

theorem tailSegments_bounded {pid : PID} (nonzero : pid.val ≠ 0)
    {bound : Nat} (two : 1 ≤ bound) (room : bound < 0xffffffff)
    {lo : List Segment} (bounded : Bounded bound lo)
    (hi : List Segment) :
    ∃ new, tailSegments pid lo hi = .ok new ∧
      Bounded (bound + 1) new := by
  induction lo generalizing hi with
  | nil =>
      exact ⟨_, rfl, (ownSegments_bounded nonzero hi).mono (by omega)⟩
  | cons l ls induction =>
      rcases bounded_cons.mp bounded with ⟨⟨proper, small⟩, tailBounded⟩
      rcases Segment.successor_of_bounded small room with
        ⟨n, step, samePid, next⟩
      rcases induction tailBounded hi.tail with ⟨tail, rest, restBounded⟩
      simp only [tailSegments, step, ok_bind, rest, map_ok]
      split
      · refine ⟨_, rfl, ?_⟩
        simp [Bounded, samePid, proper, next]
      · exact ⟨_, rfl, bounded_cons.mpr
          ⟨⟨proper, by omega⟩, restBounded⟩⟩

/-- Generation succeeds and raises sequence numbers by at most one. -/
theorem betweenSegments_bounded {pid : PID} (nonzero : pid.val ≠ 0)
    {bound : Nat} (two : 1 ≤ bound) (room : bound < 0xffffffff)
    {lo : List Segment} (bounded : Bounded bound lo)
    (hi : List Segment) :
    ∃ new, betweenSegments pid lo hi = .ok new ∧
      Bounded (bound + 1) new := by
  induction lo generalizing hi with
  | nil => exact tailSegments_bounded nonzero two room bounded hi
  | cons l ls induction =>
      cases hi with
      | nil => exact tailSegments_bounded nonzero two room bounded []
      | cons h hs =>
          rcases bounded_cons.mp bounded with ⟨⟨proper, small⟩, tailBounded⟩
          rcases Segment.successor_of_bounded small room with
            ⟨n, step, samePid, next⟩
          rcases induction tailBounded hs with ⟨tail, rest, restBounded⟩
          simp only [betweenSegments, step, ok_bind, rest, map_ok]
          split
          · refine ⟨_, rfl, ?_⟩
            simp [Bounded, samePid, proper, next]
          · exact ⟨_, rfl, bounded_cons.mpr
              ⟨⟨proper, by omega⟩, restBounded⟩⟩

/-- A generated index names no improper peer. -/
theorem betweenSegments_proper {pid : PID} (nonzero : pid.val ≠ 0)
    {lo hi new : List Segment} (proper : Proper lo)
    (produced : betweenSegments pid lo hi = .ok new) : Proper new := by
  have single {l n : Segment} (step : l.successor = .ok n)
      (head : l.pid.val ≠ 0) : Proper [n] := by
    rw [← (Segment.successor_eq_ok_iff.mp step).1] at head
    simpa [Proper] using head
  induction lo generalizing hi new with
  | nil =>
      simp only [betweenSegments, tailSegments, Except.ok.injEq]
        at produced
      rw [← produced]
      exact (ownSegments_bounded nonzero hi).proper
  | cons l ls induction =>
      cases hi with
      | nil =>
          rcases betweenSegments_cons_nil produced with
            ⟨n, step, ⟨_, rfl⟩ | ⟨_, tail, found, rfl⟩⟩
          · exact single step proper.head
          · exact proper_cons.mpr
              ⟨proper.head, induction proper.tail found⟩
      | cons h hs =>
          rcases betweenSegments_cons_cons produced with
            ⟨n, step, ⟨_, _, rfl⟩ | ⟨_, tail, found, rfl⟩⟩
          · exact single step proper.head
          · exact proper_cons.mpr
              ⟨proper.head, induction proper.tail found⟩

/-! ## One shared list -/

/-- Insertion of one element by a peer at a gap of the list. -/
structure Insertion where
  gap : Nat
  pid : PID

namespace SharedList

/-- The left neighbour of a gap. -/
def prev (list : List Bytes) (gap : Nat) : Option FractionalIndex :=
  (list.take gap).getLast?.map FractionalIndex.mk

/-- The right neighbour of a gap. -/
def next (list : List Bytes) (gap : Nat) : Option FractionalIndex :=
  (list.drop gap).head?.map FractionalIndex.mk

/-- The index which a peer generates at a gap. -/
def generate (list : List Bytes) (insertion : Insertion) :
    Checked Bytes :=
  FractionalIndex.between (prev list insertion.gap)
    (next list insertion.gap) insertion.pid

/-- The list after one insertion; gaps past the end are the end. -/
def insert (list : List Bytes) (insertion : Insertion) :
    Checked (List Bytes) := do
  let index ← generate list insertion
  return list.take insertion.gap ++ index :: list.drop insertion.gap

/-- The list after a run of insertions. -/
def insertAll : List Bytes → List Insertion → Checked (List Bytes)
  | list, [] => .ok list
  | list, insertion :: rest => do
      let list ← insert list insertion
      insertAll list rest

/-- A property of every insertion of a run in the list it meets. -/
def EveryStep (property : List Bytes → Insertion → Prop) :
    List Bytes → List Insertion → Prop
  | _, [] => True
  | list, insertion :: rest =>
      property list insertion ∧
        ∀ list', insert list insertion = .ok list' →
          EveryStep property list' rest

/-- The generated index lies strictly between its neighbours. -/
def Between (list : List Bytes) (insertion : Insertion) : Prop :=
  ∃ index, generate list insertion = .ok index ∧
    (∀ lower ∈ prev list insertion.gap, lower.bytes < index) ∧
    ∀ upper ∈ next list insertion.gap, index < upper.bytes

/-- The inserting peer has room between the neighbours of the gap. -/
def Roomy (list : List Bytes) (insertion : Insertion) : Prop :=
  ∀ upper ∈ next list insertion.gap, ∀ lo hi,
    ((prev list insertion.gap).getD ⟨[]⟩).segments = .ok lo →
    upper.segments = .ok hi →
    Room insertion.pid lo hi

/-- Every index of the list is a non-empty list of bounded segments. -/
def Shape (bound : Nat) (list : List Bytes) : Prop :=
  ∀ index ∈ list, ∃ segments,
    index = encodeSegments segments ∧ segments ≠ [] ∧
      Bounded bound segments

theorem prev_eq_some_iff {list : List Bytes} {gap : Nat}
    {lower : FractionalIndex} :
    prev list gap = some lower ↔
      (list.take gap).getLast? = some lower.bytes := by
  cases lower
  simp [prev]

theorem next_eq_some_iff {list : List Bytes} {gap : Nat}
    {upper : FractionalIndex} :
    next list gap = some upper ↔
      (list.drop gap).head? = some upper.bytes := by
  cases upper
  simp [next]

/-- Segments of the left neighbour, none at the start of the list. -/
theorem Shape.prev {bound : Nat} {list : List Bytes}
    (shape : Shape bound list) (gap : Nat) :
    ∃ lo, ((SharedList.prev list gap).getD ⟨[]⟩).bytes =
        encodeSegments lo ∧ Bounded bound lo := by
  cases found : (list.take gap).getLast? with
  | none => exact ⟨[], by simp [SharedList.prev, found], by simp [Bounded]⟩
  | some lower =>
      have member : lower ∈ list :=
        List.mem_of_mem_take (List.mem_of_getLast? found)
      rcases shape lower member with ⟨segments, equal, _, bounded⟩
      exact ⟨segments, by simp [SharedList.prev, found, equal], bounded⟩

theorem Shape.next {bound : Nat} {list : List Bytes}
    (shape : Shape bound list) (gap : Nat) :
    (SharedList.next list gap = none) ∨
      ∃ hi, SharedList.next list gap = some ⟨encodeSegments hi⟩ ∧
        Bounded bound hi ∧ hi ≠ [] := by
  cases found : (list.drop gap).head? with
  | none => exact Or.inl (by simp [SharedList.next, found])
  | some upper =>
      have member : upper ∈ list :=
        List.mem_of_mem_drop (List.mem_of_head? found)
      rcases shape upper member with ⟨segments, equal, nonempty, bounded⟩
      exact Or.inr ⟨segments,
        by simp [SharedList.next, found, equal], bounded, nonempty⟩

/-- Segments of the right neighbour, none at the end of the list. -/
theorem Shape.nextBytes {bound : Nat} {list : List Bytes}
    (shape : Shape bound list) (gap : Nat) :
    ∃ hi, ((SharedList.next list gap).getD ⟨[]⟩).bytes =
        encodeSegments hi ∧ Bounded bound hi := by
  rcases shape.next gap with atEnd | ⟨hi, found, bounded, _⟩
  · exact ⟨[], by rw [atEnd]; rfl, by simp [Bounded]⟩
  · exact ⟨hi, by rw [found]; rfl, bounded⟩

/-- The bytes which `between` takes from a neighbour. -/
theorem neighbour_bytes (neighbour : Option FractionalIndex) :
    (neighbour.map FractionalIndex.bytes).getD [] =
      (neighbour.getD ⟨[]⟩).bytes := by
  cases neighbour <;> rfl

/-- In a sorted list the neighbours of a gap are in order. -/
theorem prev_lt_next {list : List Bytes}
    (sorted : list.Pairwise (· < ·)) {gap : Nat}
    {lower upper : Bytes}
    (left : (list.take gap).getLast? = some lower)
    (right : (list.drop gap).head? = some upper) : lower < upper := by
  rw [← List.take_append_drop gap list, List.pairwise_append] at sorted
  exact sorted.2.2 lower (List.mem_of_getLast? left)
    upper (List.mem_of_head? right)

theorem generate_eq {list : List Bytes} {insertion : Insertion}
    {lo hi : List Segment} (properLo : Proper lo) (properHi : Proper hi)
    (loBytes : ((prev list insertion.gap).getD ⟨[]⟩).bytes =
      encodeSegments lo)
    (hiBytes : ((next list insertion.gap).getD ⟨[]⟩).bytes =
      encodeSegments hi) :
    generate list insertion =
      encodeSegments <$> betweenSegments insertion.pid lo hi := by
  rw [generate, FractionalIndex.between, neighbour_bytes,
    neighbour_bytes, loBytes, hiBytes]
  exact writeFractionalIndex_encode insertion.pid properLo properHi

/-- In a sorted list the segments at a gap are in order. -/
theorem lo_lt_hi {list : List Bytes} (sorted : list.Pairwise (· < ·))
    {gap : Nat} {lo hi : List Segment}
    (loBytes : ((prev list gap).getD ⟨[]⟩).bytes = encodeSegments lo)
    (hiBytes : next list gap = some ⟨encodeSegments hi⟩)
    (nonempty : hi ≠ []) : lo < hi := by
  rw [next_eq_some_iff] at hiBytes
  cases found : prev list gap with
  | none =>
      rw [found] at loBytes
      obtain rfl : [] = lo := encodeSegments_injective loBytes
      rcases List.exists_cons_of_ne_nil nonempty with ⟨head, tail, rfl⟩
      exact List.nil_lt_cons head tail
  | some lower =>
      rw [found, Option.getD_some] at loBytes
      rw [prev_eq_some_iff, loBytes] at found
      exact encodeSegments_lt_iff.mp (prev_lt_next sorted found hiBytes)

theorem roomy_iff {list : List Bytes} {insertion : Insertion}
    {lo hi : List Segment} (properLo : Proper lo) (properHi : Proper hi)
    (loBytes : ((prev list insertion.gap).getD ⟨[]⟩).bytes =
      encodeSegments lo)
    (hiBytes : next list insertion.gap = some ⟨encodeSegments hi⟩) :
    Roomy list insertion ↔ Room insertion.pid lo hi := by
  have loSegments :
      ((prev list insertion.gap).getD ⟨[]⟩).segments = .ok lo := by
    rw [← FractionalIndex.segments_encode properLo, ← loBytes]
  constructor
  · intro roomy
    exact roomy _ hiBytes lo hi loSegments
      (FractionalIndex.segments_encode properHi)
  · intro room upper found lo' hi' loParsed hiParsed
    rcases Option.some.inj (hiBytes.symm.trans found) with rfl
    rw [loSegments, Except.ok.injEq] at loParsed
    rw [FractionalIndex.segments_encode properHi, Except.ok.injEq]
      at hiParsed
    subst loParsed
    subst hiParsed
    exact room

/-- What an insertion by a proper peer does to a sorted list. -/
theorem generate_spec {bound : Nat} {list : List Bytes}
    {insertion : Insertion} (two : 1 ≤ bound)
    (room : bound < 0xffffffff) (nonzero : insertion.pid.val ≠ 0)
    (shape : Shape bound list) (sorted : list.Pairwise (· < ·)) :
    ∃ index, generate list insertion = .ok index ∧
      (∃ segments, index = encodeSegments segments ∧ segments ≠ [] ∧
        Bounded (bound + 1) segments) ∧
      (∀ lower ∈ prev list insertion.gap, lower.bytes < index) ∧
      ((∀ upper ∈ next list insertion.gap, index < upper.bytes) ↔
        Roomy list insertion) := by
  rcases shape.prev insertion.gap with ⟨lo, loBytes, loBounded⟩
  have lowerBound {new : List Segment} (above : lo < new) :
      ∀ lower ∈ prev list insertion.gap,
        lower.bytes < encodeSegments new := by
    intro lower found
    rw [found, Option.getD_some] at loBytes
    rw [loBytes]
    exact encodeSegments_lt above
  have nonempty {new : List Segment} (above : lo < new) : new ≠ [] := by
    rintro rfl
    exact List.not_lt_nil lo above
  rcases shape.next insertion.gap with
    atEnd | ⟨hi, hiBytes, hiBounded, hiNonempty⟩
  · rcases betweenSegments_bounded nonzero two room loBounded [] with
      ⟨new, produced, newBounded⟩
    have above := betweenSegments_gt produced
    refine ⟨encodeSegments new, ?_,
      ⟨new, rfl, nonempty above, newBounded⟩, lowerBound above, ?_⟩
    · rw [generate_eq loBounded.proper proper_nil
        loBytes (by rw [atEnd]; rfl), produced]
      rfl
    · simp [Roomy, atEnd]
  · rcases betweenSegments_bounded nonzero two room loBounded hi with
      ⟨new, produced, newBounded⟩
    have above := betweenSegments_gt produced
    have ordered := lo_lt_hi sorted loBytes hiBytes hiNonempty
    refine ⟨encodeSegments new, ?_,
      ⟨new, rfl, nonempty above, newBounded⟩, lowerBound above, ?_⟩
    · rw [generate_eq loBounded.proper hiBounded.proper
        loBytes (by rw [hiBytes]; rfl), produced]
      rfl
    · rw [roomy_iff loBounded.proper hiBounded.proper loBytes hiBytes,
        ← betweenSegments_lt_iff ordered produced, hiBytes]
      simp [encodeSegments_lt_iff]

/-- An element between its neighbours keeps a list sorted. -/
theorem sorted_insert {before after : List Bytes} {index : Bytes}
    (sorted : (before ++ after).Pairwise (· < ·))
    (lower : ∀ last, before.getLast? = some last → last < index)
    (upper : ∀ first, after.head? = some first → index < first) :
    (before ++ index :: after).Pairwise (· < ·) := by
  rw [List.pairwise_append] at sorted ⊢
  rcases sorted with ⟨beforeSorted, afterSorted, _⟩
  have fromBelow : ∀ entry ∈ before, entry < index := by
    rcases List.eq_nil_or_concat before with rfl | ⟨front, last, rfl⟩
    · simp
    · rw [List.concat_eq_append, List.pairwise_append] at beforeSorted
      have bound := lower last (by simp)
      intro entry member
      simp only [List.concat_eq_append, List.mem_append,
        List.mem_singleton] at member
      rcases member with inFront | rfl
      · exact (beforeSorted.2.2 entry inFront last (by simp)).trans bound
      · exact bound
  have fromAbove : ∀ entry ∈ after, index < entry := by
    cases after with
    | nil => simp
    | cons first rest =>
        have bound := upper first rfl
        intro entry member
        rcases List.mem_cons.mp member with rfl | inRest
        · exact bound
        · exact bound.trans
            (List.rel_of_pairwise_cons afterSorted inRest)
  refine ⟨beforeSorted, List.pairwise_cons.mpr
    ⟨fromAbove, afterSorted⟩, ?_⟩
  intro low lowMember high highMember
  rcases List.mem_cons.mp highMember with rfl | inAfter
  · exact fromBelow low lowMember
  · exact (fromBelow low lowMember).trans (fromAbove high inAfter)

/-- A roomy insertion keeps the list sorted and well shaped. -/
theorem insert_spec {bound : Nat} {list : List Bytes}
    {insertion : Insertion} (two : 1 ≤ bound)
    (room : bound < 0xffffffff) (nonzero : insertion.pid.val ≠ 0)
    (shape : Shape bound list) (sorted : list.Pairwise (· < ·))
    (roomy : Roomy list insertion) :
    ∃ list', insert list insertion = .ok list' ∧
      Shape (bound + 1) list' ∧ list'.Pairwise (· < ·) := by
  rcases generate_spec two room nonzero shape sorted with
    ⟨index, generated, indexShape, lower, upper⟩
  replace upper := upper.mpr roomy
  refine ⟨_, by rw [insert, generated]; rfl, ?_, ?_⟩
  · intro entry member
    simp only [List.mem_append, List.mem_cons] at member
    rcases member with before | rfl | after
    · rcases shape entry (List.mem_of_mem_take before) with
        ⟨segments, equal, nonempty, bounded⟩
      exact ⟨segments, equal, nonempty, bounded.mono (by omega)⟩
    · exact indexShape
    · rcases shape entry (List.mem_of_mem_drop after) with
        ⟨segments, equal, nonempty, bounded⟩
      exact ⟨segments, equal, nonempty, bounded.mono (by omega)⟩
  · apply sorted_insert
    · rw [List.take_append_drop]
      exact sorted
    · intro last found
      exact lower ⟨last⟩ (prev_eq_some_iff.mpr found)
    · intro first found
      exact upper ⟨first⟩ (next_eq_some_iff.mpr found)

/--
From a sorted list, the insertions of a run all land between their
neighbours exactly when each of them finds room.
-/
theorem everyStep_between_iff {bound : Nat} {list : List Bytes}
    (two : 1 ≤ bound) {insertions : List Insertion}
    (room : bound + insertions.length ≤ 0xffffffff)
    (nonzero : ∀ insertion ∈ insertions, insertion.pid.val ≠ 0)
    (shape : Shape bound list) (sorted : list.Pairwise (· < ·)) :
    EveryStep Between list insertions ↔
      EveryStep Roomy list insertions := by
  induction insertions generalizing bound list with
  | nil => simp [EveryStep]
  | cons insertion rest induction =>
      have roomHere : bound < 0xffffffff := by
        simp only [List.length_cons] at room
        omega
      have roomThere : bound + 1 + rest.length ≤ 0xffffffff := by
        simp only [List.length_cons] at room
        omega
      have nonzeroHere := nonzero insertion List.mem_cons_self
      have nonzeroThere : ∀ other ∈ rest, other.pid.val ≠ 0 :=
        fun other member => nonzero other (List.mem_cons_of_mem _ member)
      have step : Between list insertion ↔ Roomy list insertion := by
        rcases generate_spec two roomHere nonzeroHere shape sorted with
          ⟨index, generated, _, lower, upper⟩
        rw [← upper]
        constructor
        · rintro ⟨index', generated', _, below⟩
          rcases Except.ok.inj (generated.symm.trans generated') with rfl
          exact below
        · intro below
          exact ⟨index, generated, lower, below⟩
      simp only [EveryStep, step]
      apply and_congr_right
      intro roomy
      rcases insert_spec two roomHere nonzeroHere shape sorted roomy with
        ⟨list', inserted, shape', sorted'⟩
      simp only [inserted, Except.ok.injEq, forall_eq']
      exact induction (by omega) roomThere nonzeroThere shape' sorted'

/-- A run whose insertions all find room keeps the list sorted. -/
theorem insertAll_sorted {bound : Nat} {list : List Bytes}
    (two : 1 ≤ bound) {insertions : List Insertion}
    (room : bound + insertions.length ≤ 0xffffffff)
    (nonzero : ∀ insertion ∈ insertions, insertion.pid.val ≠ 0)
    (shape : Shape bound list) (sorted : list.Pairwise (· < ·))
    (roomy : EveryStep Roomy list insertions) (count : Nat) :
    ∃ list', insertAll list (insertions.take count) = .ok list' ∧
      list'.Pairwise (· < ·) := by
  induction insertions generalizing bound list count with
  | nil => exact ⟨list, by simp [insertAll], sorted⟩
  | cons insertion rest induction =>
      cases count with
      | zero => exact ⟨list, rfl, sorted⟩
      | succ count =>
          simp only [List.length_cons] at room
          obtain ⟨list', inserted, shape', sorted'⟩ :=
            insert_spec two (by omega)
              (nonzero insertion List.mem_cons_self) shape sorted
              roomy.1
          have there := induction
            (show 1 ≤ bound + 1 by omega) (by omega)
            (fun other member =>
              nonzero other (List.mem_cons_of_mem _ member))
            shape' sorted' (roomy.2 list' inserted) count
          simpa [insertAll, inserted] using there

/-! ## Runs from the empty list -/

/--
Several peers insert into a list which starts empty.  The generated indices
all lie strictly between their neighbours exactly when every insertion finds
room, and then the list is strictly increasing after every insertion.
-/
theorem between_iff_roomy_of_run
    (insertions : List Insertion)
    (nonzero : ∀ insertion ∈ insertions, insertion.pid.val ≠ 0)
    (short : insertions.length < 2 ^ 31) :
    (EveryStep Between [] insertions ↔
        EveryStep Roomy [] insertions) ∧
      (EveryStep Roomy [] insertions → ∀ count,
        ∃ list, insertAll [] (insertions.take count) = .ok list ∧
          list.Pairwise (· < ·)) := by
  have shape : Shape 1 [] := by simp [Shape]
  have room : 1 + insertions.length ≤ 0xffffffff := by omega
  exact ⟨everyStep_between_iff le_rfl room nonzero shape List.Pairwise.nil,
    insertAll_sorted le_rfl room nonzero shape List.Pairwise.nil⟩

/-- Peer 1 inserts an element, then peer 2 inserts one before it. -/
def insertBefore : List Insertion :=
  [⟨0, ⟨1⟩⟩, ⟨0, ⟨2⟩⟩]

/-- The second index of `insertBefore` is above its upper neighbour. -/
theorem insertBefore_not_between :
    (∀ insertion ∈ insertBefore, insertion.pid.val ≠ 0) ∧
      insertBefore.length < 2 ^ 31 ∧
      ¬ EveryStep Between [] insertBefore := by
  refine ⟨by decide, by decide, ?_⟩
  rintro ⟨_, second⟩
  rcases second [[1, 1, 1, 2]] rfl with ⟨⟨index, generated, _, below⟩, _⟩
  have value : generate [[1, 1, 1, 2]] ⟨0, ⟨2⟩⟩ =
      .ok [1, 2, 1, 1, 1, 2, 1, 2] := rfl
  rcases Except.ok.inj (value.symm.trans generated) with rfl
  exact absurd (below ⟨[1, 1, 1, 2]⟩ rfl) (by decide)

/-- Peer 2 inserts an element, then peer 1 inserts one before it. -/
theorem between_iff_roomy_of_run_two_peers :
    (EveryStep Between [] [⟨0, ⟨2⟩⟩, ⟨0, ⟨1⟩⟩] ↔
        EveryStep Roomy [] [⟨0, ⟨2⟩⟩, ⟨0, ⟨1⟩⟩]) ∧
      EveryStep Roomy [] [⟨0, ⟨2⟩⟩, ⟨0, ⟨1⟩⟩] := by
  refine ⟨(between_iff_roomy_of_run _ (by decide) (by decide)).1,
    ?_, fun list inserted => ⟨?_, fun _ _ => trivial⟩⟩
  · intro upper found
    cases found
  · have value : insert [] ⟨0, ⟨2⟩⟩ = .ok [[1, 2, 1, 2]] := rfl
    rcases Except.ok.inj (value.symm.trans inserted) with rfl
    have loSegments : FractionalIndex.segments ⟨[]⟩ = .ok [] := rfl
    have hiSegments : FractionalIndex.segments ⟨[1, 2, 1, 2]⟩ =
        .ok [⟨⟨2⟩, 2⟩] := rfl
    intro upper found lo hi loParsed hiParsed
    obtain rfl : (⟨[1, 2, 1, 2]⟩ : FractionalIndex) = upper :=
      Option.some.inj found
    rcases Except.ok.inj (loSegments.symm.trans loParsed) with rfl
    rcases Except.ok.inj (hiSegments.symm.trans hiParsed) with rfl
    decide

end SharedList

end Cdoc.Path
