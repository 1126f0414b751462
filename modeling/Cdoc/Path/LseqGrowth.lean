import Cdoc.Path.LseqOrder

/-!
# The size of indices

An index has at most one segment more than the longer one of its neighbours.
After a number of insertions, of any peers and at any places, no index has
more segments than that, and a peer which always inserts in front makes one
which has as many.
-/

namespace Cdoc.Path

open Cdoc.Foundation

/-! ## One index -/

theorem Segment.length_write_le (segment : Segment) :
    segment.write.length ≤ 10 := by
  have peer := VarInt.byteLength_le 4 segment.pid.val.toNat
  have sequence := VarInt.byteLength_le 4 segment.seq.toNat
  rw [write, List.length_append, VarInt.BE32.write, VarInt.U32.write,
    VarInt.length_write segment.pid.val.toNat_lt,
    VarInt.length_write segment.seq.toNat_lt]
  omega

theorem length_encodeSegments_le (segments : List Segment) :
    (encodeSegments segments).length ≤ 10 * segments.length := by
  induction segments with
  | nil => exact le_rfl
  | cons head tail induction =>
      have first := head.length_write_le
      rw [encodeSegments_cons, List.length_append, List.length_cons]
      omega

theorem length_ownSegments_le (pid : PID) (hi : List Segment) :
    (ownSegments pid hi).length ≤ hi.length + 1 := by
  induction hi with
  | nil => exact le_rfl
  | cons h hs induction =>
      rw [ownSegments]
      split
      · exact Nat.succ_le_succ (Nat.zero_le _)
      · exact Nat.succ_le_succ induction

theorem length_tailSegments_le {pid : PID} {lo hi new : List Segment}
    (produced : tailSegments pid lo hi = .ok new) :
    new.length ≤ max lo.length hi.length + 1 := by
  induction lo generalizing hi new with
  | nil =>
      cases produced
      rw [List.length_nil, Nat.zero_max]
      exact length_ownSegments_le pid hi
  | cons l ls induction =>
      rw [tailSegments] at produced
      obtain ⟨n, -, produced⟩ := bind_eq_ok_iff.mp produced
      split at produced
      · cases produced
        exact Nat.succ_le_succ (Nat.zero_le _)
      · obtain ⟨tail, below, rfl⟩ := map_eq_ok_iff.mp produced
        have shorter := induction below
        rw [List.length_tail] at shorter
        rw [List.length_cons, List.length_cons]
        omega

theorem length_betweenSegments_le {pid : PID} {lo hi new : List Segment}
    (produced : betweenSegments pid lo hi = .ok new) :
    new.length ≤ max lo.length hi.length + 1 := by
  induction lo generalizing hi new with
  | nil => exact length_tailSegments_le produced
  | cons l ls induction =>
      cases hi with
      | nil => exact length_tailSegments_le produced
      | cons h hs =>
          obtain ⟨n, -, ⟨-, -, rfl⟩ | ⟨-, tail, below, rfl⟩⟩ :=
            betweenSegments_cons_cons produced
          · exact Nat.succ_le_succ (Nat.zero_le _)
          · have shorter := induction below
            simp only [List.length_cons]
            omega

namespace SharedList

/-! ## Runs of insertions -/

/-- The indices of the list have at most this many segments. -/
def Within (depth : Nat) (list : List Bytes) : Prop :=
  ∀ index ∈ list, ∃ segments, index = encodeSegments segments ∧
    Proper segments ∧ segments ≠ [] ∧ segments.length ≤ depth

theorem Within.neighbour {depth : Nat} {list : List Bytes}
    (inside : Within depth list) {neighbour : Option FractionalIndex}
    (present : ∀ index ∈ neighbour, index.bytes ∈ list) :
    ∃ segments, (neighbour.getD ⟨[]⟩).bytes = encodeSegments segments ∧
      Proper segments ∧ segments.length ≤ depth := by
  cases neighbour with
  | none => exact ⟨[], rfl, proper_nil, Nat.zero_le _⟩
  | some index =>
      obtain ⟨segments, same, proper, -, short⟩ :=
        inside index.bytes (present index rfl)
      exact ⟨segments, same, proper, short⟩

theorem Within.insert {depth : Nat} {list after : List Bytes}
    {insertion : Insertion} (inside : Within depth list)
    (nonzero : insertion.pid.val ≠ 0)
    (inserted : SharedList.insert list insertion = .ok after) :
    Within (depth + 1) after := by
  obtain ⟨index, generated, made⟩ := bind_eq_ok_iff.mp inserted
  cases made
  have lowers : ∀ lower ∈ prev list insertion.gap, lower.bytes ∈ list :=
    fun lower found => List.mem_of_mem_take
      (List.mem_of_getLast? (prev_eq_some_iff.mp found))
  have uppers : ∀ upper ∈ next list insertion.gap, upper.bytes ∈ list :=
    fun upper found => List.mem_of_mem_drop
      (List.mem_of_head? (next_eq_some_iff.mp found))
  obtain ⟨lo, loBytes, properLo, loShort⟩ := inside.neighbour lowers
  obtain ⟨hi, hiBytes, properHi, hiShort⟩ := inside.neighbour uppers
  rw [generate_eq properLo properHi loBytes hiBytes] at generated
  obtain ⟨new, produced, rfl⟩ := map_eq_ok_iff.mp generated
  have longer := length_betweenSegments_le produced
  have made : ∃ segments, encodeSegments new = encodeSegments segments ∧
      Proper segments ∧ segments ≠ [] ∧ segments.length ≤ depth + 1 := by
    refine ⟨new, rfl, betweenSegments_proper nonzero properLo produced, ?_,
      by omega⟩
    rintro rfl
    exact absurd (betweenSegments_gt produced) (by simp)
  have kept : ∀ index ∈ list, ∃ segments,
      index = encodeSegments segments ∧ Proper segments ∧ segments ≠ [] ∧
        segments.length ≤ depth + 1 := by
    intro index member
    obtain ⟨segments, same, proper, nonempty, short⟩ := inside index member
    exact ⟨segments, same, proper, nonempty, short.trans (Nat.le_succ _)⟩
  intro index member
  rcases List.mem_append.mp member with before | behind
  · exact kept index (List.mem_of_mem_take before)
  rcases List.mem_cons.mp behind with rfl | after
  · exact made
  · exact kept index (List.mem_of_mem_drop after)

theorem Within.insertAll {depth : Nat} {list after : List Bytes}
    {insertions : List Insertion} (inside : Within depth list)
    (nonzero : ∀ insertion ∈ insertions, insertion.pid.val ≠ 0)
    (inserted : SharedList.insertAll list insertions = .ok after) :
    Within (depth + insertions.length) after := by
  induction insertions generalizing depth list with
  | nil =>
      cases inserted
      exact inside
  | cons insertion rest induction =>
      obtain ⟨middle, first, others⟩ := bind_eq_ok_iff.mp inserted
      obtain ⟨firstNonzero, restNonzero⟩ :=
        List.forall_mem_cons.mp nonzero
      have grown := induction (inside.insert firstNonzero first) restNonzero
        others
      rwa [Nat.add_assoc, Nat.add_comm 1] at grown

/-! ## The longest index -/

/-- What a peer makes in front of its own list. -/
def foremost (pid : PID) (count : Nat) : List Segment :=
  List.replicate count ⟨pid, 1⟩ ++ [⟨pid, 2⟩]

theorem ownSegments_foremost (pid : PID) (count : Nat) :
    ownSegments pid (foremost pid count) = foremost pid (count + 1) := by
  induction count with
  | zero =>
      rw [foremost, List.replicate_zero, List.nil_append, ownSegments,
        if_neg (lt_irrefl _)]
      rfl
  | succ count induction =>
      have first : foremost pid (count + 1) =
          ⟨pid, 1⟩ :: foremost pid count :=
        rfl
      rw [first, ownSegments, if_neg (Segment.one_lt_two pid).asymm,
        induction]
      rfl

theorem proper_foremost {pid : PID} (nonzero : pid.val ≠ 0) (count : Nat) :
    Proper (foremost pid count) := by
  intro segment member
  rcases List.mem_append.mp member with before | last
  · rw [List.eq_of_mem_replicate before]
    exact nonzero
  · rw [List.mem_singleton.mp last]
    exact nonzero

theorem insert_foremost {pid : PID} (nonzero : pid.val ≠ 0) (count : Nat)
    (list : List Bytes) :
    insert (encodeSegments (foremost pid count) :: list) ⟨0, pid⟩ =
      .ok (encodeSegments (foremost pid (count + 1)) ::
        encodeSegments (foremost pid count) :: list) := by
  have generated : generate (encodeSegments (foremost pid count) :: list)
      ⟨0, pid⟩ = .ok (encodeSegments (foremost pid (count + 1))) := by
    rw [generate_eq proper_nil (proper_foremost nonzero count) rfl rfl,
      ← ownSegments_foremost]
    rfl
  rw [insert, generated]
  rfl

theorem insert_first (pid : PID) :
    insert [] ⟨0, pid⟩ = .ok [encodeSegments (foremost pid 0)] := by
  have generated : generate [] ⟨0, pid⟩ =
      .ok (encodeSegments (foremost pid 0)) := by
    rw [generate_eq proper_nil proper_nil rfl rfl]
    rfl
  rw [insert, generated]
  rfl

/-- By induction on the further insertions in front. -/
theorem insertAll_foremost {pid : PID} (nonzero : pid.val ≠ 0) (count : Nat)
    (list : List Bytes) (more : Nat) :
    ∃ others, insertAll (encodeSegments (foremost pid count) :: list)
        (List.replicate more ⟨0, pid⟩) =
      .ok (encodeSegments (foremost pid (count + more)) :: others) := by
  induction more generalizing count list with
  | zero => exact ⟨list, rfl⟩
  | succ more induction =>
      obtain ⟨others, inserted⟩ := induction (count + 1)
        (encodeSegments (foremost pid count) :: list)
      refine ⟨others, ?_⟩
      rw [List.replicate_succ, insertAll, insert_foremost nonzero, ok_bind,
        inserted, Nat.add_right_comm, Nat.add_assoc]

/--
Indices have no more segments than there were insertions, and no more than
ten bytes for each.  Insertions in front reach the number of segments.
-/
theorem segments_le_of_run (insertions : List Insertion)
    (nonzero : ∀ insertion ∈ insertions, insertion.pid.val ≠ 0) :
    (∀ list, insertAll [] insertions = .ok list → ∀ index ∈ list,
      index.length ≤ 10 * insertions.length ∧
        ∃ segments, FractionalIndex.segments ⟨index⟩ = .ok segments ∧
          1 ≤ segments.length ∧ segments.length ≤ insertions.length) ∧
    ∀ pid : PID, pid.val ≠ 0 → insertions ≠ [] → ∃ first others segments,
      insertAll [] (List.replicate insertions.length ⟨0, pid⟩) =
        .ok (first :: others) ∧
      FractionalIndex.segments ⟨first⟩ = .ok segments ∧
      segments.length = insertions.length := by
  constructor
  · intro list inserted index member
    have inside : Within (0 + insertions.length) list :=
      Within.insertAll (List.forall_mem_nil _) nonzero inserted
    obtain ⟨segments, rfl, proper, nonempty, short⟩ := inside index member
    rw [Nat.zero_add] at short
    refine ⟨(length_encodeSegments_le segments).trans
      (Nat.mul_le_mul_left 10 short), segments,
      FractionalIndex.segments_encode proper,
      List.length_pos_iff.mpr nonempty, short⟩
  · intro pid peer nonempty
    obtain ⟨count, size⟩ := Nat.exists_eq_succ_of_ne_zero
      (List.length_pos_iff.mpr nonempty).ne'
    have start : insertAll [] (List.replicate (count + 1) ⟨0, pid⟩) =
        insertAll [encodeSegments (foremost pid 0)]
          (List.replicate count ⟨0, pid⟩) := by
      rw [List.replicate_succ, insertAll, insert_first, ok_bind]
    obtain ⟨others, inserted⟩ := insertAll_foremost peer 0 [] count
    refine ⟨_, others, foremost pid count, ?_,
      FractionalIndex.segments_encode (proper_foremost peer count), ?_⟩
    · rw [size, start, inserted, Nat.zero_add]
    · rw [foremost, List.length_append, List.length_replicate, size]
      rfl

/-- Two insertions of one peer in front. -/
theorem segments_le_of_run_front :
    ∃ first others, insertAll [] [⟨0, ⟨1⟩⟩, ⟨0, ⟨1⟩⟩] =
        .ok (first :: others) ∧ first.length ≤ 20 := by
  obtain ⟨within, -⟩ := segments_le_of_run [⟨0, ⟨1⟩⟩, ⟨0, ⟨1⟩⟩] (by decide)
  exact ⟨_, _, rfl, (within _ rfl _ List.mem_cons_self).1⟩

end SharedList

end Cdoc.Path
