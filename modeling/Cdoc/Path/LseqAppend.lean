import Cdoc.Path.LseqOrder
import Cdoc.Path.WideSegments

/-!
# Appending behind an arbitrary index

An accepted index is a list of wide segments.  Without an upper neighbour
the generator counts up the first segment below the largest one which can
be counted up, and copies the segments in front of it.

It compares decoded segments, whereas lists are ordered by bytes.  The two
orders agree on what the generator itself writes.  They disagree behind
leading zero bytes, which make an integer longer and therefore larger.
-/

namespace Cdoc.Path

open Cdoc.Foundation
open Cdoc.VarInt

/-! ## The generator on wide segments -/

theorem spells_wideBytes (wides : List WideSegment) :
    Spells (wides.map WideSegment.segment) (wideBytes wides) := by
  induction wides with
  | nil => exact Spells.nil
  | cons head tail induction =>
      have long := head.two_le_length_bytes
      have shorter : (wideBytes tail).length <
          (wideBytes (head :: tail)).length := by
        rw [wideBytes_cons, List.length_append]
        omega
      exact Spells.cons (head.parse_append _) shorter induction

theorem WideSegment.pid_segment (wide : WideSegment) :
    wide.segment.pid.val.toNat = ofBeBytes wide.pid :=
  toNat_ofBeBytes wide.pid_le

theorem WideSegment.seq_segment (wide : WideSegment) :
    wide.segment.seq.toNat = ofBeBytes wide.seq :=
  toNat_ofBeBytes wide.seq_le

theorem proper_segments (wides : List WideSegment) :
    Proper (wides.map WideSegment.segment) := by
  intro segment member zero
  obtain ⟨wide, -, rfl⟩ := List.mem_map.mp member
  apply wide.nonzero
  rw [← wide.pid_segment, zero]
  rfl

/-! ## The order of wide segments -/

/-- The largest segment which counting up leads to the maximum. -/
def Segment.top : Segment :=
  ⟨⟨0xffffffff⟩, 0xfffffffe⟩

/-- The next segment exists and is larger as bytes. -/
structure WideSegment.Advances (wide : WideSegment) : Prop where
  seq_lt : ofBeBytes wide.seq < 0xffffffff
  pid_exact : wide.pid.length = byteLength 4 (ofBeBytes wide.pid)
  seq_le_next : wide.seq.length ≤ byteLength 4 (ofBeBytes wide.seq + 1)

instance (wide : WideSegment) : Decidable wide.Advances :=
  decidable_of_iff
    (ofBeBytes wide.seq < 0xffffffff ∧
      wide.pid.length = byteLength 4 (ofBeBytes wide.pid) ∧
      wide.seq.length ≤ byteLength 4 (ofBeBytes wide.seq + 1))
    ⟨fun ⟨seq, pid, next⟩ => ⟨seq, pid, next⟩,
      fun ⟨seq, pid, next⟩ => ⟨seq, pid, next⟩⟩

/--
Behind segments which are as large as a countable one can be, there is none
or one which advances.
-/
def Appendable : List WideSegment → Prop
  | [] => True
  | head :: tail =>
      if head.segment = Segment.top then Appendable tail else head.Advances

instance Appendable.decidable :
    (wides : List WideSegment) → Decidable (Appendable wides)
  | [] => isTrue trivial
  | head :: tail =>
      have := decidable tail
      inferInstanceAs (Decidable
        (if head.segment = Segment.top then Appendable tail
          else head.Advances))

namespace WideSegment

variable {wide : WideSegment}

/-- The largest segments have no room for leading zero bytes. -/
theorem bytes_of_eq_top (top : wide.segment = Segment.top) :
    wide.bytes = Segment.top.write := by
  have pidNumber := wide.pid_segment
  have seqNumber := wide.seq_segment
  rw [top] at pidNumber seqNumber
  have pidLong := byteLength_le_length wide.pid_le
  have seqLong := byteLength_le_length wide.seq_le
  rw [← pidNumber] at pidLong
  rw [← seqNumber] at seqLong
  have pidWidth : byteLength 4 Segment.top.pid.val.toNat = 4 := by decide
  have seqWidth : byteLength 4 Segment.top.seq.toNat = 4 := by decide
  have pidShort := wide.pid_le
  have seqShort := wide.seq_le
  rw [bytes, announced_eq_write wide.pid_le (by rw [← pidNumber]; omega),
    announced_eq_write wide.seq_le (by rw [← seqNumber]; omega),
    ← pidNumber, ← seqNumber]
  rfl

/-- The next segment is behind this one exactly when its bytes are. -/
theorem bytes_lt_write_successor {next : Segment}
    (step : wide.segment.successor = .ok next) (rest : Bytes) :
    wide.bytes ++ rest < next.write ↔ wide.Advances := by
  obtain ⟨samePid, nextSeq⟩ := Segment.successor_eq_ok_iff.mp step
  have bound := next.seq.toNat_lt
  rw [wide.seq_segment] at nextSeq
  have pidWrite : BE32.write next.pid.val =
      VarInt.write 4 (ofBeBytes wide.pid) := by
    rw [samePid, BE32.write, wide.pid_segment]
  have seqWrite : U32.write next.seq =
      VarInt.write 4 (ofBeBytes wide.seq + 1) ++ [] := by
    rw [U32.write, nextSeq, List.append_nil]
  rw [bytes, Segment.write, pidWrite, seqWrite, List.append_assoc,
    announced_lt_write_self_iff (by decide) wide.pid_le,
    announced_lt_write_succ_iff (by decide) wide.seq_le (by omega)]
  constructor
  · rintro ⟨exactPid, shortSeq⟩
    exact ⟨by omega, exactPid, shortSeq⟩
  · intro advances
    exact ⟨advances.pid_exact, advances.seq_le_next⟩

/-- A sequence number which cannot be counted up. -/
theorem stuck_of_error {failure : Panic}
    (step : wide.segment.successor = .error failure) :
    wide.segment ≠ Segment.top ∧ ¬ wide.Advances := by
  have largest : wide.segment.seq = 0xffffffff := by
    by_contra small
    rw [Segment.successor, if_neg small] at step
    cases step
  constructor
  · intro top
    rw [top] at largest
    exact absurd largest (by decide)
  · intro advances
    have small := advances.seq_lt
    rw [← wide.seq_segment, largest] at small
    exact absurd small (by decide)

end WideSegment

/-- The successor of a segment is the maximum only behind the top. -/
theorem Segment.successor_lt_max_iff {segment next : Segment}
    (step : segment.successor = .ok next) :
    next < Segment.max ↔ segment ≠ Segment.top := by
  rcases segment with ⟨⟨pid⟩, seq⟩
  rcases next with ⟨⟨nextPid⟩, nextSeq⟩
  obtain ⟨samePid, number⟩ := Segment.successor_eq_ok_iff.mp step
  simp only [PID.mk.injEq] at samePid number
  subst samePid
  have pidBound := nextPid.toNat_lt
  have seqBound := nextSeq.toNat_lt
  simp only [Segment.lt_iff, Segment.max, Segment.top, ne_eq,
    Segment.mk.injEq, PID.mk.injEq, ← UInt32.toNat_inj,
    UInt32.reduceToNat]
  omega

/-! ## Appending -/

/-- The second loop is ahead of the lower neighbour when it can append. -/
theorem exists_tailSegments_gt_iff (pid : PID) (wides : List WideSegment) :
    (∃ segments,
      tailSegments pid (wides.map WideSegment.segment) [] = .ok segments ∧
        wideBytes wides < encodeSegments segments) ↔ Appendable wides := by
  induction wides with
  | nil =>
      simp only [Appendable, iff_true]
      exact ⟨[⟨pid, 2⟩], rfl, List.nil_lt_cons _ _⟩
  | cons head tail induction =>
      rw [List.map_cons, tailSegments, List.head?_nil, Option.getD_none,
        List.tail_nil, Appendable, wideBytes_cons]
      cases step : head.segment.successor with
      | error failure =>
          obtain ⟨notTop, stuck⟩ := WideSegment.stuck_of_error step
          rw [if_neg notTop, error_bind]
          constructor
          · rintro ⟨segments, impossible, -⟩
            cases impossible
          · intro advances
            exact absurd advances stuck
      | ok next =>
          rw [ok_bind]
          by_cases top : head.segment = Segment.top
          · have blocked : ¬ next < Segment.max := by
              rw [Segment.successor_lt_max_iff step]
              exact not_not.mpr top
            rw [if_neg blocked, if_pos top, ← induction,
              WideSegment.bytes_of_eq_top top, top]
            constructor
            · rintro ⟨segments, copied, behind⟩
              obtain ⟨others, found, rfl⟩ := map_eq_ok_iff.mp copied
              rw [encodeSegments_cons, append_lt_append_iff] at behind
              exact ⟨others, found, behind⟩
            · rintro ⟨others, found, behind⟩
              refine ⟨Segment.top :: others, by rw [found, map_ok], ?_⟩
              rw [encodeSegments_cons, append_lt_append_iff]
              exact behind
          · have free : next < Segment.max :=
              (Segment.successor_lt_max_iff step).mpr top
            rw [if_pos free, if_neg top,
              ← WideSegment.bytes_lt_write_successor step (wideBytes tail)]
            simp [encodeSegments]

namespace FractionalIndex

/-- What is appended behind an index is an index, and is behind it. -/
def Appends (prev : FractionalIndex) (pid : PID) : Prop :=
  ∃ bytes, between (some prev) none pid = .ok bytes ∧
    new bytes = .ok (some ⟨bytes⟩) ∧ prev.bytes < bytes

theorem appends_wideBytes_iff (wides : List WideSegment) {pid : PID}
    (nonzero : pid.val ≠ 0) :
    Appends ⟨wideBytes wides⟩ pid ↔ Appendable wides := by
  have sameLoop : betweenSegments pid (wides.map WideSegment.segment) [] =
      tailSegments pid (wides.map WideSegment.segment) [] := by
    cases wides <;> rfl
  have computed : between (some ⟨wideBytes wides⟩) none pid =
      encodeSegments <$>
        betweenSegments pid (wides.map WideSegment.segment) [] :=
    writeFractionalIndex_spells pid (spells_wideBytes wides) Spells.nil
  rw [← exists_tailSegments_gt_iff pid wides, ← sameLoop, Appends, computed]
  constructor
  · rintro ⟨bytes, produced, -, behind⟩
    obtain ⟨segments, found, rfl⟩ := map_eq_ok_iff.mp produced
    exact ⟨segments, found, behind⟩
  · rintro ⟨segments, found, behind⟩
    have proper :=
      betweenSegments_proper nonzero (proper_segments wides) found
    exact ⟨encodeSegments segments, by rw [found, map_ok],
      new_encode proper, behind⟩

/-- Appending succeeds behind exactly the appendable indices. -/
theorem appends_iff_appendable {prev : FractionalIndex}
    (accepted : new prev.bytes = .ok (some prev))
    {value : UInt32} {pid : PID} (peer : PID.new value = some pid) :
    prev.Appends pid ↔
      ∃ wides, prev.bytes = wideBytes wides ∧ Appendable wides := by
  have nonzero : pid.val ≠ 0 := by
    rw [PID.new] at peer
    split at peer
    · cases peer
    · rename_i nonzero
      cases peer
      exact nonzero
  obtain ⟨bytes⟩ := prev
  obtain ⟨wides, rfl⟩ := exists_wideBytes_of_new accepted
  constructor
  · intro appends
    exact ⟨wides, rfl, (appends_wideBytes_iff wides nonzero).mp appends⟩
  · rintro ⟨others, same, appendable⟩
    dsimp only at same
    rw [same]
    exact (appends_wideBytes_iff others nonzero).mpr appendable

/-- Behind sequence number one the first peer appends number two. -/
theorem appends_iff_appendable_first :
    (⟨[1, 1, 1, 1]⟩ : FractionalIndex).Appends ⟨1⟩ := by
  have first := appends_iff_appendable
    (show new [1, 1, 1, 1] = .ok (some ⟨[1, 1, 1, 1]⟩) from rfl)
    (show PID.new 1 = some ⟨1⟩ from rfl)
  exact first.mpr ⟨[⟨[1], [1], by decide, by decide, by decide⟩], rfl,
    by decide⟩

/-- A sequence number at its end, and a peer with leading zero bytes. -/
theorem not_appends_largest :
    new [1, 1, 4, 255, 255, 255, 255] =
        .ok (some ⟨[1, 1, 4, 255, 255, 255, 255]⟩) ∧
      between (some ⟨[1, 1, 4, 255, 255, 255, 255]⟩) none ⟨1⟩ =
        .error .overflow ∧
      ¬ (⟨[1, 1, 4, 255, 255, 255, 255]⟩ : FractionalIndex).Appends
        ⟨1⟩ ∧
      new [2, 0, 1, 1, 5] = .ok (some ⟨[2, 0, 1, 1, 5]⟩) ∧
      between (some ⟨[2, 0, 1, 1, 5]⟩) none ⟨1⟩ = .ok [1, 1, 1, 6] ∧
      ¬ (⟨[2, 0, 1, 1, 5]⟩ : FractionalIndex).Appends ⟨1⟩ := by
  have overflows : between (some ⟨[1, 1, 4, 255, 255, 255, 255]⟩) none ⟨1⟩ =
      .error .overflow := by
    decide +kernel
  have smaller : between (some ⟨[2, 0, 1, 1, 5]⟩) none ⟨1⟩ =
      .ok [1, 1, 1, 6] := by
    decide +kernel
  refine ⟨by decide +kernel, overflows, ?_, by decide +kernel, smaller, ?_⟩
  · rintro ⟨bytes, produced, -⟩
    rw [overflows] at produced
    cases produced
  · rintro ⟨bytes, produced, -, behind⟩
    rw [smaller] at produced
    cases produced
    exact absurd behind (by decide)

end FractionalIndex

end Cdoc.Path
