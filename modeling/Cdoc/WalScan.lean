import Cdoc.WalFrames

/-!
# Replaying any bytes

What is replayed of a file which need not be a log.  It is read without an
error, up to the last commit of the longest sequence of frames in front.  So
a file with more bytes behind it replays the same records and perhaps others.
-/

namespace Cdoc.WriteAheadLog

open Cdoc.Foundation

/-- The records up to the last commit. -/
def Replay.committed (self : Replay) : List WalRecord :=
  self.records.take self.lastCommitPos

/-- The position behind the last commit is one. -/
structure Replay.Marked (state : Replay) : Prop where
  within : state.lastCommitPos ≤ state.records.length
  commits : state.lastCommitPos ≠ 0 →
    ∃ last ∈ state.committed.getLast?, last.timestamp.isSome = true

theorem Replay.Marked.push {state : Replay} (marked : state.Marked)
    (record : WalRecord) (crc : UInt32) (rest : Bytes) :
    (state.push record crc rest).Marked := by
  have within := marked.within
  cases commit : record.timestamp.isSome with
  | true =>
      constructor
      · rw [push_lastCommitPos, push_records, if_pos commit]
        simp
      · intro _
        refine ⟨record, ?_, commit⟩
        rw [committed, push_lastCommitPos, push_records, if_pos commit,
          List.take_of_length_le (by simp), List.getLast?_concat]
        rfl
  | false =>
      have same : (state.push record crc rest).committed =
          state.committed := by
        rw [committed, push_lastCommitPos, push_records,
          if_neg (by simp [commit]), List.take_append_of_le_length within]
        rfl
      constructor
      · rw [push_lastCommitPos, push_records, if_neg (by simp [commit]),
          List.length_append]
        omega
      · rw [same, push_lastCommitPos, if_neg (by simp [commit])]
        exact marked.commits

theorem Replay.push_extended (state : Replay) (record : WalRecord)
    (crc : UInt32) (rest more : Bytes) :
    ({ state with rest := state.rest ++ more } : Replay).push record crc
        (rest ++ more) =
      { state.push record crc rest with
        rest := (state.push record crc rest).rest ++ more } := by
  unfold Replay.push
  split <;> rfl

section Scan

variable (checksum : Checksum) (memory : Nat → Nat → UInt8)

/-- Once records are found, those up to the last commit stay. -/
theorem committed_prefix_of_loop {state : Replay} (marked : state.Marked)
    {rounds : Nat} (enough : state.rest.length < rounds) :
    ∃ final, replayLoop checksum memory rounds state = .ok final ∧
      state.committed <+: final.committed := by
  obtain ⟨final, frames, done, -, -, records, position⟩ :=
    replayLoop_frames checksum memory state enough
  have within := marked.within
  have later : state.lastCommitPos ≤ final.lastCommitPos := by
    rcases position with ⟨-, same⟩ | ⟨-, behind⟩ <;> omega
  refine ⟨final, done, ?_⟩
  rw [Replay.committed, Replay.committed, records,
    ← List.take_append_of_le_length within]
  exact List.take_prefix_take_left later

/-- By induction on the rounds, of which each reads a frame with room. -/
theorem replayLoop_extended {rounds : Nat} (state : Replay)
    (enough : state.rest.length < rounds) (marked : state.Marked) :
    ∃ final, replayLoop checksum memory rounds state = .ok final ∧
      final.Marked ∧ ∀ (more : Bytes) (others : Nat),
        (state.rest ++ more).length < others →
        ∃ longer, replayLoop checksum memory others
            { state with rest := state.rest ++ more } = .ok longer ∧
          final.committed <+: longer.committed := by
  induction rounds generalizing state with
  | zero => omega
  | succ rounds induction =>
      cases read : nextRecord checksum (memory state.records.length)
          state.rollingCrc state.rest with
      | none =>
          refine ⟨state, replayLoop_of_none checksum memory read rounds,
            marked, ?_⟩
          intro more others room
          have extended :
              ({ state with rest := state.rest ++ more } : Replay).Marked :=
            ⟨marked.within, marked.commits⟩
          exact committed_prefix_of_loop checksum memory extended room
      | some result =>
          obtain ⟨⟨record, crc⟩, rest⟩ := result
          obtain ⟨-, -, shape⟩ := nextRecord_eq_some read
          have long := WalRecord.eight_le_length_frame checksum
            state.rollingCrc record
          have shorter : rest.length + 8 ≤ state.rest.length := by
            rw [shape, List.length_append]
            omega
          obtain ⟨final, done, finalMarked, extends'⟩ :=
            induction (state.push record crc rest)
              (by rw [push_rest]; omega) (marked.push record crc rest)
          refine ⟨final, ?_, finalMarked, ?_⟩
          · rw [replayLoop_of_some checksum memory read, done]
          · intro more others room
            obtain ⟨fewer, rfl⟩ : ∃ fewer, others = fewer + 1 :=
              ⟨others - 1, by omega⟩
            have readOn := nextRecord_local checksum
              (memory state.records.length) state.rollingCrc state.rest _ _
              read more
            rw [replayLoop_of_some checksum memory readOn,
              Replay.push_extended]
            apply extends'
            rw [push_rest, List.length_append]
            rw [List.length_append] at room
            omega

/--
A replay of any bytes returns records which the file begins with, and at
least those which were written in front and committed.  Bytes behind the file
change none of them.
-/
theorem replay_of_bytes (bytes : Bytes) :
    ∃ records, replay checksum memory bytes = .ok records ∧
      (records ≠ [] → BeginsWith checksum 0 bytes records) ∧
      (∀ written, AllValid written →
        BeginsWith checksum 0 bytes written → written <+: records) ∧
      ∀ more, ∃ longer,
        replay checksum memory (bytes ++ more) = .ok longer ∧
          records <+: longer := by
  have marked : (⟨bytes, [], 0, 0⟩ : Replay).Marked :=
    ⟨Nat.zero_le _, fun nonzero => absurd rfl nonzero⟩
  obtain ⟨final, done, finalMarked, extends'⟩ :=
    replayLoop_extended checksum memory ⟨bytes, [], 0, 0⟩
      (Nat.lt_succ_self bytes.length) marked
  have replayed : replay checksum memory bytes = .ok final.committed := by
    rw [replay, done]
    rfl
  refine ⟨final.committed, replayed, ?_, ?_, ?_⟩
  · intro nonempty
    obtain ⟨other, frames, same, readable, framed, records, -⟩ :=
      replayLoop_frames checksum memory ⟨bytes, [], 0, 0⟩
        (Nat.lt_succ_self bytes.length)
    rw [done] at same
    cases same
    rw [List.nil_append] at records
    have inside : final.committed <+: frames := by
      rw [Replay.committed, records]
      exact List.take_prefix _ _
    have nonzero : final.lastCommitPos ≠ 0 := by
      intro zero
      apply nonempty
      rw [Replay.committed, zero, List.take_zero]
    refine ⟨fun record member => readable record (inside.subset member), ?_,
      finalMarked.commits nonzero⟩
    obtain ⟨others, rfl⟩ := inside
    rw [encodeFrames_append] at framed
    exact (List.prefix_append _ _).trans framed
  · intro written valid begins
    obtain ⟨result, found, prefixed⟩ :=
      @replay_append_of_frames checksum memory [] written
        (List.forall_mem_nil _) valid bytes begins
    have same : result = final.committed := by
      have both := found.symm.trans replayed
      cases both
      rfl
    rw [same] at prefixed
    exact prefixed
  · intro more
    obtain ⟨longer, doneOn, prefixed⟩ :=
      extends' more _ (Nat.lt_succ_self _)
    refine ⟨longer.committed, ?_, prefixed⟩
    rw [replay, doneOn]
    rfl

end Scan

end Cdoc.WriteAheadLog
