import Cdoc.Flattening
import Cdoc.Leaves
import Cdoc.Persistence

/-!
# Mutations which are refused

A mutation may be refused by a path, by the encoder of values or by the
device of the log, which may fail in the middle of a record.  Whatever
becomes of it, executing it is a run of insertions for its leaves.  All of
them are accepted by the device, except for the last one where the device has
failed; a mutation which succeeds has inserted all its leaves.
-/

namespace Cdoc

open Cdoc.Foundation
open Cdoc.Path
open Cdoc.Sst

namespace Process

/--
`execute` with a device which may fail.  `succeeds` is what the client is
told; a refused mutation leaves the transaction open.
-/
def execute {Value ε : Type} (checksum : Checksum)
    (intoWriter : Value → Except ε Bytes) (process : Process)
    (mutation : Mutation Value)
    (fault : Option Nat) (succeeds : Bool) : Option Process :=
  match process.writer with
  | .active tx =>
      match ReadWriteTransaction.execute checksum intoWriter mutation
          (tx, process.wal.withFault fault), succeeds with
      | .ok _ (tx, wal), true | .error (.error _) (tx, wal), false =>
          some { process with
            wal := wal.withFault none
            writer := .active tx }
      | _, _ => none
  | _ => none

end Process

/-- The insertions which the calls of a walk stand for. -/
def insertions (calls : List Entry) : List Event :=
  calls.map fun call => .insert call.1 call.2 none

/-- Insertions which the device accepts. -/
theorem Spec.run_insertions (spec : Spec) (calls : List Entry) :
    spec.run (insertions calls) =
      { spec with
        writer := spec.writer.map fun own =>
          { own with inserts := own.inserts ++ calls } } := by
  induction calls generalizing spec with
  | nil =>
      cases written : spec.writer with
      | none => simp [insertions, Spec.run, ← written]
      | some own => simp [insertions, Spec.run, ← written]
  | cons call calls induction =>
      have rest := induction (spec.step (.insert call.1 call.2 none))
      simp only [insertions, List.map_cons, Spec.run, List.foldl_cons]
        at rest ⊢
      rw [rest]
      cases written : spec.writer with
      | none => simp [Spec.step, accepts, written]
      | some own => simp [Spec.step, accepts, written]

/-! ## A mutation is a list of insertions -/

section Expansion

variable {checksum : Checksum} {rendering : Rendering} {ε : Type}
variable {process next : Process}

namespace ReadWriteTransaction

/-- The closure of `execute` writes the record and extends the fork. -/
theorem inserting_eq_ok {tx after : ReadWriteTransaction}
    {wal logged : WriteAheadLog} (atEnd : wal.file.AtEnd)
    (sound : wal.file.fault = none) {key value : Bytes}
    (called : inserting (ε := ε) checksum key value (tx, wal) =
      .ok () (after, logged)) :
    logged = wal.appendRecord checksum (updateRecord (key, value)) ∧
      ∃ fork, tx.fork.insert key value = .ok fork ∧
        after = { tx with fork } := by
  have inserted : tx.insert checksum key value wal =
      .ok (do
        let fork ← tx.fork.insert key value
        return { tx with fork })
        (wal.appendRecord checksum (updateRecord (key, value))) :=
    io_bind_of_ok (WriteAheadLog.writeRecord_of_sound checksum atEnd sound
      (updateRecord (key, value)))
  dsimp only [inserting] at called
  rw [inserted] at called
  cases grown : tx.fork.insert key value with
  | error panic =>
      rw [grown] at called
      cases called
  | ok fork =>
      rw [grown] at called
      cases called
      exact ⟨rfl, fork, rfl, rfl⟩

end ReadWriteTransaction

namespace Process

/-- A call of the closure of `execute` is an insertion of the process. -/
theorem insert_of_inserting {tx : ReadWriteTransaction}
    {wal : WriteAheadLog} (active : process.writer = .active tx)
    (same : process.wal = wal.withFault none) {key value : Bytes} :
    (∀ after logged, ReadWriteTransaction.inserting (ε := ε) checksum key
        value (tx, wal) = .ok () (after, logged) →
      process.insert checksum key value wal.file.fault =
        some { process with
          wal := logged.withFault none
          writer := .active after }) ∧
    ∀ failure after logged, ReadWriteTransaction.inserting (ε := ε)
        checksum key value (tx, wal) =
          .error (.error failure) (after, logged) →
      process.insert checksum key value wal.file.fault =
        some { process with
          wal := logged.withFault none
          writer := .active after } := by
  have device : process.wal.withFault wal.file.fault = wal := by
    rw [same]
    rfl
  unfold Process.insert ReadWriteTransaction.inserting
  simp only [active, device]
  cases tx.insert checksum key value wal with
  | error failure logged =>
      constructor
      · rintro after last success
        cases success
      · rintro other after last failed
        cases failed
        rw [← active]
  | ok outcome logged =>
      cases outcome with
      | error panic =>
          constructor
          · rintro after last success
            cases success
          · rintro other after last failed
            cases failed
      | ok grown =>
          constructor
          · rintro after last success
            cases success
            rfl
          · rintro other after last failed
            cases failed

/-- The device has accepted the record of a call which succeeds. -/
theorem accepts_of_inserting {tx after : ReadWriteTransaction}
    {wal logged : WriteAheadLog} (atEnd : wal.file.AtEnd)
    {key value : Bytes}
    (called : ReadWriteTransaction.inserting (ε := ε) checksum key value
      (tx, wal) = .ok () (after, logged)) :
    accepts wal.file.fault (8 + key.length + value.length) = true ∧
      (wal.file.fault = none → logged.file.fault = none) := by
  have written := WriteAheadLog.writeRecord_of_fault checksum
    (show (wal.withFault none).file.AtEnd from atEnd)
    (updateRecord (key, value)) wal.file.fault
  rw [length_updateRecord] at written
  constructor
  · by_contra refused
    rw [if_neg refused] at written
    obtain ⟨result, part, failed, -⟩ := written
    have failure : tx.insert checksum key value wal =
        .error .device result :=
      io_bind_of_error failed
    dsimp only [ReadWriteTransaction.inserting] at called
    rw [failure] at called
    cases called
  · intro sound
    obtain ⟨rfl, -⟩ :=
      ReadWriteTransaction.inserting_eq_ok atEnd sound called
    rfl

/-- A call which succeeds is an insertion on a sound device. -/
theorem insert_of_called {tx after : ReadWriteTransaction}
    {wal logged : WriteAheadLog} (active : process.writer = .active tx)
    (same : process.wal = wal.withFault none) (atEnd : wal.file.AtEnd)
    {key value : Bytes}
    (called : ReadWriteTransaction.inserting (ε := ε) checksum key value
      (tx, wal) = .ok () (after, logged)) :
    process.insert checksum key value none =
        some { process with
          wal := logged.withFault none
          writer := .active after } ∧
      logged.file.AtEnd := by
  have behind : process.wal.file.AtEnd := by
    rw [same]
    exact atEnd
  have inserted :=
    (insert_of_inserting active same).1 after logged called
  obtain ⟨own, named, result⟩ := insert_cases behind inserted
  have equal : tx = own := by
    rw [active] at named
    exact Writer.active.inj named
  subst equal
  rw [if_pos (accepts_of_inserting atEnd called).1] at result
  obtain ⟨fork, grown, shape⟩ := result
  rw [shape]
  refine ⟨insert_of_sound active behind grown, ?_⟩
  have logs : logged.withFault none = process.wal.appendRecord checksum
      (updateRecord (key, value)) :=
    congrArg (fun process : Process => process.wal) shape
  show (logged.withFault none).file.AtEnd
  rw [logs]
  exact behind.appended _ _

/-- A call which fails is an insertion which the device refuses. -/
theorem insert_of_refused {tx after : ReadWriteTransaction}
    {wal logged : WriteAheadLog} (active : process.writer = .active tx)
    (same : process.wal = wal.withFault none) (atEnd : wal.file.AtEnd)
    {key value : Bytes} {failure : Error ε}
    (called : ReadWriteTransaction.inserting checksum key value (tx, wal) =
      .error (.error failure) (after, logged)) :
    ¬ accepts wal.file.fault (8 + key.length + value.length) = true ∧
      process.insert checksum key value wal.file.fault =
        some { process with
          wal := logged.withFault none
          writer := .active after } := by
  refine ⟨?_, (insert_of_inserting active same).2 failure after logged
    called⟩
  intro accepted
  have written := WriteAheadLog.writeRecord_of_fault checksum
    (show (wal.withFault none).file.AtEnd from atEnd)
    (updateRecord (key, value)) wal.file.fault
  rw [length_updateRecord, if_pos accepted] at written
  obtain ⟨result, recorded, -⟩ := written
  have inserted : tx.insert checksum key value wal =
      .ok (do
        let fork ← tx.fork.insert key value
        return { tx with fork }) result :=
    io_bind_of_ok recorded
  dsimp only [ReadWriteTransaction.inserting] at called
  rw [inserted] at called
  cases grown : tx.fork.insert key value with
  | error panic =>
      rw [grown] at called
      cases called
  | ok fork =>
      rw [grown] at called
      cases called

/--
The calls of a walk are insertions.  Where one of them fails it is the last,
and the device has refused its record.
-/
theorem run_of_calls {tx after : ReadWriteTransaction}
    {wal logged : WriteAheadLog} (active : process.writer = .active tx)
    (same : process.wal = wal.withFault none) (atEnd : wal.file.AtEnd)
    {calls : List Entry} :
    (callAll (fun call => ReadWriteTransaction.inserting (ε := ε) checksum
        call.1 call.2) calls (tx, wal) = .ok () (after, logged) →
      process.run checksum rendering (insertions calls) =
        some { process with
          wal := logged.withFault none
          writer := .active after }) ∧
    ∀ failure, callAll (fun call => ReadWriteTransaction.inserting (ε := ε)
        checksum call.1 call.2) calls (tx, wal) =
          .error (.error failure) (after, logged) →
      wal.file.fault ≠ none ∧
        ∃ done key value fault, done ++ [(key, value)] <+: calls ∧
          ¬ accepts fault (8 + key.length + value.length) = true ∧
          process.run checksum rendering
              (insertions done ++ [.insert key value fault]) =
            some { process with
              wal := logged.withFault none
              writer := .active after } := by
  induction calls generalizing process tx wal with
  | nil =>
      constructor
      · intro called
        cases called
        rw [← active, ← same]
        rfl
      · rintro failure called
        cases called
  | cons call calls induction =>
      obtain ⟨key, value⟩ := call
      -- the state behind the first call, when it succeeds
      have goesOn : ∀ middle between,
          ReadWriteTransaction.inserting (ε := ε) checksum key value
            (tx, wal) = .ok () (middle, between) →
          ∃ reached, process.step checksum rendering
              (.insert key value none) = some reached ∧
            reached.writer = .active middle ∧
            reached.wal = between.withFault none ∧
            between.file.AtEnd ∧
            (∀ last, { reached with
                wal := logged.withFault none
                writer := .active last } =
              { process with
                wal := logged.withFault none
                writer := .active last }) := by
        intro middle between called
        obtain ⟨stepped, behind⟩ := insert_of_called active same atEnd called
        exact ⟨_, stepped, rfl, rfl, behind, fun _ => rfl⟩
      constructor
      · intro called
        rcases callAll_cons_eq_ok_iff.mp called with
          ⟨⟨middle, between⟩, first, others⟩
        obtain ⟨reached, stepped, active', same', atEnd', frame⟩ :=
          goesOn middle between first
        have rest := (induction active' same' atEnd').1 others
        rw [frame] at rest
        exact run_cons_eq_some_iff.mpr ⟨reached, stepped, rest⟩
      · intro failure called
        have split : EStateM.bind
            (ReadWriteTransaction.inserting (ε := ε) checksum key value)
            (fun _ => callAll (fun call => ReadWriteTransaction.inserting
              checksum call.1 call.2) calls) (tx, wal) =
            .error (.error failure) (after, logged) :=
          called
        unfold EStateM.bind at split
        cases first : ReadWriteTransaction.inserting (ε := ε) checksum key
            value (tx, wal) with
        | error stop state =>
            rw [first] at split
            cases split
            obtain ⟨refused, stepped⟩ :=
              insert_of_refused active same atEnd first
            refine ⟨?_, [], key, value, wal.file.fault, ?_, refused, ?_⟩
            · intro sound
              rw [sound] at refused
              exact refused rfl
            · exact ⟨calls, rfl⟩
            · exact run_of_step stepped
        | ok value' state =>
            rw [first] at split
            obtain ⟨middle, between⟩ := state
            obtain ⟨reached, stepped, active', same', atEnd', frame⟩ :=
              goesOn middle between first
            obtain ⟨faulty, done, key', value'', fault, within, refused,
              rest⟩ := (induction active' same' atEnd').2 failure split
            refine ⟨?_, (key, value) :: done, key', value'', fault, ?_,
              refused, ?_⟩
            · intro sound
              exact faulty ((accepts_of_inserting atEnd first).2 sound)
            · exact List.cons_prefix_cons.mpr ⟨rfl, within⟩
            · rw [frame] at rest
              exact run_cons_eq_some_iff.mpr ⟨reached, stepped, rest⟩

end Process

namespace Process

/-- The device works again when an event is over. -/
theorem step_healthy (atEnd : process.wal.file.AtEnd)
    (healthy : process.wal.file.fault = none) {event : Event}
    (stepped : process.step checksum rendering event = some next) :
    next.wal.file.fault = none := by
  cases event with
  | beginReadonly =>
      cases stepped
      exact healthy
  | begin =>
      simp only [Process.step] at stepped
      split at stepped
      · cases stepped
        exact healthy
      · cases stepped
  | insert key value fault =>
      obtain ⟨tx, -, result⟩ := insert_cases atEnd stepped
      split at result
      · obtain ⟨fork, -, rfl⟩ := result
        rfl
      · obtain ⟨wal, torn, rfl⟩ := result
        exact torn.sound
  | abort | drop =>
      obtain ⟨-, wal, truncated, rfl⟩ := abort_cases stepped
      rw [WriteAheadLog.truncateToLastCommit_eq] at truncated
      cases truncated
      exact healthy
  | writeCommit clock fault =>
      obtain ⟨tx, ts, -, -, result⟩ := writeCommit_cases atEnd stepped
      split at result
      · rw [result]
        rfl
      · obtain ⟨wal, torn, rfl⟩ := result
        exact torn.sound
  | publish =>
      obtain ⟨tx, -, rfl⟩ := publish_cases stepped
      exact healthy
  | finish =>
      obtain ⟨tx, -, rfl⟩ := finish_cases stepped
      exact healthy
  | startFlush clock =>
      obtain ⟨tx, ts, name, bytes, -, -, -, -, rfl⟩ :=
        startFlush_cases stepped
      exact healthy
  | writeTmp count =>
      obtain ⟨tx, name, written, remaining, -, rfl⟩ := writeTmp_cases stepped
      exact healthy
  | rename =>
      obtain ⟨tx, name, written, contents, -, -, rfl⟩ := rename_cases stepped
      exact healthy
  | swap =>
      obtain ⟨tx, name, contents, reader, -, -, -, rfl⟩ := swap_cases stepped
      exact healthy
  | resetLog =>
      obtain ⟨tx, -, rfl⟩ := resetLog_cases stepped
      exact healthy
  | fail =>
      obtain ⟨-, rfl⟩ := fail_cases stepped
      exact healthy

end Process

/--
The insertions which a mutation is executed as: all are for leaves, only the
last one may be refused by the device, and those which are not are for the
first leaves.
-/
structure Expands {Value : Type} (intoWriter : Value → Except ε Bytes)
    (mutation : Mutation Value) (fault : Option Nat) (succeeds : Bool)
    (events : List Event) : Prop where
  inserts : ∀ event ∈ events, ∃ call fault,
    event = .insert call.1 call.2 fault ∧
      ∃ leaf ∈ mutation.leaves intoWriter, Leaf.Means call leaf
  earlier : ∀ event ∈ events.dropLast, event.Sound
  sound : fault = none → ∀ event ∈ events, event.Sound
  effect : ∃ calls done, List.Forall₂ Leaf.Means calls done ∧
    done <+: mutation.leaves intoWriter ∧
    (succeeds = true → done = mutation.leaves intoWriter) ∧
    ∀ spec : Spec, spec.run events = { spec with
      writer := spec.writer.map fun own =>
        { own with inserts := own.inserts ++ calls } }

section Mutations

variable {Value : Type} {intoWriter : Value → Except ε Bytes}
variable {mutation : Mutation Value} {fault : Option Nat}

theorem insertions_sound (calls : List Entry) :
    ∀ event ∈ insertions calls, event.Sound := by
  intro event member
  obtain ⟨call, -, rfl⟩ := List.mem_map.mp member
  rfl

/-- The leaf of a call. -/
theorem exists_leaf_of_mem {calls : List Entry} {leaves : List Leaf}
    (means : List.Forall₂ Leaf.Means calls leaves) {call : Entry}
    (member : call ∈ calls) : ∃ leaf ∈ leaves, Leaf.Means call leaf := by
  induction means with
  | nil => cases member
  | cons first others induction =>
      rcases List.mem_cons.mp member with rfl | inTail
      · exact ⟨_, List.mem_cons_self, first⟩
      · obtain ⟨leaf, found, meant⟩ := induction inTail
        exact ⟨leaf, List.mem_cons_of_mem _ found, meant⟩

theorem expands_insertions {succeeds : Bool} {calls : List Entry}
    {done : List Leaf} (means : List.Forall₂ Leaf.Means calls done)
    (begun : done <+: mutation.leaves intoWriter)
    (whole : succeeds = true → done = mutation.leaves intoWriter) :
    Expands intoWriter mutation fault succeeds (insertions calls) where
  inserts event member := by
    obtain ⟨call, isCall, rfl⟩ := List.mem_map.mp member
    obtain ⟨leaf, found, meant⟩ := exists_leaf_of_mem means isCall
    exact ⟨call, none, rfl, leaf, begun.subset found, meant⟩
  earlier event member :=
    insertions_sound calls event (List.mem_of_mem_dropLast member)
  sound _ := insertions_sound calls
  effect := ⟨calls, done, means, begun, whole,
    fun spec => spec.run_insertions calls⟩

theorem expands_refused {calls first : List Entry} {done : List Leaf}
    (means : List.Forall₂ Leaf.Means calls done)
    (begun : done <+: mutation.leaves intoWriter) {key value : Bytes}
    (within : first ++ [(key, value)] <+: calls) {refusal : Option Nat}
    (refused : ¬ accepts refusal (8 + key.length + value.length) = true)
    (faulty : fault ≠ none) :
    Expands intoWriter mutation fault false
      (insertions first ++ [.insert key value refusal]) where
  inserts event member := by
    rcases List.mem_append.mp member with inFirst | last
    · obtain ⟨call, isCall, rfl⟩ := List.mem_map.mp inFirst
      obtain ⟨leaf, found, meant⟩ := exists_leaf_of_mem means
        (within.subset (List.mem_append_left _ isCall))
      exact ⟨call, none, rfl, leaf, begun.subset found, meant⟩
    · rw [List.mem_singleton.mp last]
      obtain ⟨leaf, found, meant⟩ := exists_leaf_of_mem means
        (within.subset (List.mem_append_right _ (List.mem_singleton_self _)))
      exact ⟨(key, value), refusal, rfl, leaf, begun.subset found, meant⟩
  earlier event member := by
    rw [List.dropLast_concat] at member
    exact insertions_sound first event member
  sound absent := absurd absent faulty
  effect := by
    obtain ⟨rest, rfl⟩ := within
    rw [List.append_assoc] at means
    have meant := List.forall₂_take first.length means
    rw [List.take_left] at meant
    refine ⟨first, done.take first.length, meant,
      (List.take_prefix _ _).trans begun, ?_, ?_⟩
    · intro absurdity
      cases absurdity
    · intro spec
      rw [Spec.run_append]
      show Spec.step (spec.run (insertions first))
        (.insert key value refusal) = _
      rw [spec.run_insertions, Spec.step, if_neg refused]

/-- Whatever becomes of a mutation, it is a run of insertions. -/
theorem Process.run_of_executed {succeeds : Bool}
    (atEnd : process.wal.file.AtEnd)
    (healthy : process.wal.file.fault = none)
    (executed : process.execute checksum intoWriter mutation fault
      succeeds = some next) :
    ∃ events, process.run checksum rendering events = some next ∧
      Expands intoWriter mutation fault succeeds events := by
  unfold Process.execute at executed
  split at executed
  · rename_i tx active
    obtain ⟨calls, done, means, begun, whole, fails⟩ :=
      mutation.delegates_forEach intoWriter
        (ReadWriteTransaction.inserting checksum)
        (tx, process.wal.withFault fault)
    have same : process.wal =
        (process.wal.withFault fault).withFault none := by
      show process.wal = { process.wal with
        file := { process.wal.file with fault := none } }
      rw [← healthy]
    have behind : (process.wal.withFault fault).file.AtEnd := atEnd
    split at executed
    · rename_i after logged outcome
      cases executed
      obtain ⟨rfl, called, -⟩ := whole _ (after, logged) outcome
      exact ⟨insertions calls,
        (run_of_calls active same behind).1 called,
        expands_insertions means begun fun _ => rfl⟩
    · rename_i failure after logged outcome
      cases executed
      rcases fails _ (after, logged) outcome with called | called
      · exact ⟨insertions calls,
          (run_of_calls active same behind).1 called,
          expands_insertions means begun fun wrong => by cases wrong⟩
      · obtain ⟨faulty, first, key, value, refusal, within, refused,
          ran⟩ := (run_of_calls active same behind).2 failure called
        exact ⟨_, ran, expands_refused means begun within refused faulty⟩
    · cases executed
  · cases executed

end Mutations

end Expansion

end Cdoc
