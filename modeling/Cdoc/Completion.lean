import Cdoc.Client
import Cdoc.HlcClock

/-!
# Every call returns

On a device which fails in any of its writes, or in none, no call of a
client panics or waits, while the clock stays within the dates which can be
displayed and the tables within the largest vector.  What the calls return
is what the client's view of the map says, and together they are one run of
the events of the database, so that everything which is proved of runs is
proved of clients.
-/

namespace Cdoc

open Cdoc.Foundation
open Cdoc.Sst

/-- All timestamps up to the limit are displayed. -/
structure Rendering.DisplaysTo (rendering : Rendering) (limit : Nat) :
    Prop where
  representable : limit < 2 ^ 64
  exists_display : ∀ ts : Timestamp, ts.val.toNat ≤ limit →
    ∃ text, rendering.display ts = .ok text

/-! ## The clock and the size of a table -/

theorem Timestamp.exists_now_le {counter clock : UInt64}
    {ceiling : Nat} (before : counter.toNat ≤ ceiling)
    (reading : clock.toNat ≤ ceiling) (fits : ceiling + 1 < 2 ^ 64) :
    ∃ ts, Timestamp.now counter clock = .ok ts ∧
      ts.val.toNat ≤ ceiling + 1 := by
  have masked := (Timestamp.mask_le clock).trans reading
  have latest : max (clock &&& Timestamp.MASK).toNat counter.toNat ≤
      ceiling :=
    Nat.max_le.mpr ⟨masked, before⟩
  obtain ⟨ts, time⟩ := Timestamp.exists_now
    (Nat.lt_of_le_of_lt (Nat.succ_le_succ latest) fits)
  refine ⟨ts, time, ?_⟩
  rw [Timestamp.now_eq_ok_iff.mp time]
  exact Nat.succ_le_succ latest

theorem Rendering.DisplaysTo.exists_fileName {rendering : Rendering}
    {limit : Nat} (displays : rendering.DisplaysTo limit) {ts : Timestamp}
    (small : ts.val.toNat ≤ limit) :
    ∃ name, rendering.fileName ts = .ok name := by
  obtain ⟨text, displayed⟩ := displays.exists_display ts small
  exact ⟨_, by rw [Rendering.fileName, displayed, ok_bind]; rfl⟩

/-- An insertion adds at most an entry to a table. -/
theorem tableBound_insertEntry (key value : Bytes) (entries : List Entry) :
    tableBound (insertEntry key value entries) ≤
      tableBound entries + (2 * key.length + value.length + 64) := by
  induction entries with
  | nil =>
      simp only [tableBound, insertEntry, List.map_cons, List.sum_cons,
        List.map_nil, List.sum_nil]
      omega
  | cons head tail induction =>
      simp only [tableBound, insertEntry] at induction ⊢
      split
      · simp only [List.map_cons, List.sum_cons]
        omega
      · split
        · simp only [List.map_cons, List.sum_cons]
          omega
        · simp only [List.map_cons, List.sum_cons]
          omega

/-! ## The flush -/

/-- The events of a flush whose table has the given length. -/
def flushEvents (clock : UInt64) (length : Nat) :
    Option FlushFault → List Event
  | none => [.startFlush clock, .writeTmp length, .rename, .swap]
  | some (.write count) => [.startFlush clock, .writeTmp count, .fail]
  | some .rename => [.startFlush clock, .writeTmp length, .fail]
  | some .reopen =>
      [.startFlush clock, .writeTmp length, .rename, .fail]

section Completion

variable {checksum : Checksum} {rendering : Rendering}
variable {process : Process} {spec : Spec}
variable {ceiling limit : Nat}

namespace Process

/-- The process behind a flush, with the lock which is held meanwhile. -/
def behindFlush (process : Process) (tx : ReadWriteTransaction) :
    Option SSTableReader → Process
  | none => { process with writer := .idle }
  | some reader =>
      { process with
        readable := tx.flushed reader
        writer := .swapped tx }

/-- `flush_memtable` returns, and it is what the events of a flush do. -/
theorem flushMemtable_returns {tx : ReadWriteTransaction}
    (full : process.memtableSize ≤ tx.fork.estimatedSize)
    (storable : Storable tx.fork)
    (room : tableBound tx.fork.iter < 2 ^ 63)
    (displays : rendering.DisplaysTo limit) {clock : UInt64}
    (before : process.counter.toNat ≤ ceiling)
    (reading : clock.toNat ≤ ceiling) (behind : ceiling + 1 ≤ limit)
    (fault : Option FlushFault) :
    ∃ length counter sstDir found,
      process.flushMemtable checksum rendering tx.fork clock fault =
        .ok ({ process with counter, sstDir }, found) ∧
      counter.toNat ≤ ceiling + 1 ∧ (found = none ↔ fault ≠ none) ∧
      ({ process with writer := .published tx }).run checksum rendering
          (flushEvents clock length fault) =
        some (behindFlush { process with counter, sstDir } tx found) := by
  obtain ⟨ts, time, small⟩ := Timestamp.exists_now_le before reading
    (Nat.lt_of_le_of_lt behind displays.representable)
  obtain ⟨name, named⟩ := displays.exists_fileName (small.trans behind)
  obtain ⟨bytes, written⟩ : ∃ bytes,
      writeTable checksum ts ts tx.fork.iter = .ok bytes :=
    writeTable_of_small checksum ts ts storable.fits room
  obtain ⟨reader, opened, -⟩ := storable.answers written
  let created := process.sstDir.insert (tmpName name) []
  let whole := created.insert (tmpName name) bytes
  let inPlace := (whole.erase (tmpName name)).insert name bytes
  let started : Process := { process with
    counter := ts.val
    sstDir := created
    writer := .flushing tx name [] bytes }
  let filled : Process := { started with
    sstDir := whole
    writer := .flushing tx name bytes [] }
  let moved : Process := { started with
    sstDir := inPlace
    writer := .renamed tx name }
  have starting : ({ process with writer := .published tx }).step checksum
      rendering (.startFlush clock) = some started := by
    simp only [step, startFlush, full, if_true, time, named, written]
    rfl
  have filling : started.step checksum rendering (.writeTmp bytes.length) =
      some filled := by
    simp only [step, writeTmp, started, filled, whole, List.take_length,
      List.drop_length, List.nil_append]
  have present : Directory.rename whole (tmpName name) name =
      some inPlace := by
    rw [Directory.rename, SortedMap.get_insert_self]
    rfl
  have moving : filled.step checksum rendering .rename = some moved := by
    simp only [step, rename, filled, present]
    rfl
  have found : inPlace.get name = some bytes :=
    SortedMap.get_insert_self _ name bytes
  have swapping : moved.step checksum rendering .swap =
      some { moved with
        readable := tx.flushed reader
        writer := .swapped tx } := by
    simp only [step, swap, moved, found, Option.bind_eq_bind,
      Option.bind_some, opened]
    rfl
  unfold flushMemtable
  simp only [time, named, written, ok_bind, pure_eq_ok]
  simp only [created, whole, inPlace] at present found
  cases fault with
  | none =>
      refine ⟨bytes.length, ts.val, inPlace, some reader, ?_, small, by simp,
        ?_⟩
      · simp only [reduceCtorEq, if_false, present, found, opened, ok_bind,
          created, whole, inPlace]
      · simp only [run, flushEvents, List.foldlM_cons, List.foldlM_nil,
          starting, filling, moving, swapping, Option.bind_eq_bind,
          Option.bind_some, Option.pure_def]
        rfl
  | some fault =>
      cases fault with
      | write count =>
          refine ⟨bytes.length, ts.val,
            created.insert (tmpName name) (bytes.take count), none, rfl,
            small, by simp, ?_⟩
          simp only [run, flushEvents, List.foldlM_cons, List.foldlM_nil,
            starting, Option.bind_eq_bind, Option.bind_some, Option.pure_def]
          rfl
      | rename =>
          refine ⟨bytes.length, ts.val, whole, none, rfl, small, by simp, ?_⟩
          simp only [run, flushEvents, List.foldlM_cons, List.foldlM_nil,
            starting, filling, Option.bind_eq_bind, Option.bind_some,
            Option.pure_def]
          rfl
      | reopen =>
          refine ⟨bytes.length, ts.val, inPlace, none, ?_, small, by simp, ?_⟩
          · simp only [reduceCtorEq, Option.some.injEq, if_false, if_true,
              present, created, whole, inPlace]
          · simp only [run, flushEvents, List.foldlM_cons, List.foldlM_nil,
              starting, filling, moving, Option.bind_eq_bind,
              Option.bind_some, Option.pure_def]
            rfl

end Process

theorem flushEvents_fits {clock : UInt64} {length : Nat}
    {fault : Option FlushFault} :
    ∀ event ∈ flushEvents clock length fault, event.Fits := by
  rcases fault with _ | _ | _ <;> simp [flushEvents, Event.Fits]

theorem Spec.run_flushEvents (spec : Spec) (clock : UInt64) (length : Nat)
    (fault : Option FlushFault) :
    spec.run (flushEvents clock length fault) =
      if fault = none then spec else { spec with writer := none } := by
  rcases fault with _ | _ | _ <;> rfl

/-! ## Between calls -/

/-- The lock, its transaction and the bytes which that may flush. -/
def Holds (process : Process) (spec : Spec) (writing : Bool) (size : Nat) :
    Prop :=
  match process.writer with
  | .idle => writing = false ∧ spec.writer = none
  | .active tx => writing = true ∧ tableBound tx.fork.iter ≤ size
  | _ => False

/-- A process while no call is running. -/
structure Between (process : Process) (spec : Spec) (handles : Handles)
    (size ceiling : Nat) : Prop where
  readers : process.readers.length = handles.readers
  active : tableBound process.readable.active.iter ≤ size
  holds : Holds process spec handles.writing size
  counter : process.counter.toNat ≤ ceiling

/-- A response with the events which lead to the state behind it. -/
structure Answered (checksum : Checksum) (rendering : Rendering)
    (process : Process) (spec : Spec) (handles : Handles)
    (size ceiling : Nat) (request : Request) (next : Process)
    (response : Response) (events : List Event) : Prop where
  ran : process.run checksum rendering events = some next
  fits : ∀ event ∈ events, event.Fits
  allowed : spec.view.Allows request response (spec.run events).view
  between : Between next (spec.run events) (request.handles handles)
    (size + request.weight) (ceiling + request.readings.length)

variable {handles : Handles} {size : Nat}

/-- What is known of the transaction of a client. -/
structure Owns (checksum : Checksum) (process : Process) (spec : Spec)
    (size : Nat) (tx : ReadWriteTransaction) (inserts : List Entry) :
    Prop where
  active : process.writer = .active tx
  own : spec.writer = some ⟨spec.committed, inserts⟩
  storable : Storable tx.fork
  shown : Shows checksum tx.published (spec.committed.insertAll inserts)
  bounded : tableBound tx.fork.iter ≤ size

theorem Owns.locked {tx : ReadWriteTransaction} {inserts : List Entry}
    (owns : Owns checksum process spec size tx inserts) :
    spec.view.writer = some (spec.committed.insertAll inserts) := by
  rw [Spec.view, owns.own]
  rfl

theorem Between.exists_owns (between : Between process spec handles size
    ceiling) (refines : Refines checksum process spec)
    (writing : handles.writing = true) :
    ∃ tx inserts, Owns checksum process spec size tx inserts := by
  have holds := between.holds
  cases held : process.writer with
  | active tx =>
      rw [Holds, held] at holds
      obtain ⟨snapshot, inserts, own, forked⟩ := refines.writer_eq held
      have shown := refines.shown
      rw [show process.readable = tx.snapshot from snapshot.symm] at shown
      exact ⟨tx, inserts, held, own, forked.storable,
        shown.insertAll forked.entries, holds.2⟩
  | idle =>
      rw [Holds, held, writing] at holds
      cases holds.1
  | _ =>
      rw [Holds, held] at holds
      exact holds.elim

theorem Between.idle (between : Between process spec handles size ceiling)
    (waiting : handles.writing = false) :
    process.writer = .idle ∧ spec.writer = none := by
  have holds := between.holds
  cases held : process.writer with
  | idle =>
      rw [Holds, held] at holds
      exact ⟨rfl, holds.2⟩
  | active tx =>
      rw [Holds, held, waiting] at holds
      cases holds.1
  | _ =>
      rw [Holds, held] at holds
      exact holds.elim

/-! ## The commit -/

theorem Process.run_resetLog {tx : ReadWriteTransaction}
    (swapped : process.writer = .swapped tx) :
    process.run checksum rendering [.resetLog] = some { process with
      wal := ⟨⟨[], 0, process.wal.file.fault⟩, 0, 0⟩
      writer := .idle } := by
  refine run_of_step ?_
  simp only [step, resetLog, swapped, WriteAheadLog.reset_eq]

section Committing

variable {tx : ReadWriteTransaction} {inserts : List Entry} {ts : Timestamp}
  {wal : WriteAheadLog} {clock flushClock : UInt64} {fault : Option Nat}
  {flushFault : Option FlushFault}

/-- The record of a commit, and the snapshot which it publishes. -/
theorem Process.run_published (active : process.writer = .active tx)
    (time : Timestamp.now process.counter clock = .ok ts)
    (committed : WriteAheadLog.writeCommit checksum ts
      (process.wal.withFault fault) = .ok () wal) :
    process.run checksum rendering [.writeCommit clock fault, .publish] =
      some { process with
        wal := wal.withFault none
        counter := ts.val
        readable := tx.published
        writer := .published tx } := by
  simp only [run, List.foldlM_cons, List.foldlM_nil, step, writeCommit,
    active, time, committed, publish, Option.bind_eq_bind, Option.bind_some,
    Option.pure_def]

theorem Spec.run_published (accepted : accepts fault 16 = true)
    (own : spec.writer = some ⟨spec.committed, inserts⟩) :
    spec.run [.writeCommit clock fault, .publish] =
      { spec with
        committed := spec.committed.insertAll inserts
        durable := spec.committed.insertAll inserts } := by
  simp only [run, List.foldl_cons, List.foldl_nil, step, accepted, if_true,
    own]
  rfl

theorem publishes_fits :
    ∀ event ∈ [Event.writeCommit clock fault, .publish], event.Fits := by
  simp [Event.Fits]

/-- A commit whose record the log does not take drops the transaction. -/
theorem Process.commit_refused_returns
    (owns : Owns checksum process spec size tx inserts)
    (between : Between process spec handles size ceiling)
    (time : Timestamp.now process.counter clock = .ok ts)
    (small : ts.val.toNat ≤ ceiling + 1)
    (refused : ¬ accepts fault 16 = true)
    (failed : WriteAheadLog.writeCommit checksum ts
      (process.wal.withFault fault) = .error .device wal) :
    ∃ next response events,
      process.commit checksum rendering tx clock fault flushClock
        flushFault = .ok (next, response) ∧
      Answered checksum rendering process spec handles size ceiling
        (.commit clock fault flushClock flushFault) next response events := by
  have logging : process.step checksum rendering (.writeCommit clock fault) =
      some { process with
        wal := wal.withFault none
        counter := ts.val
        writer := .idle } := by
    simp only [step, writeCommit, owns.active, time, failed]
  have effect : spec.run [.writeCommit clock fault] =
      { spec with writer := none } :=
    if_neg refused
  unfold commit
  simp only [time, ok_bind, failed]
  refine ⟨_, _, [.writeCommit clock fault], rfl, run_of_step logging, ?_, ?_,
    ?_⟩
  · simp [Event.Fits]
  · rw [effect]
    refine View.Allows.commitRefused (by rw [owns.locked]; rfl) ?_
    rintro rfl
    exact refused rfl
  · rw [effect]
    exact {
      readers := between.readers
      active := between.active
      holds := ⟨rfl, rfl⟩
      counter := small.trans (Nat.add_le_add_left (Nat.le_succ 1) _) }

/-- A commit below the threshold is complete once it is published. -/
theorem Process.commit_finished_returns
    (owns : Owns checksum process spec size tx inserts)
    (between : Between process spec handles size ceiling)
    (time : Timestamp.now process.counter clock = .ok ts)
    (small : ts.val.toNat ≤ ceiling + 1)
    (accepted : accepts fault 16 = true)
    (committed : WriteAheadLog.writeCommit checksum ts
      (process.wal.withFault fault) = .ok () wal)
    (below : ¬ process.memtableSize ≤ tx.fork.estimatedSize) :
    ∃ next response events,
      process.commit checksum rendering tx clock fault flushClock
        flushFault = .ok (next, response) ∧
      Answered checksum rendering process spec handles size ceiling
        (.commit clock fault flushClock flushFault) next response events := by
  have begins := @run_published checksum rendering process tx ts wal clock
    fault owns.active time committed
  have effect := @Spec.run_published spec inserts clock fault accepted
    owns.own
  have finishing : ({ process with
      wal := wal.withFault none
      counter := ts.val
      readable := tx.published
      writer := .published tx } : Process).run checksum rendering [.finish] =
      some { process with
        wal := wal.withFault none
        counter := ts.val
        readable := tx.published
        writer := .idle } := by
    refine run_of_step ?_
    simp only [step, finish, below, if_false]
  unfold commit
  simp only [time, ok_bind, committed, below, if_false]
  refine ⟨_, _, _, rfl, run_append begins finishing, ?_, ?_, ?_⟩
  · simp [Event.Fits]
  · rw [Spec.run_append, effect]
    exact View.Allows.commit owns.locked
  · rw [Spec.run_append, effect]
    exact {
      readers := between.readers
      active := owns.bounded
      holds := ⟨rfl, rfl⟩
      counter := small.trans (Nat.add_le_add_left (Nat.le_succ 1) _) }

/-- A commit at the threshold flushes, and then it empties the log. -/
theorem Process.commit_flushed_returns
    (owns : Owns checksum process spec size tx inserts)
    (between : Between process spec handles size ceiling)
    (room : size < 2 ^ 63) (displays : rendering.DisplaysTo limit)
    (flushReading : flushClock.toNat ≤ ceiling)
    (behind : ceiling + 2 ≤ limit)
    (time : Timestamp.now process.counter clock = .ok ts)
    (small : ts.val.toNat ≤ ceiling + 1)
    (accepted : accepts fault 16 = true)
    (committed : WriteAheadLog.writeCommit checksum ts
      (process.wal.withFault fault) = .ok () wal)
    (full : process.memtableSize ≤ tx.fork.estimatedSize) :
    ∃ next response events,
      process.commit checksum rendering tx clock fault flushClock
        flushFault = .ok (next, response) ∧
      Answered checksum rendering process spec handles size ceiling
        (.commit clock fault flushClock flushFault) next response events := by
  have begins := @run_published checksum rendering process tx ts wal clock
    fault owns.active time committed
  have effect := @Spec.run_published spec inserts clock fault accepted
    owns.own
  obtain ⟨length, counter, sstDir, found, flushed, bound, failed, ran⟩ :=
    @flushMemtable_returns checksum rendering
      { process with
        wal := wal.withFault none
        counter := ts.val
        readable := tx.published
        writer := .idle }
      (ceiling + 1) limit tx full owns.storable
      (Nat.lt_of_le_of_lt owns.bounded room) displays flushClock small
      (flushReading.trans (Nat.le_succ _)) behind flushFault
  unfold commit
  simp only [time, ok_bind, committed, full, if_true, flushed]
  cases found with
  | none =>
      have faulty : flushFault ≠ none := failed.mp rfl
      refine ⟨_, _, _, rfl, run_append begins ran, ?_, ?_, ?_⟩
      · exact List.forall_mem_append.mpr ⟨publishes_fits, flushEvents_fits⟩
      · rw [Spec.run_append, effect, Spec.run_flushEvents, if_neg faulty]
        exact View.Allows.commitUnflushed owns.locked faulty
      · rw [Spec.run_append, effect, Spec.run_flushEvents, if_neg faulty]
        exact {
          readers := between.readers
          active := owns.bounded
          holds := ⟨rfl, rfl⟩
          counter := bound }
  | some reader =>
      have sound : flushFault = none := by
        by_contra faulty
        cases failed.mpr faulty
      simp only [WriteAheadLog.reset_eq]
      have ends := run_append begins ran
      refine ⟨_, _, _, rfl, run_append ends (run_resetLog rfl), ?_, ?_, ?_⟩
      · refine List.forall_mem_append.mpr
          ⟨List.forall_mem_append.mpr ⟨publishes_fits, flushEvents_fits⟩, ?_⟩
        simp [Event.Fits]
      · rw [Spec.run_append, Spec.run_append, effect, Spec.run_flushEvents,
          if_pos sound]
        exact View.Allows.commit owns.locked
      · rw [Spec.run_append, Spec.run_append, effect, Spec.run_flushEvents,
          if_pos sound]
        exact {
          readers := between.readers
          active := (Nat.le_add_left 64 _).trans owns.bounded
          holds := ⟨rfl, rfl⟩
          counter := bound }

end Committing

/-- `commit` returns, and it is what the events of a commit do. -/
theorem Process.commit_returns {tx : ReadWriteTransaction}
    {inserts : List Entry}
    (owns : Owns checksum process spec size tx inserts)
    (refines : Refines checksum process spec)
    (between : Between process spec handles size ceiling)
    (room : size < 2 ^ 63) (displays : rendering.DisplaysTo limit)
    {clock flushClock : UInt64} (reading : clock.toNat ≤ ceiling)
    (flushReading : flushClock.toNat ≤ ceiling)
    (behind : ceiling + 2 ≤ limit) (fault : Option Nat)
    (flushFault : Option FlushFault) :
    ∃ next response events,
      process.commit checksum rendering tx clock fault flushClock
        flushFault = .ok (next, response) ∧
      Answered checksum rendering process spec handles size ceiling
        (.commit clock fault flushClock flushFault) next response events := by
  obtain ⟨ts, time, small⟩ := Timestamp.exists_now_le between.counter reading
    (by have := displays.representable; omega)
  have written := WriteAheadLog.writeRecord_of_fault checksum refines.atEnd
    (commitRecord ts) fault
  rw [length_commitRecord] at written
  split at written
  · rename_i accepted
    obtain ⟨wal, recorded, -⟩ := written
    by_cases full : process.memtableSize ≤ tx.fork.estimatedSize
    · exact commit_flushed_returns owns between room displays flushReading
        behind time small accepted recorded full
    · exact commit_finished_returns owns between time small accepted recorded
        full
  · rename_i refused
    obtain ⟨wal, part, failed, -⟩ := written
    exact commit_refused_returns owns between time small refused failed

/-! ## The other calls -/

/-- A reader of a client and the map which it shows. -/
theorem Between.exists_reader (between : Between process spec handles size
    ceiling) (refines : Refines checksum process spec) {reader : Nat}
    (owned : reader < handles.readers) :
    ∃ tx map, process.readers[reader]? = some tx ∧
      spec.view.readers[reader]? = some map ∧
      Shows checksum tx.snapshot map := by
  have held : reader < process.readers.length := by
    rw [between.readers]
    exact owned
  have known : reader < spec.readers.length := by
    rw [← refines.readers.length_eq]
    exact held
  exact ⟨_, _, List.getElem?_eq_getElem held,
    List.getElem?_eq_getElem known, refines.readers.get held known⟩

theorem Process.insertInto_returns {tx : ReadWriteTransaction}
    {inserts : List Entry}
    (owns : Owns checksum process spec size tx inserts)
    (refines : Refines checksum process spec)
    (between : Between process spec handles size ceiling)
    (writing : handles.writing = true) {key value : Bytes}
    (fits : Fits (key, value)) (fault : Option Nat) :
    ∃ next response events,
      process.insertInto checksum tx key value fault =
        .ok (next, response) ∧
      Answered checksum rendering process spec handles size ceiling
        (.insert key value fault) next response events := by
  have active := owns.active
  have single : ∀ event ∈ [Event.insert key value fault], event.Fits := by
    intro event member
    rw [List.mem_singleton.mp member]
    exact fits
  have written := WriteAheadLog.writeRecord_of_fault checksum refines.atEnd
    (updateRecord (key, value)) fault
  rw [length_updateRecord] at written
  split at written
  · rename_i accepted
    obtain ⟨wal, recorded, -⟩ := written
    obtain ⟨fork, grown, -, entries⟩ := owns.storable.insert fits
    have inserted : tx.insert checksum key value
        (process.wal.withFault fault) =
          .ok (do
            let fork ← tx.fork.insert key value
            return { tx with fork }) wal :=
      io_bind_of_ok recorded
    have effect : spec.run [.insert key value fault] = { spec with
        writer := some ⟨spec.committed, inserts ++ [(key, value)]⟩ } := by
      simp only [Spec.run, List.foldl_cons, List.foldl_nil, Spec.step,
        accepted, if_true, owns.own]
      rfl
    unfold insertInto
    simp only [inserted, grown, ok_bind, pure_eq_ok]
    refine ⟨_, _, [.insert key value fault], rfl, ?_, single, ?_, ?_⟩
    · refine run_of_step ?_
      simp only [step, insert, active, inserted, grown, ok_bind, pure_eq_ok]
    · rw [effect]
      have allowed := @View.Allows.insert spec.view key value fault _
        owns.locked
      have same : (spec.committed.insertAll inserts).insert key value =
          spec.committed.insertAll (inserts ++ [(key, value)]) :=
        (SortedMap.insertAll_concat _ _ (key, value)).symm
      rw [same] at allowed
      exact allowed
    · rw [effect]
      refine ⟨between.readers,
        between.active.trans (Nat.le_add_right _ _), ⟨writing, ?_⟩,
        between.counter⟩
      show tableBound fork.entries.entries ≤ _
      rw [entries]
      exact (tableBound_insertEntry key value _).trans
        (Nat.add_le_add_right owns.bounded _)
  · rename_i refused
    obtain ⟨wal, part, failed, -⟩ := written
    have failed : tx.insert checksum key value
        (process.wal.withFault fault) = .error .device wal :=
      io_bind_of_error failed
    have effect : spec.run [.insert key value fault] = spec :=
      if_neg refused
    unfold insertInto
    simp only [failed]
    refine ⟨_, _, [.insert key value fault], rfl, ?_, single, ?_, ?_⟩
    · refine run_of_step ?_
      simp only [step, insert, active, failed]
    · rw [effect]
      refine View.Allows.insertRefused (by rw [owns.locked]; rfl) ?_
      rintro rfl
      exact refused rfl
    · rw [effect]
      refine ⟨between.readers,
        between.active.trans (Nat.le_add_right _ _), ?_, between.counter⟩
      rw [Holds]
      simp only [active]
      exact ⟨writing, owns.bounded.trans (Nat.le_add_right _ _)⟩

/-- `abort` and `drop` return, and they are one event each. -/
theorem Process.abandon_returns {tx : ReadWriteTransaction}
    {inserts : List Entry}
    (owns : Owns checksum process spec size tx inserts)
    (between : Between process spec handles size ceiling) :
    ∃ next, process.abandon = (next, .done) ∧
      process.abort = some next ∧
      Between next { spec with writer := none }
        { handles with writing := false } size ceiling := by
  unfold abandon abort
  simp only [owns.active, WriteAheadLog.truncateToLastCommit_eq]
  exact ⟨_, rfl, rfl, between.readers, between.active, ⟨rfl, rfl⟩,
    between.counter⟩

/-- A call which leaves everything as it is. -/
theorem Between.answered (between : Between process spec handles size
    ceiling) {request : Request} {response : Response}
    (allowed : spec.view.Allows request response spec.view)
    (same : request.handles handles = handles)
    (light : request.weight = 0) (timeless : request.readings = []) :
    Answered checksum rendering process spec handles size ceiling request
      process response [] where
  ran := rfl
  fits := by simp
  allowed := allowed
  between := by
    rw [same, light, timeless]
    exact between

/-- Every call which is permitted returns. -/
theorem Process.call_returns (refines : Refines checksum process spec)
    (between : Between process spec handles size ceiling)
    (displays : rendering.DisplaysTo limit) {request : Request}
    (permitted : request.Permitted handles) (fits : request.Fits)
    (room : size < 2 ^ 63)
    (readings : ∀ reading ∈ request.readings, reading.toNat ≤ ceiling)
    (behind : ceiling + request.readings.length ≤ limit) :
    ∃ next response events,
      process.call checksum rendering request =
        some (.ok (next, response)) ∧
      Answered checksum rendering process spec handles size ceiling request
        next response events := by
  cases request with
  | beginReadonly =>
      refine ⟨_, _, [.beginReadonly], rfl, rfl, by simp [Event.Fits],
        View.Allows.beginReadonly, ?_⟩
      refine ⟨?_, between.active, between.holds, between.counter⟩
      show (process.readers ++ [process.beginReadonly]).length =
        handles.readers + 1
      rw [List.length_append, between.readers]
      rfl
  | getReadonly reader key =>
      obtain ⟨tx, map, found, known, shown⟩ :=
        between.exists_reader refines permitted
      refine ⟨process, _, [], ?_, between.answered
        (View.Allows.getReadonly known) rfl rfl rfl⟩
      simp only [call, found, Option.bind_eq_bind, Option.bind_some,
        ReadOnlyTransaction.get_eq shown, ok_bind, pure_eq_ok,
        Option.pure_def]
  | scanReadonly reader stem =>
      obtain ⟨tx, map, found, known, shown⟩ :=
        between.exists_reader refines permitted
      refine ⟨process, _, [], ?_, between.answered
        (View.Allows.scanReadonly known) rfl rfl rfl⟩
      simp only [call, found, Option.bind_eq_bind, Option.bind_some,
        ReadOnlyTransaction.scan_eq shown, ok_bind, pure_eq_ok,
        Option.pure_def]
  | begin =>
      obtain ⟨idle, free⟩ := between.idle permitted
      have beginning : process.step checksum rendering .begin =
          some { process with writer := .active process.begin } := by
        simp only [step, idle]
      refine ⟨{ process with writer := .active process.begin }, .done,
        [.begin], ?_, run_of_step beginning, by simp [Event.Fits], ?_, ?_⟩
      · simp only [call, idle]
      · exact View.Allows.begin (by rw [Spec.view, free]; rfl)
      · exact ⟨between.readers, between.active, ⟨rfl, between.active⟩,
          between.counter⟩
  | insert key value fault =>
      obtain ⟨tx, inserts, owns⟩ := between.exists_owns refines permitted
      obtain ⟨next, response, events, returned, answered⟩ :=
        insertInto_returns owns refines between permitted fits fault
      refine ⟨next, response, events, ?_, answered⟩
      simp only [call, owns.active, returned]
  | get key =>
      obtain ⟨tx, inserts, owns⟩ := between.exists_owns refines permitted
      refine ⟨process, _, [], ?_, between.answered
        (View.Allows.get owns.locked) rfl rfl rfl⟩
      simp only [call, owns.active, ReadWriteTransaction.get_eq owns.shown,
        ok_bind, pure_eq_ok]
  | scan stem =>
      obtain ⟨tx, inserts, owns⟩ := between.exists_owns refines permitted
      refine ⟨process, _, [], ?_, between.answered
        (View.Allows.scan owns.locked) rfl rfl rfl⟩
      simp only [call, owns.active, ReadWriteTransaction.scan_eq owns.shown,
        ok_bind, pure_eq_ok]
  | commit clock fault flushClock flushFault =>
      obtain ⟨tx, inserts, owns⟩ := between.exists_owns refines permitted
      obtain ⟨next, response, events, returned, answered⟩ :=
        commit_returns owns refines between room displays
          (readings clock (by simp [Request.readings]))
          (readings flushClock (by simp [Request.readings])) behind fault
          flushFault
      refine ⟨next, response, events, ?_, answered⟩
      simp only [call, owns.active, returned]
  | abort =>
      obtain ⟨tx, inserts, owns⟩ := between.exists_owns refines permitted
      obtain ⟨next, returned, aborted, after⟩ :=
        abandon_returns owns between
      refine ⟨next, .done, [.abort], ?_, run_of_step aborted,
        by simp [Event.Fits], ?_, after⟩
      · simp only [call, owns.active, returned]
      · exact View.Allows.abort (by rw [owns.locked]; rfl)
  | drop =>
      obtain ⟨tx, inserts, owns⟩ := between.exists_owns refines permitted
      obtain ⟨next, returned, aborted, after⟩ :=
        abandon_returns owns between
      refine ⟨next, .done, [.drop], ?_, run_of_step aborted,
        by simp [Event.Fits], ?_, after⟩
      · simp only [call, owns.active, returned]
      · exact View.Allows.drop (by rw [owns.locked]; rfl)

/-! ## Runs of a client -/

/--
What the requests still to come need of a process: it is where a run from
its start leads, and there is room for their bytes and time for their
readings of the clock.
-/
structure Ready (checksum : Checksum) (rendering : Rendering)
    (limit : Nat) (origin : Process) (first : Spec)
    (requests : List Request) (process : Process) (view : View) (spec : Spec)
    (handles : Handles) (size ceiling : Nat) (events : List Event) :
    Prop where
  ran : origin.run checksum rendering events = some process
  allFit : ∀ event ∈ events, event.Fits
  behind : first.run events = spec
  shown : spec.view = view
  between : Between process spec handles size ceiling
  permitted : Request.EachPermitted handles requests
  fits : ∀ request ∈ requests, request.Fits
  room : size + (requests.map Request.weight).sum < 2 ^ 63
  readings : ∀ reading ∈ requests.flatMap Request.readings,
    reading.toNat ≤ ceiling
  time : ceiling + (requests.flatMap Request.readings).length ≤ limit

/-- A call which is answered leaves what the others need. -/
theorem Ready.answered {origin : Process} {first : Spec} {request : Request}
    {rest : List Request} {view : View} {events : List Event}
    (ready : Ready checksum rendering limit origin first (request :: rest)
      process view spec handles size ceiling events)
    {next : Process} {response : Response} {later : List Event}
    (answered : Answered checksum rendering process spec handles size
      ceiling request next response later) :
    Ready checksum rendering limit origin first rest next
      (spec.run later).view (spec.run later) (request.handles handles)
      (size + request.weight) (ceiling + request.readings.length)
      (events ++ later) where
  ran := Process.run_append ready.ran answered.ran
  allFit := List.forall_mem_append.mpr ⟨ready.allFit, answered.fits⟩
  behind := by rw [Spec.run_append, ready.behind]
  shown := rfl
  between := answered.between
  permitted := ready.permitted.2
  fits other member := ready.fits other (List.mem_cons_of_mem _ member)
  room := by
    have room := ready.room
    rw [List.map_cons, List.sum_cons] at room
    omega
  readings reading member := by
    refine (ready.readings reading ?_).trans (Nat.le_add_right _ _)
    rw [List.flatMap_cons]
    exact List.mem_append_right _ member
  time := by
    have time := ready.time
    rw [List.flatMap_cons, List.length_append] at time
    omega

/-- A process which is ready for the requests. -/
def Attended (checksum : Checksum) (rendering : Rendering) (limit : Nat)
    (origin : Process) (first : Spec) (requests : List Request)
    (process : Process) (view : View) : Prop :=
  ∃ spec handles size ceiling events,
    Ready checksum rendering limit origin first requests process view spec
      handles size ceiling events

/-- The first of the requests is answered. -/
theorem Attended.served {origin : Process} {first : Spec}
    (start : Refines checksum origin first)
    (displays : rendering.DisplaysTo limit) {request : Request}
    {rest : List Request} {view : View}
    (attended : Attended checksum rendering limit origin first
      (request :: rest) process view) :
    ∃ next response after,
      (Process.client checksum rendering).step process request =
        some (next, some response) ∧
      View.Allows view request response after ∧
      Attended checksum rendering limit origin first rest next after := by
  obtain ⟨spec, handles, size, ceiling, events, ready⟩ := attended
  have refines := run_refines start ready.allFit ready.ran
  rw [ready.behind] at refines
  have room := ready.room
  have time := ready.time
  rw [List.map_cons, List.sum_cons] at room
  rw [List.flatMap_cons, List.length_append] at time
  have readings : ∀ reading ∈ request.readings,
      reading.toNat ≤ ceiling := by
    intro reading member
    refine ready.readings reading ?_
    rw [List.flatMap_cons]
    exact List.mem_append_left _ member
  obtain ⟨next, response, later, called, answered⟩ :=
    Process.call_returns refines ready.between displays ready.permitted.1
      (ready.fits request List.mem_cons_self) (by omega) readings (by omega)
  refine ⟨next, response, (spec.run later).view, ?_, ?_, _, _, _, _, _,
    ready.answered answered⟩
  · simp only [Process.client, called]
  · rw [← ready.shown]
    exact answered.allowed

end Completion

/--
Every call of every client returns what the client's view says, and fails
only on a device which does.  The calls are a run of the database.
-/
theorem responses_of_requests {checksum : Checksum} {rendering : Rendering}
    {memory : Nat → Nat → UInt8} {disk : Disk}
    {layers : List (SortedMap Bytes Bytes)} {memtableSize limit : Nat}
    {db : Db} {counter : UInt64} {requests : List Request}
    (displays : rendering.DisplaysTo limit)
    (tables : TableFiles checksum disk.sstDir layers)
    (opened : Db.openDb checksum memory disk memtableSize = .ok (.ok db))
    (permitted : Request.EachPermitted ⟨false, 0⟩ requests)
    (fits : ∀ request ∈ requests, request.Fits)
    (room : tableBound db.readable.active.iter +
      (requests.map Request.weight).sum < 2 ^ 63)
    (clocks : ∀ reading ∈ counter :: requests.flatMap Request.readings,
      reading.toNat + (requests.flatMap Request.readings).length ≤ limit) :
    ∃ process responses view events,
      (Process.client checksum rendering).run (Process.start counter db)
        requests = some (process, responses) ∧
      Machine.Follows View.Allows
        (View.start (SortedMap.stack (db.readable.active.entries :: layers)))
        requests responses view ∧
      (Process.start counter db).run checksum rendering events =
        some process ∧ ∀ event ∈ events, event.Fits := by
  obtain ⟨records, replayed⟩ := replayed_of_openDb opened
  obtain ⟨same, reopened, result⟩ :=
    openDb_of_tableFiles tables replayed memtableSize
  rw [opened] at reopened
  cases reopened
  have start := result.start_refines counter
  let readings := requests.flatMap Request.readings
  have latest := clocks counter List.mem_cons_self
  let map := SortedMap.stack (db.readable.active.entries :: layers)
  let attends := Attended checksum rendering limit
    (Process.start counter db) (Spec.start map)
  have ready : attends requests (Process.start counter db)
      (View.start map) := by
    refine ⟨_, ⟨false, 0⟩, tableBound db.readable.active.iter,
      limit - readings.length, [], rfl, by simp, rfl, rfl, ?_, permitted,
      fits, room, ?_, ?_⟩
    · refine ⟨rfl, le_refl _, ⟨rfl, rfl⟩, ?_⟩
      exact Nat.le_sub_of_add_le latest
    · intro reading member
      exact Nat.le_sub_of_add_le
        (clocks reading (List.mem_cons_of_mem _ member))
    · exact (Nat.sub_add_cancel
        ((Nat.le_add_left _ _).trans latest)).le
  obtain ⟨process, responses, view, ran, follows, attended⟩ :=
    @Machine.run_served _ _ _ (Process.client checksum rendering) _
      View.Allows attends
      (fun _ _ _ _ attended => Attended.served start displays attended)
      _ _ _ ready
  obtain ⟨_, _, _, _, events, behind⟩ := attended
  exact ⟨process, responses, view, events, ran, follows, behind.ran,
    behind.allFit⟩

/-! ## A client whose devices fail -/

theorem firstSecond_displaysTo : firstSecond.DisplaysTo 999 where
  representable := by decide
  exists_display ts small := by
    unfold firstSecond
    dsimp only
    split
    · exact ⟨_, rfl⟩
    · rw [if_pos (Nat.lt_succ_of_le small)]
      exact ⟨_, rfl⟩

/-- An insertion and a flush fail; the commit of the flush is published. -/
def unluckyRequests : List Request :=
  [.beginReadonly, .begin, .insert [1] [2] none, .insert [3] [4] (some 5),
    .get [3], .commit 0 none 0 none, .beginReadonly, .begin,
    .insert [5] [6] none, .commit 0 none 0 (some (.write 7)), .beginReadonly,
    .getReadonly 0 [1], .scanReadonly 1 [], .scanReadonly 2 []]

theorem responses_of_requests_unlucky :
    ∃ process responses,
      (Process.client crc32 firstSecond).run (Process.start 0 (Db.fresh 1))
        unluckyRequests = some (process, responses) ∧
      responses = [.done, .done, .done, .failed, .value none, .done, .done,
        .done, .done, .failed, .done, .value none, .entries [([1], [2])],
        .entries [([1], [2]), ([5], [6])]] := by
  have opened := openDb_empty crc32 (fun _ _ => 0) 1
  have permitted : Request.EachPermitted ⟨false, 0⟩ unluckyRequests := by
    simp [unluckyRequests, Request.EachPermitted, Request.Permitted,
      Request.handles]
  have fits : ∀ request ∈ unluckyRequests, request.Fits := by
    simp [unluckyRequests, Request.Fits, Fits]
  have clocks : ∀ reading ∈ (0 : UInt64) ::
      unluckyRequests.flatMap Request.readings, reading.toNat +
        (unluckyRequests.flatMap Request.readings).length ≤ 999 := by
    simp [unluckyRequests, Request.readings]
  obtain ⟨process, responses, view, events, ran, -, -⟩ :=
    responses_of_requests firstSecond_displaysTo
      (tableFiles_empty crc32) opened permitted fits (by decide) clocks
  refine ⟨process, responses, ran, ?_⟩
  have computed : ((Process.client crc32 firstSecond).run
      (Process.start 0 (Db.fresh 1)) unluckyRequests).map Prod.snd =
    some [.done, .done, .done, .failed, .value none, .done, .done,
      .done, .done, .failed, .done, .value none, .entries [([1], [2])],
      .entries [([1], [2]), ([5], [6])]] := by
    decide +kernel
  rw [ran] at computed
  exact Option.some.inj computed

end Cdoc
