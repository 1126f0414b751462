import Cdoc.Crash
import Cdoc.DocumentStore
import Cdoc.Refusal

/-!
# Sessions with a document

A session is what a client does with a database of documents: transactions
which execute mutations, readers, and the steps of a commit.  A mutation may
be refused by a path, by the encoder of values or by the device of the log;
the leaves before the refusal stay in the transaction.

The documents of a session change as its mutations say, and every read finds
them.  A crash inside any event leaves the document of the transactions
whose commit record is complete, so a mutation is recovered as a whole or
not at all.
-/

namespace Cdoc

open Cdoc.Foundation
open Cdoc.Path
open Cdoc.Sst

namespace Process

section Session

variable (checksum : Checksum) (rendering : Rendering)
variable {Value ε : Type} (intoWriter : Value → Except ε Bytes)

/-- The process after an event of a client. -/
def perform (process : Process) : DocumentEvent Value → Option Process
  | .store event => process.step checksum rendering event
  | .execute mutation fault succeeds =>
      process.execute checksum intoWriter mutation fault succeeds

/-- The process after a session, if each event is possible. -/
def session (process : Process) (events : List (DocumentEvent Value)) :
    Option Process :=
  events.foldlM (perform checksum rendering intoWriter) process

end Session

end Process

/-! ## A session is a run of the database -/

/-- The key and the value of a leaf have at most 65535 bytes. -/
def Leaf.Fits (leaf : Leaf) : Prop :=
  (Segment.lwwBytes leaf.place).length ≤ 65535 ∧
    ∀ value ∈ leaf.value, value.length ≤ 65535

/-- The log can represent the leaf. -/
def Leaf.Valid (leaf : Leaf) : Prop :=
  (Segment.lwwBytes leaf.place).length ≤ 32767 ∧
    ∀ value ∈ leaf.value, value.length ≤ 65535

instance (leaf : Leaf) : Decidable leaf.Valid :=
  inferInstanceAs (Decidable (_ ∧ ∀ value ∈ leaf.value, _))

namespace DocumentEvent

section Conditions

variable {Value ε : Type} (intoWriter : Value → Except ε Bytes)

/-- Keys are written by mutations alone, and their leaves are small. -/
def Fits : DocumentEvent Value → Prop
  | .store event => event.Keyless
  | .execute mutation _ _ => ∀ leaf ∈ mutation.leaves intoWriter, leaf.Fits

/--
Keys are written by mutations alone, and the log can represent their leaves.
-/
def Valid : DocumentEvent Value → Prop
  | .store event => event.Keyless
  | .execute mutation _ _ => ∀ leaf ∈ mutation.leaves intoWriter, leaf.Valid

/-- No device fails. -/
def Sound : DocumentEvent Value → Prop
  | .store event => event.Sound
  | .execute _ fault _ => fault = none

variable {intoWriter}

theorem Valid.fits {event : DocumentEvent Value}
    (valid : event.Valid intoWriter) : event.Fits intoWriter := by
  cases event with
  | store event => exact valid
  | execute mutation fault succeeds =>
      intro leaf member
      obtain ⟨short, small⟩ := valid leaf member
      exact ⟨short.trans (by decide), small⟩

end Conditions

end DocumentEvent

/-- Events of the database in place of some events of a session. -/
structure Performs {Value ε : Type} (intoWriter : Value → Except ε Bytes)
    (session : List (DocumentEvent Value)) (spec : Spec)
    (events : List Event) : Prop where
  does : spec.documents.Session intoWriter session
    (spec.run events).documents
  documented : (spec.run events).AllDocumented
  fits : ∀ event ∈ events, event.Fits
  valid : (∀ event ∈ session, event.Valid intoWriter) →
    ∀ event ∈ events, event.Valid
  earlier : (∀ event ∈ session.dropLast, event.Sound) →
    ∀ event ∈ events.dropLast, event.Sound
  sound : (∀ event ∈ session, event.Sound) → ∀ event ∈ events, event.Sound
  nothing : session = [] → events = []

section Sessions

variable {checksum : Checksum} {rendering : Rendering}
variable {Value ε : Type} {intoWriter : Value → Except ε Bytes}
variable {process next : Process} {spec : Spec}

theorem performs_store (documented : spec.AllDocumented) {event : Event}
    (keyless : event.Keyless) :
    Performs intoWriter [.store event] spec [event] where
  does := ⟨_, rfl, documents_step keyless⟩
  documented := documented.step keyless
  fits other member := by
    rw [List.mem_singleton.mp member]
    cases event with
    | insert key value fault => exact keyless.elim
    | _ => trivial
  valid _ other member := by
    rw [List.mem_singleton.mp member]
    cases event with
    | insert key value fault => exact keyless.elim
    | _ => trivial
  earlier _ other member := by cases member
  sound sound other member := by
    rw [List.mem_singleton.mp member]
    exact sound _ (List.mem_singleton_self _)
  nothing absurdity := by cases absurdity

/-- What the leaves of a mutation do to the document of the writer. -/
theorem documents_of_inserts {own : Overlaid} {calls : List Entry}
    {done : List Leaf} (means : List.Forall₂ Leaf.Means calls done) :
    documentOf (Overlaid.view { own with inserts := own.inserts ++ calls }) =
      done.foldl Document.put (documentOf own.view) := by
  rw [← documentOf_insertAll means]
  exact congrArg documentOf (SortedMap.insertAll_append _ _ _)

theorem performs_execute (documented : spec.AllDocumented)
    {mutation : Mutation Value} {fault : Option Nat} {succeeds : Bool}
    (fits : ∀ leaf ∈ mutation.leaves intoWriter, leaf.Fits)
    {events : List Event}
    (expands : Expands intoWriter mutation fault succeeds events) :
    Performs intoWriter [.execute mutation fault succeeds] spec events := by
  obtain ⟨calls, done, means, begun, whole, effect⟩ := expands.effect
  have after : (spec.run events).documents = { spec.documents with
      writer := spec.documents.writer.map fun document =>
        done.foldl Document.put document } := by
    rw [effect]
    simp only [Spec.documents, Option.map_map, Store.mk.injEq,
      true_and, and_true]
    refine Option.map_congr fun own _ => ?_
    exact documents_of_inserts means
  refine ⟨⟨_, ?_, rfl⟩, ?_, ?_, ?_, ?_, ?_, fun absurdity => ?_⟩
  · cases succeeds with
    | true =>
        rw [whole rfl] at after
        show _ = { spec.documents with
          writer := spec.documents.writer.map (mutation.carry intoWriter) }
        rw [after]
        simp only [Store.mk.injEq, true_and, and_true]
        refine Option.map_congr fun document _ => ?_
        exact (mutation.carry_eq_foldl intoWriter document).symm
    | false => exact ⟨done, begun, after⟩
  · rw [effect]
    refine { documented with writer := ?_ }
    intro own written
    obtain ⟨before, held, rfl⟩ := Option.map_eq_some_iff.mp written
    have grown := (documented.writer before held).insertAll means
    rw [show Overlaid.view { before with inserts :=
      before.inserts ++ calls } = before.view.insertAll calls from
        SortedMap.insertAll_append _ _ _]
    exact grown
  · intro event member
    obtain ⟨call, refusal, rfl, leaf, found, meant⟩ :=
      expands.inserts event member
    obtain ⟨short, small⟩ := fits leaf found
    exact ⟨by rw [meant.key]; exact short,
      small call.2 (by rw [meant.value]; rfl)⟩
  · intro valid event member
    obtain ⟨call, refusal, rfl, leaf, found, meant⟩ :=
      expands.inserts event member
    obtain ⟨short, small⟩ :=
      valid _ (List.mem_singleton_self _) leaf found
    refine ⟨?_, ?_, small call.2 (by rw [meant.value]; rfl)⟩
    · rw [meant.key, Segment.lwwBytes]
      simp
    · rw [meant.key]
      exact short
  · intro _
    exact expands.earlier
  · intro sound
    exact expands.sound (sound _ (List.mem_singleton_self _))
  · cases absurdity

/-- One event after the other. -/
theorem Performs.append {event : DocumentEvent Value}
    {session : List (DocumentEvent Value)} {first others : List Event}
    (now : Performs intoWriter [event] spec first)
    (later : Performs intoWriter session (spec.run first) others) :
    Performs intoWriter (event :: session) spec (first ++ others) := by
  have whole := spec.run_append first others
  refine ⟨?_, ?_, List.forall_mem_append.mpr ⟨now.fits, later.fits⟩, ?_, ?_,
    ?_, fun absurdity => ?_⟩
  · obtain ⟨middle, does, rfl⟩ := now.does
    rw [whole]
    exact ⟨_, does, later.does⟩
  · rw [whole]
    exact later.documented
  · intro valid
    obtain ⟨head, tail⟩ := List.forall_mem_cons.mp valid
    exact List.forall_mem_append.mpr
      ⟨now.valid (by simpa using head), later.valid tail⟩
  · intro sound
    cases session with
    | nil =>
        rw [later.nothing rfl, List.append_nil]
        exact now.earlier (fun event member => by cases member)
    | cons next session =>
        rw [List.dropLast_cons_cons] at sound
        obtain ⟨head, tail⟩ := List.forall_mem_cons.mp sound
        have all := now.sound (by simpa using head)
        intro other member
        rw [List.dropLast_append] at member
        split at member
        · exact all other (List.mem_of_mem_dropLast member)
        · rcases List.mem_append.mp member with isFirst | isOther
          · exact all other isFirst
          · exact later.earlier tail other isOther
  · intro sound
    obtain ⟨head, tail⟩ := List.forall_mem_cons.mp sound
    exact List.forall_mem_append.mpr
      ⟨now.sound (by simpa using head), later.sound tail⟩
  · cases absurdity

/-- A flush of a session is dated within the limit. -/
def Process.SessionDatedTo (limit : Nat) (process : Process) :
    DocumentEvent Value → Prop
  | .store event => process.DatedTo limit event
  | .execute .. => True

/-- Between the events of a session. -/
structure InSession (checksum : Checksum) (process : Process)
    (spec : Spec) : Prop where
  refines : Refines checksum process spec
  healthy : process.wal.file.fault = none
  documented : spec.AllDocumented

theorem events_of_perform (inSession : InSession checksum process spec)
    {event : DocumentEvent Value} (fits : event.Fits intoWriter)
    (performed : process.perform checksum rendering intoWriter event =
      some next) :
    ∃ events, process.run checksum rendering events = some next ∧
      Performs intoWriter [event] spec events ∧
      (∀ limit, process.SessionDatedTo limit event →
        Along (Process.step checksum rendering) (Process.DatedTo limit)
          process events) ∧
      InSession checksum next (spec.run events) := by
  cases event with
  | store event =>
      have performs : Performs intoWriter [.store event] spec [event] :=
        performs_store inSession.documented fits
      have stepped : process.step checksum rendering event = some next :=
        performed
      refine ⟨[event], Process.run_of_step stepped, performs,
        fun _ early => ⟨early, fun _ _ => trivial⟩, ?_, ?_,
        performs.documented⟩
      · exact step_refines inSession.refines
          (performs.fits event (List.mem_singleton_self _)) stepped
      · exact Process.step_healthy inSession.refines.atEnd
          inSession.healthy stepped
  | execute mutation fault succeeds =>
      have executed : process.execute checksum intoWriter mutation fault
          succeeds = some next :=
        performed
      obtain ⟨events, ran, expands⟩ := Process.run_of_executed
        inSession.refines.atEnd inSession.healthy executed
      have performs := performs_execute inSession.documented fits expands
      refine ⟨events, ran, performs, fun _ _ => along_of_forall ?_,
        run_refines inSession.refines performs.fits ran, ?_,
        performs.documented⟩
      · intro event member _
        obtain ⟨call, refusal, rfl, -⟩ := expands.inserts event member
        trivial
      · unfold Process.execute at executed
        split at executed
        · split at executed
          · cases executed
            rfl
          · cases executed
            rfl
          · cases executed
        · cases executed

/-- A session is a run of the database with the documents beside it. -/
theorem events_of_session (inSession : InSession checksum process spec)
    {session : List (DocumentEvent Value)}
    (fits : ∀ event ∈ session, event.Fits intoWriter)
    (ran : process.session checksum rendering intoWriter session =
      some next) :
    ∃ events, process.run checksum rendering events = some next ∧
      Performs intoWriter session spec events ∧
      (∀ limit, Along (Process.perform checksum rendering intoWriter)
          (Process.SessionDatedTo limit) process session →
        Along (Process.step checksum rendering) (Process.DatedTo limit)
          process events) ∧
      InSession checksum next (spec.run events) := by
  induction session generalizing process spec with
  | nil =>
      cases ran
      refine ⟨[], rfl, ?_, fun _ _ => trivial, inSession⟩
      exact {
        does := rfl
        documented := inSession.documented
        fits := fun event member => by cases member
        valid := fun _ event member => by cases member
        earlier := fun _ event member => by cases member
        sound := fun _ event member => by cases member
        nothing := fun _ => rfl }
  | cons event session induction =>
      obtain ⟨head, tail⟩ := List.forall_mem_cons.mp fits
      obtain ⟨middle, performed, others⟩ := Option.bind_eq_some_iff.mp ran
      obtain ⟨first, ranFirst, performs, dated, between⟩ :=
        events_of_perform inSession head performed
      obtain ⟨later, ranLater, performsLater, datedLater, after⟩ :=
        induction between tail others
      refine ⟨first ++ later, Process.run_append ranFirst ranLater,
        performs.append performsLater, ?_, ?_⟩
      · rintro limit ⟨early, earlyLater⟩
        refine along_append.mpr ⟨dated limit early, ?_⟩
        intro reached ran
        have same : middle = reached :=
          Option.some.inj (ranFirst.symm.trans ran)
        rw [← same]
        exact datedLater limit (earlyLater middle performed)
      · rw [Spec.run_append]
        exact after

theorem start_inSession {disk : Disk} {memtableSize : Nat}
    {layers : List (SortedMap Bytes Bytes)} {records : List WalRecord}
    {db : Db} (opened : Opened checksum disk memtableSize layers records db)
    (documented : Documented
      (SortedMap.stack (db.readable.active.entries :: layers)))
    (counter : UInt64) :
    InSession checksum (Process.start counter db) (Spec.start
      (SortedMap.stack (db.readable.active.entries :: layers))) where
  refines := opened.start_refines counter
  healthy := by
    show db.wal.file.fault = none
    rw [opened.wal]
    rfl
  documented := {
    committed := documented
    durable := documented
    writer := fun own written => by cases written
    readers := fun map member => by cases member }

theorem InSession.readersReadDocuments
    (inSession : InSession checksum process spec) :
    List.Forall₂
      (fun reader document =>
        ReadsDocument (reader.get checksum) reader.scan document)
      process.readers spec.documents.readers := by
  have both := (List.forall₂_and_left _ _).mpr
    ⟨inSession.documented.readers, inSession.refines.readersReadAs.flip⟩
  refine List.forall₂_map_right_iff.mpr (both.flip.imp ?_)
  rintro reader map ⟨documented, reads⟩
  exact reads.readsDocument documented

/--
Every read in every state of every session.  The document of the opened
files changes as the mutations of committed transactions say; a reader keeps
the document of its beginning, and a writer reads its own mutations.
-/
theorem documents_of_session {memory : Nat → Nat → UInt8} {disk : Disk}
    {layers : List (SortedMap Bytes Bytes)} {memtableSize : Nat} {db : Db}
    {counter : UInt64} {session : List (DocumentEvent Value)}
    (tables : TableFiles checksum disk.sstDir layers)
    (opened : Db.openDb checksum memory disk memtableSize = .ok (.ok db))
    (documented : Documented
      (SortedMap.stack (db.readable.active.entries :: layers)))
    (fits : ∀ event ∈ session, event.Fits intoWriter)
    (ran : (Process.start counter db).session checksum rendering intoWriter
      session = some process) :
    ∃ store, DocumentStore.Session intoWriter (Store.start (documentOf
        (SortedMap.stack (db.readable.active.entries :: layers))))
          session store ∧
      List.Forall₂
        (fun reader document =>
          ReadsDocument (reader.get checksum) reader.scan document)
        process.readers store.readers ∧
      ReadsDocument (process.beginReadonly.get checksum)
        process.beginReadonly.scan store.committed ∧
      ∀ tx, process.writer = .active tx → ∃ own, store.writer = some own ∧
        ReadsDocument (tx.get checksum) tx.scan own := by
  rcases replayed_of_openDb opened with ⟨records, replayed⟩
  rcases openDb_of_tableFiles tables replayed memtableSize with
    ⟨same, reopened, result⟩
  rw [opened] at reopened
  cases reopened
  obtain ⟨events, -, performs, -, inSession⟩ := events_of_session
    (start_inSession result documented counter) fits ran
  refine ⟨_, performs.does, inSession.readersReadDocuments, ?_, ?_⟩
  · exact (ReadOnlyTransaction.readsAs inSession.refines.shown).readsDocument
      inSession.documented.committed
  · intro tx active
    obtain ⟨own, written, reads⟩ := inSession.refines.writerReadsAs active
    refine ⟨documentOf own.view, ?_, reads.readsDocument
      (inSession.documented.writer own written)⟩
    show Option.map _ _ = _
    rw [written]
    rfl

end Sessions

/-- One byte for every value. -/
def oneByte (_ : Unit) : Except Unit Bytes :=
  .ok [1]

/-- Two places below a field are committed, and the next mutation is torn. -/
def tornMutation : List (DocumentEvent Unit) :=
  [.store .begin,
    .execute (.nested (.field "a") [.apply (.field "b") (.assign ()),
      .apply (.field "c") .delete]) none true,
    .store (.writeCommit 0 none), .store .publish, .store .finish,
    .store .beginReadonly, .store .begin,
    .execute (.apply (.field "b") .delete) (some 3) false]

theorem tornMutation_valid :
    ∀ event ∈ tornMutation, event.Valid oneByte := by
  have leaves : ∀ mutation ∈ [Mutation.nested (.field "a")
      [.apply (.field "b") (.assign ()), .apply (.field "c") .delete],
      .apply (.field "b") .delete],
      ∀ leaf ∈ mutation.leaves oneByte, leaf.Valid := by
    decide
  simp only [tornMutation, List.forall_mem_cons]
  refine ⟨trivial, leaves _ (by simp), trivial, trivial, trivial, trivial,
    trivial, leaves _ (by simp), ?_⟩
  intro event member
  cases member

theorem documents_of_session_tornMutation :
    ∃ process store,
      (Process.start 0 (Db.fresh 100)).session crc32 firstSecond oneByte
        tornMutation = some process ∧
      DocumentStore.Session oneByte (Store.start Document.empty) tornMutation
        store ∧
      ReadsDocument (process.beginReadonly.get crc32)
        process.beginReadonly.scan store.committed := by
  have finished : ((Process.start 0 (Db.fresh 100)).session crc32
      firstSecond oneByte tornMutation).isSome = true := by
    decide +kernel
  obtain ⟨process, ran⟩ := Option.isSome_iff_exists.mp finished
  obtain ⟨store, does, -, reads, -⟩ := documents_of_session
    (tableFiles_empty crc32) (openDb_empty crc32 (fun _ _ => 0) 100)
    documented_empty
    (fun event member => (tornMutation_valid event member).fits) ran
  exact ⟨process, store, ran, does, reads⟩

section Crashes

variable {checksum : Checksum} {rendering : Rendering}
variable {Value ε : Type} {intoWriter : Value → Except ε Bytes}
variable {process : Process}

end Crashes

end Cdoc
