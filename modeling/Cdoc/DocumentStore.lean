import Cdoc.Document
import Cdoc.Snapshot

/-!
# A store of documents

What a database is for, one level above its maps: the document which readers
find, the one which the files stand for, and those which the writer and the
readers hold.  Every event of the database changes the documents as it
changes the maps of the specification, and mutations change the document of
the writer.
-/

namespace Cdoc

open Cdoc.Foundation
open Cdoc.Sst

/--
An event of a client.  The device of the log may fail during `execute`, and
`succeeds` is what `execute` returns to the client.
-/
inductive DocumentEvent (Value : Type) where
  | store (event : Event)
  | execute (mutation : Mutation Value) (fault : Option Nat)
      (succeeds : Bool)

/-- What readers, the writer and the files stand for. -/
structure Store (Content : Type) where
  committed : Content
  durable : Content
  writer : Option Content
  readers : List Content

namespace Store

variable {Content : Type}

/-- A store which has just been opened. -/
def start (content : Content) : Store Content :=
  ⟨content, content, none, []⟩

/-- Insertions are no part of it: they belong to `execute`. -/
def step (store : Store Content) : Event → Store Content
  | .beginReadonly =>
      { store with readers := store.readers ++ [store.committed] }
  | .begin => { store with writer := some store.committed }
  | .writeCommit _ fault =>
      if accepts fault 16 then
        { store with durable := store.writer.getD store.durable }
      else
        { store with writer := none }
  | .publish =>
      { store with committed := store.writer.getD store.committed }
  | .abort | .drop | .finish | .resetLog | .fail =>
      { store with writer := none }
  | .insert .. | .startFlush _ | .writeTmp _ | .rename | .swap => store

/-- Two stores whose contents correspond. -/
structure Related {Other : Type} (Corresponds : Content → Other → Prop)
    (store : Store Content) (other : Store Other) : Prop where
  committed : Corresponds store.committed other.committed
  durable : Corresponds store.durable other.durable
  writer : Option.Rel Corresponds store.writer other.writer
  readers : List.Forall₂ Corresponds store.readers other.readers

theorem Related.imp {Other : Type}
    {Corresponds Weaker : Content → Other → Prop}
    (implies : ∀ content other, Corresponds content other →
      Weaker content other) {store : Store Content} {other : Store Other}
    (related : Related Corresponds store other) :
    Related Weaker store other where
  committed := implies _ _ related.committed
  durable := implies _ _ related.durable
  writer := by
    obtain ⟨-, -, written, -⟩ := related
    generalize store.writer = writer, other.writer = otherWriter at written ⊢
    cases written with
    | some written => exact .some (implies _ _ written)
    | none => exact .none
  readers := related.readers.imp fun _ _ => implies _ _

/-- The content of a writer changes, and corresponds as before. -/
theorem Related.map {Other : Type} {Corresponds : Content → Other → Prop}
    {store : Store Content} {other : Store Other}
    (related : Related Corresponds store other) {change : Content → Content}
    (kept : ∀ content other, Corresponds content other →
      Corresponds (change content) other) :
    Related Corresponds { store with writer := store.writer.map change }
      other where
  committed := related.committed
  durable := related.durable
  writer := by
    obtain ⟨-, -, written, -⟩ := related
    show Option.Rel _ (store.writer.map change) other.writer
    generalize store.writer = writer, other.writer = otherWriter at written ⊢
    cases written with
    | some written => exact .some (kept _ _ written)
    | none => exact .none
  readers := related.readers

/-- What is in the place of the writer, if there is one. -/
theorem Related.getD {Other : Type} {Corresponds : Content → Other → Prop}
    {writer : Option Content} {otherWriter : Option Other}
    (written : Option.Rel Corresponds writer otherWriter)
    {content : Content} {other : Other}
    (otherwise : Corresponds content other) :
    Corresponds (writer.getD content) (otherWriter.getD other) := by
  cases written with
  | some written => exact written
  | none => exact otherwise

/-- An event keeps the contents of two stores corresponding. -/
theorem Related.step {Other : Type} {Corresponds : Content → Other → Prop}
    {store : Store Content} {other : Store Other}
    (related : Related Corresponds store other) (event : Event) :
    Related Corresponds (store.step event) (other.step event) := by
  have released : Related Corresponds { store with writer := none }
      { other with writer := none } :=
    { related with writer := .none }
  cases event with
  | beginReadonly =>
      exact { related with
        readers := List.rel_append related.readers
          (List.Forall₂.cons related.committed List.Forall₂.nil) }
  | begin => exact { related with writer := .some related.committed }
  | writeCommit clock fault =>
      rw [Store.step, Store.step]
      split
      · exact { related with
          durable := Related.getD related.writer related.durable }
      · exact released
  | publish =>
      exact { related with
        committed := Related.getD related.writer related.committed }
  | abort | drop | finish | resetLog | fail => exact released
  | insert | startFlush | writeTmp | rename | swap => exact related

/-- All contents of the store have the property. -/
structure All (good : Content → Prop)
    (store : Store Content) : Prop where
  committed : good store.committed
  durable : good store.durable
  writer : ∀ own, store.writer = some own → good own
  readers : ∀ content ∈ store.readers, good content

section All

variable {good : Content → Prop} {store : Store Content}

theorem All.imp {weaker : Content → Prop}
    (implies : ∀ content, good content → weaker content)
    (all : store.All good) : store.All weaker where
  committed := implies _ all.committed
  durable := implies _ all.durable
  writer own written := implies own (all.writer own written)
  readers content member := implies content (all.readers content member)

theorem All.getD (all : store.All good) {content : Content}
    (otherwise : good content) : good (store.writer.getD content) := by
  cases written : store.writer with
  | none => exact otherwise
  | some own => exact all.writer own written

theorem All.step (all : store.All good) (event : Event) :
    (store.step event).All good := by
  have released : All good { store with writer := none } :=
    { all with writer := fun own written => by cases written }
  cases event with
  | beginReadonly =>
      refine { all with readers := ?_ }
      intro content member
      rcases List.mem_append.mp member with earlier | last
      · exact all.readers content earlier
      · rw [List.mem_singleton.mp last]
        exact all.committed
  | begin =>
      refine { all with writer := ?_ }
      rintro own written
      cases written
      exact all.committed
  | writeCommit clock fault =>
      rw [Store.step]
      split
      · exact { all with durable := all.getD all.durable }
      · exact released
  | publish => exact { all with committed := all.getD all.committed }
  | abort | drop | finish | resetLog | fail => exact released
  | insert | startFlush | writeTmp | rename | swap => exact all

end All

end Store

/-- The documents of a database. -/
abbrev DocumentStore := Store Document

namespace DocumentStore

section Mutations

variable {Value ε : Type} (intoWriter : Value → Except ε Bytes)

/--
What an event may do to the documents.  A mutation which succeeds is carried
out; of one which is refused the first leaves are.
-/
def Does (store : DocumentStore) :
    DocumentEvent Value → DocumentStore → Prop
  | .store event, next => next = store.step event
  | .execute mutation _ true, next =>
      next = { store with
        writer := store.writer.map (mutation.carry intoWriter) }
  | .execute mutation _ false, next =>
      ∃ done, done <+: mutation.leaves intoWriter ∧
        next = { store with
          writer := store.writer.map fun document =>
            done.foldl Document.put document }

/-- Each event does to the documents what it may, from the first to the last. -/
def Session (store : DocumentStore) :
    List (DocumentEvent Value) → DocumentStore → Prop
  | [], last => last = store
  | event :: events, last =>
      ∃ next, store.Does intoWriter event next ∧ next.Session events last

variable {intoWriter}

end Mutations

end DocumentStore

/-- The documents of a specification. -/
def Spec.documents (spec : Spec) : DocumentStore where
  committed := documentOf spec.committed
  durable := documentOf spec.durable
  writer := spec.writer.map fun own => documentOf own.view
  readers := spec.readers.map documentOf

/-- The keys of all maps are keys of positions. -/
structure Spec.AllDocumented (spec : Spec) : Prop where
  committed : Documented spec.committed
  durable : Documented spec.durable
  writer : ∀ own, spec.writer = some own → Documented own.view
  readers : ∀ map ∈ spec.readers, Documented map

/-- Events of the store which write no keys of their own. -/
def Event.Keyless : Event → Prop
  | .insert .. => False
  | _ => True

section Specification

variable {spec : Spec}

theorem documents_step {event : Event} (keyless : event.Keyless) :
    (spec.step event).documents = spec.documents.step event := by
  cases event with
  | insert key value fault => exact keyless.elim
  | beginReadonly =>
      simp [Spec.step, Spec.documents, Store.step]
  | writeCommit clock fault =>
      simp only [Spec.step, Store.step]
      split
      · cases written : spec.writer with
        | none => simp [Spec.documents, written]
        | some own => simp [Spec.documents, written]
      · rfl
  | publish =>
      cases written : spec.writer with
      | none => simp [Spec.step, Spec.documents, Store.step, written]
      | some own =>
          simp [Spec.step, Spec.documents, Store.step, written]
  | begin | abort | drop | finish | resetLog | fail | startFlush
  | writeTmp | rename | swap => rfl

theorem Spec.AllDocumented.getD (documented : spec.AllDocumented)
    {map : SortedMap Bytes Bytes} (otherwise : Documented map) :
    Documented ((spec.writer.map Overlaid.view).getD map) := by
  cases written : spec.writer with
  | none => exact otherwise
  | some own => exact documented.writer own written

theorem Spec.AllDocumented.step (documented : spec.AllDocumented)
    {event : Event} (keyless : event.Keyless) :
    (spec.step event).AllDocumented := by
  have released : Spec.AllDocumented { spec with writer := none } :=
    { documented with writer := fun own written => by cases written }
  cases event with
  | insert key value fault => exact keyless.elim
  | beginReadonly =>
      refine { documented with readers := ?_ }
      intro map member
      rcases List.mem_append.mp member with earlier | last
      · exact documented.readers map earlier
      · rw [List.mem_singleton.mp last]
        exact documented.committed
  | begin =>
      refine { documented with writer := ?_ }
      rintro own written
      cases written
      exact documented.committed
  | writeCommit clock fault =>
      rw [Spec.step]
      split
      · exact { documented with
          durable := documented.getD documented.durable }
      · exact released
  | publish =>
      exact { documented with
        committed := documented.getD documented.committed }
  | abort | drop | finish | resetLog | fail => exact released
  | startFlush | writeTmp | rename | swap => exact documented

end Specification

end Cdoc
