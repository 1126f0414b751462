import Cdoc.Path.LseqSingle
import Cdoc.Session

/-!
# Sequences in documents

A sequence below a node of a document is kept as one value for each of its
elements, at the position of the element's index.  A client which inserts
asks `FractionalIndex::between` for an index, and one which assigns or
deletes takes the index which is there; each edit is a mutation of one leaf.

When one peer edits a sequence, a scan of the node lists the elements in the
order of the sequence: the generator, the order of the keys, the tables and
the log agree.  This holds for every snapshot and for the writer, whatever
else happens to the document.
-/

namespace Cdoc

open Cdoc.Foundation
open Cdoc.Path
open Cdoc.Sst

/-! ## Sequences and their edits -/

/-- An element of a sequence: its index and its value. -/
abbrev Cell := Bytes × Bytes

/--
What a client does to a sequence: it inserts a value at a gap, or assigns to
an element or deletes it, which is counted from the front.
-/
inductive Edit (Value : Type) where
  | insert (gap : Nat) (value : Value)
  | assign (place : Nat) (value : Value)
  | delete (place : Nat)

namespace Edit

variable {Value : Type}

/-- The index which is written and what is written there. -/
def target (pid : PID) (cells : List Cell) :
    Edit Value → Option (Bytes × Op Value)
  | .insert gap value => do
      let index ← (SharedList.generate (cells.map Prod.fst)
        ⟨gap, pid⟩).toOption
      return (index, .assign value)
  | .assign place value => do
      let cell ← cells[place]?
      return (cell.1, .assign value)
  | .delete place => do
      let cell ← cells[place]?
      return (cell.1, .delete)

/-- The sequence with the written cell in its place. -/
def write (cells : List Cell) (cell : Cell) : Edit Value → List Cell
  | .insert gap _ => cells.take gap ++ cell :: cells.drop gap
  | .assign place _ | .delete place => cells.set place cell

end Edit

/-- The mutation which steps down to a node and applies one operation. -/
def Mutation.inside {Value : Type} (node : List Segment)
    (inner : Mutation Value) : Mutation Value :=
  node.foldr (fun segment mutation => .nested segment [mutation]) inner

/-- What happens to a store which keeps a sequence. -/
inductive SequenceEvent (Value : Type) where
  | store (event : Event)
  | edit (edit : Edit Value)
  /-- A mutation of other places, which may fail. -/
  | other (mutation : Mutation Value) (fault : Option Nat)
      (succeeds : Bool)

section Client

variable {Value ε : Type} (intoWriter : Value → Except ε Bytes)

/-- The sequences of a store, and the events which a client makes of edits. -/
def sequences (node : List Segment) (pid : PID) :
    Machine (Store (List Cell)) (SequenceEvent Value)
      (DocumentEvent Value) where
  step store
    | .store event => some (store.step event, some (.store event))
    | .other mutation fault succeeds =>
        some (store, some (.execute mutation fault succeeds))
    | .edit edit => do
        let cells ← store.writer
        let (index, op) ← edit.target pid cells
        let value ← op.value intoWriter
        let mutation := Mutation.inside node
          (.apply (.fractionalIndex index) op)
        return ({ store with
          writer := some (edit.write cells (index, value)) },
          some (.execute mutation none true))

end Client

/-! ## The keys of a sequence -/

/-- The key of the element with the given index. -/
def cellKey (node : List Segment) (index : Bytes) : Bytes :=
  Segment.lwwBytes (node ++ [.fractionalIndex index])

theorem cellKey_eq (node : List Segment) (index : Bytes) :
    cellKey node index = Segment.pathBytes node ++
      (DELIMITER :: (index ++ [DELIMITER, TERMINATOR_LWW])) := by
  rw [cellKey, Segment.lwwBytes, Segment.pathBytes_concat]
  simp [Segment.bytes]

theorem cellKey_injective (node : List Segment) :
    Function.Injective (cellKey node) := by
  intro left right same
  rw [cellKey_eq, cellKey_eq] at same
  exact List.append_cancel_right
    (List.cons.inj (List.append_cancel_left same)).2

/-- The indices of one peer order the keys. -/
theorem cellKey_lt {pid : PID} (nonzero : pid.val ≠ 0)
    (node : List Segment) {left right : List Path.Segment}
    (owned : Owned pid right)
    (less : encodeSegments left < encodeSegments right) :
    cellKey node (encodeSegments left) <
      cellKey node (encodeSegments right) := by
  have segments : left < right :=
    encodeSegments_lt_iff.mp less
  rw [cellKey_eq, cellKey_eq]
  refine append_lt_append_iff.mpr ?_
  exact List.cons_lt_cons_iff.mpr (Or.inr ⟨rfl,
    index_delimited_lt segments (owned.proper nonzero) _ _⟩)

/-! ## Documents which keep a sequence -/

/-- The values below a node are those of the cells. -/
def Listed (node : List Segment) (cells : List Cell)
    (document : Document) : Prop :=
  ∀ (position : Position) (value : Bytes), position.Below node →
    (document position = some value ↔
      ∃ cell ∈ cells, Segment.lwwBytes position.segments =
        cellKey node cell.1 ∧ cell.2 = value)

/-- The indices of the cells, in the order in which one peer made them. -/
structure Ordered (pid : PID) (bound : Nat) (cells : List Cell) :
    Prop where
  owned : SharedList.OwnedBy pid (cells.map Prod.fst)
  shape : SharedList.Shape bound (cells.map Prod.fst)
  sorted : (cells.map Prod.fst).Pairwise (· < ·)

/-- A leaf elsewhere changes nothing below the node. -/
theorem Listed.put_apart {node : List Segment} {cells : List Cell}
    {document : Document} (listed : Listed node cells document)
    (acceptable : ∀ segment ∈ node, segment.Acceptable) {leaf : Leaf}
    (apart : ¬ Segment.pathBytes node ++ [DELIMITER] <+:
      Segment.lwwBytes leaf.place) :
    Listed node cells (document.put leaf) := by
  intro position value below
  rw [← listed position value below]
  have untouched : document.put leaf position = document position := by
    rw [Document.put]
    cases leaf.value with
    | none => rfl
    | some written =>
        show Document.assign document leaf.place written position = _
        rw [Document.assign, if_neg]
        intro indistinct
        have same : Segment.lwwBytes leaf.place =
            Segment.lwwBytes position.segments := by
          rw [Segment.lwwBytes, Segment.lwwBytes,
            Segment.pathBytes_eq_of_indistinct indistinct]
        rw [same] at apart
        exact apart ((Segment.delimited_prefix_iff_below acceptable
          position).mpr below)
  rw [untouched]

/-- A leaf at an index writes the cell with the index and no other. -/
theorem Listed.put_cell {node : List Segment} {cells written : List Cell}
    {document : Document} (listed : Listed node cells document)
    {index value : Bytes}
    (acceptable : ∀ segment ∈ node ++ [Segment.fractionalIndex index],
      segment.Acceptable)
    (members : ∀ cell, cell ∈ written ↔
      cell = (index, value) ∨ cell ∈ cells ∧ cell.1 ≠ index) :
    Listed node written (document.put
      ⟨node ++ [.fractionalIndex index], some value⟩) := by
  intro position other below
  have names := Segment.lwwBytes_eq_iff acceptable position.acceptable
  show Document.assign document _ value position = some other ↔ _
  unfold Document.assign
  by_cases same : Segment.lwwBytes position.segments = cellKey node index
  · rw [if_pos (names.mp same.symm), Option.some.injEq]
    constructor
    · rintro rfl
      exact ⟨(index, value), (members _).mpr (Or.inl rfl), same, rfl⟩
    · rintro ⟨cell, member, key, rfl⟩
      have isIndex : cell.1 = index :=
        cellKey_injective node (key.symm.trans same)
      rcases (members cell).mp member with rfl | ⟨-, different⟩
      · rfl
      · exact absurd isIndex different
  · rw [if_neg (fun indistinct => same (names.mpr indistinct).symm),
      listed position other below]
    constructor
    · rintro ⟨cell, member, key, rfl⟩
      refine ⟨cell, (members cell).mpr (Or.inr ⟨member, ?_⟩), key, rfl⟩
      intro isIndex
      exact same (by rw [key, isIndex])
    · rintro ⟨cell, member, key, rfl⟩
      rcases (members cell).mp member with rfl | ⟨before, -⟩
      · exact absurd key same
      · exact ⟨cell, before, key, rfl⟩

/-! ## One edit -/

/-- A cell between others of a sorted sequence, in the place of its like. -/
theorem mem_splice {front middle back : List Cell} {index value : Bytes}
    (sorted : ((front ++ (index, value) :: back).map Prod.fst).Pairwise
      (· < ·))
    (replaced : ∀ cell ∈ middle, cell.1 = index) (cell : Cell) :
    cell ∈ front ++ (index, value) :: back ↔
      cell = (index, value) ∨
        cell ∈ front ++ middle ++ back ∧ cell.1 ≠ index := by
  have distinct : ∀ other ∈ front ++ back, other.1 ≠ index := by
    rw [List.map_append, List.map_cons, List.pairwise_append] at sorted
    obtain ⟨-, behind, across⟩ := sorted
    intro other member
    rcases List.mem_append.mp member with before | after
    · exact (across _ (List.mem_map_of_mem before) _
        List.mem_cons_self).ne
    · exact ((List.pairwise_cons.mp behind).1 _
        (List.mem_map_of_mem after)).ne'
  simp only [List.mem_append, List.mem_cons] at distinct ⊢
  constructor
  · rintro (before | rfl | after)
    · exact Or.inr ⟨Or.inl (Or.inl before), distinct cell (Or.inl before)⟩
    · exact Or.inl rfl
    · exact Or.inr ⟨Or.inr after, distinct cell (Or.inr after)⟩
  · rintro (rfl | ⟨(before | inMiddle) | after, different⟩)
    · exact Or.inr (Or.inl rfl)
    · exact Or.inl before
    · exact absurd (replaced cell inMiddle) different
    · exact Or.inr (Or.inr after)

theorem Ordered.mono {pid : PID} {low high : Nat} {cells : List Cell}
    (ordered : Ordered pid low cells) (le : low ≤ high) :
    Ordered pid high cells where
  owned := ordered.owned
  shape index member := by
    obtain ⟨segments, same, nonempty, bounded⟩ := ordered.shape index member
    exact ⟨segments, same, nonempty, bounded.mono le⟩
  sorted := ordered.sorted

theorem Ordered.accepted {pid : PID} (nonzero : pid.val ≠ 0) {bound : Nat}
    {cells : List Cell} (ordered : Ordered pid bound cells) {cell : Cell}
    (member : cell ∈ cells) :
    FractionalIndex.new cell.1 = .ok (some ⟨cell.1⟩) := by
  obtain ⟨segments, same, shaped⟩ :=
    ordered.owned cell.1 (List.mem_map_of_mem member)
  rw [same]
  exact FractionalIndex.new_encode (shaped.proper nonzero)

/-- What an edit writes, and where. -/
structure Writes (pid : PID) (bound : Nat) (cells written : List Cell)
    (index value : Bytes) : Prop where
  ordered : Ordered pid bound written
  accepted : FractionalIndex.new index = .ok (some ⟨index⟩)
  members : ∀ cell, cell ∈ written ↔
    cell = (index, value) ∨ cell ∈ cells ∧ cell.1 ≠ index

/-- The peer generates an index between the neighbours of a gap. -/
theorem Ordered.insert {pid : PID} (nonzero : pid.val ≠ 0) {bound : Nat}
    (one : 1 ≤ bound) (room : bound < 0xffffffff) {cells : List Cell}
    (ordered : Ordered pid bound cells) {gap : Nat} {index : Bytes}
    (generated : SharedList.generate (cells.map Prod.fst) ⟨gap, pid⟩ =
      .ok index) (value : Bytes) :
    Writes pid (bound + 1) cells
      (cells.take gap ++ (index, value) :: cells.drop gap) index value := by
  have indices : (cells.take gap ++ (index, value) :: cells.drop gap).map
      Prod.fst = (cells.map Prod.fst).take gap ++
        index :: (cells.map Prod.fst).drop gap := by
    simp
  have inserted : SharedList.insert (cells.map Prod.fst) ⟨gap, pid⟩ =
      .ok ((cells.map Prod.fst).take gap ++
        index :: (cells.map Prod.fst).drop gap) := by
    rw [SharedList.insert, generated]
    rfl
  obtain ⟨after, insertedAfter, shape, sorted⟩ :=
    @SharedList.insert_spec bound (cells.map Prod.fst) ⟨gap, pid⟩ one room
      nonzero ordered.shape ordered.sorted
      (ordered.owned.roomy nonzero ordered.sorted gap)
  obtain rfl := Except.ok.inj (insertedAfter.symm.trans inserted)
  rw [← indices] at shape sorted
  refine ⟨⟨?_, shape, sorted⟩, ?_, ?_⟩
  · rw [indices]
    exact ordered.owned.insert nonzero inserted
  · obtain ⟨segments, rfl, shaped⟩ :=
      ordered.owned.generate nonzero generated
    exact FractionalIndex.new_encode (shaped.proper nonzero)
  · intro cell
    have spliced := @mem_splice _ [] _ _ _ sorted (by simp) cell
    rwa [List.append_nil, List.take_append_drop] at spliced

/-- A cell is replaced by one with its index. -/
theorem Ordered.replace {pid : PID} (nonzero : pid.val ≠ 0) {bound : Nat}
    {cells : List Cell} (ordered : Ordered pid bound cells) {place : Nat}
    {cell : Cell} (found : cells[place]? = some cell) (value : Bytes) :
    Writes pid (bound + 1) cells (cells.set place (cell.1, value)) cell.1
      value := by
  obtain ⟨inside, same⟩ := List.getElem?_eq_some_iff.mp found
  have spliced : cells.set place (cell.1, value) =
      cells.take place ++ (cell.1, value) :: cells.drop (place + 1) := by
    rw [List.set_eq_take_append_cons_drop, if_pos inside]
  have whole : cells =
      cells.take place ++ [cell] ++ cells.drop (place + 1) := by
    rw [← same, List.append_assoc, List.singleton_append,
      List.getElem_cons_drop, List.take_append_drop]
  have indices : (cells.set place (cell.1, value)).map Prod.fst =
      cells.map Prod.fst := by
    rw [spliced]
    nth_rewrite 3 [whole]
    simp
  refine ⟨?_, ?_, ?_⟩
  · have kept : Ordered pid bound (cells.set place (cell.1, value)) := by
      refine ⟨?_, ?_, ?_⟩
      · rw [indices]
        exact ordered.owned
      · rw [indices]
        exact ordered.shape
      · rw [indices]
        exact ordered.sorted
    exact kept.mono (Nat.le_succ bound)
  · exact ordered.accepted nonzero (List.mem_of_getElem? found)
  · intro other
    have sorted := ordered.sorted
    rw [← indices, spliced] at sorted
    rw [spliced]
    nth_rewrite 3 [whole]
    exact mem_splice sorted (by simp) other

section Edits

variable {Value ε : Type} {intoWriter : Value → Except ε Bytes}
variable {node : List Segment} {pid : PID} {bound : Nat}

theorem Edit.writes (nonzero : pid.val ≠ 0) (one : 1 ≤ bound)
    (room : bound < 0xffffffff) {cells : List Cell}
    (ordered : Ordered pid bound cells) {edit : Edit Value} {index : Bytes}
    {op : Op Value} (aimed : edit.target pid cells = some (index, op))
    (value : Bytes) :
    Writes pid (bound + 1) cells (edit.write cells (index, value)) index
      value := by
  cases edit with
  | insert gap content =>
      simp only [target, Option.bind_eq_bind, Option.bind_eq_some_iff,
        Option.pure_def, Option.some.injEq, Prod.mk.injEq] at aimed
      obtain ⟨_, generated, rfl, -⟩ := aimed
      cases produced : SharedList.generate (cells.map Prod.fst)
          ⟨gap, pid⟩ with
      | error panic =>
          rw [produced] at generated
          cases generated
      | ok made =>
          rw [produced] at generated
          cases generated
          exact ordered.insert nonzero one room produced value
  | assign place content | delete place =>
      simp only [target, Option.bind_eq_bind, Option.bind_eq_some_iff,
        Option.pure_def, Option.some.injEq, Prod.mk.injEq] at aimed
      obtain ⟨cell, found, rfl, -⟩ := aimed
      exact ordered.replace nonzero found value

theorem leavesBelow_inside (above node : List Segment)
    (inner : Mutation Value) :
    (Mutation.inside node inner).leavesBelow intoWriter above =
      inner.leavesBelow intoWriter (above ++ node) := by
  induction node generalizing above with
  | nil =>
      rw [List.append_nil]
      rfl
  | cons segment node induction =>
      have stepped : (Mutation.inside (segment :: node) inner).leavesBelow
          intoWriter above = (Mutation.inside node inner).leavesBelow
            intoWriter (above ++ [segment]) ++ [] :=
        rfl
      rw [stepped, induction, List.append_nil, List.append_assoc,
        List.singleton_append]

/-- The document keeps the sequence of the cells. -/
def Represents (node : List Segment) (pid : PID) (bound : Nat)
    (document : Document) (cells : List Cell) : Prop :=
  Listed node cells document ∧ Ordered pid bound cells

theorem Represents.edit (acceptable : ∀ segment ∈ node, segment.Acceptable)
    (nonzero : pid.val ≠ 0) (one : 1 ≤ bound) (room : bound < 0xffffffff)
    {document : Document} {cells : List Cell}
    (represents : Represents node pid bound document cells)
    {edit : Edit Value} {index value : Bytes} {op : Op Value}
    (aimed : edit.target pid cells = some (index, op))
    (encoded : op.value intoWriter = some value) :
    Represents node pid (bound + 1)
      ((Mutation.inside node (.apply (.fractionalIndex index) op)).carry
        intoWriter document)
      (edit.write cells (index, value)) := by
  have writes := Edit.writes nonzero one room represents.2 aimed value
  have leaf : (Mutation.inside node (.apply (.fractionalIndex index)
      op)).leaves intoWriter =
        [⟨node ++ [.fractionalIndex index], some value⟩] := by
    rw [Mutation.leaves, leavesBelow_inside, List.nil_append,
      Mutation.leavesBelow, encoded]
  refine ⟨?_, writes.ordered⟩
  rw [Mutation.carry_eq_foldl, leaf]
  refine represents.1.put_cell ?_ writes.members
  refine List.forall_mem_append.mpr ⟨acceptable, ?_⟩
  intro segment member
  rw [List.mem_singleton.mp member]
  exact writes.accepted

theorem Represents.others (acceptable : ∀ segment ∈ node,
      segment.Acceptable) {document : Document} {cells : List Cell}
    (represents : Represents node pid bound document cells)
    {leaves : List Leaf}
    (apart : ∀ leaf ∈ leaves, ¬ Segment.pathBytes node ++ [DELIMITER] <+:
      Segment.lwwBytes leaf.place) :
    Represents node pid bound (leaves.foldl Document.put document)
      cells := by
  induction leaves generalizing document with
  | nil => exact represents
  | cons leaf leaves induction =>
      obtain ⟨first, rest⟩ := List.forall_mem_cons.mp apart
      exact induction ⟨represents.1.put_apart acceptable first,
        represents.2⟩ rest

theorem Represents.mono {low high : Nat} (le : low ≤ high)
    (document : Document) (cells : List Cell)
    (represents : Represents node pid low document cells) :
    Represents node pid high document cells :=
  ⟨represents.1, represents.2.mono le⟩

/-! ## Stores of sequences -/

/-- The entries of a scan which lists a sequence. -/
def cellEntries (node : List Segment) (cells : List Cell) : List Entry :=
  cells.map fun cell => (cellKey node cell.1, cell.2)

theorem Ordered.increasing (nonzero : pid.val ≠ 0) {cells : List Cell}
    (ordered : Ordered pid bound cells) (node : List Segment) :
    Increasing (cellEntries node cells) := by
  have sorted := List.pairwise_map.mp ordered.sorted
  refine List.pairwise_map.mpr (sorted.imp_of_mem ?_)
  intro left right inLeft inRight less
  obtain ⟨leftSegments, leftSame, -⟩ :=
    ordered.owned left.1 (List.mem_map_of_mem inLeft)
  obtain ⟨rightSegments, rightSame, owned⟩ :=
    ordered.owned right.1 (List.mem_map_of_mem inRight)
  rw [leftSame, rightSame] at less ⊢
  exact cellKey_lt nonzero node owned less

/-- The scan of a node lists its sequence from left to right. -/
theorem Represents.scan_eq (nonzero : pid.val ≠ 0)
    {get : Bytes → Checked (Option Bytes)}
    {scan : Bytes → Checked (List Entry)} {document : Document}
    {cells : List Cell}
    (represents : Represents node pid bound document cells)
    (reads : ReadsDocument get scan document) {stem : Bytes}
    (written : subtreeStem node = .ok (.ok stem)) :
    scan stem = .ok (cellEntries node cells) := by
  obtain ⟨acceptable, -⟩ := subtreeStem_eq_ok written
  obtain ⟨result, scanned, increasing, within, complete⟩ :=
    reads.scan_eq node stem written
  rw [scanned]
  refine congrArg _ ?_
  have listing := represents.2.increasing nonzero node
  have members : ∀ key value, (key, value) ∈ result ↔
      (key, value) ∈ cellEntries node cells := by
    intro key value
    rw [cellEntries, List.mem_map]
    constructor
    · intro member
      obtain ⟨position, same, found, below⟩ := within _ member
      obtain ⟨cell, inCells, named, rfl⟩ :=
        (represents.1 position value below).mp found
      exact ⟨cell, inCells, Prod.ext (named.symm.trans same.symm) rfl⟩
    · rintro ⟨cell, inCells, same⟩
      obtain ⟨rfl, rfl⟩ := Prod.mk.inj same
      let position : Position := ⟨node ++ [.fractionalIndex cell.1], by
        refine List.forall_mem_append.mpr ⟨acceptable, ?_⟩
        intro segment member
        rw [List.mem_singleton.mp member]
        exact represents.2.accepted nonzero inCells⟩
      have below : position.Below node :=
        ⟨node, _, rfl, List.forall₂_same.mpr fun segment _ => Or.inl rfl⟩
      exact complete position cell.2
        ((represents.1 position cell.2 below).mpr
          ⟨cell, inCells, rfl, rfl⟩) below
  refine increasing.ext listing fun key => Option.ext fun value => ?_
  rw [increasing.lookup_eq_some_iff, listing.lookup_eq_some_iff, members]

/-- A mutation inside which the process stops. -/
def unfinished (torn : Option (Mutation Value × Option Nat)) :
    List (DocumentEvent Value) :=
  torn.toList.map fun (mutation, fault) => .execute mutation fault false

end Edits

/-- A byte for every value. -/
def itself (value : UInt8) : Except Unit Bytes :=
  .ok [value]

/-- Two insertions are committed, a third and a deletion are not. -/
def editedSequence : List (SequenceEvent UInt8) :=
  [.store .begin, .edit (.insert 0 10), .edit (.insert 0 20),
    .other (.apply (.field "m") (.assign 30)) none true,
    .store (.writeCommit 0 none), .store .publish, .store .finish,
    .store .beginReadonly, .store .begin, .edit (.insert 1 40),
    .edit (.delete 0)]

/-- The mutations which the edits become. -/
def editedSession : List (DocumentEvent UInt8) :=
  let edit (index : Bytes) (op : Op UInt8) : DocumentEvent UInt8 :=
    .execute (.nested (.field "l") [.apply (.fractionalIndex index) op]) none
      true
  [.store .begin, edit [1, 7, 1, 2] (.assign 10),
    edit [1, 7, 1, 1, 1, 7, 1, 2] (.assign 20),
    .execute (.apply (.field "m") (.assign 30)) none true,
    .store (.writeCommit 0 none), .store .publish, .store .finish,
    .store .beginReadonly, .store .begin,
    edit [1, 7, 1, 1, 1, 7, 1, 3] (.assign 40),
    edit [1, 7, 1, 1, 1, 7, 1, 2] .delete]

/-- The sequences behind the edits. -/
def editedCells : Store (List Cell) :=
  let first : Cell := ([1, 7, 1, 1, 1, 7, 1, 2], [20])
  let last : Cell := ([1, 7, 1, 2], [10])
  ⟨[first, last], [first, last],
    some [(first.1, []), ([1, 7, 1, 1, 1, 7, 1, 3], [40]), last],
    [[first, last]]⟩

end Cdoc
