import Cdoc.Path.Lseq

/-!
# The index generator on segment lists

Fractional indices are concatenations of encoded segments, so the two loops
of `writeFractionalIndex` can be read on lists of segments instead of bytes.
`betweenSegments` is that reading; `writeFractionalIndex_encode` states that
the byte-level generator computes the encoding of its result.

Encoded segments form an ordered code.  Byte order of indices is therefore
the lexicographic order of their segment lists, a proper prefix being
smaller.
-/

namespace Cdoc.Path

open Cdoc.Foundation

/-! ## The code of segments -/

/-- Encoded segments keep their order whatever follows them. -/
def Segment.code : OrderedCode Segment UInt8 where
  encode := Segment.write
  Less := (· < ·)
  trichotomy := lt_trichotomy
  lt_append {left right} less leftRest rightRest := by
    have parts :
        (VarInt.code32.pair VarInt.code32).Less
          (left.pid.val, left.seq) (right.pid.val, right.seq) := by
      rcases Segment.lt_iff.mp less with peers | ⟨samePeer, sequence⟩
      · exact Or.inl peers
      · exact Or.inr ⟨congrArg PID.val samePeer, sequence⟩
    exact (VarInt.code32.pair VarInt.code32).lt_append parts
      leftRest rightRest
  encode_ne_nil segment := by
    simp [Segment.write, VarInt.BE32.write, VarInt.write]

/-- The bytes of an index with the given segments. -/
def encodeSegments (segments : List Segment) : Bytes :=
  segments.flatMap Segment.write

@[simp]
theorem encodeSegments_nil : encodeSegments [] = [] :=
  rfl

@[simp]
theorem encodeSegments_cons (head : Segment) (tail : List Segment) :
    encodeSegments (head :: tail) = head.write ++ encodeSegments tail :=
  rfl

theorem encodeSegments_injective :
    Function.Injective encodeSegments :=
  Segment.code.flatMap_injective

theorem encodeSegments_lt {left right : List Segment}
    (less : left < right) :
    encodeSegments left < encodeSegments right :=
  Segment.code.flatMap_lt_of_lex (List.lex_lt.mpr less)

/-- Byte order of indices is the order of their segment lists. -/
theorem encodeSegments_lt_iff {left right : List Segment} :
    encodeSegments left < encodeSegments right ↔ left < right := by
  constructor
  · intro less
    rcases lt_trichotomy left right with smaller | rfl | greater
    · exact smaller
    · exact (lt_irrefl _ less).elim
    · exact (lt_asymm less (encodeSegments_lt greater)).elim
  · exact encodeSegments_lt

/-- No segment carries the forbidden peer identifier zero. -/
def Proper (segments : List Segment) : Prop :=
  ∀ segment ∈ segments, segment.pid.val ≠ 0

theorem proper_nil : Proper [] := by
  simp [Proper]

theorem Proper.head {head : Segment} {tail : List Segment}
    (proper : Proper (head :: tail)) : head.pid.val ≠ 0 :=
  proper head List.mem_cons_self

theorem Proper.tail {head : Segment} {tail : List Segment}
    (proper : Proper (head :: tail)) : Proper tail :=
  fun segment member => proper segment (List.mem_cons_of_mem _ member)

theorem proper_cons {head : Segment} {tail : List Segment} :
    Proper (head :: tail) ↔ head.pid.val ≠ 0 ∧ Proper tail := by
  simp [Proper]

/-! ## Iterating over encoded segments -/

theorem Segment.parse_write_append {segment : Segment}
    (nonzero : segment.pid.val ≠ 0) (rest : Bytes) :
    Segment.parse (segment.write ++ rest) = .ok (some (segment, rest)) := by
  simp only [Segment.parse, Segment.write, List.append_assoc,
    VarInt.BE32.readFrom_write_append, ok_bind, UInt32.ofNat_toNat,
    PID.new, if_neg nonzero, sliceFrom_append_length,
    VarInt.U32.readFrom_write_append, pure_eq_ok]

/-- The iterator reads these segments from the bytes and ends behind them. -/
inductive Spells : List Segment → Bytes → Prop
  | nil : Spells [] []
  | cons {head : Segment} {tail : List Segment} {bytes rest : Bytes}
      (parsed : Segment.parse bytes = .ok (some (head, rest)))
      (shorter : rest.length < bytes.length) (others : Spells tail rest) :
      Spells (head :: tail) bytes

theorem Segments.next_nil : Segments.next [] = .ok (none, []) :=
  rfl

/-- One `next` takes the first segment off. -/
theorem Spells.next {segments : List Segment} {bytes : Bytes}
    (spells : Spells segments bytes) :
    ∃ rest, Segments.next bytes = .ok (segments.head?, rest) ∧
      Spells segments.tail rest := by
  cases spells with
  | nil => exact ⟨[], Segments.next_nil, Spells.nil⟩
  | cons parsed shorter others =>
      refine ⟨_, ?_, others⟩
      rw [Segments.next, parsed]
      rfl

theorem Spells.length_le {segments : List Segment} {bytes : Bytes}
    (spells : Spells segments bytes) :
    segments.length ≤ bytes.length := by
  induction spells with
  | nil => simp
  | cons parsed shorter others induction =>
      rw [List.length_cons]
      omega

theorem Spells.collect {segments : List Segment} {bytes : Bytes}
    (spells : Spells segments bytes) {rounds : Nat}
    (enough : segments.length < rounds) :
    Segments.collect rounds bytes = .ok (segments, []) := by
  induction spells generalizing rounds with
  | nil =>
      rcases Nat.exists_eq_add_of_lt enough with ⟨rounds, rfl⟩
      rfl
  | cons parsed shorter others induction =>
      rcases Nat.exists_eq_succ_of_ne_zero (Nat.ne_zero_of_lt enough) with
        ⟨rounds, rfl⟩
      have tailEnough := Nat.lt_of_succ_lt_succ enough
      simp only [Segments.collect, Segments.next, parsed, ok_bind,
        induction tailEnough, pure_eq_ok]

theorem Spells.parts {segments : List Segment} {bytes : Bytes}
    (spells : Spells segments bytes) :
    FractionalIndex.parts bytes = .ok (segments, []) :=
  spells.collect (Nat.lt_succ_of_le spells.length_le)

theorem Segment.two_le_length_write (segment : Segment) :
    2 ≤ segment.write.length := by
  simp only [Segment.write, VarInt.BE32.write, VarInt.U32.write,
    VarInt.write, List.length_append, List.length_cons]
  omega

/-- Encoded segments are read back. -/
theorem spells_encode {segments : List Segment}
    (proper : Proper segments) :
    Spells segments (encodeSegments segments) := by
  induction segments with
  | nil => exact Spells.nil
  | cons head tail induction =>
      have long := head.two_le_length_write
      have shorter : (encodeSegments tail).length <
          (encodeSegments (head :: tail)).length := by
        rw [encodeSegments_cons, List.length_append]
        omega
      exact Spells.cons (Segment.parse_write_append proper.head _) shorter
        (induction proper.tail)

/-- The segments of an encoded index are the ones it was made of. -/
theorem FractionalIndex.segments_encode {segments : List Segment}
    (proper : Proper segments) :
    FractionalIndex.segments ⟨encodeSegments segments⟩ = .ok segments := by
  rw [FractionalIndex.segments, (spells_encode proper).parts, map_ok]

/-- Encoded segments with proper peers are accepted as an index. -/
theorem FractionalIndex.new_encode {segments : List Segment}
    (proper : Proper segments) :
    FractionalIndex.new (encodeSegments segments) =
      .ok (some ⟨encodeSegments segments⟩) := by
  simp [FractionalIndex.new, FractionalIndex.isValid,
    (spells_encode proper).parts]

/-! ## The generator on segments -/

/-- The second loop once the lower neighbour is exhausted. -/
def ownSegments (pid : PID) : List Segment → List Segment
  | [] => [⟨pid, 2⟩]
  | h :: hs =>
      if ⟨pid, 2⟩ < h then [⟨pid, 2⟩] else ⟨pid, 1⟩ :: ownSegments pid hs

/-- The second loop of the generator. -/
def tailSegments (pid : PID) :
    List Segment → List Segment → Checked (List Segment)
  | [], hi => .ok (ownSegments pid hi)
  | l :: ls, hi => do
      let n ← l.successor
      if n < hi.head?.getD Segment.max then
        .ok [n]
      else
        (l :: ·) <$> tailSegments pid ls hi.tail

/-- Both loops of the generator. -/
def betweenSegments (pid : PID) :
    List Segment → List Segment → Checked (List Segment)
  | [], hi => tailSegments pid [] hi
  | l :: ls, [] => tailSegments pid (l :: ls) []
  | l :: ls, h :: hs => do
      let n ← l.successor
      if n < h ∧ n.pid = pid then
        .ok [n]
      else
        (l :: ·) <$> betweenSegments pid ls hs

/-- The state of the walk in front of the given segments. -/
abbrev Walk.at (written : Bytes) (lo hi : List Segment) : Walk where
  written := written
  lo := encodeSegments lo.tail
  hi := encodeSegments hi.tail
  lower := lo.head?
  higher := hi.head?
  diffed := false

/-- Both iterators take a step. -/
theorem Walk.advance_spells {lo hi : List Segment} {loBytes hiBytes : Bytes}
    (spellsLo : Spells lo loBytes) (spellsHi : Spells hi hiBytes)
    (written : Bytes) (lower higher : Option Segment) (diffed : Bool) :
    ∃ loRest hiRest, Spells lo.tail loRest ∧ Spells hi.tail hiRest ∧
      Walk.advance ⟨written, loBytes, hiBytes, lower, higher, diffed⟩ =
        .ok ⟨written, loRest, hiRest, lo.head?, hi.head?, diffed⟩ := by
  obtain ⟨loRest, nextLo, tailLo⟩ := spellsLo.next
  obtain ⟨hiRest, nextHi, tailHi⟩ := spellsHi.next
  refine ⟨loRest, hiRest, tailLo, tailHi, ?_⟩
  simp only [Walk.advance, nextLo, nextHi, ok_bind, pure_eq_ok]

/-! ## Successors -/

theorem Segment.successor_eq_ok_iff {segment next : Segment} :
    segment.successor = .ok next ↔
      next.pid = segment.pid ∧
        next.seq.toNat = segment.seq.toNat + 1 := by
  rcases segment with ⟨pid, seq⟩
  rcases next with ⟨nextPid, nextSeq⟩
  have bound := nextSeq.toNat_lt
  have seqBound := seq.toNat_lt
  unfold Segment.successor
  split
  · rename_i largest
    subst largest
    simp only [reduceCtorEq, false_iff, not_and]
    intro _ large
    simp only [UInt32.reduceToNat] at large
    omega
  · rename_i small
    have increment : (seq + 1).toNat = seq.toNat + 1 := by
      rw [UInt32.toNat_add]
      have other : seq.toNat ≠ 0xffffffff := by
        intro equal
        exact small (UInt32.toNat_inj.mp equal)
      simp only [UInt32.reduceToNat]
      omega
    simp only [Except.ok.injEq, Segment.mk.injEq, ← UInt32.toNat_inj,
      increment]
    constructor
    · rintro ⟨samePid, sameSeq⟩
      exact ⟨samePid.symm, sameSeq.symm⟩
    · rintro ⟨samePid, sameSeq⟩
      exact ⟨samePid.symm, sameSeq.symm⟩

theorem Segment.lt_of_successor {segment next : Segment}
    (step : segment.successor = .ok next) : segment < next := by
  rcases Segment.successor_eq_ok_iff.mp step with ⟨samePid, sequence⟩
  rw [Segment.lt_iff]
  exact Or.inr ⟨samePid.symm, by omega⟩

theorem Segment.successor_one (pid : PID) :
    Segment.successor ⟨pid, 1⟩ = .ok ⟨pid, 2⟩ :=
  rfl

/-- A segment below the largest sequence number is below the maximum. -/
theorem Segment.lt_max_of_seq {segment : Segment}
    (small : segment.seq.toNat < 0xffffffff) :
    segment < Segment.max := by
  have bound := segment.pid.val.toNat_lt
  rw [Segment.lt_iff]
  by_cases largest : segment.pid.val.toNat = 0xffffffff
  · right
    have samePid : segment.pid.val = 0xffffffff :=
      UInt32.toNat_inj.mp largest
    exact ⟨congrArg PID.mk samePid, small⟩
  · left
    change segment.pid.val.toNat < 0xffffffff
    omega

theorem Segment.two_lt_max (pid : PID) :
    (⟨pid, 2⟩ : Segment) < Segment.max :=
  Segment.lt_max_of_seq (show (2 : UInt32).toNat < 0xffffffff by decide)

/-! ## From bytes to segments -/

theorem Walk.tailLoop_diffed (pid : PID) {rounds : Nat} {walk : Walk}
    (positive : 0 < rounds) (diffed : walk.diffed = true) :
    Walk.tailLoop pid rounds walk = .ok walk := by
  cases rounds with
  | zero => omega
  | succ rounds => simp [Walk.tailLoop, diffed]

section TailLoop

variable (pid : PID) {lo hi : List Segment} {n : Segment}

/-- The second loop ends as soon as the new segment fits below. -/
theorem tailSegments_of_lt
    (step : (lo.head?.getD ⟨pid, 1⟩).successor = .ok n)
    (free : n < hi.head?.getD Segment.max) :
    tailSegments pid lo hi = .ok [n] := by
  cases lo with
  | nil =>
      obtain rfl : (⟨pid, 2⟩ : Segment) = n := by
        simpa [Segment.successor_one] using step
      cases hi with
      | nil => rfl
      | cons h hs => exact congrArg Except.ok (if_pos free)
  | cons l ls =>
      replace step : l.successor = .ok n := step
      rw [tailSegments, step, ok_bind, if_pos free]

/-- Otherwise the lower segment, or its default, is copied. -/
theorem tailSegments_of_not_lt
    (step : (lo.head?.getD ⟨pid, 1⟩).successor = .ok n)
    (blocked : ¬ n < hi.head?.getD Segment.max) :
    tailSegments pid lo hi =
      (lo.head?.getD ⟨pid, 1⟩ :: ·) <$>
        tailSegments pid lo.tail hi.tail := by
  cases lo with
  | nil =>
      obtain rfl : (⟨pid, 2⟩ : Segment) = n := by
        simpa [Segment.successor_one] using step
      cases hi with
      | nil => exact (blocked (Segment.two_lt_max pid)).elim
      | cons h hs => exact congrArg Except.ok (if_neg blocked)
  | cons l ls =>
      replace step : l.successor = .ok n := step
      rw [tailSegments, step, ok_bind, if_neg blocked]
      rfl

theorem tailSegments_of_error {failure : Panic}
    (step : (lo.head?.getD ⟨pid, 1⟩).successor = .error failure) :
    tailSegments pid lo hi = .error failure := by
  cases lo with
  | nil => simp [Segment.successor_one] at step
  | cons l ls =>
      replace step : l.successor = .error failure := step
      rw [tailSegments, step, error_bind]

/-- Two lists which are blocked are not both exhausted. -/
theorem length_tail_lt_of_not_lt
    (step : (lo.head?.getD ⟨pid, 1⟩).successor = .ok n)
    (blocked : ¬ n < hi.head?.getD Segment.max) :
    lo.tail.length + hi.tail.length < lo.length + hi.length := by
  cases lo with
  | nil =>
      cases hi with
      | nil =>
          obtain rfl : (⟨pid, 2⟩ : Segment) = n := by
            simpa [Segment.successor_one] using step
          exact (blocked (Segment.two_lt_max pid)).elim
      | cons h hs => simp
  | cons l ls =>
      simp only [List.tail_cons, List.length_cons, List.length_tail]
      omega

end TailLoop

/-- The second loop appends the encoding of `tailSegments`. -/
theorem Walk.tailLoop_at (pid : PID) {lo hi : List Segment}
    {loBytes hiBytes : Bytes} (spellsLo : Spells lo.tail loBytes)
    (spellsHi : Spells hi.tail hiBytes)
    {rounds : Nat} (enough : lo.length + hi.length + 1 < rounds)
    (written : Bytes) :
    Walk.written <$> Walk.tailLoop pid rounds
        { Walk.at written lo hi with lo := loBytes, hi := hiBytes } =
      (fun segments => written ++ encodeSegments segments) <$>
        tailSegments pid lo hi := by
  induction rounds generalizing lo hi loBytes hiBytes written with
  | zero => omega
  | succ rounds induction =>
      simp only [Walk.tailLoop, Bool.false_eq_true, if_false]
      cases step : Segment.successor (lo.head?.getD ⟨pid, 1⟩) with
      | error failure =>
          rw [tailSegments_of_error pid step]
          rfl
      | ok n =>
          by_cases free : n < hi.head?.getD Segment.max
          · obtain ⟨loRest, hiRest, -, -, next⟩ :=
              Walk.advance_spells spellsLo spellsHi (written ++ n.write)
                lo.head? hi.head? true
            rw [tailSegments_of_lt pid step free, ok_bind, if_pos free,
              next, ok_bind,
              Walk.tailLoop_diffed pid (by omega) rfl]
            simp
          · obtain ⟨loRest, hiRest, tailLo, tailHi, next⟩ :=
              Walk.advance_spells spellsLo spellsHi
                (written ++ (lo.head?.getD ⟨pid, 1⟩).write)
                lo.head? hi.head? false
            have shorter := length_tail_lt_of_not_lt pid step free
            rw [tailSegments_of_not_lt pid step free, ok_bind,
              if_neg free, next, ok_bind,
              induction tailLo tailHi (by omega)]
            cases tailSegments pid lo.tail hi.tail <;> simp

/-- Both loops append the encoding of `betweenSegments`. -/
theorem Walk.loops_at (pid : PID) {lo hi : List Segment}
    {loBytes hiBytes : Bytes} (spellsLo : Spells lo.tail loBytes)
    (spellsHi : Spells hi.tail hiBytes)
    {rounds : Nat} (enough : lo.length < rounds)
    {tailRounds : Nat}
    (tailEnough : lo.length + hi.length + 1 < tailRounds)
    (written : Bytes) :
    Walk.written <$>
        (Walk.commonLoop pid rounds
            { Walk.at written lo hi with lo := loBytes, hi := hiBytes } >>=
          Walk.tailLoop pid tailRounds) =
      (fun segments => written ++ encodeSegments segments) <$>
        betweenSegments pid lo hi := by
  induction rounds generalizing lo hi loBytes hiBytes written with
  | zero => omega
  | succ rounds induction =>
      cases lo with
      | nil =>
          simp only [Walk.commonLoop, betweenSegments]
          exact Walk.tailLoop_at pid spellsLo spellsHi tailEnough written
      | cons l ls =>
          cases hi with
          | nil =>
              simp only [Walk.commonLoop, betweenSegments]
              exact Walk.tailLoop_at pid spellsLo spellsHi tailEnough
                written
          | cons h hs =>
              have shorter : ls.length + hs.length + 1 < tailRounds := by
                simp only [List.length_cons] at tailEnough
                omega
              obtain ⟨loRest, hiRest, tailLo, tailHi, next⟩ :=
                Walk.advance_spells (show Spells ls loBytes from spellsLo)
                  (show Spells hs hiBytes from spellsHi)
                  (written ++ l.write) (some l) (some h) false
              have copied := induction tailLo tailHi
                (by simpa using enough) shorter (written ++ l.write)
              simp only [Walk.commonLoop, List.head?_cons,
                betweenSegments]
              cases step : l.successor with
              | error failure => rfl
              | ok n =>
                  simp only [ok_bind]
                  by_cases free : n < h
                  · by_cases own : n.pid = pid
                    · rw [if_pos free, if_neg (not_not.mpr own),
                        if_pos ⟨free, own⟩, pure_eq_ok, ok_bind,
                        Walk.tailLoop_diffed pid (by omega) rfl]
                      simp
                    · rw [if_pos free, if_pos own,
                        if_neg (fun both => own both.2), next, ok_bind]
                      refine copied.trans ?_
                      cases betweenSegments pid ls hs <;> simp
                  · rw [if_neg free, if_neg (fun both => free both.1),
                      next, ok_bind]
                    refine copied.trans ?_
                    cases betweenSegments pid ls hs <;> simp

/-- The byte-level generator encodes what `betweenSegments` computes. -/
theorem writeFractionalIndex_spells (pid : PID) {lo hi : List Segment}
    {loBytes hiBytes : Bytes} (spellsLo : Spells lo loBytes)
    (spellsHi : Spells hi hiBytes) :
    writeFractionalIndex loBytes hiBytes pid =
      encodeSegments <$> betweenSegments pid lo hi := by
  have loLength := spellsLo.length_le
  have hiLength := spellsHi.length_le
  obtain ⟨loRest, hiRest, tailLo, tailHi, start⟩ :=
    Walk.advance_spells spellsLo spellsHi [] none none false
  unfold writeFractionalIndex
  generalize bound : loBytes.length + hiBytes.length + 3 = rounds
  have loops := Walk.loops_at pid tailLo tailHi
    (show lo.length < rounds by omega)
    (show lo.length + hi.length + 1 < rounds by omega) []
  simp only [start, ok_bind]
  simp only [List.nil_append] at loops
  rw [← loops]
  cases Walk.commonLoop pid rounds
      ⟨[], loRest, hiRest, lo.head?, hi.head?, false⟩ with
  | error failure => rfl
  | ok walk =>
      simp only [ok_bind]
      cases Walk.tailLoop pid rounds walk <;> rfl

theorem writeFractionalIndex_encode (pid : PID) {lo hi : List Segment}
    (properLo : Proper lo) (properHi : Proper hi) :
    writeFractionalIndex (encodeSegments lo) (encodeSegments hi) pid =
      encodeSegments <$> betweenSegments pid lo hi :=
  writeFractionalIndex_spells pid (spells_encode properLo)
    (spells_encode properHi)

end Cdoc.Path
