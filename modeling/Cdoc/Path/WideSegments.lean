import Cdoc.Path.LseqSegments
import Cdoc.Path.RoundTrip

/-!
# Indices from arbitrary bytes

Indices arrive from users and from other peers as bytes.  The decoders
accept integers with leading zero bytes, which the generator never writes,
so an accepted index is a list of *wide* segments: the bytes of a peer and
those of a sequence number, each behind its length.

A length byte which announces more bytes than are left is not refused.  The
decoders slice behind the end and panic.  They return on exactly the byte
strings in which they do not meet such a length.
-/

namespace Cdoc.Path

open Cdoc.Foundation
open Cdoc.VarInt

/-! ## Wide segments -/

/-- The bytes of an accepted segment, leading zero bytes included. -/
structure WideSegment where
  pid : Bytes
  seq : Bytes
  pid_le : pid.length ≤ 4
  seq_le : seq.length ≤ 4
  nonzero : ofBeBytes pid ≠ 0
deriving DecidableEq

namespace WideSegment

/-- Both numbers, each behind its length. -/
def bytes (wide : WideSegment) : Bytes :=
  announced wide.pid ++ announced wide.seq

/-- The segment which the decoders make of the bytes. -/
def segment (wide : WideSegment) : Segment :=
  ⟨⟨UInt32.ofNat (ofBeBytes wide.pid)⟩, UInt32.ofNat (ofBeBytes wide.seq)⟩

theorem ofBeBytes_lt_of_le {data : Bytes} (short : data.length ≤ 4) :
    ofBeBytes data < 2 ^ 32 :=
  (ofBeBytes_lt data).trans_le
    (Nat.pow_le_pow_right (by decide : 0 < 256) short)

theorem toNat_ofBeBytes {data : Bytes} (short : data.length ≤ 4) :
    (UInt32.ofNat (ofBeBytes data)).toNat = ofBeBytes data := by
  rw [UInt32.toNat_ofNat']
  exact Nat.mod_eq_of_lt (ofBeBytes_lt_of_le short)

theorem pid_new (wide : WideSegment) :
    PID.new (UInt32.ofNat (ofBeBytes wide.pid)) = some wide.segment.pid := by
  have number := toNat_ofBeBytes wide.pid_le
  rw [PID.new, if_neg]
  · rfl
  · intro zero
    rw [zero] at number
    exact wide.nonzero number.symm

theorem parse_append (wide : WideSegment) (rest : Bytes) :
    Segment.parse (wide.bytes ++ rest) = .ok (some (wide.segment, rest)) := by
  have readPid : BE32.readFrom
      (announced wide.pid ++ (announced wide.seq ++ rest)) = _ :=
    readFrom_announced (by decide) wide.pid_le _
  have readSeq : U32.readFrom (announced wide.seq ++ rest) = _ :=
    readFrom_announced (by decide) wide.seq_le rest
  have behindPid := sliceFrom_append_length (announced wide.pid)
    (announced wide.seq ++ rest)
  have behindSeq := sliceFrom_append_length (announced wide.seq) rest
  rw [length_announced] at behindPid behindSeq
  rw [bytes, List.append_assoc]
  simp only [Segment.parse, readPid, ok_bind, pid_new, behindPid, readSeq,
    behindSeq, pure_eq_ok]
  rfl

theorem two_le_length_bytes (wide : WideSegment) : 2 ≤ wide.bytes.length := by
  rw [bytes, List.length_append, length_announced, length_announced]
  omega

/-- The first byte of a peer which is not zero. -/
theorem exists_bytes (wide : WideSegment) :
    ∃ first others, wide.bytes = first :: others ∧
      1 ≤ first.toNat ∧ first.toNat ≤ 4 := by
  have short := wide.pid_le
  have positive : 1 ≤ wide.pid.length := by
    refine List.length_pos_of_ne_nil fun empty => wide.nonzero ?_
    rw [empty]
    rfl
  refine ⟨_, _, rfl, ?_⟩
  rw [UInt8.toNat_ofNat', Nat.mod_eq_of_lt (by omega)]
  exact ⟨positive, short⟩

end WideSegment

/-- The bytes of an accepted index. -/
def wideBytes (wides : List WideSegment) : Bytes :=
  wides.flatMap WideSegment.bytes

@[simp]
theorem wideBytes_cons (head : WideSegment) (tail : List WideSegment) :
    wideBytes (head :: tail) = head.bytes ++ wideBytes tail :=
  rfl

theorem length_le_length_wideBytes (wides : List WideSegment) :
    wides.length ≤ (wideBytes wides).length := by
  induction wides with
  | nil => simp
  | cons head tail induction =>
      have long := head.two_le_length_bytes
      rw [wideBytes_cons, List.length_append, List.length_cons]
      omega

/-! ## Byte strings which start no segment -/

/-- A peer, or a sequence number behind a proper peer, is cut off. -/
def Torn (bytes : Bytes) : Prop :=
  Cut 4 bytes ∨
    ∃ pid rest, pid.length ≤ 4 ∧ ofBeBytes pid ≠ 0 ∧
      bytes = announced pid ++ rest ∧ Cut 4 rest

/-- No peer can be read, or it is zero. -/
def NoPeer (bytes : Bytes) : Prop :=
  Unreadable 4 bytes ∨
    ∃ pid rest, pid.length ≤ 4 ∧ ofBeBytes pid = 0 ∧
      bytes = announced pid ++ rest

/-- A proper peer without a sequence number. -/
def NoSequence (bytes : Bytes) : Prop :=
  ∃ pid rest, pid.length ≤ 4 ∧ ofBeBytes pid ≠ 0 ∧
    bytes = announced pid ++ rest ∧ Unreadable 4 rest

/-- One of the four holds of every byte string. -/
theorem wide_or_torn (bytes : Bytes) :
    (∃ wide rest, bytes = WideSegment.bytes wide ++ rest) ∨
      NoPeer bytes ∨ NoSequence bytes ∨ Torn bytes := by
  rcases announced_or_cut 4 bytes with
    ⟨pid, rest, short, rfl⟩ | unreadable | cut
  · by_cases zero : ofBeBytes pid = 0
    · exact Or.inr (Or.inl (Or.inr ⟨pid, rest, short, zero, rfl⟩))
    · rcases announced_or_cut 4 rest with
        ⟨seq, others, shortSeq, rfl⟩ | unreadable | cut
      · refine Or.inl ⟨⟨pid, seq, short, shortSeq, zero⟩, others, ?_⟩
        rw [WideSegment.bytes, List.append_assoc]
      · exact Or.inr (Or.inr (Or.inl
          ⟨pid, rest, short, zero, rfl, unreadable⟩))
      · exact Or.inr (Or.inr (Or.inr (Or.inr
          ⟨pid, rest, short, zero, rfl, cut⟩)))
  · exact Or.inr (Or.inl (Or.inl unreadable))
  · exact Or.inr (Or.inr (Or.inr (Or.inl cut)))

/-- The segments at the front of a byte string, and what stops them. -/
theorem exists_wideBytes (bytes : Bytes) :
    ∃ wides rest, bytes = wideBytes wides ++ rest ∧
      (NoPeer rest ∨ NoSequence rest ∨ Torn rest) := by
  induction length : bytes.length using Nat.strong_induction_on
    generalizing bytes with
  | _ size induction =>
      rcases wide_or_torn bytes with ⟨wide, rest, rfl⟩ | stops
      · have long := wide.two_le_length_bytes
        rw [List.length_append] at length
        obtain ⟨wides, last, rfl, stops⟩ :=
          induction rest.length (by omega) rest rfl
        exact ⟨wide :: wides, last,
          by rw [wideBytes_cons, List.append_assoc], stops⟩
      · exact ⟨[], bytes, rfl, stops⟩

/-! ## The decoders -/

/-- What the decoders read of a peer in front of other bytes. -/
theorem BE32_readFrom_announced {pid : Bytes} (short : pid.length ≤ 4)
    (rest : Bytes) :
    BE32.readFrom (announced pid ++ rest) =
      .ok (some (ofBeBytes pid, pid.length + 1)) :=
  readFrom_announced (by decide) short rest

theorem sliceFrom_announced (data rest : Bytes) :
    sliceFrom (announced data ++ rest) (data.length + 1) = .ok rest := by
  rw [← length_announced]
  exact sliceFrom_append_length _ _

theorem pid_new_zero {pid : Bytes} (zero : ofBeBytes pid = 0) :
    PID.new (UInt32.ofNat (ofBeBytes pid)) = none := by
  rw [zero]
  rfl

theorem pid_new_nonzero {pid : Bytes} (short : pid.length ≤ 4)
    (nonzero : ofBeBytes pid ≠ 0) :
    ∃ peer, PID.new (UInt32.ofNat (ofBeBytes pid)) = some peer :=
  ⟨_, WideSegment.pid_new ⟨pid, [], short, by simp, nonzero⟩⟩

theorem NoPeer.parse {bytes : Bytes} (stops : NoPeer bytes) :
    Segment.parse bytes = .ok none := by
  rcases stops with unreadable | ⟨pid, rest, short, zero, rfl⟩
  · have read : BE32.readFrom bytes = .ok none :=
      readFrom_of_unreadable unreadable
    simp only [Segment.parse, read, ok_bind, pure_eq_ok]
  · simp only [Segment.parse, BE32_readFrom_announced short, ok_bind,
      pid_new_zero zero, pure_eq_ok]

theorem NoSequence.parse {bytes : Bytes} (stops : NoSequence bytes) :
    Segment.parse bytes = .ok none := by
  obtain ⟨pid, rest, short, nonzero, rfl, unreadable⟩ := stops
  obtain ⟨peer, known⟩ := pid_new_nonzero short nonzero
  have read : U32.readFrom rest = .ok none :=
    readFrom_of_unreadable unreadable
  simp only [Segment.parse, BE32_readFrom_announced short, ok_bind, known,
    sliceFrom_announced, read, pure_eq_ok]

theorem Torn.parse {bytes : Bytes} (torn : Torn bytes) :
    Segment.parse bytes = .error .sliceIndex := by
  rcases torn with cut | ⟨pid, rest, short, nonzero, rfl, cut⟩
  · have read : BE32.readFrom bytes = .error .sliceIndex :=
      readFrom_of_cut cut
    simp only [Segment.parse, read, error_bind]
  · obtain ⟨peer, known⟩ := pid_new_nonzero short nonzero
    have read : U32.readFrom rest = .error .sliceIndex :=
      readFrom_of_cut cut
    simp only [Segment.parse, BE32_readFrom_announced short, ok_bind,
      known, sliceFrom_announced, read, error_bind]

/-- As many rounds as bytes suffice for the segments and one more. -/
theorem exists_rounds (wides : List WideSegment) (rest : Bytes) :
    ∃ rounds, (wideBytes wides ++ rest).length + 1 =
      wides.length + (rounds + 1) := by
  have long := length_le_length_wideBytes wides
  rw [List.length_append]
  exact ⟨(wideBytes wides).length + rest.length - wides.length, by omega⟩

/-- The iterator takes the segments off one by one. -/
theorem Segments.collect_wideBytes (wides : List WideSegment)
    (rest : Bytes) (rounds : Nat) :
    Segments.collect (wides.length + rounds) (wideBytes wides ++ rest) =
      (fun pair => (wides.map WideSegment.segment ++ pair.1, pair.2)) <$>
        Segments.collect rounds rest := by
  induction wides with
  | nil =>
      rw [List.length_nil, Nat.zero_add]
      exact (id_map _).symm
  | cons head tail induction =>
      have step : Segments.next (head.bytes ++ (wideBytes tail ++ rest)) =
          .ok (some head.segment, wideBytes tail ++ rest) := by
        rw [Segments.next, head.parse_append]
        rfl
      rw [List.length_cons, Nat.add_right_comm, wideBytes_cons,
        List.append_assoc, Segments.collect, step, ok_bind]
      dsimp only
      rw [induction]
      cases Segments.collect rounds rest <;> rfl

namespace FractionalIndex

/-- The segments of a byte string are followed by what starts none. -/
theorem parts_of_parse_none {rest : Bytes}
    (stops : Segment.parse rest = .ok none) (wides : List WideSegment) :
    parts (wideBytes wides ++ rest) =
      .ok (wides.map WideSegment.segment, rest) := by
  have last : ∀ rounds, Segments.collect (rounds + 1) rest =
      .ok ([], rest) := by
    intro rounds
    simp only [Segments.collect, Segments.next, stops, ok_bind, pure_eq_ok]
  obtain ⟨rounds, enough⟩ := exists_rounds wides rest
  rw [parts, enough, Segments.collect_wideBytes, last, map_ok,
    List.append_nil]

theorem parts_of_torn {rest : Bytes} (torn : Torn rest)
    (wides : List WideSegment) :
    parts (wideBytes wides ++ rest) = .error .sliceIndex := by
  obtain ⟨rounds, enough⟩ := exists_rounds wides rest
  rw [parts, enough, Segments.collect_wideBytes, Segments.collect,
    Segments.next, torn.parse]
  rfl

/-- Every list of wide segments is accepted. -/
theorem new_wideBytes (wides : List WideSegment) :
    new (wideBytes wides) = .ok (some ⟨wideBytes wides⟩) := by
  have all := parts_of_parse_none
    (show Segment.parse [] = .ok none from rfl) wides
  rw [List.append_nil] at all
  exact new_eq_some_iff.mpr ⟨rfl, _, all⟩

/-- Nothing else is accepted. -/
theorem exists_wideBytes_of_new {bytes : Bytes} {index : FractionalIndex}
    (accepted : new bytes = .ok (some index)) :
    ∃ wides, bytes = wideBytes wides := by
  obtain ⟨-, segments, all⟩ := new_eq_some_iff.mp accepted
  obtain ⟨wides, rest, rfl, stops⟩ := exists_wideBytes bytes
  have parsed : Segment.parse rest = .ok none := by
    rcases stops with noPeer | noSequence | torn
    · exact noPeer.parse
    · exact noSequence.parse
    · rw [parts_of_torn torn] at all
      cases all
  rw [parts_of_parse_none parsed, Except.ok.injEq, Prod.mk.injEq] at all
  exact ⟨wides, by rw [all.2, List.append_nil]⟩

/-! ## Indices inside longer byte strings -/

theorem fromBytesLoop_wideBytes (wides : List WideSegment) (rest : Bytes)
    (rounds read : Nat) :
    fromBytesLoop (wides.length + rounds) (wideBytes wides ++ rest) read =
      fromBytesLoop rounds rest (read + (wideBytes wides).length) := by
  induction wides generalizing read with
  | nil =>
      rw [List.length_nil, Nat.zero_add]
      rfl
  | cons head tail induction =>
      have parsed := head.parse_append []
      rw [List.append_nil] at parsed
      have step := (fromBytesLoop_parse parsed (wideBytes tail ++ rest)
        (tail.length + rounds) read).2
      rw [List.length_cons, Nat.add_right_comm, wideBytes_cons,
        List.append_assoc, step, List.nil_append, induction,
        List.length_append, List.length_nil, Nat.sub_zero, Nat.add_assoc]

theorem fromBytesLoop_of_noPeer {rest : Bytes} (stops : NoPeer rest)
    (rounds read : Nat) :
    fromBytesLoop (rounds + 1) rest read = .ok (some read) := by
  cases empty : rest.isEmpty with
  | true => simp [fromBytesLoop, empty]
  | false =>
      rcases stops with unreadable | ⟨pid, others, short, zero, rfl⟩
      · have none : BE32.readFrom rest = .ok none :=
          readFrom_of_unreadable unreadable
        simp [fromBytesLoop, empty, none]
      · simp [fromBytesLoop, empty, BE32_readFrom_announced short,
          pid_new_zero zero]

theorem fromBytesLoop_of_noSequence {rest : Bytes}
    (stops : NoSequence rest) (rounds read : Nat) :
    fromBytesLoop (rounds + 1) rest read = .ok none := by
  obtain ⟨pid, others, short, nonzero, rfl, unreadable⟩ := stops
  obtain ⟨peer, known⟩ := pid_new_nonzero short nonzero
  have nonempty : (announced pid ++ others).isEmpty = false := rfl
  have none : U32.readFrom others = .ok none :=
    readFrom_of_unreadable unreadable
  simp [fromBytesLoop, nonempty, BE32_readFrom_announced short, known,
    sliceFrom_announced, none]

theorem fromBytesLoop_of_torn {rest : Bytes} (torn : Torn rest)
    (rounds read : Nat) :
    fromBytesLoop (rounds + 1) rest read = .error .sliceIndex := by
  rcases torn with cut | ⟨pid, others, short, nonzero, rfl, cut⟩
  · have panics : BE32.readFrom rest = .error .sliceIndex :=
      readFrom_of_cut cut
    have nonempty : rest.isEmpty = false := by
      obtain ⟨length, others, rfl, -⟩ := cut
      rfl
    simp [fromBytesLoop, nonempty, panics]
  · obtain ⟨peer, known⟩ := pid_new_nonzero short nonzero
    have nonempty : (announced pid ++ others).isEmpty = false := rfl
    have panics : U32.readFrom others = .error .sliceIndex :=
      readFrom_of_cut cut
    simp [fromBytesLoop, nonempty, BE32_readFrom_announced short, known,
      sliceFrom_announced, panics]

/-- The segments up to the first byte which is no peer. -/
theorem fromBytes_of_noPeer {rest : Bytes} (stops : NoPeer rest)
    (wides : List WideSegment) :
    fromBytes (wideBytes wides ++ rest) =
      .ok (if wides = [] then none
        else some (⟨wideBytes wides⟩, (wideBytes wides).length)) := by
  obtain ⟨rounds, enough⟩ := exists_rounds wides rest
  rw [fromBytes, enough, fromBytesLoop_wideBytes,
    fromBytesLoop_of_noPeer stops, Nat.zero_add]
  cases wides with
  | nil => rfl
  | cons head tail =>
      have long := head.two_le_length_bytes
      have positive : (wideBytes (head :: tail)).length ≠ 0 := by
        rw [wideBytes_cons, List.length_append]
        omega
      obtain ⟨length, shape⟩ := Nat.exists_eq_succ_of_ne_zero positive
      have index := slice_append_append [] (wideBytes (head :: tail)) rest
      rw [List.nil_append, List.length_nil, Nat.zero_add, shape] at index
      rw [shape, if_neg (by simp), ok_bind]
      simp only [Nat.succ_eq_add_one] at index ⊢
      rw [index]
      rfl

theorem fromBytes_of_noSequence {rest : Bytes} (stops : NoSequence rest)
    (wides : List WideSegment) :
    fromBytes (wideBytes wides ++ rest) = .ok none := by
  obtain ⟨rounds, enough⟩ := exists_rounds wides rest
  rw [fromBytes, enough, fromBytesLoop_wideBytes,
    fromBytesLoop_of_noSequence stops]
  rfl

theorem fromBytes_of_torn {rest : Bytes} (torn : Torn rest)
    (wides : List WideSegment) :
    fromBytes (wideBytes wides ++ rest) = .error .sliceIndex := by
  obtain ⟨rounds, enough⟩ := exists_rounds wides rest
  rw [fromBytes, enough, fromBytesLoop_wideBytes,
    fromBytesLoop_of_torn torn]
  rfl

end FractionalIndex

/-! ## Total decoding -/

/-- No decoder meets a length byte which announces more than is left. -/
structure Uncut (bytes : Bytes) : Prop where
  first : ¬ Cut 16 bytes
  segments : ∀ wides rest, bytes = wideBytes wides ++ rest → ¬ Torn rest

/-- Every decoder returns, and reads no further than the end. -/
structure DecodesTotally (bytes : Bytes) : Prop where
  varInt : ∀ readFrom ∈ readers, ∃ result, readFrom bytes = .ok result ∧
    ∀ value used, result = some (value, used) → used ≤ bytes.length
  missing : ∀ length rest, bytes = length :: rest →
    rest.length < length.toNat →
    ∀ readFrom ∈ readers, readFrom bytes = .ok none
  segment : ∃ result, Segment.parse bytes = .ok result
  index : ∃ result, FractionalIndex.new bytes = .ok result
  inside : ∃ result, FractionalIndex.fromBytes bytes = .ok result
  pairs : ∀ index, FractionalIndex.new bytes = .ok (some index) →
    ∃ wides, bytes = wideBytes wides

theorem Uncut.readFrom {bytes : Bytes} (uncut : Uncut bytes) {size : Nat}
    (small : size ≤ 16) :
    ∃ result, VarInt.readFrom size bytes = .ok result ∧
      ∀ value used, result = some (value, used) → used ≤ bytes.length := by
  obtain ⟨result, read⟩ := (readFrom_ok_iff (by omega) bytes).mpr
    (fun cut => uncut.first (cut.mono small))
  refine ⟨result, read, ?_⟩
  rintro value used rfl
  exact (readFrom_append (by omega) read []).2.2

theorem Uncut.readFrom_eq_none {bytes : Bytes} (uncut : Uncut bytes)
    {length : UInt8} {rest : Bytes} (shape : bytes = length :: rest)
    (missing : rest.length < length.toNat) {size : Nat}
    (small : size ≤ 16) : VarInt.readFrom size bytes = .ok none := by
  apply readFrom_of_unreadable
  intro other others same
  rw [shape] at same
  cases same
  by_contra short
  exact uncut.first ⟨length, rest, shape, by omega, missing⟩

theorem Segment.exists_parse {bytes : Bytes} (whole : ¬ Torn bytes) :
    ∃ result, Segment.parse bytes = .ok result := by
  rcases wide_or_torn bytes with
    ⟨wide, rest, rfl⟩ | noPeer | noSequence | torn
  · exact ⟨_, wide.parse_append rest⟩
  · exact ⟨_, noPeer.parse⟩
  · exact ⟨_, noSequence.parse⟩
  · exact absurd torn whole

theorem Uncut.new {bytes : Bytes} (uncut : Uncut bytes) :
    ∃ result, FractionalIndex.new bytes = .ok result := by
  obtain ⟨wides, rest, rfl, stops⟩ := exists_wideBytes bytes
  have parsed : Segment.parse rest = .ok none := by
    rcases stops with noPeer | noSequence | torn
    · exact noPeer.parse
    · exact noSequence.parse
    · exact absurd torn (uncut.segments wides rest rfl)
  unfold FractionalIndex.new FractionalIndex.isValid
  rw [FractionalIndex.parts_of_parse_none parsed]
  cases rest with
  | nil => exact ⟨_, rfl⟩
  | cons => exact ⟨_, rfl⟩

theorem Uncut.fromBytes {bytes : Bytes} (uncut : Uncut bytes) :
    ∃ result, FractionalIndex.fromBytes bytes = .ok result := by
  obtain ⟨wides, rest, rfl, stops⟩ := exists_wideBytes bytes
  rcases stops with noPeer | noSequence | torn
  · exact ⟨_, FractionalIndex.fromBytes_of_noPeer noPeer wides⟩
  · exact ⟨_, FractionalIndex.fromBytes_of_noSequence noSequence wides⟩
  · exact absurd torn (uncut.segments wides rest rfl)

/-- The decoders are total on exactly the byte strings without a cut. -/
theorem decodesTotally_iff_uncut (bytes : Bytes) :
    DecodesTotally bytes ↔ Uncut bytes := by
  constructor
  · intro total
    constructor
    · intro cut
      obtain ⟨result, read, -⟩ := total.varInt U128.readFrom (by
        simp [readers])
      rw [show U128.readFrom bytes = _ from readFrom_of_cut cut] at read
      cases read
    · rintro wides rest rfl torn
      obtain ⟨result, read⟩ := total.inside
      rw [FractionalIndex.fromBytes_of_torn torn] at read
      cases read
  · intro uncut
    constructor
    · intro reader member
      obtain ⟨size, small, rfl⟩ := exists_size_of_mem_readers member
      exact uncut.readFrom small
    · intro length rest shape missing reader member
      obtain ⟨size, small, rfl⟩ := exists_size_of_mem_readers member
      exact uncut.readFrom_eq_none shape missing small
    · exact Segment.exists_parse (uncut.segments [] bytes rfl)
    · exact uncut.new
    · exact uncut.fromBytes
    · intro index accepted
      exact FractionalIndex.exists_wideBytes_of_new accepted

/-- One length byte alone. -/
theorem lonelyLength_panics : ¬ DecodesTotally [1] := by
  intro total
  obtain ⟨result, read, -⟩ := total.varInt U16.readFrom (by simp [readers])
  cases read

end Cdoc.Path
