import Cdoc.Foundation.Progress
import Cdoc.Query.Parse

/-!
# The parser moves on

Wherever a function of the parser returns, the parser stands at the same
place of its input or behind it, and never beyond the end of the input.  A
field and a filter take at least one byte.  Therefore every round of a loop
and every recursive call starts behind the place where the one before it has
started, and the loops end on every input, whether it is a text or not.
-/

namespace Cdoc.Query.Parser

open Cdoc.Foundation

/-! ## The order of positions -/

/-- Further along the same input, and not beyond its end. -/
def Behind (self later : Parser) : Prop :=
  later.input = self.input ∧ self.pos < later.pos ∧
    later.pos ≤ self.input.length

theorem Behind.trans {self middle later : Parser}
    (first : self.Behind middle) (next : middle.Behind later) :
    self.Behind later := by
  obtain ⟨sameFirst, moved, -⟩ := first
  obtain ⟨sameNext, movedNext, bounded⟩ := next
  exact ⟨sameNext.trans sameFirst, moved.trans movedNext,
    sameFirst ▸ bounded⟩

theorem Behind.irrefl {self : Parser} : ¬ self.Behind self :=
  fun behind => Nat.lt_irrefl _ behind.2.1

instance : PartialOrder Parser where
  le self later := self = later ∨ self.Behind later
  lt self later := self.Behind later
  le_refl self := Or.inl rfl
  le_trans := by
    rintro self middle later (rfl | first) (rfl | next)
    · exact Or.inl rfl
    · exact Or.inr next
    · exact Or.inr first
    · exact Or.inr (first.trans next)
  lt_iff_le_not_ge := by
    intro self later
    constructor
    · intro behind
      refine ⟨Or.inr behind, ?_⟩
      rintro (rfl | back)
      · exact Behind.irrefl behind
      · exact Behind.irrefl (behind.trans back)
    · rintro ⟨rfl | behind, refused⟩
      · exact absurd (Or.inl rfl) refused
      · exact behind
  le_antisymm := by
    rintro self later (rfl | first) (same | back)
    · rfl
    · rfl
    · exact same.symm
    · exact absurd (first.trans back) Behind.irrefl

/-- The number of bytes in front of the parser. -/
def left (self : Parser) : Nat :=
  self.input.length - self.pos

theorem left_lt_of_lt (self later : Parser) (behind : self < later) :
    later.left < self.left := by
  obtain ⟨same, moved, bounded⟩ : self.Behind later := behind
  rw [left, left, same]
  omega

theorem input_eq_of_le {self later : Parser} (moved : self ≤ later) :
    later.input = self.input := by
  rcases moved with rfl | behind
  · rfl
  · exact behind.1

/-! ## Tokens -/

section Tokens

variable {self final : Parser}

theorem pos_lt_of_peek {byte : UInt8} (found : self.peek = some byte) :
    self.pos < self.input.length := by
  obtain ⟨inside, -⟩ := List.getElem?_eq_some_iff.mp found
  exact inside

/-- Over the byte in front. -/
theorem lt_advance {byte : UInt8} (found : self.peek = some byte) :
    self < { self with pos := self.pos + 1 } :=
  ⟨rfl, Nat.lt_succ_self _, pos_lt_of_peek found⟩

theorem scan_le {input : Bytes} {test : UInt8 → Bool}
    {rounds pos stop : Nat}
    (run : scan input test rounds pos = .ok stop) :
    stop = pos ∨ pos < stop ∧ stop ≤ input.length := by
  induction rounds generalizing pos with
  | zero => cases run
  | succ rounds induction =>
      rw [scan] at run
      split at run
      · rename_i inside
        obtain ⟨byte, -, run⟩ := bind_eq_ok_iff.mp run
        split at run
        · rcases induction run with rfl | ⟨moved, bounded⟩
          · exact Or.inr ⟨Nat.lt_succ_self _, inside⟩
          · exact Or.inr ⟨by omega, bounded⟩
        · cases run
          exact Or.inl rfl
      · cases run
        exact Or.inl rfl

/-- The first byte which passes the test is skipped. -/
theorem scan_ne {input : Bytes} {test : UInt8 → Bool}
    {rounds pos stop : Nat} {byte : UInt8}
    (found : input[pos]? = some byte) (accepted : test byte = true)
    (run : scan input test rounds pos = .ok stop) : stop ≠ pos := by
  obtain ⟨inside, value⟩ := List.getElem?_eq_some_iff.mp found
  cases rounds with
  | zero => cases run
  | succ rounds =>
      have read : index input pos = .ok byte := by rw [index, found]
      rw [scan, if_pos inside, read, ok_bind, if_pos accepted] at run
      rcases scan_le run with rfl | ⟨moved, -⟩
      · exact Nat.succ_ne_self pos
      · omega

theorem checked_eq_ok {α : Type} {access : Checked α} {value : α}
    (run : checked access self = .ok value final) :
    access = .ok value ∧ final = self := by
  cases access with
  | error failure => cases run
  | ok other =>
      cases run
      exact ⟨rfl, rfl⟩

theorem skipWhile_eq_ok {test : UInt8 → Bool} {done : Unit}
    (run : skipWhile test self = .ok done final) :
    ∃ stop, scan self.input test (self.input.length + 1) self.pos =
      .ok stop ∧ final = { self with pos := stop } := by
  obtain ⟨_, _, got, run⟩ := exists_of_bind_eq_ok run
  cases got
  obtain ⟨stop, _, accessed, run⟩ := exists_of_bind_eq_ok run
  obtain ⟨scanned, rfl⟩ := checked_eq_ok accessed
  cases run
  exact ⟨stop, scanned, rfl⟩

theorem moves_skipWhile (test : UInt8 → Bool) :
    Moves (· ≤ ·) (skipWhile test) := by
  intro self done final run
  obtain ⟨stop, scanned, rfl⟩ := skipWhile_eq_ok run
  rcases scan_le scanned with rfl | ⟨moved, bounded⟩
  · exact Or.inl rfl
  · exact Or.inr ⟨rfl, moved, bounded⟩

/-- A run which is not empty. -/
theorem skipWhile_lt {test : UInt8 → Bool} {done : Unit}
    (found : self.peek.any test = true)
    (run : skipWhile test self = .ok done final) : self < final := by
  obtain ⟨byte, isByte, accepted⟩ := (Option.any_eq_true _ _).mp found
  obtain ⟨stop, scanned, rfl⟩ := skipWhile_eq_ok run
  rcases scan_le scanned with still | ⟨moved, bounded⟩
  · exact absurd still (scan_ne isByte accepted scanned)
  · exact ⟨rfl, moved, bounded⟩

theorem moves_skipWs : Moves (· ≤ ·) skipWs :=
  moves_skipWhile isAsciiWhitespace

theorem moves_checked {α : Type} (access : Checked α) :
    Moves (· ≤ ·) (checked access) := by
  intro self value final run
  obtain ⟨-, rfl⟩ := checked_eq_ok run
  exact le_rfl

theorem moves_fail {α : Type} {along : Parser → Parser → Prop}
    (error : QueryError) : Moves along (fail error : Parse α) :=
  moves_throw _

theorem moves_orFail {α : Type} (result : Option α) (error : QueryError) :
    Moves (· ≤ ·) (orFail result error) := by
  cases result with
  | none => exact moves_fail error
  | some value => exact moves_pure value

theorem moves_unexpected {α : Type} {along : Parser → Parser → Prop} :
    Moves along (unexpected : Parse α) := by
  intro self value final run
  cases run

theorem moves_expect (byte : UInt8) : Moves (· < ·) (expect byte) := by
  refine moves_skipWs.bind_le fun _ => ?_
  intro self done final run
  change (if self.peek = some byte then advance else unexpected :
    Parse Unit) self = _ at run
  split at run
  · rename_i found
    cases run
    exact lt_advance found
  · cases run

theorem moves_tryByte (byte : UInt8) : Moves (· ≤ ·) (tryByte byte) := by
  refine moves_skipWs.bind_le fun _ => ?_
  intro self answer final run
  change (if self.peek = some byte then do advance; return true
    else return false : Parse Bool) self = _ at run
  split at run
  · rename_i found
    cases run
    exact le_of_lt (lt_advance found)
  · cases run
    exact le_rfl

theorem moves_atEnd (terminator : UInt8) :
    Moves (· ≤ ·) (atEnd terminator) :=
  moves_skipWs.bind_le fun _ => moves_get.bind_le fun _ => moves_pure _

/-- Decoding does not move the parser. -/
theorem textFrom_eq_ok {start : Nat} {text : String}
    (run : textFrom start self = .ok text final) : final = self := by
  obtain ⟨_, _, got, run⟩ := exists_of_bind_eq_ok run
  cases got
  obtain ⟨bytes, _, accessed, decodes⟩ := exists_of_bind_eq_ok run
  obtain ⟨-, rfl⟩ := checked_eq_ok accessed
  cases decoded : fromUtf8 bytes with
  | none =>
      rw [decoded] at decodes
      cases decodes
  | some other =>
      rw [decoded] at decodes
      cases decodes
      rfl

theorem moves_textFrom (start : Nat) :
    Moves (· ≤ ·) (textFrom start) :=
  fun _ _ _ run => (textFrom_eq_ok run).ge

theorem moves_tryKeyword (kw : Bytes) :
    Moves (· ≤ ·) (tryKeyword kw) := by
  refine moves_skipWs.bind_le fun _ => ?_
  intro self answer final run
  change (if self.pos + kw.length > self.input.length then return false
    else _ : Parse Bool) self = _ at run
  split at run
  · cases run
    exact le_rfl
  · rename_i inside
    obtain ⟨found, _, accessed, run⟩ := exists_of_bind_eq_ok run
    obtain ⟨-, rfl⟩ := checked_eq_ok accessed
    split at run
    · cases run
      exact le_rfl
    · split at run
      · cases run
        exact le_rfl
      · cases run
        rcases Nat.eq_zero_or_pos kw.length with empty | letters
        · refine Or.inl ?_
          rw [empty]
          rfl
        · exact Or.inr ⟨rfl, Nat.lt_add_of_pos_right letters,
            Nat.not_lt.mp inside⟩

theorem moves_parseQuotedString : Moves (· < ·) parseQuotedString := by
  intro self segment final run
  obtain ⟨_, _, moved, run⟩ := exists_of_bind_eq_ok run
  cases moved
  obtain ⟨_, _, got, run⟩ := exists_of_bind_eq_ok run
  cases got
  obtain ⟨_, middle, skipped, run⟩ := exists_of_bind_eq_ok run
  obtain ⟨stop, scanned, rfl⟩ := skipWhile_eq_ok skipped
  obtain ⟨_, _, got, run⟩ := exists_of_bind_eq_ok run
  cases got
  split at run
  · cases run
  · rename_i inside
    obtain ⟨text, last, decoded, run⟩ := exists_of_bind_eq_ok run
    cases textFrom_eq_ok decoded
    obtain ⟨_, _, moved, run⟩ := exists_of_bind_eq_ok run
    cases moved
    cases run
    have further : self.pos < stop := by
      rcases scan_le scanned with rfl | ⟨moved, -⟩
      · exact Nat.lt_succ_self _
      · exact (Nat.lt_succ_self _).trans moved
    exact ⟨rfl, further.trans (Nat.lt_succ_self _),
      Nat.not_le.mp inside⟩

theorem parseBareWord_lt {segment : Segment}
    (found : self.peek.any isWordByte = true)
    (run : parseBareWord self = .ok segment final) : self < final := by
  obtain ⟨_, _, got, run⟩ := exists_of_bind_eq_ok run
  cases got
  obtain ⟨_, middle, skipped, run⟩ := exists_of_bind_eq_ok run
  refine lt_of_lt_of_le (skipWhile_lt found skipped) ?_
  exact ((moves_textFrom _).bind_le fun _ => moves_pure _) _ _ _ run

theorem isWordByte_of_isLetterByte {byte : UInt8}
    (letter : isLetterByte byte = true) : isWordByte byte = true := by
  rw [isLetterByte, Bool.or_eq_true] at letter
  rw [isWordByte, isAsciiAlphanumeric, Bool.or_eq_true, Bool.or_eq_true]
  exact letter.imp_left Or.inl

theorem moves_parseName : Moves (· < ·) parseName := by
  refine moves_skipWs.bind_le fun _ => ?_
  intro self segment final run
  change (if self.peek = some 34 then parseQuotedString
    else if self.peek.any isLetterByte then parseBareWord
    else unexpected : Parse Segment) self = _ at run
  split at run
  · exact moves_parseQuotedString self segment final run
  · split at run
    · rename_i letter
      obtain ⟨byte, found, isLetter⟩ := (Option.any_eq_true _ _).mp letter
      exact parseBareWord_lt ((Option.any_eq_true _ _).mpr
        ⟨byte, found, isWordByte_of_isLetterByte isLetter⟩) run
    · exact moves_unexpected self segment final run

theorem moves_parseNumber : Moves (· ≤ ·) parseNumber := by
  refine moves_skipWs.bind_le fun _ => moves_get.bind_le fun _ =>
    (moves_skipWhile _).bind_le fun _ => moves_get.bind_le fun _ => ?_
  exact Moves.ite moves_unexpected
    ((moves_textFrom _).bind_le fun _ => moves_orFail _ _)

theorem moves_parseKeyword : Moves (· ≤ ·) parseKeyword :=
  moves_skipWs.bind_le fun _ => moves_get.bind_le fun _ =>
    (moves_skipWhile _).bind_le fun _ => moves_textFrom _

end Tokens

/-! ## Filters -/

/-- A filter takes its colon, even where its keyword is empty. -/
theorem moves_parseFilter : Moves (· < ·) parseFilter := by
  refine moves_get.bind_le fun _ => moves_parseKeyword.bind_le fun _ =>
    (moves_expect _).bind_lt fun _ => ?_
  refine Moves.ite (moves_parseNumber.bind_le fun _ => moves_pure _) ?_
  refine Moves.ite (moves_parseNumber.bind_le fun _ => moves_pure _) ?_
  refine Moves.ite (moves_parseName.le.bind_le fun _ => moves_pure _) ?_
  exact Moves.ite (moves_parseName.le.bind_le fun _ => moves_pure _)
    (moves_fail _)

section Lists

variable {α : Type}

theorem moves_parseRound {terminator : UInt8} {item : Parse α}
    {others : Parse (List α)} (moves : Moves (· ≤ ·) item)
    (movesOthers : Moves (· ≤ ·) others) :
    Moves (· ≤ ·) (parseRound terminator item others) :=
  (moves_atEnd terminator).bind_le fun _ => Moves.ite (moves_pure [])
    (moves.bind_le fun _ => (moves_tryByte 44).bind_le fun _ =>
      movesOthers.bind_le fun _ => moves_pure _)

/-- The next round starts behind the item of this one. -/
theorem calls_parseRound {terminator : UInt8}
    {item : Parse (List α) → Parse α} (calls : Calls (· < ·) item)
    (moves : ∀ others, Moves (· ≤ ·) others →
      Moves (· < ·) (item others)) :
    Calls (· < ·) fun others =>
      parseRound terminator (item others) others := by
  refine (calls_const (atEnd terminator)).bind_le
    (fun _ _ => moves_atEnd terminator) fun _ => ?_
  refine Calls.ite (calls_const (pure [])) ?_
  refine calls.bind_lt moves fun _ => ?_
  refine (calls_const (tryByte 44)).bind_le
    (fun _ _ => moves_tryByte 44) fun _ => ?_
  exact calls_self.bind_le (fun _ movesOthers => movesOthers)
    fun _ => calls_const (pure _)

theorem moves_parseBlock {opening closing : UInt8}
    {body : Parse (List α)} (moves : Moves (· ≤ ·) body) :
    Moves (· ≤ ·) (parseBlock opening closing body) :=
  (moves_tryByte opening).bind_le fun _ => Moves.ite
    (moves.bind_le fun _ => (moves_expect closing).le.bind_le fun _ =>
      moves_pure _) (moves_pure [])

theorem calls_parseBlock {opening closing : UInt8} :
    Calls (· ≤ ·) (parseBlock (α := α) opening closing) := by
  refine (calls_const (tryByte opening)).bind_le
    (fun _ _ => moves_tryByte opening) fun _ => ?_
  refine Calls.ite ?_ (calls_const (pure []))
  exact calls_self.bind_le (fun _ moves => moves) fun _ =>
    calls_const (do expect closing; return _)

end Lists

theorem moves_parseFilters (rounds : Nat) :
    Moves (· ≤ ·) (parseFilters rounds) := by
  induction rounds with
  | zero => exact moves_throw _
  | succ rounds induction =>
      exact moves_parseRound moves_parseFilter.le induction

theorem calls_filterRound :
    Calls (· < ·) (parseRound 41 parseFilter) :=
  calls_parseRound (calls_const parseFilter)
    fun _ _ => moves_parseFilter

/-- The loop over the filters of a field ends. -/
theorem parseFilters_terminates :
    Terminates (parseRound 41 parseFilter) parseFilters left :=
  terminates_of_calls calls_filterRound (fun _ => rfl) moves_parseFilters
    left_lt_of_lt

/-! ## Selects -/

theorem moves_parseAlias : Moves (· ≤ ·) parseAlias :=
  (moves_tryKeyword _).bind_le fun _ => Moves.ite
    (moves_parseName.le.bind_le fun _ => moves_pure _) (moves_pure none)

theorem moves_filterBlock :
    Moves (· ≤ ·)
      (parseBlock 40 41 do parseFilters ((← get).input.length + 1)) :=
  moves_parseBlock (moves_get.bind_le fun _ => moves_parseFilters _)

/-- A field takes its name. -/
theorem moves_parseSelect {subselects : Parse (List Select)}
    (moves : Moves (· ≤ ·) subselects) :
    Moves (· < ·) (parseSelect subselects) :=
  moves_parseName.bind_lt fun _ => moves_parseAlias.bind_le fun _ =>
    moves_filterBlock.bind_le fun _ =>
      (moves_parseBlock moves).bind_le fun _ => moves_pure _

/-- The fields below a field start behind its name. -/
theorem calls_parseSelect : Calls (· < ·) parseSelect := by
  refine (calls_const parseName).bind_lt
    (fun _ _ => moves_parseName) fun _ => ?_
  refine (calls_const parseAlias).bind_le
    (fun _ _ => moves_parseAlias) fun _ => ?_
  refine (calls_const _).bind_le (fun _ _ => moves_filterBlock) fun _ => ?_
  exact calls_parseBlock.bind_le (fun _ moves => moves_parseBlock moves)
    fun _ => calls_const (pure _)

theorem moves_parseSelects (terminator : UInt8) (rounds : Nat) :
    Moves (· ≤ ·) (parseSelects terminator rounds) := by
  induction rounds with
  | zero => exact moves_throw _
  | succ rounds induction =>
      exact moves_parseRound (moves_parseSelect induction).le induction

theorem calls_selectRound (terminator : UInt8) :
    Calls (· < ·) fun selects =>
      parseRound terminator (parseSelect selects) selects :=
  calls_parseRound calls_parseSelect fun _ => moves_parseSelect

/-- The loop over fields ends, with the fields below each of them. -/
theorem parseSelects_terminates (terminator : UInt8) :
    Terminates
      (fun selects => parseRound terminator (parseSelect selects) selects)
      (parseSelects terminator) left :=
  terminates_of_calls (calls_selectRound terminator) (fun _ => rfl)
    (moves_parseSelects terminator) left_lt_of_lt

end Cdoc.Query.Parser
