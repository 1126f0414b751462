import Cdoc.Query.Correctness
import Cdoc.Query.Progress

/-!
# The parser is safe on every text

The parser of a text stands between two of its characters wherever a function
returns.  So every part which it decodes is a text, and an error names a
place inside the input.
-/

namespace Cdoc

open Cdoc.Foundation

/-- The place which an error names. -/
def QueryError.position : QueryError → Option Nat
  | .unexpectedChar _ position => some position
  | .unexpectedEnd => none
  | .unknownFilter _ position => some position

namespace Query.Parser

open Grammar

/--
The trace of a failed `from_utf8`.  Nothing catches an error, so the parser
ends in the state in which the conversion has failed.
-/
def FromUtf8Failed (error : QueryError) (final : Parser) : Prop :=
  ∃ start bytes, error = .unexpectedChar '?' start ∧
    slice final.input start final.pos = .ok bytes ∧ fromUtf8 bytes = none

/-- An error which names a place of the input, and no failed conversion. -/
structure Proper (input : Bytes) (error : QueryError)
    (final : Parser) : Prop where
  placed : ∀ position, error.position = some position →
    position < input.length
  decoded : ¬ FromUtf8Failed error final

/-- The parser stands between two characters of the input. -/
structure Within (input : Bytes) (parser : Parser) : Prop where
  input_eq : parser.input = input
  stands : ∃ text, parser.At text

/-- The parser stands in front of a character of the input. -/
structure Ready (input : Bytes) (parser : Parser) : Prop
    extends Within input parser where
  more : parser.pos < input.length

/-- The parser stays between two characters, and its errors are proper. -/
def Safe {α : Type} (input : Bytes) (descent : Parse α) : Prop :=
  Contract (Within input) descent (fun _ => Within input) (Proper input)

/-! ## Functions which do not fail -/

section Infallible

variable {α β : Type}

/-- The function stops with no error. -/
def Infallible (descent : Parse α) : Prop :=
  ∀ self error final, descent self ≠ .error (.error error) final

theorem Infallible.bind {first : Parse α} {next : α → Parse β}
    (never : Infallible first) (neverNext : ∀ value,
      Infallible (next value)) : Infallible (first >>= next) := by
  intro self error final run
  rcases exists_of_bind_eq_error run with stopped | passed
  · exact never self error final stopped
  · obtain ⟨value, middle, -, stopped⟩ := passed
    exact neverNext value middle error final stopped

theorem Infallible.ite {condition : Prop} [Decidable condition]
    {descent other : Parse α} (never : Infallible descent)
    (neverOther : Infallible other) :
    Infallible (if condition then descent else other) := by
  split
  · exact never
  · exact neverOther

theorem infallible_pure (value : α) : Infallible (pure value) := by
  intro self error final run
  cases run

theorem infallible_get : Infallible (get : Parse Parser) := by
  intro self error final run
  cases run

theorem infallible_set (later : Parser) :
    Infallible (set later : Parse Unit) := by
  intro self error final run
  cases run

theorem infallible_advance : Infallible advance := by
  intro self error final run
  cases run

theorem infallible_checked (access : Checked α) :
    Infallible (checked access) := by
  intro self error final run
  cases access with
  | ok value => cases run
  | error failure => cases run

theorem infallible_skipWhile (test : UInt8 → Bool) :
    Infallible (skipWhile test) :=
  infallible_get.bind fun _ => (infallible_checked _).bind fun _ =>
    infallible_set _

theorem infallible_skipWs : Infallible skipWs :=
  infallible_skipWhile isAsciiWhitespace

theorem infallible_tryByte (byte : UInt8) : Infallible (tryByte byte) :=
  infallible_skipWs.bind fun _ => infallible_get.bind fun _ =>
    Infallible.ite (infallible_advance.bind fun _ => infallible_pure true)
      (infallible_pure false)

theorem infallible_atEnd (terminator : UInt8) :
    Infallible (atEnd terminator) :=
  infallible_skipWs.bind fun _ => infallible_get.bind fun _ =>
    infallible_pure _

theorem infallible_tryKeyword (kw : Bytes) : Infallible (tryKeyword kw) := by
  refine infallible_skipWs.bind fun _ => infallible_get.bind fun _ => ?_
  refine Infallible.ite (infallible_pure false) ?_
  refine (infallible_checked _).bind fun _ => ?_
  refine Infallible.ite (infallible_pure false) ?_
  refine Infallible.ite (infallible_pure false) ?_
  exact (infallible_set _).bind fun _ => infallible_pure true

/-- A function which skips whitespace fails behind it. -/
theorem exists_of_skipWs_fails {next : Parse α} {self final : Parser}
    {text : List Char} {error : QueryError} (stands : self.At text)
    (run : (do skipWs; next) self = .error (.error error) final) :
    ∃ middle, self ≤ middle ∧ middle.At (skipBlanks text) ∧
      next middle = .error (.error error) final := by
  rcases exists_of_bind_eq_error run with stopped | passed
  · exact absurd stopped (infallible_skipWs _ _ _)
  · obtain ⟨_, middle, skipped, run⟩ := passed
    refine ⟨middle, moves_skipWs _ _ _ skipped, ?_, run⟩
    rw [skipWs, skipWhile_eq agree_blank stands] at skipped
    cases skipped
    exact stands.skipWhile isBlank

end Infallible

/-! ## Tokens -/

section Tokens

variable {α : Type} {input : Bytes} {self final : Parser}
variable {error : QueryError}

theorem proper_unexpectedEnd : Proper input .unexpectedEnd final where
  placed := by
    rintro position ⟨⟩
  decoded := by
    rintro ⟨start, bytes, ⟨⟩, -⟩

/-- The part of the input which is empty is a text. -/
theorem proper_unexpectedChar {found : Char}
    (inside : final.pos < final.input.length) :
    Proper final.input (.unexpectedChar found final.pos) final where
  placed := by
    rintro position ⟨⟩
    exact inside
  decoded := by
    rintro ⟨start, bytes, named, part, failed⟩
    cases named
    rw [slice, if_pos ⟨le_rfl, inside.le⟩] at part
    cases part
    rw [List.drop_eq_nil_of_le (List.length_take_le _ _)] at failed
    exact absurd failed (by decide)

theorem proper_unexpectedError (same : self.input = input) :
    Proper input self.unexpectedError self := by
  subst same
  unfold unexpectedError
  cases found : self.peek with
  | none => exact proper_unexpectedEnd
  | some byte => exact proper_unexpectedChar (pos_lt_of_peek found)

theorem Within.le (within : Within input self) (moved : self ≤ final) :
    final.input = input :=
  (input_eq_of_le moved).trans within.input_eq

/-- What a function reads says where the parser stands when it returns. -/
theorem safe_of_reads {descent : Parse α}
    {reading : List Char → α → List Char → Prop} {follow : List Char → Prop}
    (reads : Reads Before (fun _ => True) descent reading follow)
    (moves : Moves (· ≤ ·) descent)
    (fails : ∀ self error final, Within input self →
      descent self = .error (.error error) final →
      Proper input error final) : Safe input descent where
  returns := by
    intro self value final within run
    obtain ⟨text, stands⟩ := within.stands
    have decides := reads self _ stands.before trivial
    rw [run] at decides
    obtain ⟨rest, ⟨ahead, stands, -⟩, -⟩ := decides
    exact ⟨within.le (moves self value final run), ahead, stands⟩
  fails := fails

theorem safe_of_infallible {descent : Parse α}
    {reading : List Char → α → List Char → Prop} {follow : List Char → Prop}
    (reads : Reads Before (fun _ => True) descent reading follow)
    (moves : Moves (· ≤ ·) descent) (never : Infallible descent) :
    Safe input descent :=
  safe_of_reads reads moves fun self error final _ run =>
    absurd run (never self error final)

theorem safe_expect {mark : Char} (narrow : mark.toNat < 128) :
    Safe input (expect (UInt8.ofNat mark.toNat)) := by
  refine safe_of_reads (reads_expect narrow) (moves_expect _).le ?_
  intro self error final within run
  obtain ⟨text, stands⟩ := within.stands
  obtain ⟨middle, moved, -, run⟩ := exists_of_skipWs_fails stands run
  change (if middle.peek = some (UInt8.ofNat mark.toNat) then advance
    else unexpected : Parse Unit) middle = _ at run
  split at run
  · cases run
  · cases run
    exact proper_unexpectedError (within.le moved)

theorem safe_tryByte {mark : Char} (narrow : mark.toNat < 128) :
    Safe input (tryByte (UInt8.ofNat mark.toNat)) :=
  safe_of_infallible (reads_tryByte narrow) (moves_tryByte _)
    (infallible_tryByte _)

/-- The loops go on only in front of a character. -/
theorem contract_atEnd {mark : Char} (narrow : mark.toNat < 128) :
    Contract (Within input) (atEnd (UInt8.ofNat mark.toNat))
      (fun ended self => Within input self ∧
        (ended = false → self.pos < input.length)) (Proper input) where
  returns := by
    intro self ended final within run
    have safe : Safe input (atEnd (UInt8.ofNat mark.toNat)) :=
      safe_of_infallible (reads_atEnd narrow) (moves_atEnd _)
        (infallible_atEnd _)
    have arrived := safe.returns self ended final within run
    refine ⟨arrived, ?_⟩
    intro goesOn
    obtain ⟨_, middle, -, run⟩ := exists_of_bind_eq_ok run
    change EStateM.Result.ok (decide (middle.peek =
      some (UInt8.ofNat mark.toNat) ∨ middle.peek = none)) middle = _ at run
    cases run
    obtain ⟨byte, found⟩ := Option.ne_none_iff_exists'.mp
      fun empty => of_decide_eq_false goesOn (Or.inr empty)
    exact arrived.input_eq ▸ pos_lt_of_peek found
  fails := fun self error final _ run =>
    absurd run (infallible_atEnd _ self error final)

/-- A quoted name fails only where its end is missing. -/
theorem parseQuotedString_fails {text : List Char}
    (stands : self.At ('"' :: text))
    (run : parseQuotedString self = .error (.error error) final) :
    error = .unexpectedEnd := by
  rw [parseQuotedString_eq stands] at run
  split at run
  · cases run
    rfl
  · cases run

/-- A run of characters is a text. -/
theorem run_never_fails {text : List Char} {next : String → Parse α}
    {onByte : UInt8 → Bool} {onChar : Char → Bool}
    (agree : Agree onByte onChar) (never : ∀ run, Infallible (next run))
    (stands : self.At text) :
    (do skipWhile onByte; let run ← textFrom self.pos; next run) self ≠
      .error (.error error) final := by
  rw [run_eq agree stands]
  exact never _ _ _ _

theorem safe_parseName : Safe input parseName := by
  refine safe_of_reads reads_parseName moves_parseName.le ?_
  intro self error final within run
  obtain ⟨text, stands⟩ := within.stands
  obtain ⟨middle, moved, stands, run⟩ := exists_of_skipWs_fails stands run
  change (if middle.peek = some 34 then parseQuotedString
    else if middle.peek.any isLetterByte then parseBareWord
    else unexpected : Parse Segment) middle = _ at run
  split at run
  · rename_i found
    obtain ⟨after, quoted⟩ :=
      (stands.peek_eq_iff (by decide : '"'.toNat < 128)).mp found
    rw [quoted] at stands
    rw [parseQuotedString_fails stands run]
    exact proper_unexpectedEnd
  · split at run
    · exact absurd run (run_never_fails agree_word
        (fun _ => infallible_pure _) stands)
    · cases run
      exact proper_unexpectedError (within.le moved)

theorem safe_parseKeyword : Safe input parseKeyword := by
  refine safe_of_reads reads_parseKeyword moves_parseKeyword ?_
  intro self error final within run
  obtain ⟨text, stands⟩ := within.stands
  obtain ⟨middle, -, stands, run⟩ := exists_of_skipWs_fails stands run
  have never := @run_never_fails _ middle final error _ pure _ _
    agree_letter infallible_pure stands
  rw [bind_pure] at never
  exact absurd run never

/-- The digits of a number which is too large are a text. -/
theorem proper_overflow {digits after : List Char}
    (stands : self.At (digits ++ after)) (nonempty : digits ≠ []) :
    Proper self.input (.unexpectedChar '?' self.pos)
      { self with pos := self.pos + (utf8 digits).length } where
  placed := by
    rintro position ⟨⟩
    have ended := stands.ended_iff
    rw [List.append_eq_nil_iff] at ended
    exact Nat.not_le.mp fun empty => nonempty (ended.mp empty).1
  decoded := by
    rintro ⟨start, bytes, named, part, failed⟩
    cases named
    cases stands.slice.symm.trans part
    rw [fromUtf8_utf8] at failed
    cases failed

theorem safe_parseNumber : Safe input parseNumber := by
  refine safe_of_reads reads_parseNumber moves_parseNumber ?_
  intro self error final within run
  obtain ⟨text, stands⟩ := within.stands
  obtain ⟨middle, moved, stands, run⟩ := exists_of_skipWs_fails stands run
  change EStateM.bind (skipWhile isAsciiDigit) _ middle = _ at run
  rw [EStateM.bind, skipWhile_eq agree_digit stands] at run
  rw [← within.le moved]
  change (if middle.pos + _ = middle.pos then _ else _ : Parse UInt64) _ =
    _ at run
  split at run
  · cases run
    exact proper_unexpectedError rfl
  · rename_i further
    rw [← List.takeWhile_append_dropWhile (p := Char.isDigit)
      (l := skipBlanks text)] at stands
    have nonempty : (skipBlanks text).takeWhile Char.isDigit ≠ [] := by
      intro empty
      rw [empty] at further
      exact further rfl
    change EStateM.bind (textFrom middle.pos) _ _ = _ at run
    rw [EStateM.bind, textFrom_eq stands] at run
    change orFail (parseUsize _) _ _ = _ at run
    cases parsed : parseUsize (Path.strBytes (String.ofList
        ((skipBlanks text).takeWhile Char.isDigit))) with
    | some number =>
        rw [parsed] at run
        cases run
    | none =>
        rw [parsed] at run
        cases run
        exact proper_overflow stands nonempty

end Tokens

/-! ## Lists -/

section Lists

variable {α : Type} {input : Bytes}

theorem safe_pure (value : α) : Safe input (pure value) :=
  contract_pure value fun _ within => within

theorem Safe.bind {β : Type} {first : Parse α} {next : α → Parse β}
    (safe : Safe input first) (safeNext : ∀ value, Safe input (next value)) :
    Safe input (first >>= next) :=
  Contract.bind safe safeNext

theorem Safe.ite {condition : Prop} [Decidable condition]
    {descent other : Parse α} (safe : Safe input descent)
    (safeOther : Safe input other) :
    Safe input (if condition then descent else other) :=
  Contract.ite (fun _ => safe) (fun _ => safeOther)

/-- The state may be looked at. -/
theorem Safe.get {descent : Parser → Parse α}
    (safe : ∀ self, Safe input (descent self)) :
    Safe input (get >>= descent) :=
  Contract.get fun self within => (safe self).weaken
    (fun _ same => same ▸ within) (fun _ _ arrived => arrived)

/-- A round needs its item only in front of a character. -/
theorem safe_parseRound {mark : Char} (narrow : mark.toNat < 128)
    {item : Parse α} {others : Parse (List α)}
    (contract : Contract (Ready input) item (fun _ => Within input)
      (Proper input)) (safeOthers : Safe input others) :
    Safe input (parseRound (UInt8.ofNat mark.toNat) item others) := by
  refine Contract.bind (contract_atEnd narrow) fun ended => ?_
  refine Contract.ite
    (fun _ => contract_pure [] fun _ arrived => arrived.1) fun goesOn => ?_
  -- Not at the end, so the item starts in front of a character.
  have ready : ∀ self, (Within input self ∧
      (ended = false → self.pos < input.length)) → Ready input self :=
    fun self arrived =>
      ⟨arrived.1, arrived.2 (Bool.eq_false_of_not_eq_true goesOn)⟩
  refine (contract.weaken ready fun _ _ arrived => arrived).bind fun _ => ?_
  refine (safe_tryByte (by decide : ','.toNat < 128)).bind fun _ => ?_
  exact safeOthers.bind fun _ => safe_pure _

theorem safe_parseBlock {opening closing : Char}
    (narrowOpening : opening.toNat < 128)
    (narrowClosing : closing.toNat < 128) {body : Parse (List α)}
    (safe : Safe input body) :
    Safe input (parseBlock (UInt8.ofNat opening.toNat)
      (UInt8.ofNat closing.toNat) body) := by
  refine (safe_tryByte narrowOpening).bind fun _ => ?_
  refine Safe.ite ?_ (safe_pure [])
  exact safe.bind fun _ => (safe_expect narrowClosing).bind fun _ =>
    safe_pure _

theorem safe_throw_panic (panic : Panic) :
    Safe input (throw (.panic panic) : Parse α) where
  returns := by
    intro self value final _ run
    cases run
  fails := by
    intro self error final _ run
    cases run

end Lists

/-! ## Filters and fields -/

section Fields

variable {input : Bytes}

/-- The error for an unknown keyword names the start of the filter. -/
theorem contract_parseFilter :
    Contract (Ready input) parseFilter (fun _ => Within input)
      (Proper input) := by
  refine Contract.get fun start ready => ?_
  refine Contract.weaken (?_ : Safe input _)
    (fun _ same => same ▸ ready.toWithin) (fun _ _ arrived => arrived)
  refine safe_parseKeyword.bind fun kw => ?_
  refine (safe_expect (by decide : ':'.toNat < 128)).bind fun _ => ?_
  refine Safe.ite (safe_parseNumber.bind fun _ => safe_pure _) ?_
  refine Safe.ite (safe_parseNumber.bind fun _ => safe_pure _) ?_
  refine Safe.ite (safe_parseName.bind fun _ => safe_pure _) ?_
  refine Safe.ite (safe_parseName.bind fun _ => safe_pure _) ?_
  -- What is left is an unknown keyword: its error names `start`.
  constructor
  · intro self filter final _ run
    cases run
  · intro self error final _ run
    cases run
    constructor
    · rintro position ⟨⟩
      exact ready.more
    · rintro ⟨_, _, ⟨⟩, -⟩

theorem safe_parseFilters (rounds : Nat) :
    Safe input (parseFilters rounds) := by
  induction rounds with
  | zero => exact safe_throw_panic _
  | succ rounds induction =>
      exact safe_parseRound (by decide : ')'.toNat < 128)
        contract_parseFilter induction

theorem safe_parseAlias : Safe input parseAlias := by
  have readsAs := reads_tryKeyword
    (by decide : "as".toList.all (fun char => char.toNat < 128) = true)
  rw [show utf8 "as".toList = [97, 115] by decide] at readsAs
  refine (safe_of_infallible readsAs (moves_tryKeyword _)
    (infallible_tryKeyword _)).bind fun _ => ?_
  exact Safe.ite (safe_parseName.bind fun _ => safe_pure _)
    (safe_pure none)

theorem safe_parseSelect {subselects : Parse (List Select)}
    (safe : Safe input subselects) :
    Safe input (parseSelect subselects) := by
  refine safe_parseName.bind fun _ => safe_parseAlias.bind fun _ => ?_
  refine (safe_parseBlock (by decide : '('.toNat < 128)
    (by decide : ')'.toNat < 128)
    (Safe.get fun _ => safe_parseFilters _)).bind fun _ => ?_
  exact (safe_parseBlock (by decide : '{'.toNat < 128)
    (by decide : '}'.toNat < 128) safe).bind fun _ => safe_pure _

theorem safe_parseSelects (rounds : Nat) :
    Safe input (parseSelects 125 rounds) := by
  induction rounds with
  | zero => exact safe_throw_panic _
  | succ rounds induction =>
      exact safe_parseRound (by decide : '}'.toNat < 128)
        ((safe_parseSelect induction).weaken
          (fun _ ready => ready.toWithin) (fun _ _ arrived => arrived))
        induction

/-- What stands behind a query is named by its place. -/
theorem safe_parseEnd (selects : List Select) :
    Safe input (parseEnd selects) := by
  refine safe_of_reads (reads_parseEnd selects) ?_ ?_
  · refine moves_skipWs.bind_le fun _ => moves_get.bind_le fun _ => ?_
    exact Moves.ite ((moves_checked _).bind_le fun _ => moves_fail _)
      (moves_pure _)
  · intro self error final within run
    obtain ⟨text, stands⟩ := within.stands
    obtain ⟨middle, moved, stands, run⟩ := exists_of_skipWs_fails stands run
    have bounded := stands.bounded
    change (if middle.pos ≠ middle.input.length then _ else _ :
      Parse Query) middle = _ at run
    split at run
    · rename_i more
      rcases exists_of_bind_eq_error run with stopped | passed
      · exact absurd stopped (infallible_checked _ _ _ _)
      · obtain ⟨byte, _, accessed, run⟩ := passed
        obtain ⟨-, rfl⟩ := checked_eq_ok accessed
        cases run
        exact within.le moved ▸ proper_unexpectedChar (by omega)
    · cases run

theorem safe_parseQuery : Safe input parseQuery := by
  refine (safe_expect (by decide : '{'.toNat < 128)).bind fun _ => ?_
  refine Safe.get fun _ => (safe_parseSelects _).bind fun selects => ?_
  exact (safe_expect (by decide : '}'.toNat < 128)).bind fun _ =>
    safe_parseEnd selects

end Fields

theorem new_within (text : String) :
    Within (Path.strBytes text) (Parser.new text) := by
  obtain ⟨ahead, stands, -⟩ := new_before text
  exact ⟨rfl, ahead, stands⟩

/-- A conversion which fails leaves its trace. -/
theorem fromUtf8Failed_of_textFrom {start : Nat} {self final : Parser}
    {error : QueryError}
    (run : textFrom start self = .error (.error error) final) :
    FromUtf8Failed error final := by
  rcases exists_of_bind_eq_error run with stopped | passed
  · exact absurd stopped (infallible_get _ _ _)
  · obtain ⟨_, _, got, run⟩ := passed
    cases got
    rcases exists_of_bind_eq_error run with stopped | passed
    · exact absurd stopped (infallible_checked _ _ _ _)
    · obtain ⟨bytes, _, accessed, decodes⟩ := passed
      obtain ⟨part, rfl⟩ := checked_eq_ok accessed
      cases decoded : fromUtf8 bytes with
      | some text =>
          rw [decoded] at decodes
          cases decodes
      | none =>
          rw [decoded] at decodes
          cases decodes
          exact ⟨start, bytes, rfl, part, decoded⟩

/--
A filter and a field take a byte.  A round of a loop and a recursive call
start behind the place where the loop or the caller has started.
-/
structure Progresses : Prop where
  filter : Moves (· < ·) parseFilter
  select : ∀ terminator rounds,
    Moves (· < ·) (parseSelect (parseSelects terminator rounds))
  filterRounds : Calls (· < ·) (parseRound 41 parseFilter)
  selectRounds : ∀ terminator, Calls (· < ·) fun selects =>
    parseRound terminator (parseSelect selects) selects
  recursion : Calls (· < ·) parseSelect
  filtersTerminate :
    Terminates (parseRound 41 parseFilter) parseFilters left
  selectsTerminate : ∀ terminator, Terminates
    (fun selects => parseRound terminator (parseSelect selects) selects)
    (parseSelects terminator) left

theorem progresses : Progresses where
  filter := moves_parseFilter
  select := fun terminator rounds =>
    moves_parseSelect (moves_parseSelects terminator rounds)
  filterRounds := calls_filterRound
  selectRounds := calls_selectRound
  recursion := calls_parseSelect
  filtersTerminate := parseFilters_terminates
  selectsTerminate := parseSelects_terminates

end Query.Parser

namespace Query

/-- The parser returns, decodes texts only and names places of its input. -/
structure ParsesSafely (query : String) : Prop where
  returns : ∃ outcome, Query.parse query = .ok outcome
  decodes : ∀ error final,
    Parser.parseQuery (Parser.new query) = .error (.error error) final →
      ¬ Parser.FromUtf8Failed error final
  placed : ∀ error position, Query.parse query = .ok (.error error) →
    error.position = some position →
      position < (Path.strBytes query).length

theorem parsesSafely (query : String) : ParsesSafely query := by
  have decides := Parser.reads_parseQuery _ _ (Parser.new_before query)
    trivial
  have proper := fun error final => Parser.safe_parseQuery.fails
    (Parser.new query) error final (Parser.new_within query)
  refine ⟨?_, fun error final run => (proper error final run).decoded, ?_⟩
  · unfold Query.parse
    cases run : Parser.parseQuery (Parser.new query) with
    | ok parsed final => exact ⟨_, rfl⟩
    | error stop final =>
        cases stop with
        | error error => exact ⟨_, rfl⟩
        | panic failure =>
            rw [run] at decides
            exact decides.elim
  · intro error position returned named
    unfold Query.parse at returned
    split at returned
    · cases returned
    · rename_i failure final run
      cases returned
      exact (proper error final run).placed position named
    · cases returned

/--
Parsing is safe on every text: the loops and the recursion of the parser make
progress and end, no access is out of range, no conversion of a part of the
input fails, and an error which names a place names one of the input.
-/
theorem parse_safe :
    Parser.Progresses ∧
      (∀ start self error final,
        Parser.textFrom start self = .error (.error error) final →
          Parser.FromUtf8Failed error final) ∧
      ∀ query, ParsesSafely query :=
  ⟨Parser.progresses, fun _ _ _ _ => Parser.fromUtf8Failed_of_textFrom,
    parsesSafely⟩

/-- An unknown keyword is named with the place where it starts. -/
example : Query.parse "{ items( limit: 5) }" =
    .ok (.error (.unknownFilter "limit" 9)) := by
  rfl

end Query

end Cdoc
