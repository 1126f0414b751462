import Cdoc.Query.Grammar

/-!
# Tokens

What the functions of the parser which work on bytes read, in terms of the
characters in front of it.  The tests of the parser do not tell the bytes of
characters beyond ASCII apart, so the parser always stands between two
characters of its input.
-/

namespace Cdoc.Query.Parser

open Cdoc.Foundation
open Grammar

/-! ## Characters and their bytes -/

theorem agree_blank : Agree isAsciiWhitespace isBlank := by
  refine agree_of_narrow false (by decide +kernel) (by decide +kernel) ?_
  intro char wide
  simp only [isBlank, Bool.or_eq_false_iff, beq_eq_false_iff_ne]
  refine ⟨⟨⟨⟨?_, ?_⟩, ?_⟩, ?_⟩, ?_⟩ <;>
    · rintro rfl
      exact absurd wide (by decide)

theorem narrow_of_isAlphanum {char : Char}
    (accepted : char.isAlphanum = true) : char.toNat < 128 := by
  change (decide (65 ≤ char.val ∧ char.val ≤ 90) ||
    (decide (97 ≤ char.val) && decide (char.val ≤ 122)) ||
    (decide (48 ≤ char.val) && decide (char.val ≤ 57))) = true at accepted
  simp only [Bool.or_eq_true, Bool.and_eq_true, decide_eq_true_eq,
    UInt32.le_iff_toNat_le] at accepted
  have code : char.toNat = char.val.toNat := rfl
  have upper : (90 : UInt32).toNat = 90 := rfl
  have lower : (122 : UInt32).toNat = 122 := rfl
  have digit : (57 : UInt32).toNat = 57 := rfl
  omega

theorem narrow_of_isWordChar {char : Char}
    (accepted : isWordChar char = true) : char.toNat < 128 := by
  rcases (Bool.or_eq_true _ _).mp accepted with alphanum | underscore
  · exact narrow_of_isAlphanum alphanum
  · rw [beq_iff_eq.mp underscore]
    decide

theorem isWordChar_of_isWordStart {char : Char}
    (accepted : isWordStart char = true) : isWordChar char = true := by
  rw [isWordStart, Bool.or_eq_true] at accepted
  rw [isWordChar, Char.isAlphanum, Bool.or_eq_true, Bool.or_eq_true]
  exact accepted.imp_left Or.inl

theorem isWordChar_of_isDigit {char : Char}
    (accepted : char.isDigit = true) : isWordChar char = true := by
  rw [isWordChar, Char.isAlphanum, accepted, Bool.or_true, Bool.true_or]

/-- A test which accepts only parts of words. -/
theorem agree_of_isWordChar {onByte : UInt8 → Bool} {onChar : Char → Bool}
    (word : ∀ char, onChar char = true → isWordChar char = true)
    (narrow : ∀ code < 128,
      onByte (UInt8.ofNat code) = onChar (Char.ofNat code))
    (wide : ∀ code < 256, 128 ≤ code →
      onByte (UInt8.ofNat code) = false) : Agree onByte onChar := by
  refine agree_of_narrow false narrow wide ?_
  intro char large
  rw [← Bool.not_eq_true]
  intro accepted
  exact absurd (narrow_of_isWordChar (word char accepted))
    (Nat.not_lt.mpr large)

theorem agree_word : Agree isWordByte isWordChar :=
  agree_of_isWordChar (fun _ accepted => accepted) (by decide +kernel)
    (by decide +kernel)

theorem agree_letter : Agree isLetterByte isWordStart :=
  agree_of_isWordChar (fun _ => isWordChar_of_isWordStart)
    (by decide +kernel) (by decide +kernel)

theorem agree_digit : Agree isAsciiDigit Char.isDigit :=
  agree_of_isWordChar (fun _ => isWordChar_of_isDigit) (by decide +kernel)
    (by decide +kernel)

theorem agree_unquoted : Agree (fun byte => byte != 34)
    (fun char => char != '"') := by
  refine agree_of_narrow true (by decide +kernel) (by decide +kernel) ?_
  intro char wide
  rw [bne_iff_ne]
  rintro rfl
  exact absurd wide (by decide)

/-! ## Positions -/

/-- The parser stands in front of the text. -/
structure At (parser : Parser) (text : List Char) : Prop where
  bounded : parser.pos ≤ parser.input.length
  ahead : parser.input.drop parser.pos = utf8 text

/-- The parser stands in front of the text, or of whitespace before it. -/
def Before (self : Parser) (text : List Char) : Prop :=
  ∃ ahead, self.At ahead ∧ skipBlanks ahead = text

section Positions

variable {self : Parser} {text : List Char}

theorem At.before (stands : self.At text) :
    self.Before (skipBlanks text) :=
  ⟨text, stands, rfl⟩

theorem peek_eq (stands : self.At text) :
    self.peek = (utf8 text).head? := by
  rw [← stands.ahead, List.head?_drop, peek]

/-- The parser moves behind a part of the text. -/
theorem At.move {part after : List Char}
    (stands : self.At (part ++ after)) :
    At { self with pos := self.pos + (utf8 part).length } after where
  bounded := by
    have length := congrArg List.length stands.ahead
    have bounded := stands.bounded
    rw [List.length_drop, utf8_append, List.length_append] at length
    show self.pos + (utf8 part).length ≤ self.input.length
    omega
  ahead := by
    rw [← List.drop_drop, stands.ahead, utf8_append, List.drop_left]

/-- The part which the parser has moved over. -/
theorem At.slice {part after : List Char}
    (stands : self.At (part ++ after)) :
    slice self.input self.pos (self.pos + (utf8 part).length) =
      .ok (utf8 part) := by
  refine slice_at (self.input.take self.pos) (utf8 part) (utf8 after) ?_ ?_
    rfl
  · rw [← utf8_append, ← stands.ahead, List.take_append_drop]
  · rw [List.length_take, Nat.min_eq_left stands.bounded]

/-- The loop stops behind the bytes which pass the test. -/
theorem scan_eq {input : Bytes} {test : UInt8 → Bool} {rounds pos : Nat}
    (bounded : pos ≤ input.length) (enough : input.length < rounds + pos) :
    scan input test rounds pos =
      .ok (pos + ((input.drop pos).takeWhile test).length) := by
  induction rounds generalizing pos with
  | zero => omega
  | succ rounds induction =>
      rw [scan]
      by_cases inside : pos < input.length
      · have read : index input pos = .ok input[pos] := by
          simp [index, inside]
        rw [if_pos inside, read, ok_bind, List.drop_eq_getElem_cons inside]
        cases accepted : test input[pos] with
        | true =>
            rw [if_pos rfl, @induction (pos + 1) inside (by omega),
              List.takeWhile_cons_of_pos accepted, List.length_cons,
              Nat.add_right_comm, Nat.add_assoc]
        | false =>
            rw [if_neg Bool.false_ne_true,
              List.takeWhile_cons_of_neg (by simp [accepted])]
            rfl
      · rw [if_neg inside, List.drop_of_length_le (Nat.le_of_not_lt inside)]
        rfl

/-- The parser moves behind the characters which pass the test. -/
theorem skipWhile_eq {onByte : UInt8 → Bool} {onChar : Char → Bool}
    (agree : Agree onByte onChar) (stands : self.At text) :
    skipWhile onByte self =
      .ok () { self with
        pos := self.pos + (utf8 (text.takeWhile onChar)).length } := by
  have scanned := @scan_eq self.input onByte (self.input.length + 1)
    self.pos stands.bounded (by omega)
  rw [stands.ahead, takeWhile_utf8 agree] at scanned
  show EStateM.bind (checked _) _ self = _
  rw [scanned]
  rfl

theorem At.skipWhile (onChar : Char → Bool) (stands : self.At text) :
    At { self with
        pos := self.pos + (utf8 (text.takeWhile onChar)).length }
      (text.dropWhile onChar) := by
  rw [← List.takeWhile_append_dropWhile (p := onChar) (l := text)] at stands
  exact stands.move

theorem At.peek_eq_iff {mark : Char} (narrow : mark.toNat < 128)
    (stands : self.At text) :
    self.peek = some (UInt8.ofNat mark.toNat) ↔
      ∃ after, text = mark :: after := by
  rw [peek_eq stands, List.head?_eq_some_iff]
  constructor
  · rintro ⟨rest, equal⟩
    obtain ⟨after, spelled, -⟩ := (utf8_eq_cons_iff narrow).mp equal
    exact ⟨after, spelled⟩
  · rintro ⟨after, spelled⟩
    exact ⟨utf8 after, (utf8_eq_cons_iff narrow).mpr ⟨after, spelled, rfl⟩⟩

theorem At.peek_eq_none_iff (stands : self.At text) :
    self.peek = none ↔ text = [] := by
  rw [peek_eq stands, List.head?_eq_none_iff, utf8_eq_nil_iff]

theorem At.ended_iff (stands : self.At text) :
    self.input.length ≤ self.pos ↔ text = [] := by
  rw [← utf8_eq_nil_iff, ← stands.ahead, List.drop_eq_nil_iff]

theorem At.advance {mark : Char} {after : List Char}
    (narrow : mark.toNat < 128) (stands : self.At (mark :: after)) :
    At { self with pos := self.pos + 1 } after := by
  have moved := @At.move self [mark] after stands
  rw [utf8_cons, utf8EncodeChar_of_narrow narrow] at moved
  exact moved

/-- A function which skips whitespace first. -/
theorem reads_of_skipWs {α : Type} {next : Parse α}
    {ready : List Char → Prop} {reading : List Char → α → List Char → Prop}
    {follow : List Char → Prop}
    (decides : ∀ self text, At self text → skipBlanks text = text →
      ready text → Decides Before (next self) (reading text) follow) :
    Reads Before ready (do skipWs; next) reading follow := by
  rintro self text ⟨ahead, stands, rfl⟩ start
  have stands' := stands.skipWhile isBlank
  show Decides Before (EStateM.bind skipWs (fun _ => next) self) _ _
  rw [EStateM.bind, skipWs, skipWhile_eq agree_blank stands]
  exact decides _ _ stands' (skipBlanks_skipBlanks ahead) start

theorem decides_unexpected {α : Type} {reading : α → List Char → Prop}
    {follow : List Char → Prop} (self : Parser)
    (impossible : ∀ value rest, ¬ reading value rest) :
    Decides Before (unexpected (α := α) self) reading follow := by
  have failed : unexpected (α := α) self =
      .error (.error self.unexpectedError) self :=
    rfl
  rw [failed]
  intro value rest read
  exact absurd read (impossible value rest)

end Positions

/-! ## Marks -/

/-- A token which may be missing. -/
def Found (token : List Char → List Char → Prop) (text : List Char)
    (found : Bool) (rest : List Char) : Prop :=
  if found then token text rest
  else rest = text ∧ ∀ after, ¬ token text after

section Marks

variable {mark : Char}

theorem reads_expect (narrow : mark.toNat < 128) :
    Reads Before (fun _ => True) (expect (UInt8.ofNat mark.toNat))
      (fun text _ rest => Mark mark text rest) (fun _ => True) := by
  refine reads_of_skipWs ?_
  intro self text stands _ _
  show Decides Before ((if self.peek = some (UInt8.ofNat mark.toNat) then
    advance else unexpected : Parse Unit) self) _ _
  by_cases found : self.peek = some (UInt8.ofNat mark.toNat)
  · rw [if_pos found]
    obtain ⟨after, rfl⟩ := (stands.peek_eq_iff narrow).mp found
    refine ⟨skipBlanks after, (stands.advance narrow).before,
      ⟨after, rfl, rfl⟩, ?_⟩
    rintro - rest ⟨after', spelled, rfl⟩ -
    cases spelled
    exact ⟨rfl, rfl⟩
  · rw [if_neg found]
    refine decides_unexpected self ?_
    rintro - rest ⟨after, spelled, -⟩
    exact found ((stands.peek_eq_iff narrow).mpr ⟨after, spelled⟩)

/-- The answer whether a token is there decides what is read. -/
theorem decides_found {token : List Char → List Char → Prop}
    {text rest : List Char} {self : Parser} {found : Bool}
    (before : self.Before rest) (read : Found token text found rest)
    (unique : ∀ rest after, token text rest → token text after →
      rest = after) :
    Decides Before (.ok found self : EStateM.Result (Stop QueryError) _ _)
      (Found token text) (fun _ => True) := by
  refine ⟨rest, before, read, ?_⟩
  intro other after read' _
  cases found with
  | true =>
      cases other with
      | true => exact ⟨rfl, unique after rest read' read⟩
      | false => exact absurd read (read'.2 rest)
  | false =>
      cases other with
      | true => exact absurd read' (read.2 after)
      | false => exact ⟨rfl, read'.1.trans read.1.symm⟩

theorem reads_tryByte (narrow : mark.toNat < 128) :
    Reads Before (fun _ => True) (tryByte (UInt8.ofNat mark.toNat))
      (Found (Mark mark)) (fun _ => True) := by
  refine reads_of_skipWs ?_
  intro self text stands stripped _
  show Decides Before ((if self.peek = some (UInt8.ofNat mark.toNat) then
    do advance; return true else return false : Parse Bool) self) _ _
  by_cases found : self.peek = some (UInt8.ofNat mark.toNat)
  · rw [if_pos found]
    obtain ⟨after, rfl⟩ := (stands.peek_eq_iff narrow).mp found
    exact decides_found (stands.advance narrow).before
      (⟨after, rfl, rfl⟩ : Mark mark _ _) (fun _ _ => Mark.unique)
  · rw [if_neg found]
    have absent : ∀ after, ¬ Mark mark text after := by
      rintro rest ⟨after, spelled, -⟩
      exact found ((stands.peek_eq_iff narrow).mpr ⟨after, spelled⟩)
    exact decides_found ⟨text, stands, stripped⟩ ⟨rfl, absent⟩
      (fun _ _ => Mark.unique)

/-- Where a list ends. -/
def Ended (mark : Char) (text : List Char) (ended : Bool)
    (rest : List Char) : Prop :=
  rest = text ∧ (ended = true ↔ text.head? = some mark ∨ text = [])

theorem reads_atEnd (narrow : mark.toNat < 128) :
    Reads Before (fun _ => True) (atEnd (UInt8.ofNat mark.toNat))
      (Ended mark) (fun _ => True) := by
  refine reads_of_skipWs ?_
  intro self text stands stripped _
  have decided : (self.peek = some (UInt8.ofNat mark.toNat) ∨
      self.peek = none) ↔ text.head? = some mark ∨ text = [] := by
    rw [stands.peek_eq_iff narrow, stands.peek_eq_none_iff,
      List.head?_eq_some_iff]
  refine ⟨text, ⟨text, stands, stripped⟩, ⟨rfl, ?_⟩, ?_⟩
  · rw [decide_eq_true_iff, decided]
  · rintro other after ⟨rfl, ended⟩ -
    refine ⟨?_, rfl⟩
    rw [Bool.eq_iff_iff, ended, decide_eq_true_iff, decided]

end Marks

/-! ## Words -/

section Words

variable {self : Parser} {text : List Char}

theorem reads_tryKeyword {keyword : String}
    (narrow : keyword.toList.all (fun char => char.toNat < 128) = true) :
    Reads Before (fun _ => True) (tryKeyword (utf8 keyword.toList))
      (Found (Keyword keyword)) (fun _ => True) := by
  refine reads_of_skipWs ?_
  intro self text stands stripped _
  have total := congrArg List.length stands.ahead
  rw [List.length_drop] at total
  have before : self.Before text := ⟨text, stands, stripped⟩
  show Decides Before ((if self.pos + _ > self.input.length then _ else _ :
    Parse Bool) self) _ _
  split
  · rename_i short
    refine decides_found before ⟨rfl, ?_⟩ (fun _ _ => Keyword.unique)
    rintro rest ⟨after, rfl, -⟩
    rw [utf8_append, List.length_append] at total
    have bounded := stands.bounded
    omega
  · have found : slice self.input self.pos
        (self.pos + (utf8 keyword.toList).length) =
        .ok ((utf8 text).take (utf8 keyword.toList).length) := by
      rw [slice, if_pos (by omega), List.drop_take, stands.ahead,
        Nat.add_sub_cancel_left]
    show Decides Before (EStateM.bind (checked _) _ self) _ _
    rw [found]
    show Decides Before ((if _ then _ else _ : Parse Bool) self) _ _
    split
    · rename_i different
      refine decides_found before ⟨rfl, ?_⟩ (fun _ _ => Keyword.unique)
      rintro rest ⟨after, rfl, -⟩
      rw [utf8_append, List.take_left] at different
      exact different rfl
    · rename_i same
      have spelled : utf8 text = utf8 keyword.toList ++
          (utf8 text).drop (utf8 keyword.toList).length := by
        rw [← not_not.mp same, List.length_take_of_le (by omega),
          List.take_append_drop]
      have isNarrow : ∀ char ∈ keyword.toList, char.toNat < 128 := by
        simpa using narrow
      obtain ⟨after, rfl, -⟩ := (utf8_eq_append_iff isNarrow).mp spelled
      have moved := stands.move
      have boundary := peek_eq moved
      rw [peek] at boundary
      show Decides Before ((if _ then _ else _ : Parse Bool) self) _ _
      rw [boundary, any_head_utf8 agree_word]
      split
      · rename_i continued
        refine decides_found before ⟨rfl, ?_⟩ (fun _ _ => Keyword.unique)
        rintro rest ⟨after', spelled, ends, -⟩
        rw [List.append_cancel_left spelled, ends] at continued
        cases continued
      · rename_i ends
        exact decides_found moved.before
          (⟨after, rfl, Bool.eq_false_of_not_eq_true ends, rfl⟩ :
            Keyword keyword _ _)
          (fun _ _ => Keyword.unique)

/-- The text of the part which the parser has moved over. -/
theorem textFrom_eq {part after : List Char}
    (stands : self.At (part ++ after)) :
    textFrom self.pos
        { self with pos := self.pos + (utf8 part).length } =
      .ok (String.ofList part)
        { self with pos := self.pos + (utf8 part).length } := by
  show EStateM.bind (checked (slice self.input self.pos _)) _ _ = _
  rw [stands.slice]
  show orFail (fromUtf8 (utf8 part)) _ _ = _
  rw [fromUtf8_utf8]
  rfl

/-- The longest run of characters which pass the test. -/
theorem run_eq {α : Type} {onByte : UInt8 → Bool} {onChar : Char → Bool}
    (agree : Agree onByte onChar) (stands : self.At text)
    (next : String → Parse α) :
    (do skipWhile onByte; let run ← textFrom self.pos; next run) self =
      next (String.ofList (text.takeWhile onChar)) { self with
        pos := self.pos + (utf8 (text.takeWhile onChar)).length } := by
  show EStateM.bind (skipWhile onByte) _ self = _
  rw [EStateM.bind, skipWhile_eq agree stands]
  rw [← List.takeWhile_append_dropWhile (p := onChar) (l := text)] at stands
  show EStateM.bind (textFrom self.pos) _ _ = _
  rw [EStateM.bind, textFrom_eq stands]

/-- A quoted name ends in front of the next quote, if there is one. -/
theorem parseQuotedString_eq (stands : self.At ('"' :: text)) :
    parseQuotedString self =
      if text.dropWhile (fun char => char != '"') = [] then
        .error (.error .unexpectedEnd) { self with
          pos := self.pos + 1 +
            (utf8 (text.takeWhile fun char => char != '"')).length }
      else
        .ok (.field (String.ofList
          (text.takeWhile fun char => char != '"'))) { self with
          pos := self.pos + 1 +
            (utf8 (text.takeWhile fun char => char != '"')).length + 1 } := by
  have inside := stands.advance (by decide)
  have stops := inside.skipWhile fun char => char != '"'
  have skipped := skipWhile_eq agree_unquoted inside
  show EStateM.bind (skipWhile _) _ _ = _
  rw [EStateM.bind, skipped]
  show (if _ then _ else _ : Parse Segment) _ = _
  by_cases ended : text.dropWhile (fun char => char != '"') = []
  · rw [if_pos ended, if_pos (stops.ended_iff.mpr ended)]
    rfl
  · rw [if_neg ended, if_neg (fun last => ended (stops.ended_iff.mp last))]
    rw [← List.takeWhile_append_dropWhile (p := fun char => char != '"')
      (l := text)] at inside
    show EStateM.bind (textFrom (self.pos + 1)) _ _ = _
    rw [EStateM.bind, textFrom_eq inside]
    rfl

theorem parseQuotedString_decides (stands : self.At ('"' :: text)) :
    Decides Before (parseQuotedString self) (Name ('"' :: text))
      (fun _ => True) := by
  have stops := (stands.advance (by decide)).skipWhile
    fun char => char != '"'
  rw [parseQuotedString_eq stands]
  cases rest : text.dropWhile fun char => char != '"' with
  | nil =>
      rw [if_pos rfl]
      intro other after name _
      obtain ⟨_, closes, -⟩ := name_quote_iff.mp name
      rw [rest] at closes
      cases closes
  | cons quote after =>
      have more : ¬ text.dropWhile (fun char => char != '"') = [] := by
        rw [rest]
        exact List.cons_ne_nil _ _
      have isQuote : quote = '"' := by
        have refused := List.head_dropWhile_not _ more
        simpa only [rest, List.head_cons, bne_eq_false_iff_eq] using refused
      subst isQuote
      rw [if_neg (List.cons_ne_nil _ _)]
      rw [rest] at stops
      refine ⟨skipBlanks after, (stops.advance (by decide)).before,
        name_quote_iff.mpr ⟨after, rest, rfl, rfl⟩, ?_⟩
      intro other rest' name _
      obtain ⟨after', closes, rfl, rfl⟩ := name_quote_iff.mp name
      rw [rest] at closes
      cases closes
      exact ⟨rfl, rfl⟩

theorem parseBareWord_decides {first : Char}
    (start : isWordStart first = true) (stands : self.At (first :: text)) :
    Decides Before (parseBareWord self) (Name (first :: text))
      (fun _ => True) := by
  have word := isWordChar_of_isWordStart start
  have stops := stands.skipWhile isWordChar
  show Decides Before ((do
    skipWhile isWordByte
    let run ← textFrom self.pos
    return .field run : Parse Segment) self) _ _
  rw [run_eq agree_word stands]
  rw [List.dropWhile_cons_of_pos word] at stops
  rw [List.takeWhile_cons_of_pos word] at stops ⊢
  refine ⟨_, stops.before, (name_word_iff start).mpr ⟨rfl, rfl⟩, ?_⟩
  intro other rest name _
  exact (name_word_iff start).mp name

theorem At.any_peek (stands : self.At text) :
    self.peek.any isLetterByte = text.head?.any isWordStart := by
  rw [peek_eq stands, any_head_utf8 agree_letter]

theorem reads_parseName :
    Reads Before (fun _ => True) parseName Name (fun _ => True) := by
  refine reads_of_skipWs ?_
  intro self text stands _ _
  have quote := stands.peek_eq_iff (by decide : '"'.toNat < 128)
  have letter := stands.any_peek
  show Decides Before ((if self.peek = some 34 then parseQuotedString
    else if self.peek.any isLetterByte then parseBareWord
    else unexpected : Parse Segment) self) _ _
  split
  · rename_i isQuote
    obtain ⟨after, rfl⟩ := quote.mp isQuote
    exact parseQuotedString_decides stands
  · rename_i notQuote
    split
    · rename_i isLetter
      rw [letter] at isLetter
      cases text with
      | nil => cases isLetter
      | cons first after => exact parseBareWord_decides isLetter stands
    · rename_i notLetter
      refine decides_unexpected self ?_
      intro segment rest name
      obtain ⟨first, after, rfl, start⟩ := name.head
      rcases start with rfl | start
      · exact notQuote (quote.mpr ⟨after, rfl⟩)
      · exact notLetter (letter.trans start)

/-- The run of letters which is read in front of a colon. -/
def Letters (text : List Char) (run : String) (rest : List Char) : Prop :=
  run = String.ofList (text.takeWhile isWordStart) ∧
    rest = skipBlanks (text.dropWhile isWordStart)

theorem reads_parseKeyword :
    Reads Before (fun _ => True) parseKeyword Letters (fun _ => True) := by
  refine reads_of_skipWs ?_
  intro self text stands _ _
  have run := run_eq agree_letter stands pure
  rw [bind_pure] at run
  show Decides Before ((do
    skipWhile isLetterByte
    textFrom self.pos : Parse String) self) _ _
  rw [run]
  refine ⟨_, (stands.skipWhile isWordStart).before, ⟨rfl, rfl⟩, ?_⟩
  intro other rest read _
  exact read

end Words

/-! ## Numbers -/

theorem pushDigit_eq (number : UInt64) (digit : UInt8) :
    pushDigit number digit =
      if number.toNat * 10 + (digit.toNat - 48) < 2 ^ 64 then
        some (UInt64.ofNat (number.toNat * 10 + (digit.toNat - 48)))
      else
        none := by
  unfold pushDigit
  split_ifs with tens ones ones
  · rfl
  · rfl
  · omega
  · rfl

theorem le_decimal (digits : List Char) (number : Nat) :
    number ≤ digits.foldl
      (fun number digit => number * 10 + (digit.toNat - 48)) number := by
  induction digits generalizing number with
  | nil => exact le_rfl
  | cons digit digits induction =>
      have grows : number ≤ number * 10 + (digit.toNat - 48) := by omega
      exact grows.trans (induction _)

/-- The byte of a digit. -/
theorem utf8EncodeChar_of_isDigit {digit : Char}
    (isDigit : digit.isDigit = true) :
    String.utf8EncodeChar digit = [UInt8.ofNat digit.toNat] ∧
      isAsciiDigit (UInt8.ofNat digit.toNat) = true ∧
      (UInt8.ofNat digit.toNat).toNat = digit.toNat := by
  have narrow := narrow_of_isWordChar (isWordChar_of_isDigit isDigit)
  have bytes := utf8EncodeChar_of_narrow narrow
  refine ⟨bytes, ?_, ?_⟩
  · exact (agree_digit digit _
      (bytes ▸ List.mem_singleton_self _)).trans isDigit
  · rw [UInt8.toNat_ofNat']
    omega

/-- The digits are read as a number unless it is too large. -/
theorem foldlM_digits_iff {digits : List Char}
    (isDigits : ∀ digit ∈ digits, digit.isDigit = true)
    (start number : UInt64) :
    (utf8 digits).foldlM (fun number digit =>
        if isAsciiDigit digit then pushDigit number digit else none)
        start = some number ↔
      digits.foldl (fun number digit => number * 10 + (digit.toNat - 48))
        start.toNat = number.toNat := by
  induction digits generalizing start with
  | nil =>
      rw [utf8_nil, List.foldlM_nil, List.foldl_nil, UInt64.toNat_inj]
      exact Option.some_inj
  | cons digit digits induction =>
      obtain ⟨bytes, accepted, code⟩ := utf8EncodeChar_of_isDigit
        (isDigits digit (List.mem_cons_self ..))
      rw [utf8_cons, bytes, List.singleton_append, List.foldlM_cons,
        if_pos accepted, pushDigit_eq, code, List.foldl_cons]
      split
      · rename_i fits
        have value : (UInt64.ofNat (start.toNat * 10 +
            (digit.toNat - 48))).toNat =
              start.toNat * 10 + (digit.toNat - 48) := by
          rw [UInt64.toNat_ofNat', Nat.mod_eq_of_lt fits]
        have others := induction (fun other member =>
          isDigits other (List.mem_cons_of_mem _ member)) (UInt64.ofNat
            (start.toNat * 10 + (digit.toNat - 48)))
        rw [value] at others
        exact others
      · rename_i overflows
        have large := le_decimal digits
          (start.toNat * 10 + (digit.toNat - 48))
        have bound := number.toNat_lt
        constructor
        · intro impossible
          cases impossible
        · intro equal
          omega

theorem parseUsize_iff {digits : List Char} (nonempty : digits ≠ [])
    (isDigits : ∀ digit ∈ digits, digit.isDigit = true)
    (number : UInt64) :
    parseUsize (utf8 digits) = some number ↔
      decimal digits = number.toNat := by
  have unsigned : parseUsize (utf8 digits) = (utf8 digits).foldlM
      (fun number digit =>
        if isAsciiDigit digit then pushDigit number digit else none) 0 := by
    cases digits with
    | nil => exact absurd rfl nonempty
    | cons digit digits =>
        obtain ⟨bytes, accepted, -⟩ := utf8EncodeChar_of_isDigit
          (isDigits digit (List.mem_cons_self ..))
        rw [utf8_cons, bytes, List.singleton_append, parseUsize]
        · rfl
        · intro others signed
          rw [(List.cons.inj signed).1] at accepted
          cases accepted
  rw [unsigned, foldlM_digits_iff isDigits]
  rfl

theorem reads_parseNumber :
    Reads Before (fun _ => True) parseNumber Number (fun _ => True) := by
  refine reads_of_skipWs ?_
  intro self text stands _ _
  have stops := stands.skipWhile Char.isDigit
  show Decides Before (EStateM.bind (skipWhile isAsciiDigit) _ self) _ _
  rw [EStateM.bind, skipWhile_eq agree_digit stands]
  show Decides Before ((if self.pos + _ = self.pos then _ else _ :
    Parse UInt64) _) _ _
  split
  · rename_i still
    have empty : text.takeWhile Char.isDigit = [] := by
      rw [← utf8_eq_nil_iff, ← List.length_eq_zero_iff]
      omega
    refine decides_unexpected _ ?_
    intro number rest read
    exact (number_iff.mp read).1 empty
  · rename_i moved
    have nonempty : text.takeWhile Char.isDigit ≠ [] := by
      intro empty
      rw [empty] at moved
      exact moved rfl
    have value := parseUsize_iff nonempty
      (fun digit member => List.mem_takeWhile_imp member)
    rw [← List.takeWhile_append_dropWhile (p := Char.isDigit)
      (l := text)] at stands
    show Decides Before (EStateM.bind (textFrom self.pos) _ _) _ _
    rw [EStateM.bind, textFrom_eq stands]
    show Decides Before (orFail (parseUsize (Path.strBytes _)) _ _) _ _
    rw [Path.strBytes, toByteArray_eq_utf8, String.toList_ofList]
    cases parsed : parseUsize (utf8 (text.takeWhile Char.isDigit)) with
    | none =>
        intro number rest read _
        have spelled := (value number).mpr (number_iff.mp read).2.1
        rw [parsed] at spelled
        cases spelled
    | some number =>
        refine ⟨_, stops.before, number_iff.mpr
          ⟨nonempty, (value number).mp parsed, rfl⟩, ?_⟩
        intro other rest read _
        obtain ⟨-, spelled, rfl⟩ := number_iff.mp read
        have same := (value other).mpr spelled
        rw [parsed] at same
        cases same
        exact ⟨rfl, rfl⟩

end Cdoc.Query.Parser
