import Cdoc.Foundation.Descent
import Cdoc.Foundation.Utf8
import Cdoc.Path.Format

/-!
# Queries and their parser

The descriptor of a selection of fields, and the recursive descent which
reads it from a text.  The parser walks over the bytes of the text.  It stops
with an error which names a position, or it panics where the source would
index out of range.
-/

namespace Cdoc

open Cdoc.Foundation

/-- A step of a document path, as users write it. -/
inductive Segment where
  | field (name : String)
  | fractionalIndex (bytes : Bytes)
deriving DecidableEq, Repr

/-- Pagination of a collection. -/
inductive Filter where
  | skip (count : UInt64)
  | take (count : UInt64)
  | after (cursor : Segment)
  | before (cursor : Segment)
deriving DecidableEq, Repr

/-- A field, with an alias, filters and the fields below it. -/
structure Select where
  name : Segment
  aliasName : Option Segment
  filters : List Filter
  subselects : List Select
deriving BEq, Repr

/-- The fields which a client selects. -/
structure Query where
  selects : List Select
deriving BEq, Repr

/-- What a parser stops with, and where. -/
inductive QueryError where
  | unexpectedChar (found : Char) (position : Nat)
  | unexpectedEnd
  | unknownFilter (keyword : String) (position : Nat)
deriving DecidableEq, Repr

namespace Query

/-- The bytes of a text, and the position in them. -/
structure Parser where
  input : Bytes
  pos : Nat
deriving DecidableEq, Repr

/-- A function with a mutable parser. -/
abbrev Parse := Descent QueryError Parser

/-! ## Bytes -/

/-- `u8::is_ascii_whitespace`. -/
def isAsciiWhitespace (byte : UInt8) : Bool :=
  byte == 32 || byte == 9 || byte == 10 || byte == 12 || byte == 13

/-- `u8::is_ascii_digit`. -/
def isAsciiDigit (byte : UInt8) : Bool :=
  48 ≤ byte && byte ≤ 57

/-- `u8::is_ascii_alphabetic`. -/
def isAsciiAlphabetic (byte : UInt8) : Bool :=
  65 ≤ byte && byte ≤ 90 || 97 ≤ byte && byte ≤ 122

/-- `u8::is_ascii_alphanumeric`. -/
def isAsciiAlphanumeric (byte : UInt8) : Bool :=
  isAsciiAlphabetic byte || isAsciiDigit byte

/-- `byte as char`. -/
def asChar (byte : UInt8) : Char :=
  Char.ofNat byte.toNat

/-- `checked_mul`, then `checked_add`. -/
def pushDigit (number : UInt64) (digit : UInt8) : Option UInt64 :=
  if number.toNat * 10 < 2 ^ 64 then
    if number.toNat * 10 + (digit.toNat - 48) < 2 ^ 64 then
      some (UInt64.ofNat (number.toNat * 10 + (digit.toNat - 48)))
    else
      none
  else
    none

/-- `str::parse::<usize>` after an optional sign. -/
def parseDigits : Bytes → Option UInt64
  | [] => none
  | digits =>
      digits.foldlM (fun number digit =>
        if isAsciiDigit digit then pushDigit number digit else none) 0

/-- `str::parse::<usize>`. -/
def parseUsize : Bytes → Option UInt64
  | 43 :: digits => parseDigits digits
  | digits => parseDigits digits

namespace Parser

/-! ## Tokens -/

/-- `Parser::new`: nothing has been read. -/
def new (input : String) : Parser :=
  ⟨Path.strBytes input, 0⟩

/-- An access which may panic. -/
def checked {α : Type} (access : Checked α) : Parse α :=
  match access with
  | .ok value => return value
  | .error failure => throw (.panic failure)

/-- The parser returns an error. -/
def fail {α : Type} (error : QueryError) : Parse α :=
  throw (.error error)

/-- A result which may be missing. -/
def orFail {α : Type} (result : Option α) (error : QueryError) : Parse α :=
  match result with
  | some value => return value
  | none => fail error

/-- `while pos < input.len() && test(input[pos]) { pos += 1 }`. -/
def scan (input : Bytes) (test : UInt8 → Bool) :
    (rounds : Nat) → (pos : Nat) → Checked Nat
  | 0, _ => .error .unfinished
  | rounds + 1, pos =>
      if pos < input.length then do
        let byte ← index input pos
        if test byte then scan input test rounds (pos + 1) else return pos
      else
        return pos

/-- The loops which advance over bytes of one kind. -/
def skipWhile (test : UInt8 → Bool) : Parse Unit := do
  let self ← get
  let pos ← checked (scan self.input test (self.input.length + 1) self.pos)
  set { self with pos }

/-- `skip_ws`. -/
def skipWs : Parse Unit :=
  skipWhile isAsciiWhitespace

/-- `peek`: the byte at the position, unless the text is at its end. -/
def peek (self : Parser) : Option UInt8 :=
  self.input[self.pos]?

/-- `advance`: one byte further. -/
def advance : Parse Unit :=
  modify fun self => { self with pos := self.pos + 1 }

/-- The byte in front is not what is needed there. -/
def unexpectedError (self : Parser) : QueryError :=
  match self.peek with
  | some byte => .unexpectedChar (asChar byte) self.pos
  | none => .unexpectedEnd

/-- The parser stops at the byte which it finds. -/
def unexpected {α : Type} : Parse α := do
  let self ← get
  fail self.unexpectedError

/-- `expect`: blanks, and then this byte. -/
def expect (byte : UInt8) : Parse Unit := do
  skipWs
  let self ← get
  if self.peek = some byte then advance else unexpected

/-- `try_byte`: the byte is taken if it comes next behind blanks. -/
def tryByte (byte : UInt8) : Parse Bool := do
  skipWs
  let self ← get
  if self.peek = some byte then
    advance
    return true
  else
    return false

/-- A byte which starts a word. -/
def isLetterByte (byte : UInt8) : Bool :=
  isAsciiAlphabetic byte || byte == 95

/-- A byte which continues a word. -/
def isWordByte (byte : UInt8) : Bool :=
  isAsciiAlphanumeric byte || byte == 95

/-- `try_keyword`: the keyword is taken unless a word goes on behind it. -/
def tryKeyword (kw : Bytes) : Parse Bool := do
  skipWs
  let self ← get
  let stop := self.pos + kw.length
  if stop > self.input.length then
    return false
  else
    let found ← checked (slice self.input self.pos stop)
    if found ≠ kw then
      return false
    else if (self.input[stop]?).any isWordByte then
      return false
    else
      set { self with pos := stop }
      return true

/-- `from_utf8(&input[start..pos])`. -/
def textFrom (start : Nat) : Parse String := do
  let self ← get
  let bytes ← checked (slice self.input start self.pos)
  orFail (fromUtf8 bytes) (.unexpectedChar '?' start)

/-- `parse_quoted_string`: up to the next quotation mark, without escapes. -/
def parseQuotedString : Parse Segment := do
  advance
  let start := (← get).pos
  skipWhile (fun byte => byte != 34)
  let self ← get
  if self.pos ≥ self.input.length then
    fail .unexpectedEnd
  else
    let text ← textFrom start
    advance
    return .field text

/-- `parse_bare_word`. -/
def parseBareWord : Parse Segment := do
  let start := (← get).pos
  skipWhile isWordByte
  let text ← textFrom start
  return .field text

/--
`parse_name`: in quotation marks, or a word which starts with a letter or an
underscore.
-/
def parseName : Parse Segment := do
  skipWs
  let self ← get
  if self.peek = some 34 then parseQuotedString
  else if self.peek.any isLetterByte then parseBareWord
  else unexpected

/-- `parse_number`: decimal digits which fit into the type. -/
def parseNumber : Parse UInt64 := do
  skipWs
  let start := (← get).pos
  skipWhile isAsciiDigit
  let self ← get
  if self.pos = start then
    unexpected
  else
    let text ← textFrom start
    orFail (parseUsize (Path.strBytes text)) (.unexpectedChar '?' start)

/-! ## Lists -/

/-- Where a list ends: in front of the mark, or with the input. -/
def atEnd (terminator : UInt8) : Parse Bool := do
  skipWs
  let self ← get
  return self.peek = some terminator ∨ self.peek = none

/-- One round of a loop which collects items and skips optional commas. -/
def parseRound {α : Type} (terminator : UInt8) (item : Parse α)
    (others : Parse (List α)) : Parse (List α) := do
  if ← atEnd terminator then
    return []
  else
    let first ← item
    let _ ← tryByte 44
    return first :: (← others)

/-- An optional list between two marks. -/
def parseBlock {α : Type} (opening closing : UInt8)
    (body : Parse (List α)) : Parse (List α) := do
  if ← tryByte opening then
    let items ← body
    expect closing
    return items
  else
    return []

/-! ## Filters -/

/-- The run of letters in front. -/
def parseKeyword : Parse String := do
  skipWs
  let start := (← get).pos
  skipWhile isLetterByte
  textFrom start

/-- `parse_filter`: the position of an unknown keyword is where it starts. -/
def parseFilter : Parse Filter := do
  let kwPos := (← get).pos
  let kw ← parseKeyword
  expect 58
  if kw = "skip" then
    return .skip (← parseNumber)
  else if kw = "take" then
    return .take (← parseNumber)
  else if kw = "after" then
    return .after (← parseName)
  else if kw = "before" then
    return .before (← parseName)
  else
    fail (.unknownFilter kw kwPos)

/-- The loop of `parse_filters`. -/
def parseFilters : (rounds : Nat) → Parse (List Filter)
  | 0 => throw (.panic .unfinished)
  | rounds + 1 => parseRound 41 parseFilter (parseFilters rounds)

/-! ## Selects -/

/-- `parse_alias`: a name behind `as`. -/
def parseAlias : Parse (Option Segment) := do
  if ← tryKeyword [97, 115] then
    return some (← parseName)
  else
    return none

/-- The body of `parse_select`, over the parser of the selects below. -/
def parseSelect (parseSubselects : Parse (List Select)) : Parse Select := do
  let name ← parseName
  let aliasName ← parseAlias
  let filters ← parseBlock 40 41 do
    parseFilters ((← get).input.length + 1)
  let subselects ← parseBlock 123 125 parseSubselects
  return { name, aliasName, filters, subselects }

/-- The loop of `parse_selects`. -/
def parseSelects (terminator : UInt8) : (rounds : Nat) → Parse (List Select)
  | 0 => throw (.panic .unfinished)
  | rounds + 1 =>
      parseRound terminator (parseSelect (parseSelects terminator rounds))
        (parseSelects terminator rounds)

/-- Nothing but whitespace is left. -/
def parseEnd (selects : List Select) : Parse Query := do
  skipWs
  let self ← get
  if self.pos ≠ self.input.length then
    let byte ← checked (index self.input self.pos)
    fail (.unexpectedChar (asChar byte) self.pos)
  else
    return ⟨selects⟩

/-- `parse_query`: fields in braces, and nothing behind them. -/
def parseQuery : Parse Query := do
  expect 123
  let selects ← parseSelects 125 ((← get).input.length + 1)
  expect 125
  parseEnd selects

end Parser

/-- `Query::parse`. -/
def parse (query : String) : Checked (Except QueryError Query) :=
  match Parser.parseQuery (Parser.new query) with
  | .ok parsed _ => .ok (.ok parsed)
  | .error (.error error) _ => .ok (.error error)
  | .error (.panic panic) _ => .error panic

end Query

end Cdoc
