import Cdoc.Query.Tokens

/-!
# The parser reads the grammar

The functions of the parser are composed from the tokens.  What follows an
optional part tells whether the part is there: a list ends in front of its
closing mark, a field is followed by a comma, by the next name or by the end
of its block.  The rounds of the loops are bounded by the text which is left.
-/

namespace Cdoc.Query.Parser

open Cdoc.Foundation
open Grammar

/-! ## Lists -/

section Lists

variable {α : Type} {ready : List Char → Prop}

/-- A list is followed by its closing mark. -/
theorem reads_closed {closing : Char} (narrow : closing.toNat < 128)
    {body : Parse (List α)}
    {inside : List Char → List α → List Char → Prop}
    (readsBody : Reads Before ready body inside (Starts closing)) :
    Reads Before ready
      (do let items ← body; expect (UInt8.ofNat closing.toNat); return items)
      (fun text items rest => ∃ stop, inside text items stop ∧
        Mark closing stop rest) (fun _ => True) := by
  refine readsBody.bind
    (fun items => (reads_expect narrow).map fun _ => items)
    (fun _ _ _ _ _ => trivial) ?_ ?_
  · rintro text _ stop items rest read ⟨_, closes, rfl⟩
    exact ⟨stop, read, closes⟩
  · rintro text items rest ⟨stop, read, closes⟩ -
    exact ⟨items, stop, read, starts_iff.mpr ⟨rest, closes⟩, (),
      closes, rfl⟩

/-- A list between two marks is left out where its first mark is missing. -/
theorem reads_parseBlock {opening closing : Char}
    (narrowOpening : opening.toNat < 128)
    (narrowClosing : closing.toNat < 128) {body : Parse (List α)}
    {inside : List Char → List α → List Char → Prop}
    {readyInside : List Char → Prop}
    (readsBody : Reads Before readyInside body inside (Starts closing))
    (enters : ∀ text start, ready text → Mark opening text start →
      readyInside start) :
    Reads Before ready
      (parseBlock (UInt8.ofNat opening.toNat) (UInt8.ofNat closing.toNat)
        body)
      (Block opening closing inside)
      (fun rest => ¬ Starts opening rest) := by
  have readsInside := reads_closed narrowClosing readsBody
  have readsNext : ∀ found : Bool, Reads Before
      (fun middle => found = true → readyInside middle)
      (if found = true then (do
          let items ← body
          expect (UInt8.ofNat closing.toNat)
          return items)
        else return [])
      _ (fun rest => ¬ Starts opening rest) :=
    fun found => Reads.ite
      (fun holds => readsInside.restrict (fun _ start => start holds)
        (fun _ _ => trivial))
      (fun _ => reads_pure _ [])
  refine ((reads_tryByte narrowOpening).restrict (fun _ _ => trivial)
    (fun _ follows => follows)).bind readsNext ?_ ?_ ?_
  · rintro text found middle start marked rfl
    exact enters text middle start marked
  · intro text found middle items rest marked read
    cases found with
    | true =>
        obtain ⟨stop, read, closes⟩ := read
        exact .present marked read closes
    | false =>
        obtain ⟨rfl, rfl⟩ := read
        obtain ⟨rfl, -⟩ := marked
        exact .absent
  · intro text items rest block proper
    cases block with
    | absent =>
        refine ⟨false, text, ⟨rfl, ?_⟩, trivial, rfl, rfl⟩
        intro after marked
        exact proper (starts_iff.mpr ⟨after, marked⟩)
    | present opens read closes =>
        exact ⟨true, _, opens, trivial, _, read, closes⟩

theorem comma_of_found {text rest : List Char} {found : Bool}
    (read : Found (Mark ',') text found rest) : Comma text rest := by
  cases found with
  | true => exact Or.inr read
  | false => exact Or.inl read.1

/-- What one round of a loop reads. -/
def Round (one : List Char → α → List Char → Prop)
    (many : List Char → List α → List Char → Prop) (text : List Char)
    (items : List α) (rest : List Char) : Prop :=
  items = [] ∧ rest = text ∨
    ∃ first others middle next, items = first :: others ∧
      one text first middle ∧ Comma middle next ∧ many next others rest

section Rounds

variable {mark : Char} {item : Parse α} {others : Parse (List α)}
variable {one : List Char → α → List Char → Prop}
variable {many : List Char → List α → List Char → Prop}
variable {follow readyOthers : List Char → Prop}

/-- A comma may stand in front of the other items. -/
theorem reads_separated
    (readsOthers : Reads Before readyOthers others many (Starts mark))
    (continues : ∀ text items rest, many text items rest →
      Starts mark rest → ¬ Starts ',' text) (first : α) :
    Reads Before
      (fun middle => ∀ next, Comma middle next → readyOthers next)
      (do let _ ← tryByte 44; return first :: (← others))
      (fun middle items rest => ∃ others next, items = first :: others ∧
        Comma middle next ∧ many next others rest) (Starts mark) := by
  refine ((reads_tryByte (by decide : ','.toNat < 128)).restrict
    (fun _ _ => trivial) (fun _ follows => follows)).bind
    (fun found => readsOthers.map fun others => first :: others) ?_ ?_ ?_
  · intro middle found next start read
    exact start next (comma_of_found read)
  · rintro middle found next items rest read ⟨others, many, rfl⟩
    exact ⟨others, next, rfl, comma_of_found read, many⟩
  · rintro middle items rest ⟨others, next, rfl, comma, many⟩ closes
    rcases comma with rfl | marked
    · have absent := continues next others rest many closes
      refine ⟨false, next, ⟨rfl, ?_⟩, trivial, others, many, rfl⟩
      intro after marked
      exact absent (starts_iff.mpr ⟨after, marked⟩)
    · exact ⟨true, next, marked, trivial, others, many, rfl⟩

/-- One item and the others behind it. -/
theorem reads_itemAndOthers
    (readsItem : Reads Before ready item one follow)
    (readsOthers : Reads Before readyOthers others many (Starts mark))
    (shorter : ∀ text first middle next, ready text →
      one text first middle → Comma middle next → readyOthers next)
    (separates : ∀ text, Starts ',' text → follow text)
    (continues : ∀ text items rest, many text items rest →
      Starts mark rest → follow text ∧ ¬ Starts ',' text) :
    Reads Before ready
      (do
        let first ← item
        let _ ← tryByte 44
        return first :: (← others))
      (fun text items rest => ∃ first others middle next,
        items = first :: others ∧ one text first middle ∧
          Comma middle next ∧ many next others rest) (Starts mark) := by
  have absent : ∀ text items rest, many text items rest →
      Starts mark rest → ¬ Starts ',' text :=
    fun text items rest read closes =>
      (continues text items rest read closes).2
  refine readsItem.bind (reads_separated readsOthers absent) ?_ ?_ ?_
  · intro text first middle start read next comma
    exact shorter text first middle next start read comma
  · rintro text first middle items rest read
      ⟨others, next, rfl, comma, many⟩
    exact ⟨first, others, middle, next, rfl, read, comma, many⟩
  · rintro text items rest
      ⟨first, others, middle, next, rfl, read, comma, many⟩ closes
    refine ⟨first, middle, read, ?_, others, next, rfl, comma, many⟩
    rcases comma with rfl | marked
    · exact (continues next others rest many closes).1
    · exact separates middle (starts_iff.mpr ⟨next, marked⟩)

/-- A loop goes on until it sees the mark. -/
theorem reads_parseRound (narrow : mark.toNat < 128)
    (readsItem : Reads Before ready item one follow)
    (readsOthers : Reads Before readyOthers others many (Starts mark))
    (shorter : ∀ text first middle next, ready text →
      one text first middle → Comma middle next → readyOthers next)
    (begins : ∀ text first middle, one text first middle →
      text ≠ [] ∧ ¬ Starts mark text)
    (separates : ∀ text, Starts ',' text → follow text)
    (continues : ∀ text items rest, many text items rest →
      Starts mark rest → follow text ∧ ¬ Starts ',' text) :
    Reads Before ready (parseRound (UInt8.ofNat mark.toNat) item others)
      (Round one many) (Starts mark) := by
  have readsRound := reads_itemAndOthers readsItem readsOthers shorter
    separates continues
  refine ((reads_atEnd narrow).restrict (fun _ _ => trivial)
    (fun _ follows => follows)).bind
    (fun ended => Reads.ite (fun _ => reads_pure ready [])
      (fun _ => readsRound)) ?_ ?_ ?_
  · rintro text ended middle start ⟨rfl, -⟩
    exact start
  · rintro text ended middle items rest ⟨rfl, -⟩ read
    split at read
    · exact Or.inl read
    · exact Or.inr read
  · rintro text items rest (⟨rfl, rfl⟩ | read) closes
    · exact ⟨true, rest, ⟨rfl, iff_of_true rfl (Or.inl closes)⟩, trivial,
        rfl, rfl⟩
    · obtain ⟨first, others, middle, next, shape, readFirst, more⟩ := read
      obtain ⟨nonempty, notMark⟩ := begins text first middle readFirst
      refine ⟨false, text, ⟨rfl, ?_⟩, trivial,
        first, others, middle, next, shape, readFirst, more⟩
      refine iff_of_false Bool.false_ne_true ?_
      rintro (isMark | empty)
      · exact notMark isMark
      · exact nonempty empty

end Rounds

end Lists

/-! ## Filters -/

theorem reads_fail {α : Type} {ready follow : List Char → Prop}
    (error : QueryError) :
    Reads Before ready (fail error : Parse α) (fun _ _ _ => False)
      follow := by
  intro self text _ _ value rest impossible
  cases impossible

/-- The value which a keyword asks for. -/
def Value (kw : String) (text : List Char) (filter : Filter)
    (rest : List Char) : Prop :=
  if kw = "skip" then ∃ count, Number text count rest ∧ filter = .skip count
  else if kw = "take" then
    ∃ count, Number text count rest ∧ filter = .take count
  else if kw = "after" then
    ∃ cursor, Name text cursor rest ∧ filter = .after cursor
  else if kw = "before" then
    ∃ cursor, Name text cursor rest ∧ filter = .before cursor
  else False

theorem value_of_pagination {text : List Char} {filter : Filter}
    {rest : List Char} (page : Pagination text filter rest) :
    ∃ kw middle value, kw.toList.all isWordStart = true ∧
      Keyword kw text middle ∧ Mark ':' middle value ∧
      Value kw value filter rest := by
  cases page with
  | skip keyword colon number =>
      exact ⟨_, _, _, by decide, keyword, colon, _, number, rfl⟩
  | take keyword colon number =>
      exact ⟨_, _, _, by decide, keyword, colon, _, number, rfl⟩
  | after keyword colon name =>
      exact ⟨_, _, _, by decide, keyword, colon, _, name, rfl⟩
  | before keyword colon name =>
      exact ⟨_, _, _, by decide, keyword, colon, _, name, rfl⟩

theorem pagination_of_value {kw : String}
    {text middle value rest : List Char} {filter : Filter}
    (keyword : Keyword kw text middle) (colon : Mark ':' middle value)
    (read : Value kw value filter rest) : Pagination text filter rest := by
  unfold Value at read
  split_ifs at read with skip take after before
  · obtain ⟨count, number, rfl⟩ := read
    exact .skip (skip ▸ keyword) colon number
  · obtain ⟨count, number, rfl⟩ := read
    exact .take (take ▸ keyword) colon number
  · obtain ⟨cursor, name, rfl⟩ := read
    exact .after (after ▸ keyword) colon name
  · obtain ⟨cursor, name, rfl⟩ := read
    exact .before (before ▸ keyword) colon name

theorem keyword_of_letters {kw : String} {text middle value : List Char}
    (letters : Letters text kw middle) (colon : Mark ':' middle value) :
    Keyword kw text middle := by
  obtain ⟨rfl, rfl⟩ := letters
  refine ⟨text.dropWhile isWordStart, ?_, ends_of_mark rfl colon, rfl⟩
  rw [String.toList_ofList, List.takeWhile_append_dropWhile]

theorem letters_of_keyword {kw : String}
    (isLetters : kw.toList.all isWordStart = true)
    {text middle : List Char} (keyword : Keyword kw text middle) :
    Letters text kw middle := by
  obtain ⟨after, spelled, ends, rfl⟩ := keyword
  have stops : Ends isWordStart after := by
    cases after with
    | nil => rfl
    | cons char after =>
        exact Bool.eq_false_iff.mpr fun start =>
          Bool.eq_false_iff.mp ends (isWordChar_of_isWordStart start)
  obtain ⟨run, rfl⟩ := munch_iff.mp
    ⟨spelled, List.all_eq_true.mp isLetters, stops⟩
  exact ⟨by rw [← run, String.ofList_toList], rfl⟩

theorem reads_parseFilter :
    Reads Before (fun _ => True) parseFilter Pagination
      (fun _ => True) := by
  refine Reads.get ?_
  intro self text before _
  have readsValue : ∀ kw, Reads Before (fun _ => True)
      (if kw = "skip" then (return .skip (← parseNumber))
        else if kw = "take" then (return .take (← parseNumber))
        else if kw = "after" then (return .after (← parseName))
        else if kw = "before" then (return .before (← parseName))
        else fail (.unknownFilter kw self.pos)) (Value kw)
      (fun _ => True) :=
    fun kw => Reads.ite (fun _ => reads_parseNumber.map Filter.skip)
      fun _ => Reads.ite (fun _ => reads_parseNumber.map Filter.take)
      fun _ => Reads.ite (fun _ => reads_parseName.map Filter.after)
      fun _ => Reads.ite (fun _ => reads_parseName.map Filter.before)
      fun _ => reads_fail _
  have readsColon : ∀ kw, Reads Before (fun _ => True) _
      (fun middle filter rest => ∃ value, Mark ':' middle value ∧
        Value kw value filter rest) (fun _ => True) :=
    fun kw => (reads_expect (by decide : ':'.toNat < 128)).bind
      (fun _ => readsValue kw) (fun _ _ _ _ _ => trivial)
      (fun _ _ value _ _ colon read => ⟨value, colon, read⟩)
      (fun _ _ _ ⟨value, colon, read⟩ _ =>
        ⟨(), value, colon, trivial, read⟩)
  refine reads_parseKeyword.bind readsColon (fun _ _ _ _ _ => trivial) ?_
    ?_ self text before trivial
  · rintro text kw middle filter rest letters ⟨value, colon, read⟩
    exact pagination_of_value (keyword_of_letters letters colon) colon read
  · intro text filter rest page _
    obtain ⟨kw, middle, value, isLetters, keyword, colon, read⟩ :=
      value_of_pagination page
    exact ⟨kw, middle, letters_of_keyword isLetters keyword, trivial,
      value, colon, read⟩

theorem filters_iff_round {text rest : List Char} {filters : List Filter} :
    Filters text filters rest ↔
      Round Pagination Filters text filters rest := by
  constructor
  · rintro (_ | ⟨first, comma, others⟩)
    · exact Or.inl ⟨rfl, rfl⟩
    · exact Or.inr ⟨_, _, _, _, rfl, first, comma, others⟩
  · rintro (⟨rfl, rfl⟩ | ⟨_, _, _, _, rfl, first, comma, others⟩)
    · exact .nil
    · exact .cons first comma others

theorem reads_parseFilters (rounds : Nat) :
    Reads Before (fun text => text.length < rounds) (parseFilters rounds)
      Filters (Starts ')') := by
  induction rounds with
  | zero =>
      intro self text _ impossible
      exact absurd impossible (Nat.not_lt_zero _)
  | succ rounds induction =>
      have reads := reads_parseRound (by decide : ')'.toNat < 128)
        (reads_parseFilter.restrict
          (fun text (_ : text.length < rounds + 1) => trivial)
          (fun _ follows => follows)) induction ?_ ?_ ?_ ?_
      · exact reads.weaken (fun _ start => start)
          (fun _ _ _ read => filters_iff_round.mpr read)
          (fun _ _ _ read closes => ⟨filters_iff_round.mp read, closes⟩)
      · intro text first middle next short read comma
        exact comma.length_le.trans_lt
          (read.length_lt.trans_le (Nat.le_of_lt_succ short))
      · intro text first middle read
        obtain ⟨char, after, rfl, start⟩ := read.head
        exact ⟨List.cons_ne_nil _ _, not_starts_of_isWordStart start rfl⟩
      · exact fun _ _ => trivial
      · intro text filters rest read closes
        exact ⟨trivial, read.not_starts rfl (by decide) closes⟩

/-! ## Selects -/

theorem length_le_utf8 (text : List Char) :
    text.length ≤ (utf8 text).length := by
  induction text with
  | nil => exact le_rfl
  | cons char text induction =>
      have nonempty := List.length_pos_of_ne_nil
        (String.utf8EncodeChar_ne_nil (c := char))
      rw [utf8_cons, List.length_append, List.length_cons]
      omega

/-- The input bounds the text in front of the parser. -/
theorem Before.length_le {self : Parser} {text : List Char}
    (before : self.Before text) : text.length ≤ self.input.length := by
  obtain ⟨ahead, stands, rfl⟩ := before
  have total := congrArg List.length stands.ahead
  have bytes := length_le_utf8 ahead
  have stripped := length_skipBlanks_le ahead
  rw [List.length_drop] at total
  omega

theorem reads_parseAlias :
    Reads Before (fun _ => True) parseAlias Alias (fun _ => True) := by
  have readsAs := reads_tryKeyword
    (by decide : "as".toList.all (fun char => char.toNat < 128) = true)
  rw [show utf8 "as".toList = [97, 115] by decide] at readsAs
  refine readsAs.bind
    (fun found => Reads.ite (fun _ => reads_parseName.map some)
      (fun _ => reads_pure _ none)) (fun _ _ _ _ _ => trivial) ?_ ?_
  · intro text found middle aliasName rest keyword read
    cases found with
    | true =>
        obtain ⟨segment, name, rfl⟩ := read
        exact .present keyword name
    | false =>
        obtain ⟨rfl, rfl⟩ := read
        obtain ⟨rfl, absent⟩ := keyword
        exact .absent absent
  · intro text aliasName rest read _
    cases read with
    | absent noKeyword =>
        exact ⟨false, text, ⟨rfl, noKeyword⟩, trivial, rfl, rfl⟩
    | present keyword name =>
        exact ⟨true, _, keyword, trivial, _, name, rfl⟩

/-- The filters of a field. -/
theorem reads_filterBlock {ready : List Char → Prop} :
    Reads Before ready
      (parseBlock 40 41 do parseFilters ((← get).input.length + 1))
      (Block '(' ')' Filters) (fun rest => ¬ Starts '(' rest) := by
  have readsFilters : Reads Before (fun _ => True)
      (do parseFilters ((← get).input.length + 1)) Filters
      (Starts ')') := by
    refine Reads.get ?_
    intro self text before _
    exact reads_parseFilters _ self text before
      (Nat.lt_succ_of_le before.length_le)
  exact reads_parseBlock (by decide : '('.toNat < 128)
    (by decide : ')'.toNat < 128) readsFilters (fun _ _ _ _ => trivial)

/-- What may follow a field. -/
def FollowsSelect (rest : List Char) : Prop :=
  ¬ Starts '(' rest ∧ ¬ Starts '{' rest

section Selects

variable {subselects : Parse (List Select)} {size : Nat}

/-- The fields below a field. -/
theorem reads_subselectBlock
    (readsSubselects : Reads Before (fun text => text.length < size)
      subselects Items (Starts '}')) :
    Reads Before (fun text => text.length < size)
      (parseBlock 123 125 subselects) Subselects
      (fun rest => ¬ Starts '{' rest) := by
  refine (reads_parseBlock (by decide : '{'.toNat < 128)
    (by decide : '}'.toNat < 128) readsSubselects
    (fun _ _ start opens => opens.length_lt.trans start)).weaken
    (fun _ start => start) ?_ ?_
  · rintro text selects rest (_ | ⟨opens, inside, closes⟩)
    · exact .absent
    · exact .present opens inside closes
  · rintro text selects rest (_ | ⟨opens, inside, closes⟩) proper
    · exact ⟨.absent, proper⟩
    · exact ⟨.present opens inside closes, proper⟩

/-- A field from its filters on. -/
theorem reads_filtersOn
    (readsSubselects : Reads Before (fun text => text.length < size)
      subselects Items (Starts '}'))
    (name : Segment) (aliasName : Option Segment) :
    Reads Before (fun text => text.length < size)
      (do
        let filters ← parseBlock 40 41 do
          parseFilters ((← get).input.length + 1)
        let subselects ← parseBlock 123 125 subselects
        return { name, aliasName, filters, subselects })
      (fun text (select : Select) rest => ∃ filtered,
        Block '(' ')' Filters text select.filters filtered ∧
          Subselects filtered select.subselects rest ∧
          select.name = name ∧ select.aliasName = aliasName)
      FollowsSelect := by
  have readsBlock := (reads_subselectBlock readsSubselects).restrict
    (fun _ start => start)
    (fun rest (proper : FollowsSelect rest) => proper.2)
  refine reads_filterBlock.bind
    (fun filters => readsBlock.map fun subselects : List Select =>
      (⟨name, aliasName, filters, subselects⟩ : Select)) ?_ ?_ ?_
  · intro text filters filtered start block
    exact (block.length_le Filters.length_le).trans_lt start
  · rintro text filters filtered select rest block ⟨selects, below, rfl⟩
    exact ⟨filtered, block, below, rfl, rfl⟩
  · rintro text ⟨_, _, filters, selects⟩ rest
      ⟨filtered, block, below, rfl, rfl⟩ proper
    exact ⟨filters, filtered, block, below.not_starts proper.1, selects,
      below, rfl⟩

/-- A field from its alias on. -/
theorem reads_aliasOn
    (readsSubselects : Reads Before (fun text => text.length < size)
      subselects Items (Starts '}')) (name : Segment) :
    Reads Before (fun text => text.length < size)
      (do
        let aliasName ← parseAlias
        let filters ← parseBlock 40 41 do
          parseFilters ((← get).input.length + 1)
        let subselects ← parseBlock 123 125 subselects
        return { name, aliasName, filters, subselects })
      (fun text (select : Select) rest => ∃ aliased filtered,
        Alias text select.aliasName aliased ∧
          Block '(' ')' Filters aliased select.filters filtered ∧
          Subselects filtered select.subselects rest ∧
          select.name = name)
      FollowsSelect := by
  refine (reads_parseAlias.restrict (fun _ _ => trivial)
    (fun _ follows => follows)).bind
    (reads_filtersOn readsSubselects name) ?_ ?_ ?_
  · intro text aliasName aliased start read
    exact read.length_le.trans_lt start
  · rintro text aliasName aliased select rest read
      ⟨filtered, block, below, named, rfl⟩
    exact ⟨aliased, filtered, read, block, below, named⟩
  · rintro text select rest
      ⟨aliased, filtered, read, block, below, named⟩ _
    exact ⟨select.aliasName, aliased, read, trivial, filtered, block,
      below, named, rfl⟩

theorem reads_parseSelect
    (readsSubselects : Reads Before (fun text => text.length < size)
      subselects Items (Starts '}')) :
    Reads Before (fun text => text.length < size + 1)
      (parseSelect subselects) Selection FollowsSelect := by
  refine (reads_parseName.restrict (fun _ _ => trivial)
    (fun _ follows => follows)).bind
    (reads_aliasOn readsSubselects) ?_ ?_ ?_
  · intro text name named start read
    exact Nat.lt_of_lt_of_le read.length_lt (Nat.le_of_lt_succ start)
  · rintro text name named select rest read
      ⟨aliased, filtered, readAlias, block, below, rfl⟩
    exact .intro read readAlias block below
  · rintro text select rest ⟨read, readAlias, block, below⟩ _
    exact ⟨select.name, _, read, trivial, _, _, readAlias, block, below,
      rfl⟩

end Selects

theorem items_iff_round {text rest : List Char} {selects : List Select} :
    Items text selects rest ↔
      Round Selection Items text selects rest := by
  constructor
  · rintro (_ | ⟨first, comma, others⟩)
    · exact Or.inl ⟨rfl, rfl⟩
    · exact Or.inr ⟨_, _, _, _, rfl, first, comma, others⟩
  · rintro (⟨rfl, rfl⟩ | ⟨_, _, _, _, rfl, first, comma, others⟩)
    · exact .nil
    · exact .cons first comma others

theorem reads_parseSelects (rounds : Nat) :
    Reads Before (fun text => text.length < rounds)
      (parseSelects 125 rounds) Items (Starts '}') := by
  induction rounds with
  | zero =>
      intro self text _ impossible
      exact absurd impossible (Nat.not_lt_zero _)
  | succ rounds induction =>
      have reads := reads_parseRound (by decide : '}'.toNat < 128)
        (reads_parseSelect induction) induction ?_ ?_ ?_ ?_
      · exact reads.weaken (fun _ start => start)
          (fun _ _ _ read => items_iff_round.mpr read)
          (fun _ _ _ read closes => ⟨items_iff_round.mp read, closes⟩)
      · intro text first middle next short read comma
        exact comma.length_le.trans_lt
          (read.length_lt.trans_le (Nat.le_of_lt_succ short))
      · intro text first middle read
        refine ⟨?_, read.not_starts rfl (by decide)⟩
        obtain ⟨char, after, rfl, -⟩ := read.head
        exact List.cons_ne_nil _ _
      · intro text starts
        constructor
        · intro other
          exact absurd (starts.symm.trans other) (by decide)
        · intro other
          exact absurd (starts.symm.trans other) (by decide)
      · intro text selects rest read closes
        exact ⟨⟨read.not_starts rfl (by decide) (by decide) closes,
          read.not_starts rfl (by decide) (by decide) closes⟩,
          read.not_starts rfl (by decide) (by decide) closes⟩

/-! ## Queries -/

theorem reads_parseEnd (selects : List Select) :
    Reads Before (fun _ => True) (parseEnd selects)
      (fun text query rest => text = [] ∧ rest = [] ∧
        query = ⟨selects⟩) (fun _ => True) := by
  refine reads_of_skipWs ?_
  intro self text stands stripped _
  have bounded := stands.bounded
  show Decides Before ((if self.pos ≠ self.input.length then _ else _ :
    Parse Query) self) _ _
  split
  · rename_i more
    have inside : self.pos < self.input.length := by omega
    have read : index self.input self.pos = .ok self.input[self.pos] := by
      simp [index, inside]
    show Decides Before (EStateM.bind (checked _) _ self) _ _
    rw [read]
    rintro query rest ⟨rfl, -⟩ _
    exact absurd (stands.ended_iff.mpr rfl) (Nat.not_le.mpr inside)
  · rename_i ended
    have empty : text = [] := stands.ended_iff.mp (by omega)
    refine ⟨text, ⟨text, stands, stripped⟩, ⟨empty, empty, rfl⟩, ?_⟩
    rintro query rest ⟨-, rfl, rfl⟩ _
    exact ⟨rfl, empty.symm⟩

theorem reads_parseQuery :
    Reads Before (fun _ => True) parseQuery
      (fun text query rest => ∃ start stop, Mark '{' text start ∧
        Items start query.selects stop ∧ Mark '}' stop [] ∧ rest = [])
      (fun _ => True) := by
  have readsClosing : ∀ selects, Reads Before (fun _ => True)
      (do expect 125; parseEnd selects)
      (fun text query rest => Mark '}' text [] ∧ rest = [] ∧
        query = (⟨selects⟩ : Query)) (fun _ => True) := by
    intro selects
    refine (reads_expect (by decide : '}'.toNat < 128)).bind
      (fun _ => reads_parseEnd selects) (fun _ _ _ _ _ => trivial) ?_ ?_
    · rintro text _ stop query rest closes ⟨rfl, rfl, rfl⟩
      exact ⟨closes, rfl, rfl⟩
    · rintro text query rest ⟨closes, rfl, rfl⟩ _
      exact ⟨(), [], closes, trivial, rfl, rfl, rfl⟩
  have readsItems : ∀ rounds, Reads Before
      (fun text => text.length < rounds)
      (do
        let selects ← parseSelects 125 rounds
        expect 125
        parseEnd selects)
      (fun text (query : Query) rest => ∃ stop,
        Items text query.selects stop ∧ Mark '}' stop [] ∧ rest = [])
      (fun _ => True) := by
    intro rounds
    refine (reads_parseSelects rounds).bind readsClosing
      (fun _ _ _ _ _ => trivial) ?_ ?_
    · rintro text selects stop query rest items ⟨closes, rfl, rfl⟩
      exact ⟨stop, items, closes, rfl⟩
    · rintro text query rest ⟨stop, items, closes, rfl⟩ _
      exact ⟨query.selects, stop, items, starts_iff.mpr ⟨[], closes⟩,
        closes, rfl, rfl⟩
  have readsInside : Reads Before (fun _ => True)
      (do
        let selects ← parseSelects 125 ((← get).input.length + 1)
        expect 125
        parseEnd selects)
      (fun text (query : Query) rest => ∃ stop,
        Items text query.selects stop ∧ Mark '}' stop [] ∧ rest = [])
      (fun _ => True) :=
    Reads.get fun self text before _ => readsItems
      (self.input.length + 1) self text before
      (Nat.lt_succ_of_le before.length_le)
  refine (reads_expect (by decide : '{'.toNat < 128)).bind
    (fun _ => readsInside) (fun _ _ _ _ _ => trivial) ?_ ?_
  · rintro text _ start query rest opens ⟨stop, items, closes, rfl⟩
    exact ⟨start, stop, opens, items, closes, rfl⟩
  · rintro text query rest ⟨start, stop, opens, items, closes, rfl⟩ _
    exact ⟨(), start, opens, trivial, stop, items, closes, rfl⟩

theorem new_before (text : String) :
    (Parser.new text).Before (skipBlanks text.toList) := by
  refine ⟨text.toList, ⟨Nat.zero_le _, ?_⟩, rfl⟩
  show Path.strBytes text = _
  rw [Path.strBytes, toByteArray_eq_utf8]

end Cdoc.Query.Parser

namespace Cdoc.Query

open Cdoc.Foundation
open Grammar

/-- The parser returns the query from each of its renderings. -/
theorem parse_of_renders {text : String} {query : Query}
    (renders : Renders text query) : parse text = .ok (.ok query) := by
  obtain ⟨start, stop, opens, items, closes⟩ := renders
  have decides := Parser.reads_parseQuery _ _ (Parser.new_before text)
    trivial
  have denoted : ∃ start stop, Mark '{' (skipBlanks text.toList) start ∧
      Items start query.selects stop ∧ Mark '}' stop [] ∧
        ([] : List Char) = [] :=
    ⟨start, stop, opens, items, closes, rfl⟩
  unfold parse
  cases run : Parser.parseQuery (Parser.new text) with
  | ok parsed final =>
      rw [run] at decides
      obtain ⟨rest, -, -, unique⟩ := decides
      rw [(unique query [] denoted trivial).1]
  | error failure final =>
      rw [run] at decides
      cases failure with
      | panic failure => exact decides.elim
      | error failure => exact absurd trivial (decides query [] denoted)

/-- What the parser returns has been read from a rendering. -/
theorem renders_of_parse {text : String} {query : Query}
    (returned : parse text = .ok (.ok query)) : Renders text query := by
  have decides := Parser.reads_parseQuery _ _ (Parser.new_before text)
    trivial
  unfold parse at returned
  cases run : Parser.parseQuery (Parser.new text) with
  | ok parsed final =>
      rw [run] at decides returned
      cases returned
      obtain ⟨rest, -, ⟨start, stop, opens, items, closes, -⟩, -⟩ := decides
      exact ⟨start, stop, opens, items, closes⟩
  | error failure final =>
      rw [run] at returned
      cases failure with
      | panic failure => cases returned
      | error failure => cases returned

/-- The parser returns a query exactly for its renderings. -/
theorem parse_eq_ok_iff (text : String) (query : Query) :
    Query.parse text = .ok (.ok query) ↔ Renders text query :=
  ⟨renders_of_parse, parse_of_renders⟩

end Cdoc.Query
