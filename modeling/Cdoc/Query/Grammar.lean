import Cdoc.Query.Parse
import Mathlib.Data.List.DropRight
import Mathlib.Data.List.TakeWhile

/-!
# The grammar of queries

The texts which denote a query.  Every relation is between a text, what its
beginning denotes and the rest of the text.  A token takes the whitespace
behind it along, so that a rest starts with the next token.

Words, keywords and numbers extend as far as possible.  The word `as` behind
the name of a field is always the keyword.  Nothing else in the grammar
depends on the context.
-/

namespace Cdoc.Query.Grammar

/-! ## Characters -/

/-- ASCII whitespace. -/
def isBlank (char : Char) : Bool :=
  char == ' ' || char == '\t' || char == '\n' || char == '\x0c' ||
    char == '\r'

/-- An ASCII letter or an underscore. -/
def isWordStart (char : Char) : Bool :=
  char.isAlpha || char == '_'

/-- An ASCII letter, a digit or an underscore. -/
def isWordChar (char : Char) : Bool :=
  char.isAlphanum || char == '_'

/-- The text behind the blanks at its beginning. -/
def skipBlanks (text : List Char) : List Char :=
  text.dropWhile isBlank

/-- A run of characters cannot be extended into this text. -/
def Ends (test : Char → Bool) (after : List Char) : Prop :=
  after.head?.any test = false

/-- The number which digits denote. -/
def decimal (digits : List Char) : Nat :=
  digits.foldl (fun number digit => number * 10 + (digit.toNat - 48)) 0

/-! ## Tokens -/

/-- A punctuation mark. -/
def Mark (mark : Char) (text rest : List Char) : Prop :=
  ∃ after, text = mark :: after ∧ rest = skipBlanks after

/-- A keyword, which no character of a word follows. -/
def Keyword (keyword : String) (text rest : List Char) : Prop :=
  ∃ after, text = keyword.toList ++ after ∧ Ends isWordChar after ∧
    rest = skipBlanks after

/-- A name in quotes, or a bare word. -/
inductive Name (text : List Char) : Segment → List Char → Prop where
  | quoted (name after : List Char)
      (spelled : text = '"' :: (name ++ '"' :: after))
      (quoteFree : '"' ∉ name) :
      Name text (.field (String.ofList name)) (skipBlanks after)
  | bare (first : Char) (others after : List Char)
      (spelled : text = first :: (others ++ after))
      (start : isWordStart first = true)
      (word : ∀ char ∈ others, isWordChar char = true)
      (ends : Ends isWordChar after) :
      Name text (.field (String.ofList (first :: others)))
        (skipBlanks after)

/-- Digits whose number is a size. -/
def Number (text : List Char) (number : UInt64) (rest : List Char) :
    Prop :=
  ∃ digits after, text = digits ++ after ∧ digits ≠ [] ∧
    (∀ digit ∈ digits, digit.isDigit = true) ∧ Ends Char.isDigit after ∧
    decimal digits = number.toNat ∧ rest = skipBlanks after

/-- An optional comma. -/
def Comma (text rest : List Char) : Prop :=
  rest = text ∨ Mark ',' text rest

/-! ## Filters -/

/-- A filter: its keyword, a colon and its value. -/
inductive Pagination (text : List Char) : Filter → List Char → Prop where
  | skip {middle value rest : List Char} {count : UInt64}
      (keyword : Keyword "skip" text middle) (colon : Mark ':' middle value)
      (number : Number value count rest) :
      Pagination text (.skip count) rest
  | take {middle value rest : List Char} {count : UInt64}
      (keyword : Keyword "take" text middle) (colon : Mark ':' middle value)
      (number : Number value count rest) :
      Pagination text (.take count) rest
  | after {middle value rest : List Char} {cursor : Segment}
      (keyword : Keyword "after" text middle)
      (colon : Mark ':' middle value) (name : Name value cursor rest) :
      Pagination text (.after cursor) rest
  | before {middle value rest : List Char} {cursor : Segment}
      (keyword : Keyword "before" text middle)
      (colon : Mark ':' middle value) (name : Name value cursor rest) :
      Pagination text (.before cursor) rest

/-- Filters in a row, with or without commas between and behind them. -/
inductive Filters : List Char → List Filter → List Char → Prop where
  | nil {text : List Char} : Filters text [] text
  | cons {text middle next rest : List Char} {filter : Filter}
      {filters : List Filter} (first : Pagination text filter middle)
      (comma : Comma middle next) (others : Filters next filters rest) :
      Filters text (filter :: filters) rest

/-! ## Selects -/

/-- An optional list between two marks. -/
inductive Block {α : Type} (opening closing : Char)
    (body : List Char → List α → List Char → Prop) :
    List Char → List α → List Char → Prop where
  | absent {text : List Char} : Block opening closing body text [] text
  | present {text start stop rest : List Char} {items : List α}
      (opens : Mark opening text start) (inside : body start items stop)
      (closes : Mark closing stop rest) :
      Block opening closing body text items rest

/-- An optional alias. -/
inductive Alias (text : List Char) : Option Segment → List Char → Prop where
  | absent (noKeyword : ∀ rest, ¬ Keyword "as" text rest) :
      Alias text none text
  | present {middle rest : List Char} {segment : Segment}
      (keyword : Keyword "as" text middle)
      (name : Name middle segment rest) :
      Alias text (some segment) rest

mutual

/-- A field: its name, an alias, filters and the fields below it. -/
inductive Selection : List Char → Select → List Char → Prop where
  | intro {text named aliased filtered rest : List Char} {select : Select}
      (name : Name text select.name named)
      (aliasName : Alias named select.aliasName aliased)
      (filters : Block '(' ')' Filters aliased select.filters filtered)
      (subselects : Subselects filtered select.subselects rest) :
      Selection text select rest

/-- An optional block of fields. -/
inductive Subselects : List Char → List Select → List Char → Prop where
  | absent {text : List Char} : Subselects text [] text
  | present {text start stop rest : List Char} {selects : List Select}
      (opens : Mark '{' text start) (inside : Items start selects stop)
      (closes : Mark '}' stop rest) : Subselects text selects rest

/-- Fields, separated by optional commas. -/
inductive Items : List Char → List Select → List Char → Prop where
  | nil {text : List Char} : Items text [] text
  | cons {text middle next rest : List Char} {select : Select}
      {selects : List Select} (first : Selection text select middle)
      (comma : Comma middle next) (others : Items next selects rest) :
      Items text (select :: selects) rest

end

/-- The text is a rendering of the query. -/
def Renders (text : String) (query : Query) : Prop :=
  ∃ start stop, Mark '{' (skipBlanks text.toList) start ∧
    Items start query.selects stop ∧ Mark '}' stop []

/-! ## Runs of characters -/

/-- A run which cannot be extended is the longest one. -/
theorem munch_iff {test : Char → Bool} {text run after : List Char} :
    (text = run ++ after ∧ (∀ char ∈ run, test char = true) ∧
        Ends test after) ↔
      run = text.takeWhile test ∧ after = text.dropWhile test := by
  constructor
  · rintro ⟨rfl, passes, ends⟩
    have stops : after.takeWhile test = [] ∧
        after.dropWhile test = after := by
      cases after with
      | nil => exact ⟨rfl, rfl⟩
      | cons char after =>
          have refused : ¬ test char = true := by
            rw [Bool.not_eq_true]
            exact ends
          exact ⟨List.takeWhile_cons_of_neg refused,
            List.dropWhile_cons_of_neg refused⟩
    rw [List.takeWhile_append_of_pos passes,
      List.dropWhile_append_of_pos passes, stops.1, stops.2,
      List.append_nil]
    exact ⟨rfl, rfl⟩
  · rintro ⟨rfl, rfl⟩
    refine ⟨List.takeWhile_append_dropWhile.symm,
      fun char member => List.mem_takeWhile_imp member, ?_⟩
    unfold Ends
    cases rest : text.dropWhile test with
    | nil => rfl
    | cons char after =>
        have nonempty : text.dropWhile test ≠ [] := by
          rw [rest]
          exact List.cons_ne_nil _ _
        have refused := List.head_dropWhile_not test nonempty
        simp only [rest, List.head_cons] at refused
        exact refused

theorem skipBlanks_skipBlanks (text : List Char) :
    skipBlanks (skipBlanks text) = skipBlanks text :=
  List.dropWhile_idempotent _ _

/-! ## Names -/

theorem name_quote_iff {text : List Char} {segment : Segment}
    {rest : List Char} :
    Name ('"' :: text) segment rest ↔
      ∃ after, text.dropWhile (fun char => char != '"') = '"' :: after ∧
        segment = .field
          (String.ofList (text.takeWhile fun char => char != '"')) ∧
        rest = skipBlanks after := by
  constructor
  · rintro (⟨name, after, spelled, quoteFree⟩ |
      ⟨first, others, after, spelled, start, -, -⟩)
    · have inside : ∀ char ∈ name, (char != '"') = true := by
        intro char member
        rw [bne_iff_ne]
        rintro rfl
        exact quoteFree member
      have ends : Ends (fun char => char != '"') ('"' :: after) := rfl
      obtain ⟨run, closes⟩ := munch_iff.mp
        ⟨(List.cons.inj spelled).2, inside, ends⟩
      exact ⟨after, closes.symm, by rw [run], rfl⟩
    · obtain ⟨rfl, -⟩ := List.cons.inj spelled
      cases start
  · rintro ⟨after, closes, rfl, rfl⟩
    refine .quoted _ after ?_ ?_
    · rw [← closes, List.takeWhile_append_dropWhile]
    · intro member
      have unquoted := List.mem_takeWhile_imp member
      simp at unquoted

theorem name_word_iff {first : Char} (start : isWordStart first = true)
    {text : List Char} {segment : Segment} {rest : List Char} :
    Name (first :: text) segment rest ↔
      segment = .field
          (String.ofList (first :: text.takeWhile isWordChar)) ∧
        rest = skipBlanks (text.dropWhile isWordChar) := by
  constructor
  · rintro (⟨name, after, spelled, -⟩ |
      ⟨first', others, after, spelled, -, word, ends⟩)
    · obtain ⟨rfl, -⟩ := List.cons.inj spelled
      cases start
    · obtain ⟨rfl, tail⟩ := List.cons.inj spelled
      obtain ⟨rfl, rfl⟩ := munch_iff.mp ⟨tail, word, ends⟩
      exact ⟨rfl, rfl⟩
  · rintro ⟨rfl, rfl⟩
    obtain ⟨spelled, word, ends⟩ := munch_iff.mpr
      (⟨rfl, rfl⟩ : text.takeWhile isWordChar = _ ∧ _)
    exact .bare first _ _ (by rw [← spelled]) start word ends

/-- The first character of a name. -/
theorem Name.head {text : List Char} {segment : Segment}
    {rest : List Char} (name : Name text segment rest) :
    ∃ first after, text = first :: after ∧
      (first = '"' ∨ isWordStart first = true) := by
  rcases name with ⟨name, after, spelled, -⟩ |
    ⟨first, others, after, spelled, start, -, -⟩
  · exact ⟨_, _, spelled, Or.inl rfl⟩
  · exact ⟨_, _, spelled, Or.inr start⟩

/-! ## Numbers, marks and keywords -/

theorem number_iff {text : List Char} {number : UInt64}
    {rest : List Char} :
    Number text number rest ↔
      text.takeWhile Char.isDigit ≠ [] ∧
        decimal (text.takeWhile Char.isDigit) = number.toNat ∧
        rest = skipBlanks (text.dropWhile Char.isDigit) := by
  constructor
  · rintro ⟨digits, after, spelled, nonempty, digit, ends, value, rfl⟩
    obtain ⟨rfl, rfl⟩ := munch_iff.mp ⟨spelled, digit, ends⟩
    exact ⟨nonempty, value, rfl⟩
  · rintro ⟨nonempty, value, rfl⟩
    obtain ⟨spelled, digit, ends⟩ := munch_iff.mpr
      (⟨rfl, rfl⟩ : text.takeWhile Char.isDigit = _ ∧ _)
    exact ⟨_, _, spelled, nonempty, digit, ends, value, rfl⟩

theorem Mark.unique {mark : Char} {text rest after : List Char}
    (marked : Mark mark text rest) (other : Mark mark text after) :
    rest = after := by
  obtain ⟨_, rfl, rfl⟩ := marked
  obtain ⟨_, spelled, rfl⟩ := other
  cases spelled
  rfl

theorem Keyword.unique {keyword : String} {text rest after : List Char}
    (keyed : Keyword keyword text rest)
    (other : Keyword keyword text after) : rest = after := by
  obtain ⟨_, rfl, -, rfl⟩ := keyed
  obtain ⟨_, spelled, -, rfl⟩ := other
  rw [List.append_cancel_left spelled]

/-! ## First characters -/

/-- The text starts with the mark. -/
def Starts (mark : Char) (text : List Char) : Prop :=
  text.head? = some mark

theorem starts_iff {mark : Char} {text : List Char} :
    Starts mark text ↔ ∃ rest, Mark mark text rest := by
  rw [Starts, List.head?_eq_some_iff]
  constructor
  · rintro ⟨after, spelled⟩
    exact ⟨skipBlanks after, after, spelled, rfl⟩
  · rintro ⟨rest, after, spelled, -⟩
    exact ⟨after, spelled⟩

/-- A word ends where only whitespace stands before a mark. -/
theorem ends_of_mark {mark : Char} (noWord : isWordChar mark = false)
    {after rest : List Char} (marked : Mark mark (skipBlanks after) rest) :
    Ends isWordChar after := by
  obtain ⟨_, spelled, -⟩ := marked
  cases after with
  | nil => rfl
  | cons char after =>
      cases blank : isBlank char with
      | true =>
          show isWordChar char = false
          simp only [isBlank, Bool.or_eq_true, beq_iff_eq] at blank
          rcases blank with (((rfl | rfl) | rfl) | rfl) | rfl <;> decide
      | false =>
          rw [skipBlanks, List.dropWhile_cons_of_neg
            (Bool.eq_false_iff.mp blank)] at spelled
          rw [(List.cons.inj spelled).1]
          exact noWord

theorem not_starts_of_isWordStart {first mark : Char} {text : List Char}
    (start : isWordStart first = true) (noWord : isWordStart mark = false) :
    ¬ Starts mark (first :: text) := by
  intro starts
  rw [Option.some.inj starts, noWord] at start
  cases start

theorem Pagination.head {text : List Char} {filter : Filter}
    {rest : List Char} (page : Pagination text filter rest) :
    ∃ first after, text = first :: after ∧ isWordStart first = true := by
  cases page with
  | skip keyword _ _ | take keyword _ _ | after keyword _ _
  | before keyword _ _ =>
      obtain ⟨after, spelled, -⟩ := keyword
      exact ⟨_, _, spelled, by decide⟩

/-- Filters and their closing mark do not start with another mark. -/
theorem Filters.not_starts {mark : Char}
    (noWord : isWordStart mark = false) (other : mark ≠ ')')
    {text rest : List Char} {filters : List Filter}
    (read : Filters text filters rest) (closes : Starts ')' rest) :
    ¬ Starts mark text := by
  cases read with
  | nil =>
      intro starts
      exact other (Option.some.inj (starts.symm.trans closes))
  | cons first _ _ =>
      obtain ⟨char, after, rfl, start⟩ := first.head
      exact not_starts_of_isWordStart start noWord

theorem Selection.head {text : List Char} {select : Select}
    {rest : List Char} (selection : Selection text select rest) :
    ∃ first after, text = first :: after ∧
      (first = '"' ∨ isWordStart first = true) := by
  cases selection with
  | intro name _ _ _ => exact name.head

/-- A field does not start with a mark other than the quote. -/
theorem Selection.not_starts {mark : Char}
    (noWord : isWordStart mark = false) (notQuote : mark ≠ '"')
    {text rest : List Char} {select : Select}
    (selection : Selection text select rest) : ¬ Starts mark text := by
  obtain ⟨first, after, rfl, start⟩ := selection.head
  rcases start with rfl | start
  · intro starts
    exact notQuote (Option.some.inj starts).symm
  · exact not_starts_of_isWordStart start noWord

theorem Items.not_starts {mark : Char}
    (noWord : isWordStart mark = false) (notQuote : mark ≠ '"')
    (other : mark ≠ '}') {text rest : List Char} {selects : List Select}
    (read : Items text selects rest) (closes : Starts '}' rest) :
    ¬ Starts mark text := by
  cases read with
  | nil =>
      intro starts
      exact other (Option.some.inj (starts.symm.trans closes))
  | cons first _ _ => exact first.not_starts noWord notQuote

/-- Fields below a field do not start with a parenthesis. -/
theorem Subselects.not_starts {text rest : List Char}
    {selects : List Select} (read : Subselects text selects rest)
    (follows : ¬ Starts '(' rest) : ¬ Starts '(' text := by
  cases read with
  | absent => exact follows
  | present opens _ _ =>
      intro starts
      have brace := starts_iff.mpr ⟨_, opens⟩
      exact absurd (Option.some.inj (starts.symm.trans brace)) (by decide)

/-! ## Lengths -/

theorem length_skipBlanks_le (text : List Char) :
    (skipBlanks text).length ≤ text.length :=
  (List.dropWhile_sublist _).length_le

section Lengths

variable {text rest : List Char}

theorem Mark.length_lt {mark : Char} (marked : Mark mark text rest) :
    rest.length < text.length := by
  obtain ⟨after, rfl, rfl⟩ := marked
  exact Nat.lt_succ_of_le (length_skipBlanks_le after)

theorem Keyword.length_le {keyword : String}
    (keyed : Keyword keyword text rest) : rest.length ≤ text.length := by
  obtain ⟨after, rfl, -, rfl⟩ := keyed
  have bound := length_skipBlanks_le after
  rw [List.length_append]
  omega

theorem Name.length_lt {segment : Segment} (name : Name text segment rest) :
    rest.length < text.length := by
  rcases name with ⟨name, after, rfl, -⟩ | ⟨first, others, after, rfl, -⟩
  all_goals
    have bound := length_skipBlanks_le after
    simp only [List.length_cons, List.length_append]
    omega

theorem Number.length_le {number : UInt64}
    (numbered : Number text number rest) : rest.length ≤ text.length := by
  obtain ⟨digits, after, rfl, -, -, -, -, rfl⟩ := numbered
  have bound := length_skipBlanks_le after
  rw [List.length_append]
  omega

theorem Comma.length_le (comma : Comma text rest) :
    rest.length ≤ text.length := by
  rcases comma with rfl | marked
  · exact le_rfl
  · exact marked.length_lt.le

theorem Pagination.length_lt {filter : Filter}
    (page : Pagination text filter rest) : rest.length < text.length := by
  cases page with
  | skip keyword colon number | take keyword colon number =>
      exact number.length_le.trans_lt
        (colon.length_lt.trans_le keyword.length_le)
  | after keyword colon name | before keyword colon name =>
      exact name.length_lt.trans
        (colon.length_lt.trans_le keyword.length_le)

theorem Filters.length_le {filters : List Filter}
    (read : Filters text filters rest) : rest.length ≤ text.length := by
  induction read with
  | nil => exact le_rfl
  | cons first comma _ induction =>
      exact induction.trans (comma.length_le.trans first.length_lt.le)

theorem Block.length_le {α : Type} {opening closing : Char}
    {body : List Char → List α → List Char → Prop} {items : List α}
    (shorter : ∀ {text items rest}, body text items rest →
      rest.length ≤ text.length)
    (block : Block opening closing body text items rest) :
    rest.length ≤ text.length := by
  cases block with
  | absent => exact le_rfl
  | present opens inside closes =>
      exact (closes.length_lt.trans_le
        ((shorter inside).trans opens.length_lt.le)).le

theorem Alias.length_le {aliasName : Option Segment}
    (aliased : Alias text aliasName rest) : rest.length ≤ text.length := by
  cases aliased with
  | absent => exact le_rfl
  | present keyword name =>
      exact (name.length_lt.trans_le keyword.length_le).le

end Lengths

mutual

theorem Selection.length_lt {text rest : List Char} {select : Select} :
    Selection text select rest → rest.length < text.length
  | .intro name aliasName filters subselects =>
      (subselects.length_le.trans ((filters.length_le
        Filters.length_le).trans aliasName.length_le)).trans_lt
          name.length_lt

theorem Subselects.length_le {text rest : List Char}
    {selects : List Select} :
    Subselects text selects rest → rest.length ≤ text.length
  | .absent => le_rfl
  | .present opens inside closes =>
      (closes.length_lt.trans_le
        (inside.length_le.trans opens.length_lt.le)).le

theorem Items.length_le {text rest : List Char} {selects : List Select} :
    Items text selects rest → rest.length ≤ text.length
  | .nil => le_rfl
  | .cons first comma others =>
      others.length_le.trans
        (comma.length_le.trans first.length_lt.le)

end

end Cdoc.Query.Grammar
