import Cdoc.Query.Correctness

/-!
# Queries which can be written

A name between quotes may hold any character but a quote, and there is no way
to write an index.  These are the only limits: a query has a rendering exactly
when all of its names are fields without quotes.
-/

namespace Cdoc

/-- A field without quotes in its name. -/
def Segment.QuoteFree : Segment → Prop
  | .field name => '"' ∉ name.toList
  | .fractionalIndex _ => False

/-- The cursor of a filter is a field without quotes. -/
def Filter.QuoteFree : Filter → Prop
  | .skip _ | .take _ => True
  | .after cursor | .before cursor => cursor.QuoteFree

/-- All names of a selection and below it are fields without quotes. -/
inductive Select.QuoteFree : Select → Prop where
  | intro {select : Select} (name : select.name.QuoteFree)
      (aliasName : ∀ alias' ∈ select.aliasName, alias'.QuoteFree)
      (filters : ∀ filter ∈ select.filters, filter.QuoteFree)
      (subselects : ∀ below ∈ select.subselects, below.QuoteFree) :
      QuoteFree select

namespace Query

open Grammar

/-- All names of the query are fields without quotes. -/
def QuoteFree (query : Query) : Prop :=
  ∀ select ∈ query.selects, select.QuoteFree

/-! ## What is read is free of quotes -/

section Read

variable {text rest : List Char}

theorem Grammar.Name.quoteFree {segment : Segment}
    (name : Name text segment rest) : segment.QuoteFree := by
  cases name with
  | quoted name after spelled quoteFree =>
      show '"' ∉ (String.ofList name).toList
      rw [String.toList_ofList]
      exact quoteFree
  | bare first others after spelled start word ends =>
      show '"' ∉ (String.ofList (first :: others)).toList
      rw [String.toList_ofList, List.mem_cons]
      rintro (rfl | member)
      · cases start
      · cases word '"' member

theorem Grammar.Pagination.quoteFree {filter : Filter}
    (page : Pagination text filter rest) : filter.QuoteFree := by
  cases page with
  | skip | take => trivial
  | after _ _ name | before _ _ name => exact name.quoteFree

theorem Grammar.Filters.quoteFree {filters : List Filter}
    (read : Filters text filters rest) :
    ∀ filter ∈ filters, filter.QuoteFree := by
  induction read with
  | nil =>
      intro filter member
      cases member
  | cons first _ _ induction =>
      exact List.forall_mem_cons.mpr ⟨first.quoteFree, induction⟩

theorem Grammar.Block.forall_mem {α : Type} {opening closing : Char}
    {body : List Char → List α → List Char → Prop} {good : α → Prop}
    {items : List α} (block : Block opening closing body text items rest)
    (allGood : ∀ {text items rest}, body text items rest →
      ∀ item ∈ items, good item) :
    ∀ item ∈ items, good item := by
  cases block with
  | absent => exact List.forall_mem_nil _
  | present _ inside _ => exact allGood inside

theorem Grammar.Alias.quoteFree {aliasName : Option Segment}
    (aliased : Alias text aliasName rest) :
    ∀ segment ∈ aliasName, segment.QuoteFree := by
  rintro segment member
  cases aliased with
  | absent => cases member
  | present _ name =>
      cases member
      exact name.quoteFree

end Read

mutual

theorem Grammar.Selection.quoteFree {text rest : List Char}
    {select : Select} : Selection text select rest → select.QuoteFree
  | .intro name aliasName filters subselects =>
      .intro name.quoteFree aliasName.quoteFree
        (filters.forall_mem Filters.quoteFree)
        (Grammar.Subselects.quoteFree subselects)

theorem Grammar.Subselects.quoteFree {text rest : List Char}
    {selects : List Select} : Subselects text selects rest →
      ∀ select ∈ selects, select.QuoteFree
  | .absent => List.forall_mem_nil _
  | .present _ inside _ => Grammar.Items.quoteFree inside

theorem Grammar.Items.quoteFree {text rest : List Char}
    {selects : List Select} : Items text selects rest →
      ∀ select ∈ selects, select.QuoteFree
  | .nil => List.forall_mem_nil _
  | .cons first _ others =>
      List.forall_mem_cons.mpr ⟨Grammar.Selection.quoteFree first,
        Grammar.Items.quoteFree others⟩

end

/-! ## What is free of quotes can be written -/

/-- No whitespace stands in front of the text. -/
def Stripped (text : List Char) : Prop :=
  skipBlanks text = text

theorem stripped_cons {char : Char} (visible : isBlank char = false)
    (text : List Char) : Stripped (char :: text) :=
  List.dropWhile_cons_of_neg (Bool.eq_false_iff.mp visible)

theorem stripped_quote (text : List Char) : Stripped ('"' :: text) :=
  stripped_cons rfl text

theorem mark_of_stripped {rest : List Char} (stripped : Stripped rest)
    (mark : Char) : Mark mark (mark :: rest) rest :=
  ⟨rest, rfl, stripped.symm⟩

theorem exists_name {segment : Segment} (quoteFree : segment.QuoteFree)
    {rest : List Char} (stripped : Stripped rest) :
    ∃ after, Name ('"' :: after) segment rest := by
  cases segment with
  | fractionalIndex bytes => exact quoteFree.elim
  | field name =>
      have written := Name.quoted name.toList rest rfl quoteFree
      rw [String.ofList_toList, stripped] at written
      exact ⟨_, written⟩

theorem exists_digits (number : Nat) :
    ∃ first others, (∀ digit ∈ first :: others, digit.isDigit = true) ∧
      decimal (first :: others) = number := by
  have single : ∀ digit < 10, (Char.ofNat (digit + 48)).isDigit = true ∧
      (Char.ofNat (digit + 48)).toNat - 48 = digit := by
    decide
  induction number using Nat.strong_induction_on with
  | _ number induction =>
      by_cases small : number < 10
      · obtain ⟨isDigit, value⟩ := single number small
        refine ⟨Char.ofNat (number + 48), [], ?_, ?_⟩
        · simpa using isDigit
        · simpa [decimal] using value
      · obtain ⟨first, others, isDigits, value⟩ :=
          induction (number / 10) (by omega)
        obtain ⟨isDigit, last⟩ := single (number % 10) (by omega)
        refine ⟨first, others ++ [Char.ofNat (number % 10 + 48)], ?_, ?_⟩
        · intro digit member
          rw [← List.cons_append, List.mem_append] at member
          rcases member with earlier | isLast
          · exact isDigits digit earlier
          · rw [List.mem_singleton.mp isLast]
            exact isDigit
        · rw [← List.cons_append, decimal, List.foldl_append]
          show decimal (first :: others) * 10 + _ = number
          rw [value, last]
          omega

theorem isBlank_of_isDigit {digit : Char} (isDigit : digit.isDigit = true) :
    isBlank digit = false := by
  rw [Bool.eq_false_iff]
  intro blank
  simp only [isBlank, Bool.or_eq_true, beq_iff_eq] at blank
  rcases blank with (((rfl | rfl) | rfl) | rfl) | rfl <;> cases isDigit

theorem exists_number (number : UInt64) (rest : List Char) :
    ∃ text, Stripped text ∧ Number text number (',' :: rest) := by
  obtain ⟨first, others, isDigits, value⟩ := exists_digits number.toNat
  refine ⟨first :: (others ++ ',' :: rest), ?_, first :: others,
    ',' :: rest, rfl, List.cons_ne_nil _ _, isDigits, rfl, value, rfl⟩
  exact stripped_cons (isBlank_of_isDigit
    (isDigits first (List.mem_cons_self ..))) _

/-- A keyword and its colon in front of a value. -/
theorem keyword_colon (keyword : String) {value : List Char}
    (stripped : Stripped value) :
    Keyword keyword (keyword.toList ++ ':' :: value) (':' :: value) ∧
      Mark ':' (':' :: value) value :=
  ⟨⟨':' :: value, rfl, rfl, rfl⟩, mark_of_stripped stripped ':'⟩

theorem exists_pagination {filter : Filter}
    (quoteFree : filter.QuoteFree) (rest : List Char) :
    ∃ text, Stripped text ∧ Pagination text filter (',' :: rest) := by
  have comma : Stripped (',' :: rest) := stripped_cons rfl rest
  cases filter with
  | skip count =>
      obtain ⟨value, stripped, number⟩ := exists_number count rest
      obtain ⟨keyword, colon⟩ := keyword_colon "skip" stripped
      exact ⟨_, stripped_cons rfl _, .skip keyword colon number⟩
  | take count =>
      obtain ⟨value, stripped, number⟩ := exists_number count rest
      obtain ⟨keyword, colon⟩ := keyword_colon "take" stripped
      exact ⟨_, stripped_cons rfl _, .take keyword colon number⟩
  | after cursor =>
      obtain ⟨value, name⟩ := exists_name quoteFree comma
      obtain ⟨keyword, colon⟩ :=
        keyword_colon "after" (stripped_quote value)
      exact ⟨_, stripped_cons rfl _, .after keyword colon name⟩
  | before cursor =>
      obtain ⟨value, name⟩ := exists_name quoteFree comma
      obtain ⟨keyword, colon⟩ :=
        keyword_colon "before" (stripped_quote value)
      exact ⟨_, stripped_cons rfl _, .before keyword colon name⟩

theorem exists_filters {filters : List Filter}
    (quoteFree : ∀ filter ∈ filters, filter.QuoteFree)
    {rest : List Char} (stripped : Stripped rest) :
    ∃ text, Stripped text ∧ Filters text filters rest := by
  induction filters with
  | nil => exact ⟨rest, stripped, .nil⟩
  | cons filter filters induction =>
      obtain ⟨first, others⟩ := List.forall_mem_cons.mp quoteFree
      obtain ⟨next, strippedNext, read⟩ := induction others
      obtain ⟨text, strippedText, page⟩ := exists_pagination first next
      exact ⟨text, strippedText, .cons page
        (Or.inr (mark_of_stripped strippedNext ',')) read⟩

/-- An alias in front of a mark, which does not continue the keyword. -/
theorem exists_alias {aliasName : Option Segment}
    (quoteFree : ∀ segment ∈ aliasName, segment.QuoteFree)
    (rest : List Char) :
    ∃ text, Stripped text ∧ Alias text aliasName ('(' :: rest) := by
  have mark : Stripped ('(' :: rest) := stripped_cons rfl rest
  cases aliasName with
  | none =>
      refine ⟨'(' :: rest, mark, .absent ?_⟩
      rintro after ⟨_, spelled, -⟩
      cases spelled
  | some segment =>
      obtain ⟨after, name⟩ := exists_name (quoteFree segment rfl) mark
      refine ⟨'a' :: 's' :: '"' :: after, stripped_cons rfl _,
        .present ⟨'"' :: after, rfl, rfl, rfl⟩ ?_⟩
      rw [stripped_quote after]
      exact name

/-- Fields of which each can be written. -/
theorem exists_items {selects : List Select}
    (writable : ∀ select ∈ selects, ∀ rest, Stripped rest →
      ∃ text, Stripped text ∧ Selection text select rest)
    {rest : List Char} (stripped : Stripped rest) :
    ∃ text, Stripped text ∧ Items text selects rest := by
  induction selects with
  | nil => exact ⟨rest, stripped, .nil⟩
  | cons select selects induction =>
      obtain ⟨first, others⟩ := List.forall_mem_cons.mp writable
      obtain ⟨next, strippedNext, read⟩ := induction others
      obtain ⟨text, strippedText, selection⟩ := first next strippedNext
      exact ⟨text, strippedText, .cons selection (Or.inl rfl) read⟩

theorem exists_selection {select : Select}
    (quoteFree : select.QuoteFree) (rest : List Char)
    (stripped : Stripped rest) :
    ∃ text, Stripped text ∧ Selection text select rest := by
  induction quoteFree generalizing rest with
  | intro name aliasName filters _ below =>
      obtain ⟨inside, strippedInside, items⟩ :=
        exists_items below (stripped_cons rfl rest : Stripped ('}' :: rest))
      obtain ⟨filtered, strippedFilters, read⟩ := exists_filters filters
        (stripped_cons rfl ('{' :: inside) : Stripped (')' :: '{' :: inside))
      obtain ⟨aliased, strippedAlias, readAlias⟩ :=
        exists_alias aliasName filtered
      obtain ⟨after, readName⟩ := exists_name name strippedAlias
      have block : Subselects ('{' :: inside) _ rest :=
        .present (mark_of_stripped strippedInside '{') items
          (mark_of_stripped stripped '}')
      exact ⟨'"' :: after, stripped_quote after,
        .intro readName readAlias
          (.present (mark_of_stripped strippedFilters '(') read
            (mark_of_stripped (stripped_cons rfl inside) ')'))
          block⟩

/-- A query can be written exactly when its names are free of quotes. -/
theorem exists_renders_iff_quoteFree (query : Query) :
    (∃ text, Renders text query) ↔ query.QuoteFree := by
  constructor
  · rintro ⟨text, start, stop, -, items, -⟩
    exact items.quoteFree
  · intro quoteFree
    have closing : Stripped ['}'] := stripped_cons rfl []
    obtain ⟨inside, stripped, items⟩ := exists_items
      (fun select member => exists_selection (quoteFree select member))
      closing
    refine ⟨String.ofList ('{' :: inside), inside, ['}'], ?_, items,
      mark_of_stripped (rfl : Stripped []) '}'⟩
    rw [String.toList_ofList]
    exact mark_of_stripped stripped '{'

/-! ## What the parser returns -/

/-- The queries which the parser returns: those with names without quotes. -/
theorem exists_parse_iff_quoteFree (query : Query) :
    (∃ text, parse text = .ok (.ok query)) ↔ query.QuoteFree := by
  rw [← exists_renders_iff_quoteFree]
  constructor
  · rintro ⟨text, returned⟩
    exact ⟨text, renders_of_parse returned⟩
  · rintro ⟨text, renders⟩
    exact ⟨text, parse_of_renders renders⟩

end Query

end Cdoc
