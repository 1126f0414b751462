import Cdoc.Query.Correctness

/-!
# The query macro

`query!` builds a query out of tokens while a program is compiled.  Its rules
are functions here, which are tried in the order of the source and return
nothing where the program would not compile: where no rule takes the tokens,
or where a literal does not have the type of its place.

The value of a filter is an expression.  Of these there are literals and
variables; `scope` holds the values of the variables.
-/

namespace Cdoc.Query.Macro

open Cdoc.Foundation
open Grammar

/-- A sequence of token trees.  A number is an unsuffixed decimal literal. -/
inductive Tokens where
  | nil
  | ident (name : String) (rest : Tokens)
  | string (text : String) (rest : Tokens)
  | number (value : UInt64) (rest : Tokens)
  | comma (rest : Tokens)
  | colon (rest : Tokens)
  | atSign (rest : Tokens)
  | paren (inside rest : Tokens)
  | brace (inside rest : Tokens)
deriving DecidableEq, Repr

/-- The value of an expression. -/
inductive Operand where
  | size (count : UInt64)
  | segment (cursor : Segment)
deriving DecidableEq, Repr

/-- The variables which an expression of the macro may name. -/
abbrev Scope := String → Option Operand

/-! ## Rules -/

/-- `$name:ident` takes every word but the underscore. -/
def isIdent (name : String) : Bool :=
  name != "_"

/-- `$n:expr`, and what stands behind the expression. -/
def operand (scope : Scope) : Tokens → Option (Operand × Tokens)
  | .number count rest => some (.size count, rest)
  | .string text rest => some (.segment (.field text), rest)
  | .ident name rest => (scope name).map fun value => (value, rest)
  | _ => none

/-- The filter which the keyword builds out of a value of its type. -/
def filterOf (keyword : String) : Operand → Option Filter
  | .size count =>
      if keyword = "skip" then some (.skip count)
      else if keyword = "take" then some (.take count)
      else none
  | .segment cursor =>
      if keyword = "after" then some (.after cursor)
      else if keyword = "before" then some (.before cursor)
      else none

theorem sizeOf_operand {scope : Scope} {tokens rest : Tokens}
    {value : Operand} (taken : operand scope tokens = some (value, rest)) :
    sizeOf rest < sizeOf tokens := by
  cases tokens with
  | number count rest' =>
      cases taken
      simp
  | string text rest' =>
      cases taken
      simp
  | ident name rest' =>
      obtain ⟨_, -, same⟩ := Option.map_eq_some_iff.mp taken
      cases same
      simp
  | nil | comma | colon | atSign | paren | brace => cases taken

/-- `@__filter_list`. -/
def filterList (scope : Scope) (acc : List Filter) (tokens : Tokens) :
    Option (List Filter) :=
  match tokens with
  | .nil => some acc
  | .ident keyword (.colon value) =>
      match _taken : operand scope value with
      | none => none
      | some (value, rest) =>
          match filterOf keyword value, rest with
          | some filter, .comma rest =>
              filterList scope (acc ++ [filter]) rest
          | some filter, .nil => filterList scope (acc ++ [filter]) .nil
          | _, _ => none
  | _ => none
termination_by sizeOf tokens
decreasing_by
  all_goals
    have smaller := sizeOf_operand _taken
    simp at smaller ⊢
    omega

/-- The clause `as $alias`, with an identifier or a literal. -/
def takeAlias : Tokens → Option (Segment × Tokens)
  | .ident keyword (.ident name rest) =>
      if keyword = "as" ∧ isIdent name then some (.field name, rest) else none
  | .ident keyword (.string name rest) =>
      if keyword = "as" then some (.field name, rest) else none
  | _ => none

theorem sizeOf_takeAlias {tokens rest : Tokens} {segment : Segment}
    (taken : takeAlias tokens = some (segment, rest)) :
    sizeOf rest < sizeOf tokens := by
  unfold takeAlias at taken
  split at taken
  · split at taken
    · cases taken
      simp
      omega
    · cases taken
  · split at taken
    · cases taken
      simp
      omega
    · cases taken
  · cases taken

mutual

/-- `@__selects`. -/
def selects (scope : Scope) (acc : List Select) (tokens : Tokens) :
    Option (List Select) :=
  match tokens with
  | .nil => some acc
  | .ident name rest =>
      if isIdent name then aliasClause scope acc (.field name) rest else none
  | .string name rest => aliasClause scope acc (.field name) rest
  | _ => none
termination_by (sizeOf tokens, 0)

/-- `@__alias`. -/
def aliasClause (scope : Scope) (acc : List Select) (name : Segment)
    (tokens : Tokens) : Option (List Select) :=
  match _taken : takeAlias tokens with
  | some (segment, rest) => filterClause scope acc name (some segment) rest
  | none => filterClause scope acc name none tokens
termination_by (sizeOf tokens, 4)
decreasing_by
  · exact .left _ _ (sizeOf_takeAlias _taken)
  · exact .right _ (by decide)

/-- `@__filters`. -/
def filterClause (scope : Scope) (acc : List Select) (name : Segment)
    (aliasName : Option Segment) (tokens : Tokens) :
    Option (List Select) :=
  match tokens with
  | .paren inside rest =>
      match filterList scope [] inside with
      | some filters => subselectClause scope acc name aliasName filters rest
      | none => none
  | tokens => subselectClause scope acc name aliasName [] tokens
termination_by (sizeOf tokens, 3)

/-- `@__subselects`. -/
def subselectClause (scope : Scope) (acc : List Select) (name : Segment)
    (aliasName : Option Segment) (filters : List Filter) (tokens : Tokens) :
    Option (List Select) :=
  match tokens with
  | .brace inside rest =>
      match selects scope [] inside with
      | some subselects =>
          done scope acc ⟨name, aliasName, filters, subselects⟩ rest
      | none => none
  | tokens => done scope acc ⟨name, aliasName, filters, []⟩ tokens
termination_by (sizeOf tokens, 2)

/-- `@__done`. -/
def done (scope : Scope) (acc : List Select) (select : Select)
    (tokens : Tokens) : Option (List Select) :=
  match tokens with
  | .comma rest => selects scope (acc ++ [select]) rest
  | .nil => selects scope (acc ++ [select]) .nil
  | _ => none
termination_by (sizeOf tokens, 1)

end

/-- `query!`. -/
def query (scope : Scope) : Tokens → Option Query
  | .brace body .nil => (selects scope [] body).map Query.mk
  | _ => none

/-! ## Texts of tokens -/

/--
The beginning of a text is written with these tokens, and the rest of it
follows.  Only the plain spellings are meant: words of ASCII letters, digits
and underscores, strings without a backslash, decimal digits without
underscores or a suffix, and ASCII whitespace between them.
-/
inductive Spells : Tokens → List Char → List Char → Prop where
  | nil {text : List Char} : Spells .nil text text
  | ident {text others after rest : List Char} {first : Char}
      {tokens : Tokens} (spelled : text = first :: (others ++ after))
      (start : isWordStart first = true)
      (word : ∀ char ∈ others, isWordChar char = true)
      (ends : Ends isWordChar after)
      (spells : Spells tokens (skipBlanks after) rest) :
      Spells (.ident (String.ofList (first :: others)) tokens) text rest
  | string {text name after rest : List Char} {tokens : Tokens}
      (spelled : text = '"' :: (name ++ '"' :: after))
      (plain : '"' ∉ name ∧ '\\' ∉ name)
      (spells : Spells tokens (skipBlanks after) rest) :
      Spells (.string (String.ofList name) tokens) text rest
  | number {text after rest : List Char} {value : UInt64} {tokens : Tokens}
      (number : Number text value after)
      (spells : Spells tokens after rest) :
      Spells (.number value tokens) text rest
  | comma {text after rest : List Char} {tokens : Tokens}
      (mark : Mark ',' text after) (spells : Spells tokens after rest) :
      Spells (.comma tokens) text rest
  | colon {text after rest : List Char} {tokens : Tokens}
      (mark : Mark ':' text after) (spells : Spells tokens after rest) :
      Spells (.colon tokens) text rest
  | paren {text start stop after rest : List Char} {inside tokens : Tokens}
      (opens : Mark '(' text start) (within : Spells inside start stop)
      (closes : Mark ')' stop after) (spells : Spells tokens after rest) :
      Spells (.paren inside tokens) text rest
  | brace {text start stop after rest : List Char} {inside tokens : Tokens}
      (opens : Mark '{' text start) (within : Spells inside start stop)
      (closes : Mark '}' stop after) (spells : Spells tokens after rest) :
      Spells (.brace inside tokens) text rest

/-- The whole text is written with these tokens. -/
def Spelled (tokens : Tokens) (text : String) : Prop :=
  Spells tokens (skipBlanks text.toList) []

/-- Every variable holds its own name. -/
def Scope.Nominal (scope : Scope) : Prop :=
  ∀ name value, scope name = some value → value = .segment (.field name)

/-! ## Filters -/

section Expansion

variable {scope : Scope} {text stop : List Char} {tokens : Tokens}

/-- What an expression reads as. -/
def Operand.Reads (text : List Char) : Operand → List Char → Prop
  | .size count, rest => Number text count rest
  | .segment cursor, rest => Name text cursor rest

theorem operand_reads (nominal : scope.Nominal) {value : Operand}
    {rest : Tokens} (taken : operand scope tokens = some (value, rest))
    (spells : Spells tokens text stop) :
    ∃ next, value.Reads text next ∧ Spells rest next stop := by
  cases spells with
  | ident spelled start word ends spells =>
      obtain ⟨held, known, same⟩ := Option.map_eq_some_iff.mp taken
      cases same
      rw [nominal _ _ known]
      exact ⟨_, .bare _ _ _ spelled start word ends, spells⟩
  | string spelled plain spells =>
      cases taken
      exact ⟨_, .quoted _ _ spelled plain.1, spells⟩
  | number number spells =>
      cases taken
      exact ⟨_, number, spells⟩
  | nil | comma | colon | paren | brace => cases taken

theorem pagination_of_filterOf {keyword : String} {value : Operand}
    {filter : Filter} {middle start rest : List Char}
    (built : filterOf keyword value = some filter)
    (keyed : Keyword keyword text middle) (colon : Mark ':' middle start)
    (reads : value.Reads start rest) : Pagination text filter rest := by
  unfold filterOf at built
  cases value with
  | size count =>
      dsimp only at built
      split_ifs at built with isSkip isTake
      · cases built
        exact .skip (isSkip ▸ keyed) colon reads
      · cases built
        exact .take (isTake ▸ keyed) colon reads
  | segment cursor =>
      dsimp only at built
      split_ifs at built with isAfter isBefore
      · cases built
        exact .after (isAfter ▸ keyed) colon reads
      · cases built
        exact .before (isBefore ▸ keyed) colon reads

theorem keyword_of_ident {first : Char} {others after : List Char}
    (spelled : text = first :: (others ++ after))
    (ends : Ends isWordChar after) :
    Keyword (String.ofList (first :: others)) text (skipBlanks after) := by
  refine ⟨after, ?_, ends, rfl⟩
  rw [String.toList_ofList, List.cons_append, spelled]

/-- One filter is taken off the tokens, with a comma behind it or the last. -/
theorem filterList_cases {acc result : List Filter}
    (expanded : filterList scope acc tokens = some result) :
    tokens = .nil ∧ result = acc ∨
      ∃ keyword operands value rest others filter,
        tokens = .ident keyword (.colon operands) ∧
        operand scope operands = some (value, rest) ∧
        filterOf keyword value = some filter ∧
        (rest = .comma others ∨ rest = .nil ∧ others = .nil) ∧
        filterList scope (acc ++ [filter]) others = some result := by
  rw [filterList.eq_def] at expanded
  split at expanded
  · exact .inl ⟨rfl, (Option.some.inj expanded).symm⟩
  · rename_i keyword operands
    split at expanded
    · cases expanded
    · rename_i value rest taken
      refine .inr ⟨keyword, operands, value, rest, ?_⟩
      split at expanded
      · rename_i filter others _ built
        exact ⟨others, filter, rfl, taken, built, .inl rfl, expanded⟩
      · rename_i filter _ built
        exact ⟨.nil, filter, rfl, taken, built, .inr ⟨rfl, rfl⟩, expanded⟩
      · cases expanded
  · cases expanded

theorem filters_of_filterList (nominal : scope.Nominal)
    {acc result : List Filter}
    (expanded : filterList scope acc tokens = some result)
    (spells : Spells tokens text stop) :
    ∃ filters, result = acc ++ filters ∧ Filters text filters stop := by
  induction size : sizeOf tokens using Nat.strong_induction_on
    generalizing tokens acc text stop with
  | _ size' induction =>
      subst size
      rcases filterList_cases expanded with ⟨rfl, rfl⟩ |
        ⟨keyword, operands, value, rest, others, filter, rfl, taken, built,
          separated, remains⟩
      · cases spells
        exact ⟨[], (List.append_nil _).symm, .nil⟩
      cases spells with
      | ident spelled start word ends spells =>
      cases spells with
      | colon colon spells =>
      obtain ⟨next, reads, spells⟩ := operand_reads nominal taken spells
      have keyed := pagination_of_filterOf built
        (keyword_of_ident spelled ends) colon reads
      have smaller := sizeOf_operand taken
      have comma : ∃ after, Comma next after ∧ Spells others after stop ∧
          sizeOf others ≤ sizeOf rest := by
        rcases separated with rfl | ⟨rfl, rfl⟩
        · cases spells with
          | comma mark spells =>
              exact ⟨_, .inr mark, spells, by simp⟩
        · exact ⟨next, .inl rfl, spells, le_rfl⟩
      obtain ⟨after, comma, spells, shorter⟩ := comma
      obtain ⟨filters, rfl, read⟩ := induction (sizeOf others)
        (by simp; omega) remains spells rfl
      exact ⟨filter :: filters, by simp, .cons keyed comma read⟩

/-! ## Selects -/

/-- What the selects expand to, the text denotes up to the closing brace. -/
def Denoted (scope : Scope) (tokens : Tokens) : Prop :=
  ∀ {acc result : List Select} {text stop : List Char},
    selects scope acc tokens = some result → Spells tokens text stop →
    Starts '}' stop → ∃ items, result = acc ++ items ∧ Items text items stop

/-- What is added behind the select are the selects of the rest. -/
def Continues (acc result : List Select) (select : Select)
    (text stop : List Char) : Prop :=
  ∃ next items, result = acc ++ select :: items ∧ Comma text next ∧
    Items next items stop

theorem done_continues {acc result : List Select} {select : Select}
    (below : ∀ rest : Tokens, sizeOf rest < sizeOf tokens →
      Denoted scope rest)
    (expanded : done scope acc select tokens = some result)
    (spells : Spells tokens text stop) (closing : Starts '}' stop) :
    Continues acc result select text stop := by
  rw [done.eq_def] at expanded
  cases spells with
  | nil =>
      dsimp only at expanded
      rw [selects.eq_def] at expanded
      cases expanded
      exact ⟨text, [], rfl, .inl rfl, .nil⟩
  | comma mark spells =>
      obtain ⟨items, rfl, read⟩ := below _ (by simp) expanded spells closing
      exact ⟨_, items, by simp, .inr mark, read⟩
  | ident | string | number | colon | paren | brace => cases expanded

/-- An optional block of fields, and what is added behind it. -/
theorem subselectClause_continues {acc result : List Select}
    {name : Segment} {aliasName : Option Segment} {filters : List Filter}
    (below : ∀ rest : Tokens, sizeOf rest < sizeOf tokens →
      Denoted scope rest)
    (expanded : subselectClause scope acc name aliasName filters tokens =
      some result)
    (spells : Spells tokens text stop) (closing : Starts '}' stop) :
    ∃ middle subselects, Subselects text subselects middle ∧
      Continues acc result ⟨name, aliasName, filters, subselects⟩ middle
        stop := by
  rw [subselectClause.eq_def] at expanded
  split at expanded
  · split at expanded
    · rename_i inside rest _ subselects within
      cases spells with
      | brace opens inner closes spells =>
          obtain ⟨_, rfl, read⟩ := below inside (by simp; omega) within inner
            (starts_iff.mpr ⟨_, closes⟩)
          exact ⟨_, _, .present opens read closes,
            done_continues (fun others smaller =>
              below others (by simp at smaller ⊢; omega))
              expanded spells closing⟩
    · cases expanded
  · exact ⟨text, [], .absent,
      done_continues below expanded spells closing⟩

/-- An optional list of filters, and what is added behind it. -/
theorem filterClause_continues (nominal : scope.Nominal)
    {acc result : List Select} {name : Segment} {aliasName : Option Segment}
    (below : ∀ rest : Tokens, sizeOf rest < sizeOf tokens →
      Denoted scope rest)
    (expanded : filterClause scope acc name aliasName tokens = some result)
    (spells : Spells tokens text stop) (closing : Starts '}' stop) :
    ∃ filtered middle filters subselects,
      Block '(' ')' Filters text filters filtered ∧
      Subselects filtered subselects middle ∧
      Continues acc result ⟨name, aliasName, filters, subselects⟩ middle
        stop := by
  rw [filterClause.eq_def] at expanded
  split at expanded
  · split at expanded
    · rename_i inside rest _ filters within
      cases spells with
      | paren opens inner closes spells =>
          obtain ⟨_, rfl, read⟩ :=
            filters_of_filterList nominal within inner
          obtain ⟨middle, subselects, block, continues⟩ :=
            subselectClause_continues (fun others smaller =>
              below others (by simp at smaller ⊢; omega))
              expanded spells closing
          exact ⟨_, middle, _, subselects, .present opens read closes,
            block, continues⟩
    · cases expanded
  · obtain ⟨middle, subselects, block, continues⟩ :=
      subselectClause_continues below expanded spells closing
    exact ⟨text, middle, [], subselects, .absent, block, continues⟩

/-- Nothing behind a name but an alias starts with a word. -/
theorem filterClause_ident {acc : List Select} {name : Segment}
    {aliasName : Option Segment} (word : String) (rest : Tokens) :
    filterClause scope acc name aliasName (.ident word rest) = none := by
  rw [filterClause.eq_def]
  dsimp only
  rw [subselectClause.eq_def]
  dsimp only
  rw [done.eq_def]

theorem not_keyword_of_mark {mark : Char} {text next rest : List Char}
    (marked : Mark mark text next) (other : mark ≠ 'a') :
    ¬ Keyword "as" text rest := by
  rintro ⟨after, spelled, -, -⟩
  obtain ⟨_, rfl, -⟩ := marked
  exact other (List.cons.inj spelled).1

theorem not_keyword_of_spells {acc result : List Select} {name : Segment}
    {aliasName : Option Segment}
    (expanded : filterClause scope acc name aliasName tokens = some result)
    (spells : Spells tokens text stop) (closing : Starts '}' stop)
    (rest : List Char) : ¬ Keyword "as" text rest := by
  cases spells with
  | nil =>
      obtain ⟨_, closes⟩ := starts_iff.mp closing
      exact not_keyword_of_mark closes (by decide)
  | ident =>
      rw [filterClause_ident] at expanded
      cases expanded
  | string spelled =>
      rintro ⟨after, rfl, -, -⟩
      cases spelled
  | number number =>
      rintro ⟨after, rfl, -, -⟩
      obtain ⟨digits, _, spelled, nonempty, isDigit, -⟩ := number
      cases digits with
      | nil => exact nonempty rfl
      | cons digit digits =>
          have first := isDigit digit (List.mem_cons_self ..)
          rw [← (List.cons.inj spelled).1] at first
          cases first
  | comma mark | colon mark => exact not_keyword_of_mark mark (by decide)
  | paren opens | brace opens => exact not_keyword_of_mark opens (by decide)

theorem takeAlias_reads {segment : Segment} {rest : Tokens}
    (taken : takeAlias tokens = some (segment, rest))
    (spells : Spells tokens text stop) :
    ∃ next, Alias text (some segment) next ∧ Spells rest next stop := by
  unfold takeAlias at taken
  split at taken
  · split at taken
    · rename_i named
      cases taken
      cases spells with
      | ident spelled _ _ ends spells =>
      cases spells with
      | ident spelled' start word ends' spells =>
      exact ⟨_, .present (named.1 ▸ keyword_of_ident spelled ends)
        (.bare _ _ _ spelled' start word ends'), spells⟩
    · cases taken
  · split at taken
    · rename_i named
      cases taken
      cases spells with
      | ident spelled _ _ ends spells =>
      cases spells with
      | string spelled' plain spells =>
      exact ⟨_, .present (named ▸ keyword_of_ident spelled ends)
        (.quoted _ _ spelled' plain.1), spells⟩
    · cases taken
  · cases taken

theorem aliasClause_continues (nominal : scope.Nominal)
    {acc result : List Select} {name : Segment}
    (below : ∀ rest : Tokens, sizeOf rest < sizeOf tokens →
      Denoted scope rest)
    (expanded : aliasClause scope acc name tokens = some result)
    (spells : Spells tokens text stop) (closing : Starts '}' stop) :
    ∃ aliased filtered middle aliasName filters subselects,
      Alias text aliasName aliased ∧
      Block '(' ')' Filters aliased filters filtered ∧
      Subselects filtered subselects middle ∧
      Continues acc result ⟨name, aliasName, filters, subselects⟩ middle
        stop := by
  rw [aliasClause.eq_def] at expanded
  split at expanded
  · rename_i segment rest taken
    obtain ⟨aliased, aliasName, spells⟩ := takeAlias_reads taken spells
    obtain ⟨filtered, middle, filters, subselects, block, nested,
        continues⟩ :=
      filterClause_continues nominal (fun others smaller =>
        below others (smaller.trans (sizeOf_takeAlias taken)))
        expanded spells closing
    exact ⟨aliased, filtered, middle, _, filters, subselects, aliasName,
      block, nested, continues⟩
  · obtain ⟨filtered, middle, filters, subselects, block, nested,
        continues⟩ :=
      filterClause_continues nominal below expanded spells closing
    exact ⟨text, filtered, middle, none, filters, subselects,
      .absent (not_keyword_of_spells expanded spells closing), block, nested,
      continues⟩

/-- A name, and what is added behind it. -/
theorem items_of_aliasClause (nominal : scope.Nominal)
    {acc result : List Select} {name : Segment} {named : List Char}
    (below : ∀ rest : Tokens, sizeOf rest < sizeOf tokens →
      Denoted scope rest)
    (reads : Name text name named)
    (expanded : aliasClause scope acc name tokens = some result)
    (spells : Spells tokens named stop) (closing : Starts '}' stop) :
    ∃ items, result = acc ++ items ∧ Items text items stop := by
  obtain ⟨aliased, filtered, middle, aliasName, filters, subselects,
    readAlias, block, nested, next, items, rfl, comma, read⟩ :=
      aliasClause_continues nominal below expanded spells closing
  exact ⟨_, rfl, .cons (.intro reads readAlias block nested) comma read⟩

/-- By induction on the tokens, of which a select uses some. -/
theorem selects_denoted (nominal : scope.Nominal) :
    Denoted scope tokens := by
  intro acc result text stop expanded spells closing
  induction size : sizeOf tokens using Nat.strong_induction_on
    generalizing tokens acc result text stop with
  | _ size' induction =>
      subst size
      have below : ∀ rest : Tokens, sizeOf rest < sizeOf tokens →
          Denoted scope rest :=
        fun rest smaller acc result text stop expanded spells closing =>
          induction (sizeOf rest) smaller expanded spells closing rfl
      rw [selects.eq_def] at expanded
      cases spells with
      | nil =>
          cases expanded
          exact ⟨[], (List.append_nil _).symm, .nil⟩
      | ident spelled start word ends spells =>
          dsimp only at expanded
          split at expanded
          · exact items_of_aliasClause nominal (fun others smaller =>
              below others (by simp; omega))
              (.bare _ _ _ spelled start word ends) expanded spells closing
          · cases expanded
      | string spelled plain spells =>
          exact items_of_aliasClause nominal (fun others smaller =>
            below others (by simp; omega))
            (.quoted _ _ spelled plain.1) expanded spells closing
      | number | comma | colon | paren | brace => cases expanded

end Expansion

/-! ## The macro and the parser -/

/--
What the macro expands to, the parser returns from every text in which the
same tokens are plainly spelled, where the variables are named like the fields
they hold.
-/
theorem parse_of_query {scope : Scope} {tokens : Tokens}
    {expansion : Query} {text : String} (nominal : scope.Nominal)
    (expanded : query scope tokens = some expansion)
    (spelled : Spelled tokens text) :
    Query.parse text = .ok (.ok expansion) := by
  refine parse_of_renders ?_
  unfold query at expanded
  split at expanded
  · obtain ⟨items, selected, rfl⟩ := Option.map_eq_some_iff.mp expanded
    cases spelled with
    | brace opens within closes spells =>
        cases spells
        obtain ⟨_, rfl, read⟩ := selects_denoted nominal selected within
          (starts_iff.mpr ⟨_, closes⟩)
        exact ⟨_, _, opens, read, closes⟩
  · cases expanded

/-- The tokens of a query with an alias, filters and fields below. -/
def pagedTokens : Tokens :=
  .brace
    (.ident "users" (.ident "as" (.string "all" (.paren
      (.ident "take" (.colon (.number 5 (.comma
        (.ident "after" (.colon (.ident "bob" .nil)))))))
      (.brace (.ident "name" (.comma .nil)) .nil))))) .nil

/-- One variable, which holds its own name. -/
def bobOnly : Scope := fun name =>
  if name = "bob" then some (.segment (.field "bob")) else none

theorem parse_of_query_paged :
    Query.parse
        "\x7busers as \"all\"(take: 5, after: bob)\x7bname,\x7d\x7d" =
      .ok (.ok ⟨[⟨.field "users", some (.field "all"),
        [.take 5, .after (.field "bob")],
        [⟨.field "name", none, [], []⟩]⟩]⟩) := by
  have nominal : bobOnly.Nominal := by
    intro name value known
    unfold bobOnly at known
    split at known
    · rename_i isBob
      cases known
      rw [isBob]
    · cases known
  have word (others : List Char) (all : others.all isWordChar = true) :
      ∀ char ∈ others, isWordChar char = true :=
    List.all_eq_true.mp all
  refine @parse_of_query bobOnly pagedTokens _ _ nominal ?_ ?_
  · simp [query, pagedTokens, selects, aliasClause, takeAlias, filterClause,
      filterList, operand, filterOf, subselectClause, done, isIdent, bobOnly]
  · have filters : Spells (.ident "take" (.colon (.number 5 (.comma
        (.ident "after" (.colon (.ident "bob" .nil)))))))
        "take: 5, after: bob)\x7bname,\x7d\x7d".toList
        ")\x7bname,\x7d\x7d".toList :=
      @Spells.ident _ ['a', 'k', 'e'] _ _ 't' _ rfl rfl (word _ rfl) rfl
        (.colon ⟨_, rfl, rfl⟩ (.number
          ⟨['5'], _, rfl, by decide, List.all_eq_true.mp rfl,
            rfl, rfl, rfl⟩
          (.comma ⟨_, rfl, rfl⟩
            (@Spells.ident _ ['f', 't', 'e', 'r'] _ _ 'a' _ rfl rfl
              (word _ rfl) rfl
              (.colon ⟨_, rfl, rfl⟩
                (@Spells.ident _ ['o', 'b'] _ _ 'b' _ rfl rfl
                  (word _ rfl) rfl
                  .nil))))))
    have fields : Spells (.ident "name" (.comma .nil))
        "name,\x7d\x7d".toList "\x7d\x7d".toList :=
      @Spells.ident _ ['a', 'm', 'e'] _ _ 'n' _ rfl rfl (word _ rfl) rfl
        (.comma ⟨_, rfl, rfl⟩ .nil)
    exact .brace ⟨_, rfl, rfl⟩
      (@Spells.ident _ ['s', 'e', 'r', 's'] _ _ 'u' _ rfl rfl (word _ rfl) rfl
        (@Spells.ident _ ['s'] _ _ 'a' _ rfl rfl (word _ rfl) rfl
          (@Spells.string _ ['a', 'l', 'l'] _ _ _ rfl (by decide)
            (.paren ⟨_, rfl, rfl⟩ filters ⟨_, rfl, rfl⟩
              (.brace ⟨_, rfl, rfl⟩ fields ⟨_, rfl, rfl⟩ .nil)))))
      ⟨_, rfl, rfl⟩ .nil

end Cdoc.Query.Macro
