import Cdoc.Foundation.Descent
import Mathlib.Order.Basic

/-!
# Progress of a descent

A descent moves its state along a relation, such as an order of positions.
A loop or a recursion is a descent in terms of a descent which it calls.
When the called descent is started only behind the state in which the caller
was started, and only finitely many states lie behind each other, the
equation which defines the loop without a bound on its rounds has exactly one
solution.  A loop with enough rounds computes it.

The last part is about errors: what holds of the state and of the error where
a descent stops.
-/

namespace Cdoc.Foundation

variable {ε σ α β : Type}

/-! ## Outcomes of a sequence -/

section Outcomes

variable {first : Descent ε σ α} {next : α → Descent ε σ β}
variable {state final : σ}

/-- A sequence which returns ran both of its parts. -/
theorem exists_of_bind_eq_ok {result : β}
    (run : (first >>= next) state = .ok result final) :
    ∃ value middle, first state = .ok value middle ∧
      next value middle = .ok result final := by
  change EStateM.bind first next state = _ at run
  unfold EStateM.bind at run
  cases started : first state with
  | ok value middle =>
      rw [started] at run
      exact ⟨value, middle, rfl, run⟩
  | error stop middle =>
      rw [started] at run
      cases run

/-- A sequence fails in its first part or in its second one. -/
theorem exists_of_bind_eq_error {stop : Stop ε}
    (run : (first >>= next) state = .error stop final) :
    first state = .error stop final ∨
      ∃ value middle, first state = .ok value middle ∧
        next value middle = .error stop final := by
  change EStateM.bind first next state = _ at run
  unfold EStateM.bind at run
  cases started : first state with
  | ok value middle =>
      rw [started] at run
      exact Or.inr ⟨value, middle, rfl, run⟩
  | error other middle =>
      rw [started] at run
      cases run
      exact Or.inl rfl

end Outcomes

/-! ## Moves -/

/-- Wherever the descent returns, it has moved along the relation. -/
def Moves (along : σ → σ → Prop) (descent : Descent ε σ α) : Prop :=
  ∀ state value final, descent state = .ok value final → along state final

section Moves

variable {along further whole : σ → σ → Prop}

theorem Moves.bind [Trans along further whole] {first : Descent ε σ α}
    {next : α → Descent ε σ β} (moves : Moves along first)
    (movesNext : ∀ value, Moves further (next value)) :
    Moves whole (first >>= next) := by
  intro state result final run
  obtain ⟨value, middle, started, ended⟩ := exists_of_bind_eq_ok run
  exact Trans.trans (moves state value middle started)
    (movesNext value middle result final ended)

theorem Moves.weaken {descent : Descent ε σ α} (moves : Moves along descent)
    (imp : ∀ state later, along state later → further state later) :
    Moves further descent :=
  fun state value final run => imp state final (moves state value final run)

theorem Moves.ite {condition : Prop} [Decidable condition]
    {descent other : Descent ε σ α} (moves : Moves along descent)
    (movesOther : Moves along other) :
    Moves along (if condition then descent else other) := by
  by_cases holds : condition
  · rw [if_pos holds]
    exact moves
  · rw [if_neg holds]
    exact movesOther

theorem moves_throw (stop : Stop ε) :
    Moves along (throw stop : Descent ε σ α) := by
  intro state value final run
  cases run

variable [Preorder σ]

theorem moves_pure (value : α) :
    Moves (· ≤ ·) (pure value : Descent ε σ α) := by
  intro state result final run
  cases run
  exact le_rfl

theorem moves_get : Moves (· ≤ ·) (get : Descent ε σ σ) := by
  intro state result final run
  cases run
  exact le_rfl

theorem Moves.le {descent : Descent ε σ α}
    (moves : Moves (· < ·) descent) : Moves (· ≤ ·) descent :=
  moves.weaken fun _ _ => le_of_lt

theorem Moves.bind_le [Trans (· ≤ ·) along along] {first : Descent ε σ α}
    {next : α → Descent ε σ β} (moves : Moves (· ≤ ·) first)
    (movesNext : ∀ value, Moves along (next value)) :
    Moves along (first >>= next) :=
  moves.bind movesNext

theorem Moves.bind_lt {first : Descent ε σ α} {next : α → Descent ε σ β}
    (moves : Moves (· < ·) first)
    (movesNext : ∀ value, Moves (· ≤ ·) (next value)) :
    Moves (· < ·) (first >>= next) :=
  moves.bind movesNext

end Moves

/-! ## Calls -/

section Calls

variable [Preorder σ]

/--
The descent which is called matters only in the states which the relation
reaches from the state at the start.
-/
def Calls (along : σ → σ → Prop)
    (body : Descent ε σ β → Descent ε σ α) : Prop :=
  ∀ state called other, Moves (· ≤ ·) other →
    (∀ later, along state later → called later = other later) →
    body called state = body other state

variable {γ : Type} {along further whole : σ → σ → Prop}

theorem calls_self :
    Calls (· ≤ ·) (fun called : Descent ε σ β => called) :=
  fun state _ _ _ agree => agree state le_rfl

theorem calls_const (descent : Descent ε σ α) :
    Calls along (fun _ : Descent ε σ β => descent) :=
  fun _ _ _ _ _ => rfl

/-- The second part is called where the first one has arrived. -/
theorem Calls.bind [Trans along further whole]
    {first : Descent ε σ γ → Descent ε σ α}
    {next : Descent ε σ γ → α → Descent ε σ β}
    (calls : Calls whole first)
    (moves : ∀ called, Moves (· ≤ ·) called → Moves along (first called))
    (callsNext : ∀ value, Calls further (fun called => next called value)) :
    Calls whole (fun called => first called >>= next called) := by
  intro state called other movesOther agree
  have same := calls state called other movesOther agree
  show EStateM.bind (first called) (next called) state =
    EStateM.bind (first other) (next other) state
  unfold EStateM.bind
  rw [same]
  cases run : first other state with
  | error stop middle => rfl
  | ok value middle =>
      refine callsNext value middle called other movesOther ?_
      intro later reached
      exact agree later (Trans.trans
        (moves other movesOther state value middle run) reached)

theorem Calls.bind_le [Trans (· ≤ ·) along along]
    {first : Descent ε σ γ → Descent ε σ α}
    {next : Descent ε σ γ → α → Descent ε σ β}
    (calls : Calls along first)
    (moves : ∀ called, Moves (· ≤ ·) called →
      Moves (· ≤ ·) (first called))
    (callsNext : ∀ value, Calls along (fun called => next called value)) :
    Calls along (fun called => first called >>= next called) :=
  calls.bind moves callsNext

theorem Calls.bind_lt {first : Descent ε σ γ → Descent ε σ α}
    {next : Descent ε σ γ → α → Descent ε σ β}
    (calls : Calls (· < ·) first)
    (moves : ∀ called, Moves (· ≤ ·) called →
      Moves (· < ·) (first called))
    (callsNext : ∀ value, Calls (· ≤ ·) (fun called => next called value)) :
    Calls (· < ·) (fun called => first called >>= next called) :=
  calls.bind moves callsNext

theorem Calls.ite {condition : Prop} [Decidable condition]
    {body other : Descent ε σ β → Descent ε σ α}
    (calls : Calls along body) (callsOther : Calls along other) :
    Calls along
      (fun called => if condition then body called else other called) := by
  by_cases holds : condition
  · simpa only [if_pos holds] using calls
  · simpa only [if_neg holds] using callsOther

end Calls

/-! ## Loops -/

section Loops

variable [Preorder σ] {body : Descent ε σ α → Descent ε σ α}
variable {rounds : Nat → Descent ε σ α} {left : σ → Nat}

/--
The equation of the loop has exactly one solution, and a number of rounds
which exceeds what is left computes it.
-/
def Terminates (body : Descent ε σ α → Descent ε σ α)
    (rounds : Nat → Descent ε σ α) (left : σ → Nat) : Prop :=
  ∃ loop, loop = body loop ∧ (∀ other, other = body other → other = loop) ∧
    ∀ count state, left state < count → rounds count state = loop state

/-- More rounds than enough make no difference. -/
theorem rounds_eq_rounds (calls : Calls (· < ·) body)
    (unrolls : ∀ count, rounds (count + 1) = body (rounds count))
    (moves : ∀ count, Moves (· ≤ ·) (rounds count))
    (decreases : ∀ state later, state < later → left later < left state)
    {count other : Nat} {state : σ} (enough : left state < count)
    (enoughOther : left state < other) :
    rounds count state = rounds other state := by
  induction count generalizing other state with
  | zero => exact absurd enough (Nat.not_lt_zero _)
  | succ count induction =>
      cases other with
      | zero => exact absurd enoughOther (Nat.not_lt_zero _)
      | succ other =>
          rw [unrolls, unrolls]
          -- Both loops go on only behind this state, with less left.
          refine calls state _ _ (moves other) ?_
          intro later behind
          have shorter := decreases state later behind
          exact induction (by omega) (by omega)

/-- Two solutions of the equation are the same. -/
theorem loop_unique (calls : Calls (· < ·) body)
    (decreases : ∀ state later, state < later → left later < left state)
    {loop other : Descent ε σ α} (moves : Moves (· ≤ ·) loop)
    (solves : loop = body loop) (solvesOther : other = body other) :
    other = loop := by
  have agree : ∀ bound state, left state < bound →
      other state = loop state := by
    intro bound
    induction bound with
    | zero =>
        intro state impossible
        exact absurd impossible (Nat.not_lt_zero _)
    | succ bound induction =>
        intro state short
        rw [solves, solvesOther]
        refine calls state other loop moves ?_
        intro later behind
        exact induction later
          (Nat.lt_of_lt_of_le (decreases state later behind)
            (Nat.le_of_lt_succ short))
  funext state
  exact agree _ state (Nat.lt_succ_self _)

theorem terminates_of_calls (calls : Calls (· < ·) body)
    (unrolls : ∀ count, rounds (count + 1) = body (rounds count))
    (moves : ∀ count, Moves (· ≤ ·) (rounds count))
    (decreases : ∀ state later, state < later → left later < left state) :
    Terminates body rounds left := by
  have stable := @rounds_eq_rounds ε σ α _ body rounds left calls unrolls
    moves decreases
  let loop : Descent ε σ α := fun state => rounds (left state + 1) state
  have movesLoop : Moves (· ≤ ·) loop := fun state value final run =>
    moves (left state + 1) state value final run
  have solves : loop = body loop := by
    funext state
    show rounds (left state + 1) state = _
    rw [unrolls]
    refine calls state _ _ movesLoop ?_
    intro later behind
    exact stable (decreases state later behind) (Nat.lt_succ_self _)
  refine ⟨loop, solves, ?_, ?_⟩
  · intro other solvesOther
    exact loop_unique calls decreases movesLoop solves solvesOther
  · intro count state enough
    exact stable enough (Nat.lt_succ_self _)

end Loops

/-! ## Errors -/

/-- What holds where the descent returns, and where it stops with an error. -/
structure Contract (before : σ → Prop) (descent : Descent ε σ α)
    (after : α → σ → Prop) (failed : ε → σ → Prop) : Prop where
  returns : ∀ state value final, before state →
    descent state = .ok value final → after value final
  fails : ∀ state error final, before state →
    descent state = .error (.error error) final → failed error final

section Contract

variable {before : σ → Prop} {after : α → σ → Prop}
variable {failed : ε → σ → Prop}

theorem Contract.bind {first : Descent ε σ α} {next : α → Descent ε σ β}
    {done : β → σ → Prop} (contract : Contract before first after failed)
    (contractNext : ∀ value, Contract (after value) (next value) done failed) :
    Contract before (first >>= next) done failed where
  returns := by
    intro state result final start run
    obtain ⟨value, middle, started, ended⟩ := exists_of_bind_eq_ok run
    exact (contractNext value).returns middle result final
      (contract.returns state value middle start started) ended
  fails := by
    intro state error final start run
    rcases exists_of_bind_eq_error run with stopped | passed
    · exact contract.fails state error final start stopped
    · obtain ⟨value, middle, started, stopped⟩ := passed
      exact (contractNext value).fails middle error final
        (contract.returns state value middle start started) stopped

theorem Contract.weaken {descent : Descent ε σ α} {before' : σ → Prop}
    {after' : α → σ → Prop} (contract : Contract before descent after failed)
    (start : ∀ state, before' state → before state)
    (stop : ∀ value state, after value state → after' value state) :
    Contract before' descent after' failed where
  returns := fun state value final ready run => stop value final
    (contract.returns state value final (start state ready) run)
  fails := fun state error final ready run =>
    contract.fails state error final (start state ready) run

theorem contract_pure (value : α) (holds : ∀ state, before state →
    after value state) :
    Contract before (pure value : Descent ε σ α) after failed where
  returns := by
    intro state result final start run
    cases run
    exact holds state start
  fails := by
    intro state error final _ run
    cases run

theorem Contract.ite {condition : Prop} [Decidable condition]
    {descent other : Descent ε σ α}
    (contract : condition → Contract before descent after failed)
    (contractOther : ¬ condition → Contract before other after failed) :
    Contract before (if condition then descent else other) after failed := by
  by_cases holds : condition
  · rw [if_pos holds]
    exact contract holds
  · rw [if_neg holds]
    exact contractOther holds

/-- The state may be looked at. -/
theorem Contract.get {descent : σ → Descent ε σ α}
    (contract : ∀ state, before state →
      Contract (fun other => other = state) (descent state) after failed) :
    Contract before (get >>= descent) after failed where
  returns := fun state value final start run =>
    (contract state start).returns state value final rfl run
  fails := fun state error final start run =>
    (contract state start).fails state error final rfl run

end Contract

end Cdoc.Foundation
