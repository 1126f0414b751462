import Mathlib.Data.List.Forall2
import Cdoc.Foundation.Descent

/-!
# Runs with a callback

A computation hands values to a callback which has a state of its own and
may fail.  The callback can be replaced by one which also keeps a log of
what it is given.  A *trace* relates the two runs: they end alike, the log is
the beginning of a script, and where the run succeeds it is the whole script
and the calls alone lead to the same state.

A computation *delegates* a script when its calls are all it does to the
state, also where it fails: what has been done is a first part of the script.

Two further properties concern a single run: every successful outcome is
proper, and there is a successful outcome, which is proper.  The rules of
this module compose all four along sequences.
-/

namespace Cdoc.Foundation

section Traces

variable {ε σ τ α β κ ρ : Type}

/-- An outcome with another state. -/
def mapState (change : σ → τ) :
    EStateM.Result ε σ α → EStateM.Result ε τ α
  | .ok value state => .ok value (change state)
  | .error failure state => .error failure (change state)

/-- The callback which appends what it is given to a log. -/
def logged (callback : κ → EStateM ε σ Unit) (call : κ) :
    EStateM ε (σ × List κ) Unit :=
  fun state => mapState (·, state.2 ++ [call]) (callback call state.1)

/-- The calls alone, one after the other. -/
def callAll (callback : κ → EStateM ε σ Unit) :
    List κ → EStateM ε σ Unit
  | [] => pure ()
  | call :: calls => do
      callback call
      callAll callback calls

theorem callAll_cons_eq_ok_iff {callback : κ → EStateM ε σ Unit}
    {call : κ} {calls : List κ} {state final : σ} :
    callAll callback (call :: calls) state = .ok () final ↔
      ∃ middle, callback call state = .ok () middle ∧
        callAll callback calls middle = .ok () final := by
  have unfolded : callAll callback (call :: calls) state =
      EStateM.bind (callback call) (fun _ => callAll callback calls)
        state :=
    rfl
  rw [unfolded, EStateM.bind]
  cases callback call state with
  | ok value after => simp
  | error failure after => simp

theorem callAll_append {callback : κ → EStateM ε σ Unit}
    {calls more : List κ} {state middle final : σ}
    (first : callAll callback calls state = .ok () middle)
    (second : callAll callback more middle = .ok () final) :
    callAll callback (calls ++ more) state = .ok () final := by
  induction calls generalizing state with
  | nil =>
      cases first
      exact second
  | cons call calls induction =>
      rcases callAll_cons_eq_ok_iff.mp first with ⟨next, called, others⟩
      exact callAll_cons_eq_ok_iff.mpr ⟨next, called, induction others⟩

/--
The run with the log ends as the run without it.  Its calls are the first
ones of the script.  On success they are all of them, they alone lead to the
same state, and the result is proper.
-/
def Traces (mark : κ → ρ) (callback : κ → EStateM ε σ Unit)
    (plain : EStateM ε σ α) (traced : EStateM ε (σ × List κ) α)
    (script : List ρ) (post : α → Prop) : Prop :=
  ∀ state log, ∃ calls,
    traced (state, log) = mapState (·, log ++ calls) (plain state) ∧
      calls.map mark <+: script ∧
      ∀ value after, plain state = .ok value after →
        calls.map mark = script ∧
          callAll callback calls state = .ok () after ∧ post value

variable {mark : κ → ρ} {callback : κ → EStateM ε σ Unit}
variable {post : α → Prop}

theorem traces_pure {value : α} (proper : post value) :
    Traces mark callback (pure value) (pure value) [] post := by
  intro state log
  refine ⟨[], ?_, List.nil_prefix, ?_⟩
  · rw [List.append_nil]
    rfl
  · rintro value after success
    cases success
    exact ⟨rfl, rfl, proper⟩

theorem traces_throw (failure : ε) (script : List ρ) :
    Traces mark callback (throw failure : EStateM ε σ α)
      (throw failure : EStateM ε (σ × List κ) α) script post := by
  intro state log
  refine ⟨[], ?_, List.nil_prefix, ?_⟩
  · rw [List.append_nil]
    rfl
  · rintro value after success
    cases success

theorem traces_logged (call : κ) :
    Traces mark callback (callback call) (logged callback call)
      [mark call] (fun _ => True) := by
  intro state log
  refine ⟨[call], rfl, List.prefix_refl _, ?_⟩
  intro value after success
  refine ⟨rfl, ?_, trivial⟩
  show EStateM.bind (callback call) (fun _ => pure ()) state = _
  unfold EStateM.bind
  rw [success]
  rfl

/-- A sequence follows one script and then the other. -/
theorem Traces.bind {plain : EStateM ε σ α}
    {traced : EStateM ε (σ × List κ) α} {script : List ρ}
    {next : α → EStateM ε σ β}
    {tracedNext : α → EStateM ε (σ × List κ) β} {scriptNext : List ρ}
    {postNext : β → Prop}
    (first : Traces mark callback plain traced script post)
    (second : ∀ value, post value →
      Traces mark callback (next value) (tracedNext value) scriptNext
        postNext) :
    Traces mark callback (plain >>= next) (traced >>= tracedNext)
      (script ++ scriptNext) postNext := by
  intro state log
  obtain ⟨calls, same, begun, done⟩ := first state log
  show ∃ more, EStateM.bind traced tracedNext (state, log) =
    mapState _ (EStateM.bind plain next state) ∧ _ ∧
      ∀ value after, EStateM.bind plain next state = .ok value after → _
  unfold EStateM.bind
  rw [same]
  cases run : plain state with
  | error failure after =>
      refine ⟨calls, rfl, begun.trans (List.prefix_append _ _), ?_⟩
      rintro value other success
      cases success
  | ok value after =>
      obtain ⟨whole, called, proper⟩ := done value after run
      obtain ⟨more, sameNext, begunNext, doneNext⟩ :=
        second value proper after (log ++ calls)
      refine ⟨calls ++ more, ?_, ?_, ?_⟩
      · rw [← List.append_assoc]
        exact sameNext
      · rw [List.map_append, whole]
        exact (List.prefix_append_right_inj script).mpr begunNext
      · intro result final success
        obtain ⟨wholeNext, calledNext, properNext⟩ :=
          doneNext result final success
        exact ⟨by rw [List.map_append, whole, wholeNext],
          callAll_append called calledNext, properNext⟩

theorem Traces.imp {plain : EStateM ε σ α}
    {traced : EStateM ε (σ × List κ) α} {script : List ρ}
    {other : α → Prop} (traces : Traces mark callback plain traced script post)
    (implied : ∀ value, post value → other value) :
    Traces mark callback plain traced script other := by
  intro state log
  obtain ⟨calls, same, begun, done⟩ := traces state log
  refine ⟨calls, same, begun, ?_⟩
  intro value after success
  obtain ⟨whole, called, proper⟩ := done value after success
  exact ⟨whole, called, implied value proper⟩

end Traces

section Delegation

variable {ε σ α β κ ρ : Type}

theorem callAll_append_of_ok {callback : κ → EStateM ε σ Unit}
    {calls : List κ} {state middle : σ}
    (first : callAll callback calls state = .ok () middle)
    (more : List κ) :
    callAll callback (calls ++ more) state = callAll callback more middle := by
  induction calls generalizing state with
  | nil =>
      cases first
      rfl
  | cons call calls induction =>
      rcases callAll_cons_eq_ok_iff.mp first with ⟨next, called, others⟩
      rw [← induction others]
      show EStateM.bind (callback call)
        (fun _ => callAll callback (calls ++ more)) state = _
      unfold EStateM.bind
      rw [called]

/--
The run changes the state by its calls alone.  They stand for a first part of
the script, in order.  On success it is the whole script.  A run which fails
has either done its calls before, or fails like the last of them.
-/
def Delegates (means : κ → ρ → Prop) (callback : κ → EStateM ε σ Unit)
    (run : EStateM ε σ α) (script : List ρ) (post : α → Prop) : Prop :=
  ∀ state, ∃ calls done, List.Forall₂ means calls done ∧
    done <+: script ∧
    (∀ value after, run state = .ok value after →
      done = script ∧ callAll callback calls state = .ok () after ∧
        post value) ∧
    ∀ failure after, run state = .error failure after →
      callAll callback calls state = .ok () after ∨
        callAll callback calls state = .error failure after

variable {means : κ → ρ → Prop} {callback : κ → EStateM ε σ Unit}
variable {post : α → Prop}

theorem delegates_pure {value : α} (proper : post value) :
    Delegates means callback (pure value) [] post := by
  intro state
  refine ⟨[], [], List.Forall₂.nil, List.nil_prefix, ?_, ?_⟩
  · rintro value after success
    cases success
    exact ⟨rfl, rfl, proper⟩
  · rintro failure after failed
    cases failed

theorem delegates_throw (failure : ε) (script : List ρ) :
    Delegates means callback (throw failure : EStateM ε σ α) script
      post := by
  intro state
  refine ⟨[], [], List.Forall₂.nil, List.nil_prefix, ?_, ?_⟩
  · rintro value after success
    cases success
  · rintro other after failed
    cases failed
    exact Or.inl rfl

theorem delegates_call {call : κ} {part : ρ} (meant : means call part) :
    Delegates means callback (callback call) [part] (fun _ => True) := by
  intro state
  refine ⟨[call], [part], List.Forall₂.cons meant List.Forall₂.nil,
    List.prefix_refl _, ?_, ?_⟩
  · intro value after success
    exact ⟨rfl, callAll_cons_eq_ok_iff.mpr ⟨after, success, rfl⟩, trivial⟩
  · intro failure after failed
    right
    show EStateM.bind (callback call) (fun _ => pure ()) state = _
    unfold EStateM.bind
    rw [failed]

/-- A sequence makes the calls of one part and then those of the other. -/
theorem Delegates.bind {run : EStateM ε σ α} {script : List ρ}
    {next : α → EStateM ε σ β} {scriptNext : List ρ}
    {postNext : β → Prop}
    (first : Delegates means callback run script post)
    (second : ∀ value, post value →
      Delegates means callback (next value) scriptNext postNext) :
    Delegates means callback (run >>= next) (script ++ scriptNext)
      postNext := by
  intro state
  obtain ⟨calls, done, meant, begun, succeeds, fails⟩ := first state
  show ∃ calls done, _ ∧ _ ∧
    (∀ value after, EStateM.bind run next state = .ok value after → _) ∧
      ∀ failure after,
        EStateM.bind run next state = .error failure after → _
  unfold EStateM.bind
  cases outcome : run state with
  | error failure after =>
      refine ⟨calls, done, meant, begun.trans (List.prefix_append _ _),
        ?_, ?_⟩
      · rintro value other success
        cases success
      · rintro other last failed
        cases failed
        exact fails failure after outcome
  | ok value middle =>
      obtain ⟨rfl, called, proper⟩ := succeeds value middle outcome
      obtain ⟨more, doneNext, meantNext, begunNext, succeedsNext,
        failsNext⟩ := second value proper middle
      refine ⟨calls ++ more, done ++ doneNext,
        List.rel_append meant meantNext,
        (List.prefix_append_right_inj done).mpr begunNext, ?_, ?_⟩
      · intro result after success
        obtain ⟨rfl, calledNext, properNext⟩ :=
          succeedsNext result after success
        exact ⟨rfl, callAll_append called calledNext, properNext⟩
      · intro failure after failed
        rw [callAll_append_of_ok called]
        exact failsNext failure after failed

theorem Delegates.imp {run : EStateM ε σ α} {script : List ρ}
    {other : α → Prop}
    (delegates : Delegates means callback run script post)
    (implied : ∀ value, post value → other value) :
    Delegates means callback run script other := by
  intro state
  obtain ⟨calls, done, meant, begun, succeeds, fails⟩ := delegates state
  refine ⟨calls, done, meant, begun, ?_, fails⟩
  intro value after success
  obtain ⟨whole, called, proper⟩ := succeeds value after success
  exact ⟨whole, called, implied value proper⟩

end Delegation

section Outcomes

variable {ε σ α β : Type} {run : EStateM ε σ α} {post : α → Prop}
variable {next : α → EStateM ε σ β} {postNext : β → Prop}

/-- Whenever the run succeeds its value is proper. -/
def Ensures (run : EStateM ε σ α) (post : α → Prop) : Prop :=
  ∀ state value after, run state = .ok value after → post value

/-- The run succeeds with a proper value. -/
def Succeeds (run : EStateM ε σ α) (post : α → Prop) : Prop :=
  ∀ state, ∃ value after, run state = .ok value after ∧ post value

theorem ensures_pure {value : α} (proper : post value) :
    Ensures (pure value : EStateM ε σ α) post := by
  rintro state result after success
  cases success
  exact proper

theorem ensures_throw (failure : ε) :
    Ensures (throw failure : EStateM ε σ α) post := by
  rintro state result after success
  cases success

theorem ensures_true : Ensures run (fun _ => True) :=
  fun _ _ _ _ => trivial

theorem Ensures.bind (first : Ensures run post)
    (second : ∀ value, post value → Ensures (next value) postNext) :
    Ensures (run >>= next) postNext := by
  intro state result after success
  have split : EStateM.bind run next state = .ok result after := success
  unfold EStateM.bind at split
  cases outcome : run state with
  | ok value middle =>
      rw [outcome] at split
      exact second value (first state value middle outcome) middle result
        after split
  | error failure middle =>
      rw [outcome] at split
      cases split

/-- Behind a run only its proper values count. -/
theorem Ensures.bind_congr {other : α → EStateM ε σ β}
    (first : Ensures run post)
    (same : ∀ value, post value → next value = other value) :
    run >>= next = run >>= other := by
  funext state
  show EStateM.bind run next state = EStateM.bind run other state
  unfold EStateM.bind
  cases outcome : run state with
  | ok value middle =>
      exact congrFun (same value (first state value middle outcome)) middle
  | error failure middle => rfl

theorem Delegates.ensures {κ ρ : Type} {means : κ → ρ → Prop}
    {callback : κ → EStateM ε σ Unit} {script : List ρ}
    (delegates : Delegates means callback run script post) :
    Ensures run post := by
  intro state value after success
  obtain ⟨_, _, _, _, succeeds, _⟩ := delegates state
  exact (succeeds value after success).2.2

theorem succeeds_pure {value : α} (proper : post value) :
    Succeeds (pure value : EStateM ε σ α) post :=
  fun state => ⟨value, state, rfl, proper⟩

theorem Succeeds.bind (first : Succeeds run post)
    (second : ∀ value, post value → Succeeds (next value) postNext) :
    Succeeds (run >>= next) postNext := by
  intro state
  obtain ⟨value, middle, done, proper⟩ := first state
  obtain ⟨result, after, doneNext, properNext⟩ :=
    second value proper middle
  refine ⟨result, after, ?_, properNext⟩
  show EStateM.bind run next state = _
  unfold EStateM.bind
  rw [done]
  exact doneNext

end Outcomes

end Cdoc.Foundation
