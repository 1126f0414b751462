import Cdoc.Foundation.Checked

/-!
# Recursive descent

A descent moves a state over a text.  It returns a value, stops with an error
or panics.  A grammar describes what may be read as a relation between a
text, a value and the rest of the text.

Where a part of a grammar may be left out, the relation alone does not say
which of its readings is meant.  A descent *reads* a relation with respect
to what may follow when it never panics, returns only readings, and returns
the reading which is followed that way, if there is one.  The rules of this
module compose such descents along sequences and choices.
-/

namespace Cdoc.Foundation

/-- The ways in which a descent stops. -/
inductive Stop (ε : Type) where
  | error (error : ε)
  | panic (panic : Panic)
deriving DecidableEq, Repr

/-- A fallible computation on a mutable state. -/
abbrev Descent (ε σ : Type) := EStateM (Stop ε) σ

section Rules

variable {ε σ τ α β : Type}

/-- The outcome is the only reading of a text with a proper continuation. -/
def Decides (Before : σ → τ → Prop)
    (result : EStateM.Result (Stop ε) σ α) (reading : α → τ → Prop)
    (follow : τ → Prop) : Prop :=
  match result with
  | .ok value state => ∃ rest, Before state rest ∧ reading value rest ∧
      ∀ other after, reading other after → follow after →
        other = value ∧ after = rest
  | .error (.error _) _ => ∀ other after, reading other after →
      ¬ follow after
  | .error (.panic _) _ => False

/-- The descent decides the relation wherever it is ready to start. -/
def Reads (Before : σ → τ → Prop) (ready : τ → Prop)
    (descent : Descent ε σ α) (reading : τ → α → τ → Prop)
    (follow : τ → Prop) : Prop :=
  ∀ state text, Before state text → ready text →
    Decides Before (descent state) (reading text) follow

variable {Before : σ → τ → Prop} {ready : τ → Prop}
variable {reading : τ → α → τ → Prop} {follow : τ → Prop}

/--
A sequence.  The two parts make up the relation, and where it is followed
properly, its first part is followed properly too.
-/
theorem Reads.bind {first : Descent ε σ α} {next : α → Descent ε σ β}
    {readyNext : α → τ → Prop} {readingNext : α → τ → β → τ → Prop}
    {followNext : τ → Prop} {whole : τ → β → τ → Prop}
    (readsFirst : Reads Before ready first reading follow)
    (readsNext : ∀ value,
      Reads Before (readyNext value) (next value) (readingNext value)
        followNext)
    (goesOn : ∀ text value middle, ready text →
      reading text value middle → readyNext value middle)
    (sound : ∀ text value middle result rest,
      reading text value middle → readingNext value middle result rest →
        whole text result rest)
    (complete : ∀ text result rest, whole text result rest →
      followNext rest → ∃ value middle, reading text value middle ∧
        follow middle ∧ readingNext value middle result rest) :
    Reads Before ready (first >>= next) whole followNext := by
  intro state text before start
  have firstDecides := readsFirst state text before start
  show Decides Before (EStateM.bind first next state) _ _
  unfold EStateM.bind
  cases run : first state with
  | error stop after =>
      rw [run] at firstDecides
      cases stop with
      | panic failure => exact firstDecides
      | error failure =>
          intro result rest read proper
          obtain ⟨value, middle, read, follows, -⟩ :=
            complete text result rest read proper
          exact firstDecides value middle read follows
  | ok value after =>
      rw [run] at firstDecides
      obtain ⟨middle, beforeMiddle, read, unique⟩ := firstDecides
      have nextDecides := readsNext value after middle beforeMiddle
        (goesOn text value middle start read)
      -- Any other reading has the same first part.
      have same : ∀ result rest, whole text result rest →
          followNext rest → readingNext value middle result rest := by
        intro result rest read' proper
        obtain ⟨other, middle', read', follows, readNext⟩ :=
          complete text result rest read' proper
        obtain ⟨rfl, rfl⟩ := unique other middle' read' follows
        exact readNext
      show Decides Before (next value after) _ _
      cases runNext : next value after with
      | ok result final =>
          rw [runNext] at nextDecides
          obtain ⟨rest, beforeRest, readNext, uniqueNext⟩ := nextDecides
          refine ⟨rest, beforeRest,
            sound text value middle result rest read readNext, ?_⟩
          intro other after' read' proper
          exact uniqueNext other after' (same other after' read' proper)
            proper
      | error stop final =>
          rw [runNext] at nextDecides
          cases stop with
          | panic failure => exact nextDecides
          | error failure =>
              intro other after' read' proper
              exact nextDecides other after'
                (same other after' read' proper) proper

/-- A relation which has the same readings with proper continuations. -/
theorem Reads.weaken {descent : Descent ε σ α} {ready' : τ → Prop}
    {reading' : τ → α → τ → Prop} {follow' : τ → Prop}
    (reads : Reads Before ready descent reading follow)
    (start : ∀ text, ready' text → ready text)
    (sound : ∀ text value rest, reading text value rest →
      reading' text value rest)
    (complete : ∀ text value rest, reading' text value rest →
      follow' rest → reading text value rest ∧ follow rest) :
    Reads Before ready' descent reading' follow' := by
  intro state text before isReady
  have decides := reads state text before (start text isReady)
  cases run : descent state with
  | ok value after =>
      rw [run] at decides
      obtain ⟨rest, beforeRest, read, unique⟩ := decides
      refine ⟨rest, beforeRest, sound text value rest read, ?_⟩
      intro other after' read' proper
      obtain ⟨read', proper⟩ := complete text other after' read' proper
      exact unique other after' read' proper
  | error stop after =>
      rw [run] at decides
      cases stop with
      | panic failure => exact decides
      | error failure =>
          intro other after' read' proper
          obtain ⟨read', proper⟩ := complete text other after' read' proper
          exact decides other after' read' proper

/-- Fewer texts to start with, and fewer continuations. -/
theorem Reads.restrict {descent : Descent ε σ α} {ready' : τ → Prop}
    {follow' : τ → Prop}
    (reads : Reads Before ready descent reading follow)
    (start : ∀ text, ready' text → ready text)
    (proper : ∀ rest, follow' rest → follow rest) :
    Reads Before ready' descent reading follow' :=
  reads.weaken start (fun _ _ _ read => read)
    (fun _ _ rest read follows => ⟨read, proper rest follows⟩)

theorem reads_pure (ready : τ → Prop) (value : α) :
    Reads (ε := ε) Before ready (pure value)
      (fun text result rest => result = value ∧ rest = text) follow := by
  intro state text before start
  refine ⟨text, before, ⟨rfl, rfl⟩, ?_⟩
  rintro other after ⟨rfl, rfl⟩ _
  exact ⟨rfl, rfl⟩

/-- The value which was read is passed on in another form. -/
theorem Reads.map {descent : Descent ε σ α}
    (reads : Reads Before ready descent reading follow) (form : α → β) :
    Reads Before ready (descent >>= fun value => pure (form value))
      (fun text result rest => ∃ value, reading text value rest ∧
        result = form value) follow := by
  refine reads.bind
    (fun value => reads_pure (fun _ => True) (form value))
    (fun _ _ _ _ _ => trivial) ?_ ?_
  · rintro text value middle result rest read ⟨rfl, rfl⟩
    exact ⟨value, read, rfl⟩
  · rintro text result rest ⟨value, read, rfl⟩ proper
    exact ⟨value, rest, read, proper, rfl, rfl⟩

/-- The state may be looked at. -/
theorem Reads.get {descent : σ → Descent ε σ α}
    (reads : ∀ state text, Before state text → ready text →
      Decides Before (descent state state) (reading text) follow) :
    Reads Before ready (get >>= descent) reading follow :=
  reads

/-- One of two readings, as decided before. -/
theorem Reads.ite {condition : Prop} [Decidable condition]
    {descent other : Descent ε σ α} {readingOther : τ → α → τ → Prop}
    (reads : condition → Reads Before ready descent reading follow)
    (readsOther : ¬ condition →
      Reads Before ready other readingOther follow) :
    Reads Before ready (if condition then descent else other)
      (fun text value rest =>
        if condition then reading text value rest
        else readingOther text value rest) follow := by
  by_cases holds : condition
  · simpa only [if_pos holds] using reads holds
  · simpa only [if_neg holds] using readsOther holds

end Rules

end Cdoc.Foundation
