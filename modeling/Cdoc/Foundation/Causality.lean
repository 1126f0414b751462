import Mathlib.Logic.Function.Basic
import Cdoc.Foundation.Transitions

/-!
# Causality

Copies of one machine run beside each other, and what one of them emits may
be delivered to others.  An event precedes another one when it comes earlier
at the same copy, or is delivered there, or through other events.

A measure of the states which no step lowers gives two numbers to every
event, before it and behind it.  When a delivery does not lower the measure
either, it is known to grow along all chains of events.
-/

namespace Cdoc.Foundation.Machine

variable {Name State Action Event : Type} [DecidableEq Name]

/-- A machine for every name, each with a state of its own. -/
def copies (Name : Type) [DecidableEq Name]
    (machine : Machine State Action Event) :
    Machine (Name → State) (Name × Action) (Name × Event) where
  step states action :=
    match machine.step (states action.1) action.2 with
    | some (next, event) =>
        some (Function.update states action.1 next,
          event.map fun emitted => (action.1, emitted))
    | none => none

omit [DecidableEq Name] in
/-- The places of events which may know of one another. -/
inductive Precedes (delivers : Event → Event → Prop)
    (events : List (Name × Event)) : Nat → Nat → Prop
  | order {first second : Nat} {name : Name} {early late : Event}
      (earlier : first < second)
      (before : events[first]? = some (name, early))
      (after : events[second]? = some (name, late)) :
      Precedes delivers events first second
  | message {first second : Nat} {sender receiver : Name}
      {sent received : Event} (earlier : first < second)
      (before : events[first]? = some (sender, sent))
      (after : events[second]? = some (receiver, received))
      (delivered : delivers sent received) :
      Precedes delivers events first second
  | trans {first middle second : Nat}
      (begins : Precedes delivers events first middle)
      (ends : Precedes delivers events middle second) :
      Precedes delivers events first second

/-- An event of a copy, with the measure before and behind it. -/
structure Mark (Name Event : Type) where
  name : Name
  event : Event
  low : Nat
  high : Nat

/-- The machine at which an event is emitted, and the event. -/
def Mark.emitted (mark : Mark Name Event) : Name × Event :=
  (mark.name, mark.event)

variable {machine : Machine State Action Event}
variable {Invariant : State → Prop} {measure : State → Nat}
variable {Good : Event → Nat → Nat → Prop}

/--
By induction on the run: at every copy the measure grows from mark to mark.
-/
theorem exists_marks
    (kept : ∀ state action next event, Invariant state →
      machine.step state action = some (next, event) →
        Invariant next ∧ measure state ≤ measure next ∧
          ∀ emitted ∈ event, Good emitted (measure state) (measure next))
    {states final : Name → State} {actions : List (Name × Action)}
    {events : List (Name × Event)}
    (initially : ∀ name, Invariant (states name))
    (ran : (copies Name machine).run states actions = some (final, events)) :
    ∃ marks : List (Mark Name Event), marks.map Mark.emitted = events ∧
      (∀ mark ∈ marks, measure (states mark.name) ≤ mark.low ∧
        mark.low ≤ mark.high ∧ Good mark.event mark.low mark.high) ∧
      marks.Pairwise fun early late =>
        early.name = late.name → early.high ≤ late.low := by
  induction actions generalizing states events with
  | nil =>
      cases ran
      exact ⟨[], rfl, by simp, .nil⟩
  | cons action rest induction =>
      obtain ⟨middle, emitted, later, stepped, rests, rfl⟩ :=
        run_cons_eq_some_iff.mp ran
      simp only [copies] at stepped
      split at stepped
      · rename_i next event moved
        cases stepped
        obtain ⟨holds, grows, good⟩ :=
          kept _ _ _ _ (initially action.1) moved
        obtain ⟨marks, same, sound, ordered⟩ := induction (fun name => by
          rw [Function.update_apply]
          split
          · exact holds
          · exact initially name) rests
        -- the measures of this copy have grown, and no other has changed
        have raised : ∀ name, measure (states name) ≤
            measure (Function.update states action.1 next name) := by
          intro name
          rw [Function.update_apply]
          split
          · rename_i this
            rw [this]
            exact grows
          · exact Nat.le_refl _
        have above : ∀ mark ∈ marks, measure (states mark.name) ≤ mark.low ∧
            mark.low ≤ mark.high ∧ Good mark.event mark.low mark.high :=
          fun mark member =>
            ⟨Nat.le_trans (raised mark.name) (sound mark member).1,
              (sound mark member).2⟩
        cases event with
        | none => exact ⟨marks, same, above, ordered⟩
        | some event =>
            refine ⟨⟨action.1, event, measure (states action.1),
              measure next⟩ :: marks, ?_, ?_, ?_⟩
            · rw [List.map_cons, same]
              rfl
            · exact List.forall_mem_cons.mpr
                ⟨⟨Nat.le_refl _, grows, good event rfl⟩, above⟩
            · refine List.pairwise_cons.mpr ⟨?_, ordered⟩
              intro mark member here
              have begins := (sound mark member).1
              rw [← here, Function.update_self] at begins
              exact begins
      · cases stepped

omit [DecidableEq Name] in
theorem Precedes.exists_first {delivers : Event → Event → Prop}
    {events : List (Name × Event)} {first second : Nat}
    (precedes : Precedes delivers events first second) :
    ∃ event, events[first]? = some event := by
  induction precedes with
  | order _ before | message _ before => exact ⟨_, before⟩
  | trans _ _ induction _ => exact induction

section Chains

variable {delivers : Event → Event → Prop} {Fresh : Event → Prop}

omit [DecidableEq Name] in
/-- By induction on the chain of events. -/
theorem high_le_of_precedes
    (carried : ∀ sent received low high low' high', delivers sent received →
      Good sent low high → Good received low' high' → high ≤ high')
    (raised : ∀ event low high, Fresh event → Good event low high →
      low < high)
    (apart : ∀ sent received, delivers sent received → ¬ Fresh received)
    {marks : List (Mark Name Event)}
    (sound : ∀ mark ∈ marks,
      mark.low ≤ mark.high ∧ Good mark.event mark.low mark.high)
    (ordered : marks.Pairwise fun early late =>
      early.name = late.name → early.high ≤ late.low)
    {first second : Nat}
    (precedes : Precedes delivers (marks.map Mark.emitted) first second)
    {mark last : Mark Name Event} (here : marks[first]? = some mark)
    (there : marks[second]? = some last) :
    mark.high ≤ last.high ∧ (Fresh last.event → mark.high < last.high) := by
  have named : ∀ {place : Nat} {mark : Mark Name Event}
      {event : Name × Event}, marks[place]? = some mark →
      (marks.map Mark.emitted)[place]? = some event →
      mark.emitted = event := by
    intro place mark event found emitted
    rw [List.getElem?_map, found] at emitted
    exact Option.some.inj emitted
  induction precedes generalizing mark last with
  | @order first second name early late earlier before after =>
      have sameFirst : mark.name = name :=
        congrArg Prod.fst (named here before)
      have sameSecond : last.name = name :=
        congrArg Prod.fst (named there after)
      obtain ⟨grows, shown⟩ := sound last (List.mem_of_getElem? there)
      obtain ⟨inFirst, rfl⟩ := List.getElem?_eq_some_iff.mp here
      obtain ⟨inSecond, rfl⟩ := List.getElem?_eq_some_iff.mp there
      have below := List.pairwise_iff_getElem.mp ordered _ _ inFirst
        inSecond earlier (sameFirst.trans sameSecond.symm)
      exact ⟨Nat.le_trans below grows,
        fun fresh => Nat.lt_of_le_of_lt below (raised _ _ _ fresh shown)⟩
  | @message first second sender receiver sent received earlier before after
      delivered =>
      have sameFirst : mark.event = sent :=
        congrArg Prod.snd (named here before)
      have sameSecond : last.event = received :=
        congrArg Prod.snd (named there after)
      rw [← sameFirst, ← sameSecond] at delivered
      exact ⟨carried _ _ _ _ _ _ delivered
          (sound mark (List.mem_of_getElem? here)).2
          (sound last (List.mem_of_getElem? there)).2,
        fun fresh => absurd fresh (apart _ _ delivered)⟩
  | trans begins ends firstInduction secondInduction =>
      obtain ⟨event, emitted⟩ := ends.exists_first
      rw [List.getElem?_map] at emitted
      obtain ⟨between, found, -⟩ := Option.map_eq_some_iff.mp emitted
      obtain ⟨grows, -⟩ := firstInduction here found
      obtain ⟨growsLater, strictly⟩ := secondInduction found there
      exact ⟨Nat.le_trans grows growsLater,
        fun fresh => Nat.lt_of_le_of_lt grows (strictly fresh)⟩

/--
What precedes an event is below it: strictly where the event raises the
measure of its copy by itself, which no delivery does.
-/
theorem run_precedes
    (kept : ∀ state action next event, Invariant state →
      machine.step state action = some (next, event) →
        Invariant next ∧ measure state ≤ measure next ∧
          ∀ emitted ∈ event, Good emitted (measure state) (measure next))
    (carried : ∀ sent received low high low' high', delivers sent received →
      Good sent low high → Good received low' high' → high ≤ high')
    (raised : ∀ event low high, Fresh event → Good event low high →
      low < high)
    (apart : ∀ sent received, delivers sent received → ¬ Fresh received)
    {states final : Name → State} {actions : List (Name × Action)}
    {events : List (Name × Event)}
    (initially : ∀ name, Invariant (states name))
    (ran : (copies Name machine).run states actions = some (final, events))
    {first second : Nat} {early late : Name × Event}
    (precedes : Precedes delivers events first second)
    (before : events[first]? = some early)
    (after : events[second]? = some late) :
    ∃ low high low' high', Good early.2 low high ∧ Good late.2 low' high' ∧
      high ≤ high' ∧ (Fresh late.2 → high < high') := by
  obtain ⟨marks, rfl, sound, ordered⟩ := exists_marks kept initially ran
  rw [List.getElem?_map] at before after
  obtain ⟨mark, here, rfl⟩ := Option.map_eq_some_iff.mp before
  obtain ⟨last, there, rfl⟩ := Option.map_eq_some_iff.mp after
  obtain ⟨grows, strictly⟩ := high_le_of_precedes carried raised apart
    (fun mark member => (sound mark member).2) ordered precedes here there
  exact ⟨mark.low, mark.high, last.low, last.high,
    (sound mark (List.mem_of_getElem? here)).2.2,
    (sound last (List.mem_of_getElem? there)).2.2, grows, strictly⟩

end Chains

end Cdoc.Foundation.Machine
