import Mathlib.Data.List.Basic

/-!
# Transition systems with events

A machine has states, actions which are possible in some of them, and events
which an action may emit.  A run is a list of actions, each possible in the
state the ones before it leave.  Threads which take atomic steps in any order
are such a machine: every interleaving is a run.
-/

namespace Cdoc.Foundation

/-- Each action of a run meets its condition in the state where it starts. -/
def Along {State Action : Type} (step : State → Action → Option State)
    (holds : State → Action → Prop) : State → List Action → Prop
  | _, [] => True
  | state, action :: rest =>
      holds state action ∧
        ∀ next, step state action = some next → Along step holds next rest

section Along

variable {State Action : Type} {step : State → Action → Option State}
variable {holds other : State → Action → Prop} {state : State}

theorem along_of_forall {actions : List Action}
    (all : ∀ action ∈ actions, ∀ state, holds state action) :
    Along step holds state actions := by
  induction actions generalizing state with
  | nil => trivial
  | cons action rest induction =>
      obtain ⟨here, there⟩ := List.forall_mem_cons.mp all
      exact ⟨here state, fun _ _ => induction there⟩

theorem along_append {first second : List Action} :
    Along step holds state (first ++ second) ↔
      Along step holds state first ∧
        ∀ middle, first.foldlM step state = some middle →
          Along step holds middle second := by
  induction first generalizing state with
  | nil =>
      refine ⟨fun along => ⟨trivial, ?_⟩, fun both => both.2 state rfl⟩
      intro middle same
      cases same
      exact along
  | cons action rest induction =>
      constructor
      · rintro ⟨here, there⟩
        refine ⟨⟨here, fun next stepped =>
          (induction.mp (there next stepped)).1⟩, ?_⟩
        intro middle ran
        obtain ⟨next, stepped, later⟩ := Option.bind_eq_some_iff.mp ran
        exact (induction.mp (there next stepped)).2 middle later
      · rintro ⟨⟨here, there⟩, behind⟩
        refine ⟨here, fun next stepped => induction.mpr
          ⟨there next stepped, fun middle later => behind middle ?_⟩⟩
        exact Option.bind_eq_some_iff.mpr ⟨next, stepped, later⟩

/-- One condition entails another where an invariant holds. -/
theorem Along.imp {Invariant : State → Prop}
    (kept : ∀ state action next, Invariant state →
      step state action = some next → Invariant next)
    (entails : ∀ state action, Invariant state → holds state action →
      other state action)
    {actions : List Action} (initially : Invariant state)
    (along : Along step holds state actions) :
    Along step other state actions := by
  induction actions generalizing state with
  | nil => trivial
  | cons action rest induction =>
      obtain ⟨here, there⟩ := along
      exact ⟨entails state action initially here, fun next stepped =>
        induction (kept state action next initially stepped)
          (there next stepped)⟩

/--
A run beside a system which can follow every action, where the actions meet
a condition on the state as well.
-/
theorem Along.run_beside {Beside : Type} {follow : Beside → Action → Beside}
    {Related : State → Beside → Prop} {Allowed : Action → Prop}
    (kept : ∀ state beside action next, Related state beside →
      Allowed action → holds state action →
        step state action = some next → Related next (follow beside action))
    {final : State} {beside : Beside} {actions : List Action}
    (along : Along step holds state actions) (related : Related state beside)
    (allowed : ∀ action ∈ actions, Allowed action)
    (ran : actions.foldlM step state = some final) :
    Related final (actions.foldl follow beside) := by
  induction actions generalizing state beside with
  | nil =>
      cases ran
      exact related
  | cons action rest induction =>
      obtain ⟨here, there⟩ := along
      obtain ⟨first, others⟩ := List.forall_mem_cons.mp allowed
      obtain ⟨middle, now, later⟩ := Option.bind_eq_some_iff.mp ran
      exact induction (there middle now)
        (kept state beside action middle related first here now) others later

end Along

section Beside

variable {State Beside Action : Type} {step : State → Action → Option State}
variable {follow : Beside → Action → Beside}
variable {Related : State → Beside → Prop} {Allowed : Action → Prop}

/--
A run beside a system which can follow every action.  What each step keeps
between the two states is kept by the run.
-/
theorem run_beside
    (kept : ∀ state beside action next, Related state beside →
      Allowed action → step state action = some next →
        Related next (follow beside action))
    {state final : State} {beside : Beside} {actions : List Action}
    (related : Related state beside)
    (allowed : ∀ action ∈ actions, Allowed action)
    (ran : actions.foldlM step state = some final) :
    Related final (actions.foldl follow beside) :=
  Along.run_beside
    (fun state beside action next related allowed (_ : True) =>
      kept state beside action next related allowed)
    (along_of_forall fun _ _ _ => trivial) related allowed ran

end Beside

/-- Actions on a state; an action which is not possible has no result. -/
structure Machine (State Action Event : Type) where
  step : State → Action → Option (State × Option Event)

namespace Machine

variable {State Action Event : Type}
variable (machine : Machine State Action Event)

/-- The state after a list of actions, and the events on the way. -/
def run : State → List Action → Option (State × List Event)
  | state, [] => some (state, [])
  | state, action :: rest => do
      let (next, event) ← machine.step state action
      let (final, events) ← run next rest
      return (final, event.toList ++ events)

variable {machine}

/-- A run begins with one step, and the rest is a run again. -/
theorem run_cons_eq_some_iff {state final : State} {action : Action}
    {rest : List Action} {events : List Event} :
    machine.run state (action :: rest) = some (final, events) ↔
      ∃ next event later, machine.step state action = some (next, event) ∧
        machine.run next rest = some (final, later) ∧
        events = event.toList ++ later := by
  constructor
  · intro ran
    simp only [run, Option.bind_eq_bind, Option.bind_eq_some_iff] at ran
    obtain ⟨⟨next, event⟩, stepped, ⟨⟨_, later⟩, rests, equal⟩⟩ := ran
    cases equal
    exact ⟨next, event, later, stepped, rests, rfl⟩
  · rintro ⟨next, event, later, stepped, rests, rfl⟩
    simp [run, stepped, rests]

/-- The first part of a run is a run, and so is the second from there. -/
theorem run_append {state final : State} {first second : List Action}
    {events : List Event}
    (ran : machine.run state (first ++ second) = some (final, events)) :
    ∃ middle early late, machine.run state first = some (middle, early) ∧
      machine.run middle second = some (final, late) ∧
      events = early ++ late := by
  induction first generalizing state events with
  | nil => exact ⟨state, [], events, rfl, ran, rfl⟩
  | cons action first induction =>
      obtain ⟨next, event, later, stepped, rests, rfl⟩ :=
        run_cons_eq_some_iff.mp ran
      obtain ⟨middle, early, late, runs, ends, rfl⟩ := induction rests
      refine ⟨middle, event.toList ++ early, late, ?_, ends, ?_⟩
      · exact run_cons_eq_some_iff.mpr
          ⟨next, event, early, stepped, runs, rfl⟩
      · rw [List.append_assoc]

/-- An event of a run is emitted by one of its steps. -/
theorem run_at_event {state final : State} {actions : List Action}
    {before after : List Event} {event : Event}
    (ran : machine.run state actions =
      some (final, before ++ event :: after)) :
    ∃ earlier action later middle next,
      actions = earlier ++ action :: later ∧
      machine.run state earlier = some (middle, before) ∧
      machine.step middle action = some (next, some event) ∧
      machine.run next later = some (final, after) := by
  induction actions generalizing state before with
  | nil => simp [run] at ran
  | cons action rest induction =>
      obtain ⟨next, emitted, events, stepped, rests, equal⟩ :=
        run_cons_eq_some_iff.mp ran
      have further {front : List Event}
          (splits : before = emitted.toList ++ front)
          (tail : events = front ++ event :: after) :
          ∃ earlier action' later middle next',
            action :: rest = earlier ++ action' :: later ∧
            machine.run state earlier = some (middle, before) ∧
            machine.step middle action' = some (next', some event) ∧
            machine.run next' later = some (final, after) := by
        rw [tail] at rests
        obtain ⟨earlier, action', later, middle, next', rfl, runs, emits,
          ends⟩ := induction rests
        refine ⟨action :: earlier, action', later, middle, next', rfl, ?_,
          emits, ends⟩
        exact run_cons_eq_some_iff.mpr
          ⟨next, emitted, front, stepped, runs, splits⟩
      cases emitted with
      | none => exact further rfl equal.symm
      | some first =>
          cases before with
          | nil =>
              obtain ⟨rfl, rfl⟩ := List.cons.inj equal
              exact ⟨[], action, rest, state, next, rfl, rfl, stepped,
                rests⟩
          | cons head front =>
              obtain ⟨rfl, tail⟩ := List.cons.inj equal
              exact further rfl tail.symm

/--
What every step preserves holds after a run, and what every step guarantees
of its event holds of all events.
-/
theorem run_invariant {Invariant : State → Prop} {Good : Event → Prop}
    (preserved : ∀ state action next event, Invariant state →
      machine.step state action = some (next, event) →
        Invariant next ∧ ∀ emitted ∈ event, Good emitted)
    {state final : State} {actions : List Action} {events : List Event}
    (initially : Invariant state)
    (ran : machine.run state actions = some (final, events)) :
    Invariant final ∧ ∀ event ∈ events, Good event := by
  induction actions generalizing state events with
  | nil =>
      cases ran
      exact ⟨initially, by simp⟩
  | cons action rest induction =>
      obtain ⟨next, event, later, stepped, rests, rfl⟩ :=
        run_cons_eq_some_iff.mp ran
      obtain ⟨holds, good⟩ := preserved state action next event
        initially stepped
      obtain ⟨after, goodLater⟩ := induction holds rests
      refine ⟨after, ?_⟩
      intro emitted member
      rcases List.mem_append.mp member with here | there
      · exact good emitted (Option.mem_toList.mp here)
      · exact goodLater emitted there

section Linearized

variable {Ghost Object Call Response : Type}

/--
The calls of a sequential object which take effect along a run, in the order
in which they do.  A ghost state remembers what the machine forgets.
-/
def linearized (machine : Machine State Action Event)
    (point : Ghost → State → Action → Ghost × List Call) :
    Ghost → State → List Action → List Call
  | _, _, [] => []
  | ghost, state, action :: rest =>
      match machine.step state action with
      | none => []
      | some (next, _) =>
          (point ghost state action).2 ++
            linearized machine point (point ghost state action).1 next rest

/--
If at every step the calls which take effect there lead the object to what
the machine shows of it and respond with the events of the step, then a run
is a sequential execution of the linearized calls.
-/
theorem run_linearized
    {point : Ghost → State → Action → Ghost × List Call}
    {Invariant : Ghost → State → Prop} {shown : State → Object}
    {responses : Event → Option Response}
    {Executes : Object → List Call → List Response → Object → Prop}
    (nothing : ∀ object, Executes object [] [] object)
    (composes : ∀ first middle last calls later early late,
      Executes first calls early middle →
        Executes middle later late last →
          Executes first (calls ++ later) (early ++ late) last)
    (kept : ∀ ghost state action next event, Invariant ghost state →
      machine.step state action = some (next, event) →
        Invariant (point ghost state action).1 next ∧
          Executes (shown state) (point ghost state action).2
            (event.toList.filterMap responses) (shown next))
    {ghost : Ghost} {state final : State} {actions : List Action}
    {events : List Event} (initially : Invariant ghost state)
    (ran : machine.run state actions = some (final, events)) :
    Executes (shown state) (linearized machine point ghost state actions)
      (events.filterMap responses) (shown final) := by
  induction actions generalizing ghost state events with
  | nil =>
      cases ran
      exact nothing _
  | cons action rest induction =>
      obtain ⟨next, event, later, stepped, rests, rfl⟩ :=
        run_cons_eq_some_iff.mp ran
      obtain ⟨holds, executes⟩ :=
        kept ghost state action next event initially stepped
      rw [linearized, List.filterMap_append]
      simp only [stepped]
      exact composes _ _ _ _ _ _ _ executes (induction holds rests)

end Linearized

section Amortized

/-- What the steps of a run cost together. -/
def spent (machine : Machine State Action Event)
    (cost : State → Action → Nat) : State → List Action → Nat
  | _, [] => 0
  | state, action :: rest =>
      match machine.step state action with
      | none => 0
      | some (next, _) => cost state action + spent machine cost next rest

/--
A step which costs more than the potential it uses up is paid by the events
it emits, and so is a run.
-/
theorem run_spent {cost : State → Action → Nat} {potential : State → Nat}
    {pays : Event → Bool}
    (paid : ∀ state action next event,
      machine.step state action = some (next, event) →
        cost state action + potential next ≤
          potential state + event.toList.countP pays)
    {state final : State} {actions : List Action} {events : List Event}
    (ran : machine.run state actions = some (final, events)) :
    machine.spent cost state actions + potential final ≤
      potential state + events.countP pays := by
  induction actions generalizing state events with
  | nil =>
      cases ran
      simp [spent]
  | cons action rest induction =>
      obtain ⟨next, event, later, stepped, rests, rfl⟩ :=
        run_cons_eq_some_iff.mp ran
      have here := paid state action next event stepped
      have there := induction rests
      rw [spent, List.countP_append]
      simp only [stepped]
      omega

end Amortized

section Served

variable {View : Type}

/--
The actions and events of a run, as a specification allows them: each event
is an answer to its action.
-/
inductive Follows (Allows : View → Action → Event → View → Prop) :
    View → List Action → List Event → View → Prop
  | nil {view : View} : Follows Allows view [] [] view
  | cons {view middle final : View} {action : Action} {event : Event}
      {actions : List Action} {events : List Event}
      (allowed : Allows view action event middle)
      (rest : Follows Allows middle actions events final) :
      Follows Allows view (action :: actions) (event :: events) final

/--
A machine which answers every action: what each action needs, with those
behind it, is there when it comes, so a run never ends before its actions do.
-/
theorem run_served {Allows : View → Action → Event → View → Prop}
    {Ready : List Action → State → View → Prop}
    (served : ∀ action rest state view,
      Ready (action :: rest) state view →
        ∃ next event after, machine.step state action =
            some (next, some event) ∧
          Allows view action event after ∧ Ready rest next after)
    {state : State} {view : View} {actions : List Action}
    (ready : Ready actions state view) :
    ∃ final events after, machine.run state actions =
        some (final, events) ∧
      Follows Allows view actions events after ∧ Ready [] final after := by
  induction actions generalizing state view with
  | nil => exact ⟨state, [], view, rfl, .nil, ready⟩
  | cons action rest induction =>
      obtain ⟨next, event, middle, stepped, allowed, readyRest⟩ :=
        served action rest state view ready
      obtain ⟨final, events, after, ran, follows, readyEnd⟩ :=
        induction readyRest
      refine ⟨final, event :: events, after, ?_, .cons allowed follows,
        readyEnd⟩
      exact run_cons_eq_some_iff.mpr
        ⟨next, some event, events, stepped, ran, rfl⟩

end Served

end Machine

end Cdoc.Foundation
