import Cdoc.HlcClock
import Cdoc.HlcThreads

/-!
# The clock is one object

What threads do to the clock in any interleaving is what a single thread
would do.  A call of `now` takes effect at its successful exchange, with the
last reading of the wall clock which its thread has made, and a
deserialisation at its `fetch_max`.  In the order of these points the calls
return the same timestamps one after another and leave the same counter.

Two consequences of sequential calls and of the exchange: the counter stays
close to the clocks, however often the threads collide, and a thread which
collides has been overtaken by one which returned.
-/

namespace Cdoc.HlcThreads

open Cdoc.Foundation

variable {Thread : Type} [DecidableEq Thread]

/-! ## Linearization points -/

/-- The calls which take effect at a step; readings are remembered. -/
def point (readings : Thread → UInt64) (self : Shared Thread) :
    Atomic Thread → (Thread → UInt64) × List ClockCall
  | .readClock thread clock =>
      (Function.update readings thread clock, [])
  | .compareExchange thread =>
      match self.phase thread with
      | .computed latest _ =>
          if self.counter = latest then
            (readings, [.now (readings thread)])
          else
            (readings, [])
      | _ => (readings, [])
  | .sync _ timestamp => (readings, [.deserialize timestamp.val])
  | .call _ | .load _ => (readings, [])

/-- The calls of an interleaving in the order of their points. -/
def sequential (actions : List (Atomic Thread)) : List ClockCall :=
  (threads Thread).linearized point (fun _ => 0) Shared.initial actions

/-- A thread has computed from the last reading which it has made. -/
def Remembers (readings : Thread → UInt64) (self : Shared Thread) : Prop :=
  ∀ thread latest next, self.phase thread = .computed latest next →
    Timestamp.now latest (readings thread) = .ok ⟨next⟩

theorem Remembers.setPhase {readings : Thread → UInt64}
    {self : Shared Thread} (remembers : Remembers readings self)
    {thread : Thread} {phase : Phase}
    (new : ∀ latest next, phase = .computed latest next →
      Timestamp.now latest (readings thread) = .ok ⟨next⟩) :
    Remembers readings (self.setPhase thread phase) := by
  intro other latest next computed
  rw [Shared.setPhase_phase] at computed
  split at computed
  · rename_i same
    rw [same]
    exact new latest next computed
  · exact remembers other latest next computed

/-- Sequential calls from one counter to another. -/
def Executes (before : UInt64) (calls : List ClockCall)
    (timestamps : List Timestamp) (after : UInt64) : Prop :=
  ClockCall.performAll before calls = .ok (after, timestamps)

theorem Executes.append {first middle last : UInt64}
    {calls later : List ClockCall} {early late : List Timestamp}
    (begins : Executes first calls early middle)
    (ends : Executes middle later late last) :
    Executes first (calls ++ later) (early ++ late) last := by
  unfold Executes at begins ends ⊢
  rw [ClockCall.performAll_append]
  simp only [begins, ends, ok_bind, pure_eq_ok]

/-- At every step the sequential clock follows. -/
theorem Remembers.step {readings : Thread → UInt64}
    {self next : Shared Thread} {action : Atomic Thread}
    {event : Option (Event Thread)} (remembers : Remembers readings self)
    (effect : Effect self action next event) :
    Remembers (point readings self action).1 next ∧
      Executes self.counter (point readings self action).2
        (event.toList.filterMap Event.published) next.counter := by
  cases effect with
  | call idle =>
      refine ⟨remembers.setPhase ?_, rfl⟩
      intro latest next computed
      cases computed
  | load entered =>
      refine ⟨remembers.setPhase ?_, rfl⟩
      intro latest next computed
      cases computed
  | @compute thread clock latest value loaded time =>
      refine ⟨?_, rfl⟩
      intro other earlier later computed
      rw [Shared.setPhase_phase] at computed
      split at computed
      · rename_i same
        cases computed
        show Timestamp.now latest
          (Function.update readings thread clock other) = _
        rw [same, Function.update_self]
        exact time
      · rename_i different
        show Timestamp.now earlier
          (Function.update readings thread clock other) = _
        rw [Function.update_of_ne different]
        exact remembers other earlier later computed
  | @panic thread clock latest failure loaded overflow =>
      refine ⟨?_, rfl⟩
      intro other earlier later computed
      rw [Shared.setPhase_phase] at computed
      split at computed
      · cases computed
      · rename_i different
        show Timestamp.now earlier
          (Function.update readings thread clock other) = _
        rw [Function.update_of_ne different]
        exact remembers other earlier later computed
  | @exchange thread value computed =>
      have time := remembers thread self.counter value computed
      simp only [point, computed, if_true]
      refine ⟨remembers.setPhase ?_, ?_⟩
      · intro latest next absurdity
        cases absurdity
      · simp only [Executes, ClockCall.performAll, ClockCall.perform, time,
          ok_bind, pure_eq_ok]
        rfl
  | @retry thread latest value computed stale =>
      simp only [point, computed, if_neg stale]
      refine ⟨remembers.setPhase ?_, rfl⟩
      intro latest next absurdity
      cases absurdity
  | sync idle => exact ⟨remembers, rfl⟩

/--
Every interleaving is a sequence of calls: the same timestamps in the same
order, and the same counter at the end.
-/
theorem linearizable_of_run {final : Shared Thread}
    {actions : List (Atomic Thread)} {events : List (Event Thread)}
    (ran : (threads Thread).run Shared.initial actions =
      some (final, events)) :
    ClockCall.performAll 0 (sequential actions) =
      .ok (final.counter, events.filterMap Event.published) := by
  have idle : Remembers (fun _ => 0) (@Shared.initial Thread) := by
    intro thread latest next computed
    cases computed
  exact @Machine.run_linearized _ _ _ (threads Thread) _ _ _ _ point
    Remembers Shared.counter Event.published Executes (fun _ => rfl)
    (fun _ _ _ _ _ _ _ => Executes.append)
    (fun _ _ _ _ _ remembers stepped =>
      remembers.step (effect_of_step stepped))
    _ _ _ _ _ idle ran

/-- The two threads of a race are two calls in a row. -/
theorem linearizable_of_run_race :
    ∃ final events, (threads Nat).run .initial race = some (final, events) ∧
      ClockCall.performAll 0 [.now 300, .deserialize 900, .now 512] =
        .ok (final.counter, events.filterMap Event.published) :=
  ⟨_, _, rfl, @linearizable_of_run Nat _ _ race _ rfl⟩

/-! ## Collisions -/

/-- The exchange of the thread fails, and its loop starts again. -/
def collision (thread : Thread) (self : Shared Thread) :
    Atomic Thread → Nat
  | .compareExchange other =>
      match self.phase other with
      | .computed latest _ =>
          if other = thread ∧ self.counter ≠ latest then 1 else 0
      | _ => 0
  | _ => 0

/-- Another thread has returned a timestamp or received one. -/
def overtakes (thread : Thread) : Event Thread → Bool
  | .called _ => false
  | .returned other _ | .synced other _ => decide (other ≠ thread)

/-- What the phase has loaded is no longer the counter. -/
def Phase.outdated (counter : UInt64) : Phase → Nat
  | .loaded latest | .computed latest _ => if counter = latest then 0 else 1
  | _ => 0

theorem Phase.outdated_le (counter : UInt64) (phase : Phase) :
    phase.outdated counter ≤ 1 := by
  cases phase with
  | loaded latest | computed latest next =>
      show (if counter = latest then 0 else 1) ≤ 1
      split
      · exact Nat.zero_le 1
      · exact Nat.le_refl 1
  | idle | entered | panicked => exact Nat.zero_le 1

/-- A collision uses up an outdated value, which another thread has made. -/
theorem collision_paid (thread : Thread) {self next : Shared Thread}
    {action : Atomic Thread} {event : Option (Event Thread)}
    (effect : Effect self action next event) :
    collision thread self action +
        (next.phase thread).outdated next.counter ≤
      (self.phase thread).outdated self.counter +
        event.toList.countP (overtakes thread) := by
  cases effect with
  | @call other idle =>
      rw [Shared.setPhase_phase, Shared.setPhase_counter]
      split
      · exact Nat.zero_le _
      · exact (Nat.zero_add _).le.trans (Nat.le_add_right _ _)
  | @load other entered =>
      rw [Shared.setPhase_phase, Shared.setPhase_counter]
      split
      · simp [collision, Phase.outdated]
      · simp [collision]
  | @compute other clock latest value loaded time =>
      rw [Shared.setPhase_phase, Shared.setPhase_counter]
      split
      · rename_i same
        rw [same, loaded]
        simp [collision, Phase.outdated]
      · simp [collision]
  | @panic other clock latest failure loaded overflow =>
      rw [Shared.setPhase_phase, Shared.setPhase_counter]
      split
      · simp [collision, Phase.outdated]
      · simp [collision]
  | @exchange other value computed =>
      have free : collision thread self (.compareExchange other) = 0 := by
        simp [collision, computed]
      rw [free, Nat.zero_add]
      by_cases same : thread = other
      · show ((self.setPhase other .idle).phase thread).outdated _ ≤ _
        rw [Shared.setPhase_phase, if_pos same]
        exact Nat.zero_le _
      · have paid : [Event.returned other ⟨value⟩].countP
            (overtakes thread) = 1 := by
          simp [overtakes, Ne.symm same]
        show _ ≤ _ + [Event.returned other ⟨value⟩].countP _
        rw [paid]
        exact (Phase.outdated_le _ _).trans (Nat.le_add_left _ _)
  | @retry other latest value computed stale =>
      rw [Shared.setPhase_phase, Shared.setPhase_counter]
      split
      · rename_i same
        rw [same, computed]
        simp [collision, computed, Phase.outdated, stale]
      · rename_i different
        simp [collision, computed, Ne.symm different]
  | @sync other timestamp idle =>
      rw [show collision thread self (.sync other timestamp) = 0 from rfl,
        Nat.zero_add]
      by_cases same : thread = other
      · rw [same, idle]
        exact Nat.zero_le _
      · have paid : [Event.synced other timestamp].countP
            (overtakes thread) = 1 := by
          simp [overtakes, Ne.symm same]
        show _ ≤ _ + [Event.synced other timestamp].countP _
        rw [paid]
        exact (Phase.outdated_le _ _).trans (Nat.le_add_left _ _)

/--
No thread waits for another: as often as its exchange has failed, other
threads have finished a call.
-/
theorem lockFree_of_run {final : Shared Thread}
    {actions : List (Atomic Thread)} {events : List (Event Thread)}
    (ran : (threads Thread).run Shared.initial actions =
      some (final, events)) (thread : Thread) :
    (threads Thread).spent (collision thread) Shared.initial actions ≤
      events.countP (overtakes thread) := by
  have paid := @Machine.run_spent _ _ _ (threads Thread)
    (collision thread)
    (fun self => (self.phase thread).outdated self.counter)
    (overtakes thread)
    (fun _ _ _ _ stepped => collision_paid thread (effect_of_step stepped))
    _ _ _ _ ran
  have fresh : ((@Shared.initial Thread).phase thread).outdated
      (@Shared.initial Thread).counter = 0 :=
    rfl
  rw [fresh, Nat.zero_add] at paid
  exact (Nat.le_add_right _ _).trans paid

/-- In the race one exchange fails. -/
theorem lockFree_of_run_race :
    ∃ final events, (threads Nat).run .initial race = some (final, events) ∧
      (threads Nat).spent (collision 0) Shared.initial race = 1 ∧
      1 ≤ events.countP (overtakes 0) :=
  ⟨_, _, rfl, rfl, @lockFree_of_run Nat _ _ race _ rfl 0⟩

end Cdoc.HlcThreads
