import Cdoc.Foundation.Transitions
import Cdoc.Hlc
import Mathlib.Logic.Function.Basic

/-!
# The clock under any interleaving

`Timestamp::now` is a loop of three atomic steps, a load of the shared
counter, a reading of the wall clock and a `compare_exchange`, and
`Timestamp::sync` is one `fetch_max`.  Any number of threads take these steps
in any order.

The invariant concerns the values in flight: what a thread has loaded is at
most the counter, and what it has computed is above what it has loaded.
Hence a successful exchange raises the counter above everything published
before.  A second invariant follows one call: from its start on, everything
published before the start stays below the value the call will return.
-/

namespace Cdoc.HlcThreads

open Cdoc.Foundation

/-! ## Threads and their atomic steps -/

/-- Where a thread stands in the loop of `now`. -/
inductive Phase where
  | idle
  /-- At the head of the loop, before the load. -/
  | entered
  | loaded (latest : UInt64)
  | computed (latest next : UInt64)
  /-- The increment has overflowed. -/
  | panicked
deriving DecidableEq, Repr

/-- The atomic steps; a deserialisation is a `sync`. -/
inductive Atomic (Thread : Type) where
  | call (thread : Thread)
  | load (thread : Thread)
  | readClock (thread : Thread) (clock : UInt64)
  | compareExchange (thread : Thread)
  | sync (thread : Thread) (timestamp : Timestamp)
deriving DecidableEq, Repr

/-- What a caller can observe. -/
inductive Event (Thread : Type) where
  | called (thread : Thread)
  | returned (thread : Thread) (timestamp : Timestamp)
  | synced (thread : Thread) (timestamp : Timestamp)
deriving DecidableEq, Repr

/-- The shared counter and the threads. -/
structure Shared (Thread : Type) where
  counter : UInt64
  phase : Thread → Phase

variable {Thread : Type} [DecidableEq Thread]

namespace Shared

/-- The process at its start. -/
def initial : Shared Thread :=
  ⟨0, fun _ => .idle⟩

/-- One thread goes on to another phase. -/
def setPhase (self : Shared Thread) (thread : Thread) (phase : Phase) :
    Shared Thread :=
  { self with phase := Function.update self.phase thread phase }

/-- One atomic step of one thread. -/
def step (self : Shared Thread) :
    Atomic Thread → Option (Shared Thread × Option (Event Thread))
  | .call thread =>
      match self.phase thread with
      | .idle =>
          some (self.setPhase thread .entered, some (.called thread))
      | _ => none
  | .load thread =>
      match self.phase thread with
      | .entered =>
          some (self.setPhase thread (.loaded self.counter), none)
      | _ => none
  | .readClock thread clock =>
      match self.phase thread with
      | .loaded latest =>
          match Timestamp.now latest clock with
          | .ok next =>
              some (self.setPhase thread (.computed latest next.val), none)
          | .error _ => some (self.setPhase thread .panicked, none)
      | _ => none
  | .compareExchange thread =>
      match self.phase thread with
      | .computed latest next =>
          if self.counter = latest then
            some ({ self.setPhase thread .idle with counter := next },
              some (.returned thread ⟨next⟩))
          else
            some (self.setPhase thread .entered, none)
      | _ => none
  | .sync thread timestamp =>
      match self.phase thread with
      | .idle =>
          some ({ self with
              counter := (Timestamp.sync self.counter timestamp).1 },
            some (.synced thread timestamp))
      | _ => none

@[simp]
theorem setPhase_counter (self : Shared Thread) (thread : Thread)
    (phase : Phase) : (self.setPhase thread phase).counter = self.counter :=
  rfl

theorem setPhase_phase (self : Shared Thread) (thread other : Thread)
    (phase : Phase) :
    (self.setPhase thread phase).phase other =
      if other = thread then phase else self.phase other := by
  simp [setPhase, Function.update_apply]

end Shared

/-- The threads as a machine whose runs are the interleavings. -/
def threads (Thread : Type) [DecidableEq Thread] :
    Machine (Shared Thread) (Atomic Thread) (Event Thread) :=
  ⟨Shared.step⟩

/-! ## What a step does -/

/-- The way a step changes the counter and its thread's phase. -/
inductive Effect (self : Shared Thread) :
    Atomic Thread → Shared Thread → Option (Event Thread) → Prop
  | call {thread : Thread} (idle : self.phase thread = .idle) :
      Effect self (.call thread) (self.setPhase thread .entered)
        (some (.called thread))
  | load {thread : Thread} (entered : self.phase thread = .entered) :
      Effect self (.load thread)
        (self.setPhase thread (.loaded self.counter)) none
  | compute {thread : Thread} {clock latest : UInt64} {next : Timestamp}
      (loaded : self.phase thread = .loaded latest)
      (time : Timestamp.now latest clock = .ok next) :
      Effect self (.readClock thread clock)
        (self.setPhase thread (.computed latest next.val)) none
  | panic {thread : Thread} {clock latest : UInt64} {failure : Panic}
      (loaded : self.phase thread = .loaded latest)
      (overflow : Timestamp.now latest clock = .error failure) :
      Effect self (.readClock thread clock)
        (self.setPhase thread .panicked) none
  | exchange {thread : Thread} {next : UInt64}
      (computed : self.phase thread = .computed self.counter next) :
      Effect self (.compareExchange thread)
        { self.setPhase thread .idle with counter := next }
        (some (.returned thread ⟨next⟩))
  | retry {thread : Thread} {latest next : UInt64}
      (computed : self.phase thread = .computed latest next)
      (stale : self.counter ≠ latest) :
      Effect self (.compareExchange thread)
        (self.setPhase thread .entered) none
  | sync {thread : Thread} {timestamp : Timestamp}
      (idle : self.phase thread = .idle) :
      Effect self (.sync thread timestamp)
        { self with counter := (Timestamp.sync self.counter timestamp).1 }
        (some (.synced thread timestamp))

theorem effect_of_step {self next : Shared Thread} {action : Atomic Thread}
    {event : Option (Event Thread)}
    (stepped : self.step action = some (next, event)) :
    Effect self action next event := by
  cases action with
  | call thread =>
      simp only [Shared.step] at stepped
      split at stepped
      · rename_i idle
        cases stepped
        exact .call idle
      · cases stepped
  | load thread =>
      simp only [Shared.step] at stepped
      split at stepped
      · rename_i entered
        cases stepped
        exact .load entered
      · cases stepped
  | readClock thread clock =>
      simp only [Shared.step] at stepped
      split at stepped
      · rename_i latest loaded
        split at stepped
        · rename_i next time
          cases stepped
          exact .compute loaded time
        · rename_i failure overflow
          cases stepped
          exact .panic loaded overflow
      · cases stepped
  | compareExchange thread =>
      simp only [Shared.step] at stepped
      split at stepped
      · rename_i latest next computed
        split at stepped
        · rename_i unchanged
          cases stepped
          exact .exchange (unchanged ▸ computed)
        · rename_i stale
          cases stepped
          exact .retry computed stale
      · cases stepped
  | sync thread timestamp =>
      simp only [Shared.step] at stepped
      split at stepped
      · rename_i idle
        cases stepped
        exact .sync idle
      · cases stepped

/-! ## Values in flight -/

/-- What a phase holds is explained by the present counter. -/
def Phase.Consistent (counter : UInt64) : Phase → Prop
  | .loaded latest => latest.toNat ≤ counter.toNat
  | .computed latest next =>
      latest.toNat ≤ counter.toNat ∧ latest.toNat < next.toNat
  | _ => True

theorem Phase.Consistent.mono {low high : UInt64} {phase : Phase}
    (consistent : phase.Consistent low) (le : low.toNat ≤ high.toNat) :
    phase.Consistent high := by
  cases phase with
  | loaded latest => exact Nat.le_trans consistent le
  | computed latest next =>
      exact ⟨consistent.1.trans le, consistent.2⟩
  | idle | entered | panicked => trivial

/-- The values in flight of all threads. -/
def Consistent (self : Shared Thread) : Prop :=
  ∀ thread, (self.phase thread).Consistent self.counter

theorem Consistent.setPhase {self : Shared Thread}
    (consistent : Consistent self) {thread : Thread} {phase : Phase}
    (new : phase.Consistent self.counter) :
    Consistent (self.setPhase thread phase) := by
  intro other
  rw [Shared.setPhase_phase, Shared.setPhase_counter]
  split
  · exact new
  · exact consistent other

omit [DecidableEq Thread] in
theorem Consistent.raise {self : Shared Thread}
    (consistent : Consistent self) {counter : UInt64}
    (le : self.counter.toNat ≤ counter.toNat) :
    Consistent { self with counter } :=
  fun thread => (consistent thread).mono le

/-- The timestamp which an event makes known. -/
def Event.published : Event Thread → Option Timestamp
  | .called _ => none
  | .returned _ timestamp | .synced _ timestamp => some timestamp

/-- The timestamp which a call of `now` returns. -/
def Event.result : Event Thread → Option Timestamp
  | .returned _ timestamp => some timestamp
  | .called _ | .synced .. => none

omit [DecidableEq Thread] in
theorem Event.published_of_result {event : Option (Event Thread)}
    {timestamp : Timestamp} (result : timestamp ∈ event.bind Event.result) :
    timestamp ∈ event.bind Event.published := by
  obtain ⟨emitted, rfl, returns⟩ := Option.mem_bind_iff.mp result
  cases emitted with
  | called thread => cases returns
  | returned thread value => exact returns
  | synced thread value => cases returns

theorem filterMap_toList {α β : Type} (function : α → Option β)
    (option : Option α) :
    option.toList.filterMap function = (option.bind function).toList := by
  cases option with
  | none => rfl
  | some value => cases found : function value <;> simp [found]

/-- A step keeps the values in flight explained and the counter growing. -/
theorem Consistent.step {self next : Shared Thread}
    {action : Atomic Thread} {event : Option (Event Thread)}
    (consistent : Consistent self) (effect : Effect self action next event) :
    Consistent next ∧ self.counter.toNat ≤ next.counter.toNat ∧
      (∀ timestamp ∈ event.bind Event.published,
        timestamp.val.toNat ≤ next.counter.toNat) ∧
      ∀ timestamp ∈ event.bind Event.result,
        self.counter.toNat < timestamp.val.toNat := by
  cases effect with
  | call idle =>
      refine ⟨consistent.setPhase trivial, le_rfl, ?_, ?_⟩ <;>
        simp [Event.published, Event.result]
  | load entered =>
      exact ⟨consistent.setPhase (Nat.le_refl _), le_rfl, by simp,
        by simp⟩
  | @compute thread clock latest value loaded time =>
      have below := consistent thread
      rw [loaded] at below
      refine ⟨consistent.setPhase ?_, le_rfl, by simp, by simp⟩
      exact ⟨below, Timestamp.counter_lt_of_now time⟩
  | panic loaded overflow =>
      exact ⟨consistent.setPhase trivial, le_rfl, by simp, by simp⟩
  | @exchange thread value computed =>
      have above := consistent thread
      rw [computed] at above
      have idle : Consistent (self.setPhase thread .idle) :=
        consistent.setPhase trivial
      refine ⟨idle.raise above.2.le, above.2.le, ?_, ?_⟩
      · simp [Event.published]
      · simpa [Event.result] using above.2
  | retry computed stale =>
      exact ⟨consistent.setPhase trivial, le_rfl, by simp, by simp⟩
  | @sync thread timestamp idle =>
      have raised : self.counter.toNat ≤
          (Timestamp.sync self.counter timestamp).1.toNat := by
        rw [Timestamp.toNat_sync]
        exact Nat.le_max_left _ _
      refine ⟨consistent.raise raised, raised, ?_, ?_⟩
      · simp [Event.published]
      · simp [Event.result]

/-- The counter and the results along a run. -/
theorem Consistent.run {self final : Shared Thread}
    {actions : List (Atomic Thread)} {events : List (Event Thread)}
    (consistent : Consistent self)
    (ran : (threads Thread).run self actions = some (final, events)) :
    Consistent final ∧ self.counter.toNat ≤ final.counter.toNat ∧
      (∀ timestamp ∈ events.filterMap Event.published,
        timestamp.val.toNat ≤ final.counter.toNat) ∧
      (∀ timestamp ∈ events.filterMap Event.result,
        self.counter.toNat < timestamp.val.toNat) ∧
      (events.filterMap Event.result).Pairwise
        fun earlier later => earlier.val < later.val := by
  induction actions generalizing self events with
  | nil =>
      cases ran
      simpa using consistent
  | cons action rest induction =>
      obtain ⟨next, event, later, stepped, rests, rfl⟩ :=
        Machine.run_cons_eq_some_iff.mp ran
      obtain ⟨kept, grows, known, fresh⟩ :=
        consistent.step (effect_of_step stepped)
      obtain ⟨finallyKept, growsLater, knownLater, freshLater, ordered⟩ :=
        induction kept rests
      simp only [List.filterMap_append, filterMap_toList]
      refine ⟨finallyKept, grows.trans growsLater, ?_, ?_, ?_⟩
      · intro timestamp member
        rcases List.mem_append.mp member with here | there
        · exact (known timestamp (Option.mem_toList.mp here)).trans
            growsLater
        · exact knownLater timestamp there
      · intro timestamp member
        rcases List.mem_append.mp member with here | there
        · exact fresh timestamp (Option.mem_toList.mp here)
        · exact grows.trans_lt (freshLater timestamp there)
      · refine List.pairwise_append.mpr ⟨?_, ordered, ?_⟩
        · cases event.bind Event.result <;> simp
        · intro early here late there
          have published := Event.published_of_result
            (Option.mem_toList.mp here)
          rw [UInt64.lt_iff_toNat_lt]
          exact (known early published).trans_lt (freshLater late there)

/-! ## One call from its start on -/

/-- What a phase holds will give a result above a floor. -/
def Phase.Above (floor : Nat) : Phase → Prop
  | .loaded latest => floor ≤ latest.toNat
  | .computed _ next => floor < next.toNat
  | _ => True

/-- The counter has reached a floor, and so has what one thread holds. -/
def Above (thread : Thread) (floor : Nat) (self : Shared Thread) : Prop :=
  floor ≤ self.counter.toNat ∧ (self.phase thread).Above floor

theorem Above.setPhase {thread : Thread} {floor : Nat}
    {self : Shared Thread} (above : Above thread floor self)
    {other : Thread} {phase : Phase} (new : phase.Above floor) :
    Above thread floor (self.setPhase other phase) := by
  refine ⟨above.1, ?_⟩
  rw [Shared.setPhase_phase]
  split
  · exact new
  · exact above.2

/-- A thread above a floor stays there and returns a value above it. -/
theorem Above.step {thread : Thread} {floor : Nat}
    {self next : Shared Thread} {action : Atomic Thread}
    {event : Option (Event Thread)}
    (both : Consistent self ∧ Above thread floor self)
    (effect : Effect self action next event) :
    (Consistent next ∧ Above thread floor next) ∧
      ∀ emitted ∈ event, ∀ timestamp,
        emitted = .returned thread timestamp →
          floor < timestamp.val.toNat := by
  obtain ⟨consistent, above⟩ := both
  obtain ⟨kept, grows, _, fresh⟩ := consistent.step effect
  refine ⟨⟨kept, ?_⟩, ?_⟩
  · cases effect with
    | call idle => exact above.setPhase trivial
    | load entered => exact above.setPhase above.1
    | @compute other clock latest value loaded time =>
        have below := Timestamp.counter_lt_of_now time
        refine ⟨above.1, ?_⟩
        rw [Shared.setPhase_phase]
        split
        · rename_i same
          have reached := above.2
          rw [same, loaded] at reached
          exact Nat.lt_of_le_of_lt reached below
        · exact above.2
    | panic loaded overflow => exact above.setPhase trivial
    | @exchange other value computed =>
        have idle : Above thread floor (self.setPhase other .idle) :=
          above.setPhase trivial
        exact ⟨above.1.trans grows, idle.2⟩
    | retry computed stale => exact above.setPhase trivial
    | sync idle => exact ⟨above.1.trans grows, above.2⟩
  · intro emitted isEmitted timestamp returns
    have result : timestamp ∈ event.bind Event.result :=
      Option.mem_bind_iff.mpr ⟨emitted, isEmitted, by rw [returns]; rfl⟩
    exact above.1.trans_lt (fresh timestamp result)

/-- A value published before a call starts is below its result. -/
theorem published_lt_result {self final : Shared Thread}
    {actions : List (Atomic Thread)} {thread : Thread}
    {earlier later : Timestamp} {before after : List (Event Thread)}
    (consistent : Consistent self)
    (ran : (threads Thread).run self actions =
      some (final, before ++ .called thread :: after))
    (published : earlier ∈ before.filterMap Event.published)
    (returned : .returned thread later ∈ after) :
    earlier.val < later.val := by
  obtain ⟨early, action, late, middle, next, rfl, runs, stepped, ends⟩ :=
    Machine.run_at_event ran
  obtain ⟨middleConsistent, _, known, _⟩ := consistent.run runs
  have effect := effect_of_step stepped
  obtain ⟨nextConsistent, grows, _⟩ := middleConsistent.step effect
  have above : Above thread earlier.val.toNat next := by
    refine ⟨(known earlier published).trans grows, ?_⟩
    cases effect with
    | call idle =>
        rw [Shared.setPhase_phase, if_pos rfl]
        trivial
  have preserved (state : Shared Thread) (action : Atomic Thread)
      (next : Shared Thread) (event : Option (Event Thread))
      (both : Consistent state ∧ Above thread earlier.val.toNat state)
      (stepped : (threads Thread).step state action = some (next, event)) :=
    Above.step both (effect_of_step stepped)
  obtain ⟨_, results⟩ :=
    Machine.run_invariant preserved ⟨nextConsistent, above⟩ ends
  rw [UInt64.lt_iff_toNat_lt]
  exact results _ returned later rfl

/-! ## No overflow -/

/-- Clock readings and synchronised timestamps are below a bound. -/
def Atomic.Below (bound : Nat) : Atomic Thread → Prop
  | .readClock _ clock => clock.toNat < bound
  | .sync _ timestamp => timestamp.val.toNat < bound
  | _ => True

instance (bound : Nat) :
    (action : Atomic Thread) → Decidable (action.Below bound)
  | .readClock _ clock => inferInstanceAs (Decidable (clock.toNat < bound))
  | .sync _ timestamp =>
      inferInstanceAs (Decidable (timestamp.val.toNat < bound))
  | .call _ | .load _ | .compareExchange _ =>
      inferInstanceAs (Decidable True)

/-- A computed value stays within a limit, and nothing has overflowed. -/
def Phase.Within (limit : Nat) : Phase → Prop
  | .computed _ next => next.toNat ≤ limit
  | .panicked => False
  | _ => True

theorem Phase.Within.mono {low high : Nat} {phase : Phase}
    (within : phase.Within low) (le : low ≤ high) : phase.Within high := by
  cases phase with
  | computed latest next => exact Nat.le_trans within le
  | panicked => exact within.elim
  | idle | entered | loaded => trivial

/-- The clock after a number of successful calls. -/
structure Within (count : Nat) (shared : Shared Thread) : Prop where
  counter : shared.counter.toNat < 2 ^ 63 + count
  phases : ∀ thread, (shared.phase thread).Within (2 ^ 63 + count)

theorem Within.setPhase {count : Nat} {self : Shared Thread}
    (within : Within count self) {thread : Thread} {phase : Phase}
    (new : phase.Within (2 ^ 63 + count)) :
    Within count (self.setPhase thread phase) := by
  refine ⟨within.counter, ?_⟩
  intro other
  rw [Shared.setPhase_phase]
  split
  · exact new
  · exact within.phases other

/-- Each successful call raises the limit by one. -/
theorem Within.step {count : Nat} {self next : Shared Thread}
    {action : Atomic Thread} {event : Option (Event Thread)}
    (within : Within count self) (consistent : Consistent self)
    (few : count < 2 ^ 63) (below : action.Below (2 ^ 63))
    (effect : Effect self action next event) :
    Within (count + (event.bind Event.result).toList.length) next := by
  cases effect with
  | call idle => exact within.setPhase trivial
  | load entered => exact within.setPhase trivial
  | @compute thread clock latest value loaded time =>
      have held := consistent thread
      rw [loaded] at held
      have limit := within.counter
      have masked := Timestamp.mask_le clock
      have result := Timestamp.now_eq_ok_iff.mp time
      refine within.setPhase ?_
      change latest.toNat ≤ _ at held
      change clock.toNat < _ at below
      change value.val.toNat ≤ _
      omega
  | @panic thread clock latest failure loaded overflow =>
      have held := consistent thread
      rw [loaded] at held
      have limit := within.counter
      have masked := Timestamp.mask_le clock
      change latest.toNat ≤ _ at held
      change clock.toNat < _ at below
      have fits : max (clock &&& Timestamp.MASK).toNat latest.toNat + 1 <
          2 ^ 64 := by omega
      obtain ⟨ts, time⟩ := Timestamp.exists_now fits
      rw [time] at overflow
      cases overflow
  | @exchange thread value computed =>
      have held := within.phases thread
      rw [computed] at held
      refine ⟨Nat.lt_succ_of_le held, fun other => ?_⟩
      have idle : Within count (self.setPhase thread .idle) :=
        within.setPhase trivial
      exact (idle.phases other).mono (Nat.le_succ _)
  | retry computed stale => exact within.setPhase trivial
  | @sync thread timestamp idle =>
      have limit := within.counter
      change timestamp.val.toNat < _ at below
      refine ⟨?_, within.phases⟩
      rw [Timestamp.toNat_sync]
      exact Nat.max_lt.mpr ⟨limit, by omega⟩

theorem Within.run {count : Nat} {self final : Shared Thread}
    {actions : List (Atomic Thread)} {events : List (Event Thread)}
    (within : Within count self) (consistent : Consistent self)
    (below : ∀ action ∈ actions, action.Below (2 ^ 63))
    (few : count + (events.filterMap Event.result).length < 2 ^ 63)
    (ran : (threads Thread).run self actions = some (final, events)) :
    Within (count + (events.filterMap Event.result).length) final := by
  induction actions generalizing count self events with
  | nil =>
      cases ran
      exact within
  | cons action rest induction =>
      obtain ⟨next, event, later, stepped, rests, rfl⟩ :=
        Machine.run_cons_eq_some_iff.mp ran
      have effect := effect_of_step stepped
      rw [List.filterMap_append, filterMap_toList, List.length_append]
        at few ⊢
      have nextWithin := within.step consistent (by omega)
        (below action List.mem_cons_self) effect
      rw [← Nat.add_assoc] at few ⊢
      exact induction nextWithin (consistent.step effect).1
        (fun other member => below other (List.mem_cons_of_mem _ member))
        few rests

/-! ## Whole runs -/

omit [DecidableEq Thread] in
theorem consistent_initial : Consistent (Shared.initial : Shared Thread) :=
  fun _ => trivial

omit [DecidableEq Thread] in
theorem within_initial : Within 0 (Shared.initial : Shared Thread) :=
  ⟨by simp [Shared.initial], fun _ => trivial⟩

/--
In every interleaving, with clock readings and synchronised values below
`2 ^ 63` and fewer than `2 ^ 63` successful calls: no thread overflows, the
results strictly increase in the order of the successful exchanges, the
counter never decreases, and a call which starts after a value was returned
or synchronised returns a greater one.
-/
theorem monotone_of_run (actions : List (Atomic Thread))
    (final : Shared Thread) (events : List (Event Thread))
    (ran : (threads Thread).run .initial actions = some (final, events))
    (below : ∀ action ∈ actions, action.Below (2 ^ 63))
    (few : (events.filterMap Event.result).length < 2 ^ 63) :
    (∀ thread, final.phase thread ≠ .panicked) ∧
      ((events.filterMap Event.result).Pairwise
        fun earlier later => earlier.val < later.val) ∧
      (∀ before after, actions = before ++ after →
        ∃ middle early,
          (threads Thread).run .initial before = some (middle, early) ∧
            middle.counter ≤ final.counter) ∧
      ∀ before after thread earlier later,
        events = before ++ .called thread :: after →
        earlier ∈ before.filterMap Event.published →
        .returned thread later ∈ after →
          earlier.val < later.val := by
  refine ⟨?_, ?_, ?_, ?_⟩
  · intro thread panicked
    have within := within_initial.run consistent_initial below
      (by simpa using few) ran
    have phase := within.phases thread
    rw [panicked] at phase
    exact phase
  · exact (consistent_initial.run ran).2.2.2.2
  · rintro before after rfl
    obtain ⟨middle, early, late, runs, ends, _⟩ := Machine.run_append ran
    obtain ⟨consistent, _⟩ := consistent_initial.run runs
    exact ⟨middle, early, runs,
      UInt64.le_iff_toNat_le.mpr (consistent.run ends).2.1⟩
  · rintro before after thread earlier later rfl published returned
    exact published_lt_result consistent_initial ran published returned

/-- Two threads race: the second exchange of thread 0 succeeds. -/
def race : List (Atomic Nat) :=
  [.call 0, .load 0, .call 1, .load 1, .readClock 0 512, .readClock 1 300,
    .compareExchange 1, .compareExchange 0, .sync 1 ⟨900⟩, .load 0,
    .readClock 0 512, .compareExchange 0]

theorem monotone_of_run_race :
    ∃ final events,
      (threads Nat).run .initial race = some (final, events) ∧
      events.filterMap Event.result = [⟨257⟩, ⟨901⟩] ∧
      (∀ thread, final.phase thread ≠ .panicked) := by
  refine ⟨_, _, rfl, rfl, ?_⟩
  exact (monotone_of_run race _ _ rfl (by decide) (by decide)).1

end Cdoc.HlcThreads
