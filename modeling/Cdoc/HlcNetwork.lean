import Cdoc.Foundation.Causality
import Cdoc.HlcThreads

/-!
# Clocks of many processes

Every process has a counter of its own, which its threads share, and a wall
clock which may stand anywhere.  Timestamps travel between processes: whoever
deserialises one raises its own counter.  They may be lost, repeated and
overtaken on the way.

Timestamps follow causality all the same, whatever the wall clocks show.  And
they stay near the wall clocks: a timestamp is ahead of the fastest one by no
more than the number of calls so far, if only timestamps which some process
has returned are ever received.
-/

namespace Cdoc.HlcThreads

open Cdoc.Foundation

variable {Name Thread : Type} [DecidableEq Name] [DecidableEq Thread]

/-- Processes whose threads take their steps in any order. -/
def network (Name Thread : Type) [DecidableEq Name] [DecidableEq Thread] :
    Machine (Name → Shared Thread) (Name × Atomic Thread)
      (Name × Event Thread) :=
  Machine.copies Name (threads Thread)

/-- A timestamp which was returned is deserialised. -/
inductive Delivers : Event Thread → Event Thread → Prop
  | timestamp {sender receiver : Thread} {timestamp : Timestamp} :
      Delivers (.returned sender timestamp) (.synced receiver timestamp)

/-! ## Causality -/

/-- What an event tells of the counter before and behind it. -/
structure Event.Shows (event : Event Thread) (low high : Nat) : Prop where
  published : ∀ timestamp ∈ event.published, timestamp.val.toNat ≤ high
  result : ∀ timestamp ∈ event.result,
    low < timestamp.val.toNat ∧ timestamp.val.toNat = high

theorem Consistent.shows {self next : Shared Thread} {action : Atomic Thread}
    {event : Option (Event Thread)} (consistent : Consistent self)
    (effect : Effect self action next event) :
    ∀ emitted ∈ event,
      emitted.Shows self.counter.toNat next.counter.toNat := by
  obtain ⟨-, -, known, fresh⟩ := consistent.step effect
  rintro emitted rfl
  refine ⟨known, fun timestamp returned => ⟨fresh timestamp returned, ?_⟩⟩
  cases effect with
  | exchange computed =>
      cases returned
      rfl
  | call idle => cases returned
  | sync idle => cases returned

/--
In every interleaving of the threads of all processes and with every delivery
of timestamps, what a call returns is above all timestamps which precede it.
-/
theorem clockCondition_of_run {actions : List (Name × Atomic Thread)}
    {final : Name → Shared Thread} {events : List (Name × Event Thread)}
    (ran : (network Name Thread).run (fun _ => .initial) actions =
      some (final, events))
    {first second : Nat}
    (precedes : Machine.Precedes Delivers events first second)
    {sender receiver : Name} {event : Event Thread} {thread : Thread}
    {earlier later : Timestamp}
    (before : events[first]? = some (sender, event))
    (published : event.published = some earlier)
    (after : events[second]? = some (receiver, .returned thread later)) :
    earlier.val < later.val := by
  obtain ⟨low, high, low', high', shown, shownLater, -, strictly⟩ :=
    @Machine.run_precedes Name (Shared Thread) (Atomic Thread)
      (Event Thread) _ (threads Thread) Consistent
      (fun self => self.counter.toNat) Event.Shows Delivers
      (fun event => ∃ timestamp, event.result = some timestamp)
      (by
        intro self action next event consistent stepped
        have effect := effect_of_step stepped
        obtain ⟨kept, grows, -⟩ := consistent.step effect
        exact ⟨kept, grows, consistent.shows effect⟩)
      (by
        rintro _ _ low high low' high' ⟨⟩ sent received
        rw [← (sent.result _ rfl).2]
        exact received.published _ rfl)
      (by
        rintro event low high ⟨timestamp, returned⟩ shown
        obtain ⟨above, reached⟩ := shown.result timestamp returned
        exact reached ▸ above)
      (by
        rintro _ _ ⟨⟩ ⟨timestamp, returned⟩
        cases returned)
      (fun _ => .initial) final actions events
      (fun _ => consistent_initial) ran first second _ _ precedes before
      after
  rw [UInt64.lt_iff_toNat_lt]
  calc
    earlier.val.toNat ≤ high := shown.published earlier published
    _ < high' := strictly ⟨later, rfl⟩
    _ = later.val.toNat := ((shownLater.result later rfl).2).symm

/-- Process 0 stamps, process 1 receives and stamps with a slower clock. -/
def relay : List (Nat × Atomic Nat) :=
  [(0, .call 5), (0, .load 5), (0, .readClock 5 1024),
    (0, .compareExchange 5), (1, .call 6), (1, .load 6),
    (1, .sync 7 ⟨1025⟩), (1, .readClock 6 512), (1, .compareExchange 6),
    (1, .load 6), (1, .readClock 6 512), (1, .compareExchange 6)]

theorem clockCondition_of_run_relay :
    ∃ final events, (network Nat Nat).run (fun _ => .initial) relay =
        some (final, events) ∧
      events[1]? = some (0, .returned 5 ⟨1025⟩) ∧
      events[4]? = some (1, .returned 6 ⟨1026⟩) ∧
      (1025 : UInt64) < 1026 := by
  refine ⟨_, _, rfl, rfl, rfl, ?_⟩
  have received : Machine.Precedes Delivers
      [((0, .called 5) : Nat × Event Nat), (0, .returned 5 ⟨1025⟩),
        (1, .called 6), (1, .synced 7 ⟨1025⟩), (1, .returned 6 ⟨1026⟩)] 1 3 :=
    .message (by decide) rfl rfl .timestamp
  exact @clockCondition_of_run Nat Nat _ _ relay _ _ rfl 1 4
    (received.trans (.order (by decide) rfl rfl)) 0 1 _ 6 ⟨1025⟩ ⟨1026⟩ rfl
    rfl rfl

/-! ## Distance from the wall clocks -/

/-- How far the counter and the values in flight are ahead of the clocks. -/
structure Near (limit count : Nat) (process : Shared Thread) : Prop where
  counter : process.counter.toNat ≤ limit + count
  computed : ∀ thread latest next,
    process.phase thread = .computed latest next →
      next.toNat ≤ max limit latest.toNat + 1

omit [DecidableEq Thread] in
theorem Near.mono {limit count larger : Nat} {self : Shared Thread}
    (near : Near limit count self) (more : count ≤ larger) :
    Near limit larger self :=
  ⟨near.counter.trans (Nat.add_le_add_left more limit), near.computed⟩

theorem Near.setPhase {limit count : Nat} {self : Shared Thread}
    (near : Near limit count self) {thread : Thread} {phase : Phase}
    (new : ∀ latest next, phase = .computed latest next →
      next.toNat ≤ max limit latest.toNat + 1) :
    Near limit count (self.setPhase thread phase) := by
  refine ⟨near.counter, fun other latest next computed => ?_⟩
  rw [Shared.setPhase_phase] at computed
  split at computed
  · exact new latest next computed
  · exact near.computed other latest next computed

/-- The wall clock shows at most the limit. -/
def Atomic.Reads (limit : Nat) : Atomic Thread → Prop
  | .readClock _ clock => clock.toNat ≤ limit
  | _ => True

/-- A call which returns may go one step further. -/
theorem Near.step {limit count : Nat} {self next : Shared Thread}
    {action : Atomic Thread} {event : Option (Event Thread)}
    (near : Near limit count self) (reads : action.Reads limit)
    (genuine : ∀ thread timestamp,
      event = some (.synced thread timestamp) →
        timestamp.val.toNat ≤ limit + count)
    (effect : Effect self action next event) :
    Near limit (count + (event.bind Event.result).toList.length) next ∧
      ∀ timestamp ∈ event.bind Event.result,
        timestamp.val.toNat ≤ limit + (count + 1) := by
  cases effect with
  | call idle =>
      exact ⟨near.setPhase (by simp), by simp [Event.result]⟩
  | load entered => exact ⟨near.setPhase (by simp), by simp⟩
  | @compute thread clock latest value loaded time =>
      refine ⟨near.setPhase ?_, by simp⟩
      intro held next same
      cases same
      have masked := (Timestamp.mask_le clock).trans reads
      rw [Timestamp.now_eq_ok_iff.mp time]
      exact Nat.succ_le_succ (max_le_max_right _ masked)
  | panic loaded overflow => exact ⟨near.setPhase (by simp), by simp⟩
  | @exchange thread value computed =>
      have bound := near.computed thread _ _ computed
      have below := near.counter
      have reached : value.toNat ≤ limit + (count + 1) := by omega
      refine ⟨⟨reached, (near.setPhase (by simp)).computed⟩, ?_⟩
      rintro timestamp ⟨⟩
      exact reached
  | retry computed stale => exact ⟨near.setPhase (by simp), by simp⟩
  | @sync thread timestamp idle =>
      refine ⟨⟨?_, near.computed⟩, by simp [Event.result]⟩
      show (Timestamp.sync self.counter timestamp).1.toNat ≤ _
      rw [Timestamp.toNat_sync]
      exact max_le near.counter (genuine thread timestamp rfl)

/-- Some call has returned the timestamp. -/
def Returned (events : List (Name × Event Thread)) (timestamp : Timestamp) :
    Prop :=
  ∃ event ∈ events, event.2.result = some timestamp

omit [DecidableEq Name] [DecidableEq Thread] in
theorem returned_append {events later : List (Name × Event Thread)}
    {timestamp : Timestamp} :
    Returned (events ++ later) timestamp ↔
      Returned events timestamp ∨ Returned later timestamp := by
  simp only [Returned, List.mem_append, or_and_right, exists_or]

/-- Only timestamps are received which a call has returned before. -/
def Genuine (past events : List (Name × Event Thread)) : Prop :=
  ∀ before name thread timestamp after,
    events = before ++ (name, .synced thread timestamp) :: after →
      Returned (past ++ before) timestamp

omit [DecidableEq Name] [DecidableEq Thread] in
theorem Genuine.tail {past later : List (Name × Event Thread)}
    {events : List (Name × Event Thread)}
    (genuine : Genuine past (events ++ later)) :
    Genuine (past ++ events) later := by
  rintro before name thread timestamp after rfl
  rw [List.append_assoc]
  exact genuine (events ++ before) name thread timestamp after
    (List.append_assoc _ _ _).symm

/-- By induction on the run, with the calls counted which have returned. -/
theorem near_run {limit count : Nat} {states final : Name → Shared Thread}
    {actions : List (Name × Atomic Thread)}
    {past events : List (Name × Event Thread)}
    (near : ∀ name, Near limit count (states name))
    (known : ∀ timestamp, Returned past timestamp →
      timestamp.val.toNat ≤ limit + count)
    (reads : ∀ action ∈ actions, action.2.Reads limit)
    (genuine : Genuine past events)
    (ran : (network Name Thread).run states actions =
      some (final, events)) :
    ∀ timestamp, Returned events timestamp → timestamp.val.toNat ≤
      limit + (count +
        (events.filterMap fun event => event.2.result).length) := by
  induction actions generalizing count states past events with
  | nil =>
      cases ran
      rintro timestamp ⟨event, member, -⟩
      cases member
  | cons action rest induction =>
      obtain ⟨middle, emitted, later, stepped, rests, rfl⟩ :=
        Machine.run_cons_eq_some_iff.mp ran
      simp only [network, Machine.copies] at stepped
      split at stepped
      · rename_i next event moved
        cases stepped
        have effect := effect_of_step moved
        obtain ⟨kept, returns⟩ := (near action.1).step
          (reads action List.mem_cons_self) (by
            rintro thread timestamp rfl
            obtain ⟨event, member, returned⟩ := genuine [] action.1 thread
              timestamp later rfl
            exact known timestamp
              ⟨event, by simpa using member, returned⟩) effect
        have counted : ((event.map fun emitted =>
            (action.1, emitted)).toList.filterMap fun event =>
              event.2.result).length =
            (event.bind Event.result).toList.length := by
          rw [filterMap_toList, Option.bind_map]
          rfl
        have bounded : ∀ timestamp, Returned (event.map fun emitted =>
            (action.1, emitted)).toList timestamp → timestamp.val.toNat ≤
              limit + (count + (event.bind Event.result).toList.length) := by
          rintro timestamp ⟨emitted, member, returned⟩
          obtain ⟨emitted, rfl, rfl⟩ := Option.map_eq_some_iff.mp
            (Option.mem_toList.mp member)
          have result : (some emitted).bind Event.result = some timestamp :=
            returned
          rw [result]
          exact returns timestamp result
        have nearLater : ∀ name, Near limit
            (count + (event.bind Event.result).toList.length)
            (Function.update states action.1 next name) := by
          intro name
          rw [Function.update_apply]
          split
          · exact kept
          · exact (near name).mono (Nat.le_add_right _ _)
        have laterBounded := induction nearLater (by
            intro timestamp returned
            rcases returned_append.mp returned with old | new
            · exact (known timestamp old).trans (by omega)
            · exact bounded timestamp new)
          (fun other member => reads other (List.mem_cons_of_mem _ member))
          genuine.tail rests
        intro timestamp returned
        rw [List.filterMap_append, List.length_append, counted]
        rcases returned_append.mp returned with here | there
        · exact (bounded timestamp here).trans (by omega)
        · exact (laterBounded timestamp there).trans (by omega)
      · cases stepped

/--
Where no forged timestamps are received, every timestamp is ahead of the
fastest wall clock by no more than the number of calls that have returned.
-/
theorem drift_of_run {limit : Nat} {actions : List (Name × Atomic Thread)}
    {final : Name → Shared Thread} {events : List (Name × Event Thread)}
    (ran : (network Name Thread).run (fun _ => .initial) actions =
      some (final, events))
    (reads : ∀ action ∈ actions, action.2.Reads limit)
    (genuine : Genuine [] events) (timestamp : Timestamp)
    (returned : Returned events timestamp) :
    timestamp.val.toNat ≤
      limit + (events.filterMap fun event => event.2.result).length := by
  have near : ∀ _ : Name, Near limit 0 (Shared.initial : Shared Thread) :=
    fun _ => ⟨Nat.zero_le _, fun _ _ _ computed => by cases computed⟩
  have bound := near_run near (by
    rintro other ⟨event, member, -⟩
    cases member) reads genuine ran timestamp returned
  rwa [Nat.zero_add] at bound

/-- Process 0 stamps, and process 1 receives. -/
def posted : List (Nat × Atomic Nat) :=
  [(0, .call 5), (0, .load 5), (0, .readClock 5 1023),
    (0, .compareExchange 5), (1, .sync 7 ⟨769⟩)]

theorem drift_of_run_posted :
    ∃ final events, (network Nat Nat).run (fun _ => .initial) posted =
        some (final, events) ∧
      ∀ timestamp, Returned events timestamp →
        timestamp.val.toNat ≤ 1024 := by
  refine ⟨_, _, rfl, ?_⟩
  have genuine : Genuine [] [((0, .called 5) : Nat × Event Nat),
      (0, .returned 5 ⟨769⟩), (1, .synced 7 ⟨769⟩)] := by
    intro before name thread timestamp after same
    rcases before with _ | ⟨first, _ | ⟨second, _ | ⟨third, before⟩⟩⟩
    · cases same
    · cases same
    · cases same
      exact ⟨_, List.mem_cons_of_mem _ List.mem_cons_self, rfl⟩
    · simp at same
  intro timestamp returned
  exact @drift_of_run Nat Nat _ _ 1023 posted _ _ rfl (by
    simp [posted, Atomic.Reads]) genuine timestamp returned

end Cdoc.HlcThreads
