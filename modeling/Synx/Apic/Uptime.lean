/-
The uptime clock of `src/apic.cpp`.
-/

import Mathlib.Tactic

namespace Synx.Apic

open List
open Option

def apicTimerTick : Nat := 10

/-- The calibrated rate, `timer_ticks_per_ms`. -/
structure Clock where
  ticksPerMs : Nat
  word : ticksPerMs < 2 ^ 32

/-- `timer_period_ticks`. -/
def Clock.periodTicks (clock : Clock) : Nat := clock.ticksPerMs * apicTimerTick % 2 ^ 32

/-- The microseconds of a number of ticks, rounded down.  The product of a 32-bit
number and 1000 fits into 64 bits. -/
def Clock.microseconds (clock : Clock) (ticks : Nat) : Nat := ticks * 1000 / clock.ticksPerMs

/-- The counter register, the interrupt that it raised, and the two variables that
the handler keeps. -/
structure Timer where
  counter : Nat
  pending : Bool
  uptimeUsBase : Nat
  lapicTotalTicks : Nat
  deriving DecidableEq

/-- After `timer_init` of a periodic timer. -/
def Timer.initial (clock : Clock) : Timer := ⟨clock.periodTicks, false, 0, 0⟩

/-- `none` is the division by zero of a timer that was not calibrated. -/
def timerTick (clock : Clock) (timer : Timer) : Option Timer :=
  if clock.ticksPerMs = 0 then none
  else some
    { timer with
      lapicTotalTicks := (timer.lapicTotalTicks + clock.periodTicks) % 2 ^ 64
      uptimeUsBase := (timer.uptimeUsBase + clock.microseconds clock.periodTicks) % 2 ^ 64 }

def getUptimeUs (clock : Clock) (timer : Timer) : Nat :=
  if clock.ticksPerMs = 0 then 0
  else
    let consumedTicks :=
      if timer.counter ≤ clock.periodTicks then clock.periodTicks - timer.counter else 0
    (timer.uptimeUsBase + clock.microseconds consumedTicks) % 2 ^ 64

/-! ### Runs -/

inductive Event
  | decrement
  | reload
  | tick
  | read
  deriving DecidableEq

/-- One event, if it can happen.  The counter starts again when it has reached zero
and the last interrupt has been handled. -/
def Timer.step (clock : Clock) (timer : Timer) : Event → Option Timer
  | .decrement =>
    if 0 < timer.counter then some { timer with counter := timer.counter - 1 } else none
  | .reload =>
    if timer.counter = 0 ∧ timer.pending = false then
      some { timer with counter := clock.periodTicks, pending := true }
    else none
  | .tick =>
    if timer.pending then
      (timerTick clock timer).map (fun after => { after with pending := false })
    else none
  | .read => some timer

/-- The readings of a sequence of events, in their order. -/
def readings (clock : Clock) : Timer → List Event → Option (List Nat)
  | _, [] => some []
  | timer, event :: rest =>
    (timer.step clock event).bind (fun next =>
      (readings clock next rest).map (fun later =>
        if event = .read then getUptimeUs clock timer :: later else later))

/-- A reading is taken while no interrupt is pending, and the handler runs while
the base is two periods away from the end of its 64 bits. -/
def Steady (clock : Clock) (timer : Timer) (event : Event) : Prop :=
  (event = .read → timer.pending = false) ∧
    (event = .tick → timer.uptimeUsBase + 2 * clock.microseconds clock.periodTicks < 2 ^ 64)

/-- Every event of a sequence that happens meets the condition. -/
def SteadyRun (clock : Clock) : Timer → List Event → Prop
  | _, [] => True
  | timer, event :: rest =>
    Steady clock timer event ∧
      match timer.step clock event with
      | some next => SteadyRun clock next rest
      | none => True

instance (clock : Clock) (timer : Timer) (event : Event) : Decidable (Steady clock timer event) :=
  inferInstanceAs (Decidable (_ ∧ _))

instance SteadyRun.decide (clock : Clock) : (timer : Timer) → (events : List Event) →
    Decidable (SteadyRun clock timer events)
  | _, [] => inferInstanceAs (Decidable True)
  | timer, event :: rest =>
    have (next : Timer) : Decidable (SteadyRun clock next rest) := SteadyRun.decide clock next rest
    match stepped : timer.step clock event with
    | some next => decidable_of_iff (Steady clock timer event ∧ SteadyRun clock next rest)
        (by rw [SteadyRun, stepped])
    | none => decidable_of_iff (Steady clock timer event) (by rw [SteadyRun, stepped, and_true])

/-! ### The time that has passed -/

/-- The time since the start: the base, the part of the current period that is
consumed, and the period that waits for its handler. -/
def elapsedUs (clock : Clock) (timer : Timer) : Nat :=
  timer.uptimeUsBase + clock.microseconds (clock.periodTicks - timer.counter) +
    (if timer.pending then clock.microseconds clock.periodTicks else 0)

/-- The counter is in its period and the base has room for another one. -/
structure Running (clock : Clock) (timer : Timer) : Prop where
  counter : timer.counter ≤ clock.periodTicks
  room : timer.uptimeUsBase + clock.microseconds clock.periodTicks < 2 ^ 64

section

variable {clock : Clock} {timer next : Timer}

theorem Clock.microseconds_le (clock : Clock) {fewer more : Nat} (less : fewer ≤ more) :
    clock.microseconds fewer ≤ clock.microseconds more :=
  Nat.div_le_div_right (Nat.mul_le_mul_right 1000 less)

theorem Running.initial (clock : Clock) : Running clock (Timer.initial clock) := by
  refine ⟨le_rfl, ?_⟩
  have period : clock.periodTicks < 2 ^ 32 := Nat.mod_lt _ (by decide)
  have bound : clock.microseconds clock.periodTicks ≤ clock.periodTicks * 1000 :=
    Nat.div_le_self _ _
  change 0 + _ < _
  omega

theorem Running.getUptimeUs_eq (running : Running clock timer) (moving : clock.ticksPerMs ≠ 0) :
    getUptimeUs clock timer + (if timer.pending then clock.microseconds clock.periodTicks else 0) =
      elapsedUs clock timer := by
  have part := clock.microseconds_le (Nat.sub_le clock.periodTicks timer.counter)
  have room := running.room
  unfold getUptimeUs elapsedUs
  rw [if_neg moving]
  simp only
  rw [if_pos running.counter, Nat.mod_eq_of_lt (by omega)]

theorem Timer.step_running {event : Event} (running : Running clock timer)
    (steady : Steady clock timer event) (stepped : timer.step clock event = some next) :
    Running clock next ∧ elapsedUs clock timer ≤ elapsedUs clock next := by
  have counter := running.counter
  have room := running.room
  cases event with
  | decrement =>
    simp only [Timer.step] at stepped
    split at stepped
    · cases stepped
      refine ⟨⟨by simp only; omega, room⟩, ?_⟩
      have more := clock.microseconds_le
        (show clock.periodTicks - timer.counter ≤ clock.periodTicks - (timer.counter - 1) by omega)
      unfold elapsedUs
      simp only
      omega
    · cases stepped
  | reload =>
    simp only [Timer.step] at stepped
    split at stepped
    · rename_i expired
      cases stepped
      refine ⟨⟨le_rfl, room⟩, ?_⟩
      unfold elapsedUs
      simp only [expired.1, expired.2, Nat.sub_zero, Nat.sub_self, Bool.false_eq_true, if_false,
        if_true]
      omega
    · cases stepped
  | tick =>
    simp only [Timer.step] at stepped
    split at stepped
    · rename_i raised
      simp only [timerTick] at stepped
      split at stepped
      · cases stepped
      · cases stepped
        have far := steady.2 rfl
        have whole : (timer.uptimeUsBase + clock.microseconds clock.periodTicks) % 2 ^ 64 =
            timer.uptimeUsBase + clock.microseconds clock.periodTicks := Nat.mod_eq_of_lt room
        refine ⟨⟨counter, ?_⟩, ?_⟩
        · simp only
          rw [whole]
          omega
        · unfold elapsedUs
          simp only [whole, raised, Bool.false_eq_true, if_false, if_true]
          omega
    · cases stepped
  | read =>
    cases stepped
    exact ⟨running, le_rfl⟩

theorem readings_sorted (moving : clock.ticksPerMs ≠ 0) {events : List Event} {values : List Nat}
    (running : Running clock timer) (steady : SteadyRun clock timer events)
    (read : readings clock timer events = some values) :
    (∀ value ∈ values, elapsedUs clock timer ≤ value) ∧ values.Pairwise (· ≤ ·) := by
  induction events generalizing timer values with
  | nil =>
    cases read
    exact ⟨nofun, List.Pairwise.nil⟩
  | cons event rest ih =>
    obtain ⟨next, stepped, readLater⟩ := bind_eq_some_iff.mp read
    rw [SteadyRun, stepped] at steady
    obtain ⟨now, after⟩ := steady
    obtain ⟨later, readRest, rfl⟩ := map_eq_some_iff.mp readLater
    obtain ⟨runningNext, grows⟩ := Timer.step_running running now stepped
    obtain ⟨above, sorted⟩ := ih runningNext after readRest
    have aboveNow : ∀ value ∈ later, elapsedUs clock timer ≤ value :=
      fun value member => le_trans grows (above value member)
    by_cases isRead : event = .read
    · subst isRead
      rw [if_pos rfl]
      have value : getUptimeUs clock timer = elapsedUs clock timer := by
        have whole := running.getUptimeUs_eq moving
        rw [now.1 rfl] at whole
        exact whole
      rw [value]
      refine ⟨?_, pairwise_cons.mpr ⟨aboveNow, sorted⟩⟩
      intro other member
      rcases mem_cons.mp member with rfl | inLater
      · exact le_rfl
      · exact aboveNow other inLater
    · rw [if_neg isRead]
      exact ⟨aboveNow, sorted⟩

theorem readings_stopped (stopped : clock.ticksPerMs = 0) {events : List Event} {values : List Nat}
    (read : readings clock timer events = some values) : ∀ value ∈ values, value = 0 := by
  induction events generalizing timer values with
  | nil =>
    cases read
    nofun
  | cons event rest ih =>
    obtain ⟨next, _, readLater⟩ := bind_eq_some_iff.mp read
    obtain ⟨later, readRest, rfl⟩ := map_eq_some_iff.mp readLater
    have zeros := ih readRest
    intro value member
    split at member
    · rcases mem_cons.mp member with rfl | inLater
      · exact if_pos stopped
      · exact zeros value inLater
    · exact zeros value member

end

/-- In every run whose readings are taken while no timer interrupt is pending, and
whose base does not reach the end of its 64 bits, the uptime never runs
backwards. -/
theorem uptime_never_falls (clock : Clock) (events : List Event) (values : List Nat)
    (read : readings clock (Timer.initial clock) events = some values)
    (steady : SteadyRun clock (Timer.initial clock) events) : values.Pairwise (· ≤ ·) := by
  by_cases stopped : clock.ticksPerMs = 0
  · have zeros := readings_stopped stopped read
    exact pairwise_of_forall_mem_list (fun left isLeft right isRight =>
      le_of_eq ((zeros left isLeft).trans (zeros right isRight).symm))
  · exact (readings_sorted stopped (Running.initial clock) steady read).2

/-- One tick in a millisecond: the period has ten of them. -/
def slowClock : Clock := ⟨1, by decide⟩

/-- A reading in each of two periods, with the handler between them. -/
theorem uptime_never_falls_slow :
    let events := replicate 9 Event.decrement ++
      [.read, .decrement, .reload, .tick, .read]
    readings slowClock (Timer.initial slowClock) events = some [9000, 10000] ∧
      [9000, 10000].Pairwise (· ≤ ·) := by
  intro events
  have read : readings slowClock (Timer.initial slowClock) events = some [9000, 10000] := by
    decide +kernel
  exact ⟨read, uptime_never_falls slowClock events _ read (by decide +kernel)⟩

/-- The counter has started again and the handler has not run: the second reading
falls back by nine milliseconds. -/
theorem uptime_falls_pending :
    ∃ clock events, readings clock (Timer.initial clock) events = some [9000, 0] ∧
      ¬[9000, 0].Pairwise (· ≤ ·) :=
  ⟨slowClock, replicate 9 .decrement ++ [.read, .decrement, .reload, .read],
    by decide +kernel, by decide⟩

/-! ### Several processors -/

/-- The timer interrupts of all processors, in the order they are handled.  `irqHandler` calls
`timer_tick` on whichever processor takes one. -/
def handleAll {cpus : Nat} (clock : Clock) : List (Fin cpus) → Timer → Option Timer
  | [], timer => some timer
  | _ :: rest, timer => (timerTick clock timer).bind (handleAll clock rest)

/-- No reading exceeds one period more than each processor's share, whatever the counter of the
reading processor shows. -/
def UptimeBounded (clock : Clock) (cpus share : Nat) : Prop :=
  ∀ (interrupts : List (Fin cpus)) (timer : Timer),
    (∀ cpu, interrupts.count cpu ≤ share) →
      handleAll clock interrupts (Timer.initial clock) = some timer →
        ∀ counter, getUptimeUs clock { timer with counter := counter } ≤ (share + 1) * 10000

section Processors

variable {clock : Clock} {cpus : Nat}

theorem Clock.periodTicks_eq (short : clock.ticksPerMs * 10 < 2 ^ 32) :
    clock.periodTicks = clock.ticksPerMs * 10 :=
  Nat.mod_eq_of_lt short

section

variable (calibrated : 0 < clock.ticksPerMs) (short : clock.ticksPerMs * 10 < 2 ^ 32)

include calibrated short

theorem Clock.microseconds_period : clock.microseconds clock.periodTicks = 10000 := by
  rw [microseconds, periodTicks_eq short, mul_assoc]
  exact Nat.mul_div_cancel_left _ calibrated

theorem handleAll_base (interrupts : List (Fin cpus)) (timer : Timer) :
    ∃ after, handleAll clock interrupts timer = some after ∧
      after.uptimeUsBase % 2 ^ 64 = (timer.uptimeUsBase + interrupts.length * 10000) % 2 ^ 64 := by
  induction interrupts generalizing timer with
  | nil => exact ⟨timer, rfl, by rw [length_nil, zero_mul, add_zero]⟩
  | cons cpu rest ih =>
    have ticked : timerTick clock timer = some _ := if_neg (Nat.ne_of_gt calibrated)
    rw [Clock.microseconds_period calibrated short] at ticked
    rw [handleAll, ticked, bind_some]
    obtain ⟨after, handled, base⟩ := ih _
    refine ⟨after, handled, base.trans ?_⟩
    rw [length_cons, Nat.mod_add_mod]
    congr 1
    omega

theorem getUptimeUs_handled (interrupts : List (Fin cpus)) :
    ∃ timer, handleAll clock interrupts (Timer.initial clock) = some timer ∧
      ∀ counter, getUptimeUs clock { timer with counter := counter } =
        (interrupts.length * 10000 + clock.microseconds (clock.periodTicks - counter)) % 2 ^
          64 := by
  obtain ⟨timer, handled, base⟩ := handleAll_base calibrated short interrupts (Timer.initial clock)
  refine ⟨timer, handled, fun counter => ?_⟩
  rw [Timer.initial, zero_add] at base
  rw [getUptimeUs, if_neg (Nat.ne_of_gt calibrated), ← Nat.mod_add_mod, base, Nat.mod_add_mod]
  dsimp only
  split
  · rfl
  · rw [Nat.sub_eq_zero_of_le (by omega)]

end

theorem length_le_share {interrupts : List (Fin cpus)} {share : Nat}
    (counts : ∀ cpu, interrupts.count cpu ≤ share) (few : cpus ≤ 1 ∨ share = 0) :
    interrupts.length ≤ share := by
  cases interrupts with
  | nil => exact zero_le
  | cons cpu rest =>
    have first := counts cpu
    rcases few with single | none
    · have same : ∀ other ∈ cpu :: rest, cpu = other := fun other _ => Fin.ext (by omega)
      rwa [count_eq_length.mpr same] at first
    · rw [count_cons_self] at first
      omega

/-- The uptime keeps to the real rate exactly on a single processor, before the first interrupt,
or when the bound is beyond 64 bits. -/
theorem uptime_bounded_iff (clock : Clock) (cpus share : Nat) (calibrated : 0 < clock.ticksPerMs)
    (short : clock.ticksPerMs * 10 < 2 ^ 32) :
    UptimeBounded clock cpus share ↔ cpus ≤ 1 ∨ share = 0 ∨ 2 ^ 64 ≤ (share + 1) * 10000 := by
  constructor
  · intro bounded
    by_contra more
    -- one processor takes its whole share and a second one a single interrupt
    obtain ⟨first, second, two⟩ : ∃ first second : Fin cpus, first ≠ second :=
      ⟨⟨0, by omega⟩, ⟨1, by omega⟩, by simp⟩
    obtain ⟨timer, handled, reads⟩ := getUptimeUs_handled calibrated short
      (second :: replicate share first)
    have counts : ∀ cpu, (second :: replicate share first).count cpu ≤ share := by
      intro cpu
      rw [count_cons, count_replicate]
      by_cases isFirst : first = cpu
      · subst isFirst
        simp [two.symm]
      · simp [isFirst]
        split <;> omega
    have reading := bounded _ timer counts handled (clock.periodTicks - clock.ticksPerMs)
    have consumed : clock.microseconds clock.ticksPerMs = 1000 :=
      Nat.mul_div_cancel_left _ calibrated
    have period := Clock.periodTicks_eq short
    rw [reads, Nat.sub_sub_self (by omega), consumed, length_cons, length_replicate] at reading
    omega
  · intro holds interrupts timer counts handled counter
    obtain ⟨after, ran, reads⟩ := getUptimeUs_handled calibrated short interrupts
    cases handled.symm.trans ran
    have period := Clock.microseconds_period calibrated short
    have consumed := clock.microseconds_le (Nat.sub_le clock.periodTicks counter)
    rw [reads]
    rcases or_assoc.mpr holds with few | beyond
    · have length := length_le_share counts few
      refine (Nat.mod_le _ _).trans ?_
      omega
    · exact (Nat.mod_lt _ (by decide)).le.trans beyond

end Processors

theorem uptime_bounded_single : UptimeBounded slowClock 1 5 :=
  (uptime_bounded_iff slowClock 1 5 (by decide) (by decide)).mpr (.inl (Nat.le_refl 1))

/-- Two processors take one interrupt each: thirty milliseconds are read where twenty is the bound.
-/
theorem uptime_doubles : ¬UptimeBounded slowClock 2 1 := by
  intro bounded
  have reading := bounded [0, 1] ⟨10, false, 20000, 20⟩ (by decide) (by decide) 0
  revert reading
  decide

end Synx.Apic
