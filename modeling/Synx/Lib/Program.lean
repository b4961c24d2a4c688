/-
Programs over a state that may stop early.
-/

import Mathlib.Tactic

namespace Lib

def Program (σ ε α : Type) : Type := σ → Except ε α × σ

namespace Program

variable {σ ε α β ι : Type}

def run (program : Program σ ε α) (state : σ) : Except ε α × σ := program state

instance : Monad (Program σ ε) where
  pure value := fun state => (.ok value, state)
  bind program next := fun state =>
    match program state with
    | (.ok value, after) => next value after
    | (.error stop, after) => (.error stop, after)

def stop (reason : ε) : Program σ ε α := fun state => (.error reason, state)

def gets (read : σ → α) : Program σ ε α := fun state => (.ok (read state), state)

def modify (change : σ → σ) : Program σ ε Unit := fun state => (.ok (), change state)

/-- Runs the body on every item in order and stops where it stops. -/
def each (body : ι → Program σ ε Unit) : List ι → Program σ ε Unit
  | [] => pure ()
  | item :: rest => do
      body item
      each body rest

/-- The two ways a system function ends early: it returns an error code, or it
would have done something that no caller can recover from. -/
inductive Stop (φ : Type)
  | code (value : Int)
  | fault (reason : φ)
  deriving DecidableEq

/-- Hands an error code to the caller as a value.  Faults are not caught. -/
def attempt {φ : Type} (program : Program σ (Stop φ) α) :
    Program σ (Stop φ) (Except Int α) := fun state =>
  match program state with
  | (.ok value, after) => (.ok (.ok value), after)
  | (.error (.code value), after) => (.ok (.error value), after)
  | (.error (.fault reason), after) => (.error (.fault reason), after)

/-- A result that does not depend on the state. -/
def lift (result : Except ε α) : Program σ ε α := fun state => (result, state)

/-- A result as wanted or an error code, and no fault. -/
def Graceful {φ : Type} (wanted : α → Prop) : Except (Stop φ) α → Prop
  | .ok value => wanted value
  | .error (.code value) => value < 0
  | .error (.fault _) => False

variable {φ : Type} {result : Except (Stop φ) α} {wanted : α → Prop} {program : Program σ ε α}
  {next : α → Program σ ε β} {state : σ} {value : α} {reason : ε} {after' : α → σ → Prop}
  {stopped' : ε → σ → Prop}

theorem Graceful.bind {next : α → Except (Stop φ) β} {final : β → Prop}
    (first : Graceful wanted result) (rest : ∀ value, wanted value → Graceful final (next value)) :
    Graceful final (result >>= next) := by
  cases result with
  | ok value => exact rest value first
  | error reason =>
    cases reason with
    | code value => exact first
    | fault cause => exact first

theorem Graceful.imp {final : α → Prop} (graceful : Graceful wanted result)
    (enough : ∀ value, wanted value → final value) : Graceful final result := by
  cases result with
  | ok value => exact enough value graceful
  | error reason =>
    cases reason with
    | code value => exact graceful
    | fault cause => exact graceful

/-- The result itself may be kept. -/
theorem Graceful.self (graceful : Graceful wanted result) :
    Graceful (fun value => result = .ok value ∧ wanted value) result := by
  cases result with
  | ok value => exact ⟨rfl, graceful⟩
  | error reason =>
    cases reason with
    | code value => exact graceful
    | fault cause => exact graceful

/-- Runs a program on a part of a larger state. -/
def zoom {ρ : Type} (get : ρ → σ) (set : σ → ρ → ρ) (program : Program σ ε α) :
    Program ρ ε α := fun whole =>
  let (result, part) := program (get whole)
  (result, set part whole)

@[simp]
theorem run_pure (value : α) (state : σ) :
    (pure value : Program σ ε α).run state = (.ok value, state) := rfl

theorem run_bind (program : Program σ ε α) (next : α → Program σ ε β) (state : σ) :
    (program >>= next).run state =
      match program.run state with
      | (.ok value, after) => (next value).run after
      | (.error reason, after) => (.error reason, after) := rfl

theorem run_bind_ok {after : σ} (ran : program.run state = (.ok value, after)) :
    (program >>= next).run state = (next value).run after := by
  rw [run_bind, ran]

theorem run_bind_error {after : σ} (ran : program.run state = (.error reason, after)) :
    (program >>= next).run state = (.error reason, after) := by
  rw [run_bind, ran]

/-- A composite succeeds exactly through a success of its first part. -/
theorem run_bind_eq_ok {after : σ} {result : β}
    (ran : (program >>= next).run state = (.ok result, after)) :
    ∃ value middle, program.run state = (.ok value, middle) ∧
      (next value).run middle = (.ok result, after) := by
  rw [run_bind] at ran
  split at ran
  · rename_i value middle first
    exact ⟨value, middle, first, ran⟩
  · cases ran

theorem ok_of_toOption {result : Except ε α} (same : result.toOption = some value) :
    result = .ok value := by
  cases result with
  | error reason => cases same
  | ok other => exact congrArg Except.ok (Option.some.inj same)

/-- A run whose value has been computed. -/
theorem run_of_toOption {outcome : Except ε α × σ} (same : outcome.1.toOption = some value) :
    outcome = (.ok value, outcome.2) :=
  Prod.ext (ok_of_toOption same) rfl

@[simp]
theorem run_lift (result : Except ε α) (state : σ) :
    (lift result : Program σ ε α).run state = (result, state) := rfl

@[simp]
theorem run_gets (read : σ → α) (state : σ) :
    (gets read : Program σ ε α).run state = (.ok (read state), state) := rfl

@[simp]
theorem run_modify (change : σ → σ) (state : σ) :
    (modify change : Program σ ε Unit).run state = (.ok (), change state) := rfl

theorem run_attempt_ok {program : Program σ (Stop φ) α} {final : σ}
    (ran : program.run state = (.ok value, final)) :
    (attempt program).run state = (.ok (.ok value), final) := by
  unfold run at ran ⊢
  unfold attempt
  rw [ran]

theorem run_attempt_code {program : Program σ (Stop φ) α} {final : σ} {code : Int}
    (ran : program.run state = (.error (.code code), final)) :
    (attempt program).run state = (.ok (.error code), final) := by
  unfold run at ran ⊢
  unfold attempt
  rw [ran]

theorem run_ite (condition : Prop) [Decidable condition]
    (yes no : Program σ ε α) (state : σ) :
    (if condition then yes else no).run state =
      if condition then yes.run state else no.run state := by
  split <;> rfl

/-! ### Pre- and postconditions -/

/-- From every state that meets `before`, the program ends in `after` when it
returns a value and in `stopped` when it stops early. -/
def Triple (before : σ → Prop) (program : Program σ ε α)
    (after : α → σ → Prop) (stopped : ε → σ → Prop) : Prop :=
  ∀ state, before state →
    match program.run state with
    | (.ok value, final) => after value final
    | (.error reason, final) => stopped reason final

variable {before middle : σ → Prop} {after : α → σ → Prop} {stopped : ε → σ → Prop}

theorem Triple.ok (triple : Triple before program after stopped) {final : σ} (holds : before state)
    (ran : program.run state = (.ok value, final)) : after value final := by
  have ended := triple state holds
  rw [ran] at ended
  exact ended

theorem Triple.error (triple : Triple before program after stopped) {final : σ}
    (holds : before state) (ran : program.run state = (.error reason, final)) :
    stopped reason final := by
  have ended := triple state holds
  rw [ran] at ended
  exact ended

/-- A program that cannot stop early returns. -/
theorem Triple.total (triple : Triple before program after (fun _ _ => False))
    (holds : before state) :
    ∃ value final, program.run state = (.ok value, final) ∧ after value final := by
  have ended := triple state holds
  cases ran : program.run state with
  | mk result final =>
    rw [ran] at ended
    cases result with
    | ok value => exact ⟨value, final, rfl, ended⟩
    | error reason => exact ended.elim

theorem Triple.pure (value : α) (holds : ∀ state, before state → after value state) :
    Triple before (pure value) after stopped := by
  intro state start
  exact holds state start

theorem Triple.stop (reason : ε) (holds : ∀ state, before state → stopped reason state) :
    Triple before (stop reason : Program σ ε α) after stopped := by
  intro state start
  exact holds state start

theorem Triple.gets (read : σ → α) (holds : ∀ state, before state → after (read state) state) :
    Triple before (Program.gets read) after stopped := by
  intro state start
  exact holds state start

theorem Triple.modify {after : Unit → σ → Prop} (change : σ → σ)
    (holds : ∀ state, before state → after () (change state)) :
    Triple before (Program.modify change) after stopped := by
  intro state start
  exact holds state start

theorem Triple.bind {after : β → σ → Prop} (between : α → σ → Prop)
    (first : Triple before program between stopped)
    (second : ∀ value, Triple (between value) (next value) after stopped) :
    Triple before (program >>= next) after stopped := by
  intro state start
  have reached := first state start
  rw [run_bind]
  cases ran : program.run state with
  | mk result final =>
    rw [ran] at reached
    cases result with
    | ok value => exact second value final reached
    | error reason => exact reached

/-- After a program that never returns nothing runs. -/
theorem Triple.bind_never {after : β → σ → Prop}
    (never : Triple before program (fun _ _ => False) stopped) :
    Triple before (program >>= next) after stopped :=
  .bind (fun _ _ => False) never (fun _ _ impossible => impossible.elim)

/-- It is enough to start from each single state. -/
theorem Triple.of_state (single : ∀ state, before state →
    Triple (· = state) program after stopped) :
    Triple before program after stopped :=
  fun state start => single state start state rfl

theorem Triple.and (left : Triple before program after stopped)
    (right : Triple before program after' stopped') :
    Triple before program (fun value final => after value final ∧ after' value final)
      (fun reason final => stopped reason final ∧ stopped' reason final) := by
  intro state start
  have one := left state start
  have two := right state start
  split
  · rename_i ran
    rw [ran] at one two
    exact ⟨one, two⟩
  · rename_i ran
    rw [ran] at one two
    exact ⟨one, two⟩

/-- Nothing is claimed. -/
theorem Triple.trivial (program : Program σ ε α) :
    Triple before program (fun _ _ => True) (fun _ _ => True) := by
  intro state _
  split <;> exact True.intro

/-- The run itself may be kept in the postcondition. -/
theorem Triple.ran (triple : Triple (· = state) program after stopped) : Triple (· = state) program
      (fun value final => after value final ∧ program.run state = (.ok value, final)) stopped := by
  rintro _ rfl
  have ended := triple _ rfl
  split
  · rename_i value final ran
    rw [ran] at ended
    exact ⟨ended, ran⟩
  · rename_i reason final ran
    rw [ran] at ended
    exact ended

theorem Triple.stops (triple : Triple (· = state) program after stopped) :
    Triple (· = state) program after
      (fun reason final => stopped reason final ∧ program.run state = (.error reason, final)) := by
  rintro _ rfl
  split
  · exact triple.ok rfl ‹_›
  · exact ⟨triple.error rfl ‹_›, ‹_›⟩

/-- A condition may be asked for after the run. -/
theorem Triple.given {condition : Prop}
    (triple : condition → Triple before program after (fun _ _ => True)) :
    Triple before program (fun value final => condition → after value final) (fun _ _ => True) := by
  intro state holds
  rcases ran : program.run state with ⟨result, final⟩
  cases result with
  | ok value => exact fun given => (triple given).ok holds ran
  | error _ => trivial

theorem Triple.weaken {before' : σ → Prop} (triple : Triple before program after stopped)
    (starts : ∀ state, before' state → before state)
    (ends : ∀ value state, after value state → after' value state)
    (stops : ∀ reason state, stopped reason state → stopped' reason state) :
    Triple before' program after' stopped' := by
  intro state start
  have reached := triple state (starts state start)
  cases ran : program.run state with
  | mk result final =>
    rw [ran] at reached
    cases result with
    | ok value => exact ends value final reached
    | error reason => exact stops reason final reached

theorem Triple.ite (condition : Prop) [Decidable condition] {yes no : Program σ ε α}
    (holds : condition → Triple before yes after stopped)
    (fails : ¬condition → Triple before no after stopped) :
    Triple before (if condition then yes else no) after stopped := by
  by_cases decided : condition
  · rw [if_pos decided]
    exact holds decided
  · rw [if_neg decided]
    exact fails decided

/-- An invariant of the body is an invariant of the loop. -/
theorem Triple.each (invariant : σ → Prop) (body : ι → Program σ ε Unit) (items : List ι)
    (keeps : ∀ item ∈ items, Triple invariant (body item) (fun _ => invariant) stopped) :
    Triple invariant (Program.each body items) (fun _ => invariant) stopped := by
  induction items with
  | nil => exact .pure () (fun _ holds => holds)
  | cons item rest ih =>
    apply Triple.bind _ (keeps item (.head _))
    intro _
    exact ih (fun other member => keeps other (.tail item member))

/-- A loop whose assertion depends on the number of rounds that are done. -/
theorem Triple.each_indexed (holds : Nat → σ → Prop) (body : ι → Program σ ε Unit) (items : List ι)
    (one : ∀ index (bound : index < items.length),
      Triple (holds index) (body items[index]) (fun _ => holds (index + 1)) stopped) :
    Triple (holds 0) (Program.each body items) (fun _ => holds items.length) stopped := by
  induction items generalizing holds with
  | nil => exact .pure _ (fun _ begins => begins)
  | cons item rest ih =>
    refine .bind (fun _ => holds 1) (one 0 (Nat.succ_pos _)) (fun _ => ?_)
    exact ih (fun index => holds (index + 1))
      (fun index bound => one (index + 1) (Nat.succ_lt_succ bound))

/-- A loop that carries an abstract state along. -/
theorem Triple.each_foldl {γ : Type} (holds : γ → σ → Prop) (step : γ → ι → γ)
    (body : ι → Program σ ε Unit) (items : List ι) (one : ∀ item ∈ items, ∀ value,
      Triple (holds value) (body item) (fun _ => holds (step value item)) stopped) (value : γ) :
    Triple (holds value) (Program.each body items) (fun _ => holds (items.foldl step value))
      stopped := by
  induction items generalizing value with
  | nil => exact .pure _ (fun _ now => now)
  | cons item rest ih =>
    exact .bind _ (one item (.head _) value)
      (fun _ => ih (fun other member => one other (.tail item member)) _)

/-! ### Invariants -/

/-- However the program ends, the invariant still holds. -/
def Keeps (invariant : σ → Prop) (program : Program σ ε α) : Prop :=
  Triple invariant program (fun _ => invariant) (fun _ => invariant)

section Keeps

variable {invariant : σ → Prop}

theorem Keeps.final {program : Program σ ε α} (keeps : Keeps invariant program) {state : σ}
    (holds : invariant state) : invariant (program.run state).2 := by
  have ended := keeps state holds
  cases ran : program.run state with
  | mk result final =>
    rw [ran] at ended
    cases result with
    | ok value => exact ended
    | error reason => exact ended

theorem Keeps.pure (value : α) : Keeps invariant (Pure.pure value : Program σ ε α) :=
  Triple.pure value (fun _ holds => holds)

theorem Keeps.stop (reason : ε) : Keeps invariant (Program.stop reason : Program σ ε α) :=
  Triple.stop reason (fun _ holds => holds)

theorem Keeps.gets (read : σ → α) : Keeps invariant (Program.gets read : Program σ ε α) :=
  Triple.gets read (fun _ holds => holds)

theorem Keeps.modify {change : σ → σ}
    (holds : ∀ state, invariant state → invariant (change state)) :
    Keeps invariant (Program.modify change : Program σ ε Unit) :=
  Triple.modify change holds

theorem Keeps.bind {program : Program σ ε α} {next : α → Program σ ε β}
    (first : Keeps invariant program) (second : ∀ value, Keeps invariant (next value)) :
    Keeps invariant (program >>= next) :=
  Triple.bind _ first second

theorem Keeps.ite (condition : Prop) [Decidable condition] {yes no : Program σ ε α}
    (holds : Keeps invariant yes) (fails : Keeps invariant no) :
    Keeps invariant (if condition then yes else no) :=
  Triple.ite condition (fun _ => holds) (fun _ => fails)

theorem Keeps.each {body : ι → Program σ ε Unit} {items : List ι}
    (keeps : ∀ item ∈ items, Keeps invariant (body item)) :
    Keeps invariant (Program.each body items) :=
  Triple.each invariant body items keeps

end Keeps

end Program
end Lib
