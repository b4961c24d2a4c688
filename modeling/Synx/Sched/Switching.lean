/-
What a task finds when a processor comes back to it.
-/

import Synx.Sched.Runs

namespace Synx.Sched

open Lib Function
open Lib.Memory (readWord writeWord)
open Pmm (pageSize wordSize Block)
open Slab (Object Intact)

/-! ### Saved registers -/

def Preserved (machine : Machine) : Prop :=
  ∀ task registers, machine.saved task = some registers →
    task ∈ machine.tasks ∧ loadContext machine.mem (contextOf task) = registers

/-- A stack pointer in the stack of the task, from which `ret` goes to its entry point.
A size that wraps gives no stack of that size. -/
def FirstStart (mem : Memory) (record : Record) (rsp : Nat) : Prop :=
  record.stackSize + pageSize ≤ wordSize ∧ record.stack ≤ rsp ∧
    rsp + 8 ≤ record.stack + record.stackSize ∧
    readWord mem rsp = record.entryPoint

section

variable {hhdm : Nat} {others : List Block} {cpus : List Nat} {machine after : Machine}
    {record other : Record}

theorem loadContext_switchMem_next (mem : Memory) {current next : Nat} (registers : Registers)
    (apart : current + sizeofTask ≤ next ∨ next + sizeofTask ≤ current) :
    loadContext (switchMem mem current next registers) (contextOf next) =
      loadContext mem (contextOf next) := by
  have word : ∀ offset, 8 ≤ offset → offset + 24 ≤ sizeofTask →
      loadWord (switchMem mem current next registers) (contextOf next + offset) =
        loadWord mem (contextOf next + offset) := by
    intro offset low high
    unfold loadWord
    rw [Memory.readWord_congr _ mem]
    intro byte bound
    unfold contextOf
    unfold sizeofTask at *
    exact switchMem_outside mem registers (by omega) (by omega) (by omega)
  unfold loadContext
  rw [word 0x08 (by decide) (by decide), word 0x28 (by decide) (by decide),
    word 0x30 (by decide) (by decide),
    word 0x38 (by decide) (by decide), word 0x40 (by decide) (by decide),
      word 0x48 (by decide) (by decide),
    word 0x50 (by decide) (by decide)]

theorem Preserved.keep (preserved : Preserved machine) (same : ∀ task ∈ machine.tasks,
      SameTask machine.mem after.mem task)
    (tasks : machine.tasks ⊆ after.tasks) (saved : after.saved = machine.saved) :
    Preserved after := by
  intro task registers isSaved
  rw [saved] at isSaved
  obtain ⟨isTask, loads⟩ := preserved task registers isSaved
  exact ⟨tasks isTask, (same task isTask).loadContext.trans loads⟩

section

variable (preserved : Preserved machine) (scheduled : Scheduled hhdm others cpus machine)

include preserved scheduled

theorem Preserved.switch {cpu next : Nat} (member : cpu ∈ cpus) (registers : Registers)
    (isTask : next ∈ machine.tasks) (different : machine.state.currentTask cpu ≠ next) :
    Preserved
      { machine with
        state := machine.state.switched cpu next registers
        saved :=
          update machine.saved (machine.state.currentTask cpu) (some registers) } := by
  have isCurrent := scheduled.current cpu member
  intro task old isSaved
  change update machine.saved (machine.state.currentTask cpu) (some registers) task =
    some old at isSaved
  change task ∈ machine.tasks ∧
    loadContext (switchMem machine.mem (machine.state.currentTask cpu) next registers)
      (contextOf task) = old
  rcases eq_or_ne task (machine.state.currentTask cpu) with rfl | notCurrent
  · rw [update_self] at isSaved
    cases isSaved
    exact ⟨isCurrent, loadContext_saveContext _ _ registers⟩
  rw [update_of_ne notCurrent] at isSaved
  obtain ⟨isOther, loads⟩ := preserved task old isSaved
  refine ⟨isOther, Eq.trans ?_ loads⟩
  rcases eq_or_ne task next with rfl | notNext
  · exact loadContext_switchMem_next machine.mem registers
      (scheduled.tasks_apart isCurrent isTask different)
  · exact (SameTask.switchMem machine.mem registers
      (scheduled.tasks_apart isCurrent isOther notCurrent.symm)
      (scheduled.tasks_apart isTask isOther notNext.symm)).loadContext

theorem Preserved.step (step : Step hhdm others machine after) : Preserved after := by
  cases step with
  | create entryPoint stackSize task after ran =>
    rcases scheduled.run_createTask entryPoint stackSize with
      ⟨heap, failed, _, same⟩ | ⟨task', made, created, newTask⟩
    · rw [failed] at ran
      cases ran
      exact preserved.keep same (fun _ isTask => isTask) rfl
    · rw [created] at ran
      cases ran
      rw [if_neg newTask.nonnull]
      exact preserved.keep newTask.same (fun _ isTask => .tail _ isTask) rfl
  | schedule cpu registers loaded after ran =>
    obtain ⟨member, ⟨_, rfl⟩ | ⟨next, isTask, _, different, _, rfl⟩⟩ := scheduled.schedule_cases ran
    · rw [if_pos rfl]
      exact preserved
    · rw [if_neg]
      · exact preserved.switch scheduled member registers isTask different
      · intro same
        exact different (same.symm.trans (update_self _ _ _))
  | other heap _ same => exact preserved.keep same (fun _ isTask => isTask) rfl

theorem Preserved.run (steps : Relation.ReflTransGen (Step hhdm others) machine after) :
    Preserved after := by
  induction steps with
  | refl => exact preserved
  | tail before step ih => exact ih.step (scheduled.run before) step

end

/-! ### The first switch to a task -/

theorem firstStart_switchMem (scheduled : Scheduled hhdm others cpus machine) {current next : Nat}
    (isCurrent : current ∈ machine.tasks) (isNext : next ∈ machine.tasks) (registers : Registers)
    (member : record ∈ machine.created) (rsp : Nat) :
    FirstStart (switchMem machine.mem current next registers) record rsp ↔
      FirstStart machine.mem record rsp := by
  unfold FirstStart
  refine and_congr_right (fun fits => and_congr_right (fun low => and_congr_right (fun high => ?_)))
  obtain ⟨currentRecord, currentMember, rfl⟩ := Machine.mem_tasks.mp isCurrent
  obtain ⟨nextRecord, nextMember, rfl⟩ := Machine.mem_tasks.mp isNext
  have fromCurrent := scheduled.housed.stack_apart member fits currentMember
  have fromNext := scheduled.housed.stack_apart member fits nextMember
  unfold sizeofTask at fromCurrent fromNext
  rw [Memory.readWord_congr _ machine.mem]
  intro byte bound
  exact switchMem_outside machine.mem registers (by omega) (by omega) (by omega)

end

/-- What the task of a record is to find: the registers saved for it, or a start at
its entry point if there are none. -/
def Resumed (saved : Option Registers) (mem : Memory) (record : Record) (loaded : Registers) :
    Prop :=
  match saved with
  | some registers => loaded = registers
  | none => FirstStart mem record loaded.rsp.toNat

/-- In every run, a switch resumes its task exactly if the task was left before, or
the word that nobody wrote in its context happens to be a good stack pointer. -/
theorem switch_resumes_iff (hhdm : Nat) (others : List Block) (entry stackSize : Nat)
    (lapicIds : List Nat) (start booted : State) (machine : Machine) (cold : Cold hhdm others start)
    (distinct : lapicIds.Nodup)
    (boot : (initAllCpus hhdm entry stackSize lapicIds).run start = (.ok (), booted))
    (steps : Relation.ReflTransGen (Step hhdm others) (afterBoot booted entry stackSize lapicIds)
      machine) (cpu : Nat) (registers loaded : Registers) (after : State)
    (ran : (schedule cpu registers).run machine.state = (.ok loaded, after))
    (switched : after.currentTask cpu ≠ machine.state.currentTask cpu) (record : Record)
    (member : record ∈ machine.created) (isNext : after.currentTask cpu = record.task) :
    Resumed (machine.saved record.task) after.heap.mem record loaded ↔
      (machine.saved record.task ≠ none ∨
        FirstStart machine.mem record (readWord machine.mem (contextOf record.task + 0x50))) := by
  have initial := cold.boot distinct boot
  have scheduled := initial.run steps
  have preserved : Preserved machine :=
    Preserved.run (fun _ _ isSaved => by cases isSaved) initial steps
  obtain ⟨present, ⟨_, rfl⟩ | ⟨next, isTask, _, different, rfl, rfl⟩⟩ :=
    scheduled.schedule_cases ran
  · exact absurd rfl switched
  obtain rfl : next = record.task := (update_self _ _ _).symm.trans isNext
  have isCurrent := scheduled.current cpu present
  rw [loadContext_switchMem_next machine.mem registers
    (scheduled.tasks_apart isCurrent isTask different)]
  cases saved : machine.saved record.task with
  | some old =>
    exact ⟨fun _ => Or.inl nofun, fun _ => (preserved _ _ saved).2⟩
  | none =>
    have word : (loadContext machine.mem (contextOf record.task)).rsp.toNat =
        readWord machine.mem (contextOf record.task + 0x50) :=
      UInt64.toNat_ofNat_of_lt (Memory.readWord_lt _ _)
    change FirstStart (switchMem machine.mem (machine.state.currentTask cpu) record.task registers)
      record
      _ ↔ _
    rw [firstStart_switchMem scheduled isCurrent isTask registers member, word]
    exact ⟨Or.inr, fun either => either.resolve_left (fun never => never rfl)⟩

/-! ### One processor and one new task -/

def someRegisters (value : UInt64) : Registers := ⟨value, value, value, value, value, value, value⟩

/-- The state after `create_task` with a stack of one page. -/
@[irreducible]
def createdFrom (state : State) : State := ((createTask Slab.kernelBase 0x2000 4096).run state).2

/-- The state after the first processor called `schedule`. -/
@[irreducible]
def scheduledFrom (state : State) (registers : Registers) : State :=
  ((schedule 0 registers).run state).2

def oneBooted : Machine := afterBoot (bootedWith smallCold [0]) 0x1000 4096 [0]

def oneCreated : Machine :=
  oneBooted.add (createdFrom oneBooted.state) (createdFrom oneBooted.state).taskListHead 0x2000 4096

def oneSwitched : Machine :=
  { oneCreated with
    state := scheduledFrom oneCreated.state (someRegisters 7)
    saved :=
      update oneCreated.saved (oneCreated.state.currentTask 0) (some (someRegisters 7)) }

theorem oneBooted_boots :
    (initAllCpus Slab.kernelBase 0x1000 4096 [0]).run smallCold =
      (.ok (), bootedWith smallCold [0]) :=
  boots_with smallCold [0] (by decide +kernel)

theorem oneCreated_step : Step Slab.kernelBase [] oneBooted oneCreated := by
  have ran : (createTask Slab.kernelBase 0x2000 4096).run oneBooted.state =
      (.ok (createdFrom oneBooted.state).taskListHead, createdFrom oneBooted.state) := by
    refine Prod.ext (Program.ok_of_toOption (by decide +kernel)) ?_
    unfold createdFrom
    rfl
  have step := @Step.create Slab.kernelBase [] oneBooted _ _ _ _ ran
  rwa [if_neg (by decide +kernel)] at step

theorem oneCreated_schedules : (schedule 0 (someRegisters 7)).run oneCreated.state =
    (.ok (someRegisters 0), scheduledFrom oneCreated.state (someRegisters 7)) := by
  refine Prod.ext (Program.ok_of_toOption (by decide +kernel)) ?_
  unfold scheduledFrom
  rfl

theorem oneCreated_changes :
    (scheduledFrom oneCreated.state (someRegisters 7)).currentTask 0 =
      oneCreated.state.taskListHead ∧
      oneCreated.state.currentTask 0 ≠ oneCreated.state.taskListHead := by
  constructor <;> decide +kernel

theorem oneSwitched_step : Step Slab.kernelBase [] oneCreated oneSwitched := by
  have step := @Step.schedule Slab.kernelBase [] oneCreated _ _ _ _ oneCreated_schedules
  rwa [if_neg (fun same => oneCreated_changes.2 (same.symm.trans oneCreated_changes.1))] at step

/-- A task has been created and the processor has switched to it. -/
theorem scheduler_invariant_small :
    oneSwitched.tasks.length = 2 ∧ oneSwitched.tasks.Nodup ∧
      hasState oneSwitched.mem (oneSwitched.state.currentTask 0) .running = true := by
  have holds := scheduler_invariant Slab.kernelBase [] 0x1000 4096 [0] smallCold _ oneSwitched
    smallCold_cold (by decide) oneBooted_boots
    ((Relation.ReflTransGen.single oneCreated_step).tail oneSwitched_step)
  exact ⟨rfl, holds.1.2, (holds.2.1 0 (by decide)).2⟩

/-- The new task starts with a stack pointer of zero. -/
theorem switch_to_new_task_faults :
    ∃ machine loaded after record,
      (initAllCpus Slab.kernelBase 0x1000 4096 [0]).run smallCold =
        (.ok (), bootedWith smallCold [0]) ∧
      Relation.ReflTransGen (Step Slab.kernelBase [])
        (afterBoot (bootedWith smallCold [0]) 0x1000 4096 [0]) machine ∧
      (schedule 0 (someRegisters 7)).run machine.state = (.ok loaded, after) ∧
      after.currentTask 0 ≠ machine.state.currentTask 0 ∧ record ∈ machine.created ∧
      after.currentTask 0 = record.task ∧ record.entryPoint = 0x2000 ∧ loaded.rsp = 0 ∧
      ¬ Resumed (machine.saved record.task) after.heap.mem record loaded := by
  refine ⟨oneCreated, _, _, _, oneBooted_boots, Relation.ReflTransGen.single oneCreated_step,
    oneCreated_schedules, fun same => oneCreated_changes.2 (same.symm.trans oneCreated_changes.1),
    List.mem_cons_self, oneCreated_changes.1, rfl, rfl, ?_⟩
  intro resumed
  have low :
    (recordOf (createdFrom oneBooted.state).heap.mem (createdFrom oneBooted.state).taskListHead
      0x2000 4096).stack ≤ 0 := resumed.2.1
  exact absurd low (by decide +kernel)

/-- The way back to the first task finds its registers. -/
theorem switch_resumes_back :
    ∃ loaded after, (schedule 0 (someRegisters 9)).run oneSwitched.state = (.ok loaded, after) ∧
      loaded = someRegisters 7 := by
  have ran : (schedule 0 (someRegisters 9)).run oneSwitched.state =
      (.ok
        (((schedule 0 (someRegisters 9)).run oneSwitched.state).1.toOption.getD (someRegisters 0)),
        scheduledFrom oneSwitched.state (someRegisters 9)) := by
    refine Prod.ext (Program.ok_of_toOption (by decide +kernel)) ?_
    unfold scheduledFrom
    rfl
  have back : (scheduledFrom oneSwitched.state (someRegisters 9)).currentTask 0 =
      oneBooted.state.currentTask 0 := by decide +kernel
  have first : oneCreated.state.currentTask 0 = oneBooted.state.currentTask 0 := by decide +kernel
  have away : oneSwitched.state.currentTask 0 ≠ oneBooted.state.currentTask 0 := fun same =>
    oneCreated_changes.2 (first.trans (same.symm.trans oneCreated_changes.1))
  have saved : oneSwitched.saved (oneBooted.state.currentTask 0) = some (someRegisters 7) := by
    rw [← first]
    exact update_self _ _ _
  have resumed :=
    (switch_resumes_iff Slab.kernelBase [] 0x1000 4096 [0] smallCold _ oneSwitched smallCold_cold
    (by decide) oneBooted_boots
      ((Relation.ReflTransGen.single oneCreated_step).tail oneSwitched_step) 0 _ _ _
    ran (fun same => away (same.symm.trans back)) _ (List.mem_cons_of_mem _ List.mem_cons_self)
      back).mpr
    (Or.inl (fun never => nomatch saved.symm.trans never))
  change Resumed (oneSwitched.saved (oneBooted.state.currentTask 0)) _ _ _ at resumed
  rw [saved] at resumed
  exact ⟨_, _, ran, resumed⟩

end Synx.Sched
