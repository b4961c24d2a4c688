/-
The scheduler from the boot on.
-/

import Synx.Sched.Scheduling

namespace Synx.Sched

open Lib Program List Function
open Pmm (pageSize wordSize Block)
open Slab (Object Untouched Intact gained)

/-! ### The boot -/

/-- The state before `init_all_cpus`: the slab allocator is in use, and there is no
task. -/
structure Cold (hhdm : Nat) (others : List Block) (start : State) : Prop where
  heap : ∃ first booted live, Slab.Fresh hhdm others first ∧ (Slab.init hhdm).run first =
    (.ok (), booted) ∧
    Relation.ReflTransGen (Slab.Step hhdm) ⟨booted, []⟩ ⟨start.heap, live⟩
  notInitialized : start.initialized = false
  noTasks : start.taskListHead = 0
  noCurrent : ∀ cpu, start.currentTask cpu = 0

/-- The machine after `init_all_cpus`: the tasks are those of the processors, the
last one first, and nothing is saved. -/
def afterBoot (booted : State) (entry stackSize : Nat) (lapicIds : List Nat) : Machine :=
  { state := booted
    created := lapicIds.reverse.map (fun id =>
      recordOf booted.heap.mem (booted.currentTask id) entry stackSize)
    saved := fun _ => none }

section

variable {hhdm : Nat} {others : List Block} {cpus : List Nat} {machine : Machine}

theorem recordOf_congr {mem mem' : Memory} {task : Nat}
    (same : taskStack mem' task = taskStack mem task) (entryPoint stackSize : Nat) :
    recordOf mem' task entryPoint stackSize = recordOf mem task entryPoint stackSize := by
  unfold recordOf
  rw [same]

variable {start after state booted : State} {entry stackSize lapicId : Nat} {lapicIds : List Nat}

theorem Cold.scheduled (cold : Cold hhdm others start) (entry stackSize : Nat) :
    Scheduled hhdm others [] (afterBoot { start with initialized := true } entry stackSize []) := by
  obtain ⟨first, booted, live, fresh, boot, steps⟩ := cold.heap
  exact
    { housed := ⟨live, (fresh.booted boot).run steps, nil_subperm⟩
      list := cold.noTasks
      current := nofun
      absent := fun cpu _ => cold.noCurrent cpu
      running := nofun
      distinct := nofun
      assigned := nofun }

theorem Scheduled.createIdle (scheduled : Scheduled hhdm others cpus machine) (new : lapicId ∉ cpus)
    (ran : (createIdle hhdm entry stackSize lapicId).run machine.state = (.ok (), after)) :
    ∃ task, after.currentTask = update machine.state.currentTask lapicId task ∧
      (∀ old ∈ machine.tasks, SameTask machine.mem after.heap.mem old) ∧
      Scheduled hhdm others (cpus ++ [lapicId]) (machine.add after task entry stackSize) := by
  unfold Sched.createIdle at ran
  split at ran
  · cases ran
  rcases scheduled.run_createTask entry stackSize with
    ⟨heap, failed, _⟩ | ⟨task, made, created, newTask⟩
  · rw [run_bind_ok failed, if_pos rfl] at ran
    cases ran
  rw [run_bind_ok created, if_neg newTask.nonnull] at ran
  cases ran
  have added := scheduled.add newTask
  have isNew : task ∈ (machine.add made task entry stackSize).tasks := mem_cons_self
  have started := added.start new isNew newTask.ready
  refine ⟨task, congrArg (fun current => update current lapicId task) newTask.currentTask,
    ?_, ?_⟩
  · intro old member
    have different : task ≠ old := fun equal => newTask.fresh (equal ▸ member)
    exact (newTask.same old member).trans (SameTask.startMem made.heap.mem
      (added.tasks_apart isNew (.tail _ member) different))
  · have stack : taskStack (startMem made.heap.mem task) task = taskStack made.heap.mem task :=
      Memory.readWord_congr _ _ _ (fun byte bound => startMem_outside _ (by omega))
    unfold Machine.add at started
    rw [← recordOf_congr stack] at started
    exact started

theorem createIdle_scheduled
    (scheduled : Scheduled hhdm others lapicIds (afterBoot state entry stackSize lapicIds))
    (new : lapicId ∉ lapicIds)
    (ran : (createIdle hhdm entry stackSize lapicId).run state = (.ok (), after)) :
    Scheduled hhdm others (lapicIds ++ [lapicId])
      (afterBoot after entry stackSize (lapicIds ++ [lapicId])) := by
  obtain ⟨task, current, same, started⟩ := scheduled.createIdle new ran
  have records : (afterBoot after entry stackSize (lapicIds ++ [lapicId])).created =
      ((afterBoot state entry stackSize lapicIds).add after task entry stackSize).created := by
    unfold afterBoot Machine.add
    simp only [reverse_append, reverse_singleton, singleton_append, map_cons, current,
      update_self]
    refine congrArg _ (map_congr_left ?_)
    intro id member
    have isOld := mem_reverse.mp member
    have different : id ≠ lapicId := fun equal => new (equal ▸ isOld)
    rw [update_of_ne different]
    exact recordOf_congr ((same _ (scheduled.current id isOld)).readWord (by decide)) entry
      stackSize
  have machines : afterBoot after entry stackSize (lapicIds ++ [lapicId]) =
      (afterBoot state entry stackSize lapicIds).add after task entry stackSize :=
    congrArg (fun created => Machine.mk after created (fun _ => none)) records
  rw [machines]
  exact started

theorem each_createIdle_scheduled {before : List Nat}
    (scheduled : Scheduled hhdm others before (afterBoot state entry stackSize before))
    (distinct : (before ++ lapicIds).Nodup)
    (ran : (each (createIdle hhdm entry stackSize) lapicIds).run state = (.ok (), booted)) :
    Scheduled hhdm others (before ++ lapicIds)
      (afterBoot booted entry stackSize (before ++ lapicIds)) := by
  induction lapicIds generalizing before state with
  | nil =>
    cases ran
    rw [append_nil]
    exact scheduled
  | cons lapicId rest ih =>
    obtain ⟨_, after, first, second⟩ := run_bind_eq_ok ran
    have new : lapicId ∉ before := fun member =>
      (nodup_append.mp distinct).2.2 lapicId member lapicId (.head _) rfl
    rw [append_cons] at distinct ⊢
    exact ih (createIdle_scheduled scheduled new first) distinct second

theorem Cold.boot (cold : Cold hhdm others start) (distinct : lapicIds.Nodup)
    (ran : (initAllCpus hhdm entry stackSize lapicIds).run start = (.ok (), booted)) :
    Scheduled hhdm others lapicIds (afterBoot booted entry stackSize lapicIds) := by
  unfold initAllCpus at ran
  rw [run_bind_ok (run_gets _ _), cold.notInitialized] at ran
  exact each_createIdle_scheduled (cold.scheduled entry stackSize) distinct ran

theorem run_init {processorId : Nat} (initialized : state.initialized = true) :
    (init hhdm entry stackSize processorId).run state = (.ok (), state) := by
  rw [init, run_bind_ok (run_gets _ _), if_pos initialized]
  rfl

theorem keeps_onHeap {α : Type} (call : Slab.Call α) :
    Keeps (fun state : State => state.initialized = true) (onHeap call) := by
  intro state holds
  unfold Program.run onHeap
  rcases call.run state.heap with ⟨_ | _, heap⟩ <;> exact holds

theorem createIdle_initialized {result : Except Halt Unit}
    (ran : (createIdle hhdm entry stackSize lapicId).run state = (result, after))
    (initialized : state.initialized = true) : after.initialized = true := by
  have task : Keeps (fun state : State => state.initialized = true)
    (createTask hhdm entry stackSize) :=
    (keeps_onHeap _).bind (fun _ => .ite _ (.pure _) ((keeps_onHeap _).bind (fun _ => .ite _
      ((keeps_onHeap _).bind (fun _ => .pure _))
      (.bind (.modify (fun _ holds => holds)) (fun _ => .pure _)))))
  have idle : Keeps (fun state : State => state.initialized = true)
      (createIdle hhdm entry stackSize lapicId) :=
    .ite _ (.stop _) (task.bind (fun _ => .ite _ (.stop _) (.modify (fun _ holds => holds))))
  have kept := idle.final initialized
  rw [ran] at kept
  exact kept

/-! ### Runs -/

theorem Scheduled.step {after : Machine} (scheduled : Scheduled hhdm others cpus machine)
    (step : Step hhdm others machine after) : Scheduled hhdm others cpus after := by
  cases step with
  | create entryPoint stackSize task after ran =>
    rcases scheduled.run_createTask entryPoint stackSize with
      ⟨heap, failed, housed, same⟩ | ⟨task', made, created, newTask⟩
    · rw [failed] at ran
      cases ran
      exact scheduled.keep heap housed same
    · rw [created] at ran
      cases ran
      rw [if_neg newTask.nonnull]
      exact scheduled.add newTask
  | schedule cpu registers loaded after ran =>
    obtain ⟨member, ⟨_, rfl⟩ | ⟨next, isTask, ready, different, _, rfl⟩⟩ :=
      scheduled.schedule_cases ran
    · rw [if_pos rfl]
      exact scheduled
    · exact scheduled.switch member registers isTask ready different _
  | other heap housed same => exact scheduled.keep heap housed same

theorem Scheduled.run {after : Machine} (scheduled : Scheduled hhdm others cpus machine)
    (steps : Relation.ReflTransGen (Step hhdm others) machine after) :
    Scheduled hhdm others cpus after := by
  induction steps with
  | refl => exact scheduled
  | tail _ step ih => exact ih.step step

end

/-- In every run after `init_all_cpus` the list holds every task once, the tasks of
the processors are running and no two are the same, a running task belongs to one
processor, and `schedule` goes to the first ready task round the list. -/
theorem scheduler_invariant (hhdm : Nat) (others : List Block) (entry stackSize : Nat)
    (lapicIds : List Nat) (start booted : State) (machine : Machine) (cold : Cold hhdm others start)
    (distinct : lapicIds.Nodup)
    (boot : (initAllCpus hhdm entry stackSize lapicIds).run start = (.ok (), booted))
    (steps : Relation.ReflTransGen (Step hhdm others) (afterBoot booted entry stackSize lapicIds)
      machine) :
    (Chain (taskNext machine.mem) machine.state.taskListHead machine.tasks ∧ machine.tasks.Nodup) ∧
      (∀ cpu, cpu ∈ lapicIds → machine.state.currentTask cpu ∈ machine.tasks ∧
        hasState machine.mem (machine.state.currentTask cpu) .running = true) ∧
      (∀ left, left ∈ lapicIds → ∀ right, right ∈ lapicIds →
        machine.state.currentTask left = machine.state.currentTask right → left = right) ∧
      (∀ task, task ∈ machine.tasks → hasState machine.mem task .running = true →
        ∃! cpu, cpu ∈ lapicIds ∧ machine.state.currentTask cpu = task) ∧
      ∀ cpu, cpu ∈ lapicIds → ∃ before behind,
        machine.tasks = before ++ machine.state.currentTask cpu :: behind ∧
        ∀ registers, (schedule cpu registers).run machine.state =
          match (behind ++ before).find? (fun task => hasState machine.mem task .ready) with
          | none => (.ok registers, machine.state)
          | some next =>
            (.ok
              (loadContext (machine.state.switched cpu next registers).heap.mem (contextOf next)),
              machine.state.switched cpu next registers) := by
  have scheduled := (cold.boot distinct boot).run steps
  refine ⟨⟨scheduled.list, scheduled.list.nodup⟩,
    fun cpu member => ⟨scheduled.current cpu member, scheduled.running cpu member⟩,
    scheduled.distinct, ?_, ?_⟩
  · intro task isTask isRunning
    obtain ⟨cpu, member, owns⟩ := scheduled.assigned task isTask isRunning
    exact ⟨cpu, ⟨member, owns⟩,
      fun other both => scheduled.distinct other both.1 cpu member (both.2.trans owns.symm)⟩
  · intro cpu member
    obtain ⟨before, behind, split⟩ := append_of_mem (scheduled.current cpu member)
    exact ⟨before, behind, split, fun registers => scheduled.run_schedule member registers split⟩

/-- The small machine before `init_all_cpus`. -/
def smallCold : State := ⟨Slab.bootedFrom Slab.smallStart, fun _ => 0, 0, 1, false⟩

theorem smallCold_cold : Cold Slab.kernelBase [] smallCold :=
  { heap := ⟨Slab.smallStart, _, [], Slab.smallStart_fresh, Slab.smallStart_boots, .refl⟩
    notInitialized := rfl
    noTasks := rfl
    noCurrent := fun _ => rfl }

/-- The state after `init_all_cpus` with stacks of one page. -/
@[irreducible]
def bootedWith (start : State) (lapicIds : List Nat) : State :=
  ((initAllCpus Slab.kernelBase 0x1000 4096 lapicIds).run start).2

theorem boots_with (start : State) (lapicIds : List Nat)
    (ended : ((initAllCpus Slab.kernelBase 0x1000 4096 lapicIds).run start).1.toOption = some ()) :
    (initAllCpus Slab.kernelBase 0x1000 4096 lapicIds).run start =
      (.ok (), bootedWith start lapicIds) := by
  unfold bootedWith
  exact Prod.ext (Program.ok_of_toOption ended) rfl

end Synx.Sched
