/-
The invariant of the scheduler over whole runs.
-/

import Synx.Sched.Creation

namespace Synx.Sched

open Lib Program Function
open Pmm (pageSize wordSize Block)
open Slab (Object Untouched Intact gained)

/-! ### Machines -/

/-- A task with the arguments of its creation and the start of its stack. -/
structure Record where
  task : Nat
  entryPoint : Nat
  stackSize : Nat
  stack : Nat
  deriving DecidableEq

def recordOf (mem : Memory) (task entryPoint stackSize : Nat) : Record :=
  ⟨task, entryPoint, stackSize, (taskStack mem task + (wordSize - stackSize % wordSize)) % wordSize⟩

/-- The objects of a task.  A stack whose size wraps has no object. -/
def Record.objects (record : Record) : List Object :=
  if record.stackSize + pageSize ≤ wordSize then
    [⟨record.stack, record.stackSize⟩, taskObject record.task]
  else [taskObject record.task]

structure Machine where
  state : State
  created : List Record
  saved : Nat → Option Registers

def Machine.mem (machine : Machine) : Memory := machine.state.heap.mem

def Machine.tasks (machine : Machine) : List Nat := machine.created.map Record.task

def Housed (hhdm : Nat) (others : List Block) (heap : Slab.State) (created : List Record) : Prop :=
  ∃ live, Intact hhdm others ⟨heap, live⟩ ∧ (created.flatMap Record.objects).Subperm live

/-- One step.  A processor that switches saves its registers for the task it
leaves.  Other code keeps the objects of the tasks and the bytes of the tasks. -/
inductive Step (hhdm : Nat) (others : List Block) : Machine → Machine → Prop
  | create (machine : Machine) (entryPoint stackSize task : Nat) (after : State)
      (ran : (createTask hhdm entryPoint stackSize).run machine.state = (.ok task, after)) :
      Step hhdm others machine
        { machine with
          state := after
          created :=
            if task = 0 then machine.created
            else recordOf after.heap.mem task entryPoint stackSize :: machine.created }
  | schedule (machine : Machine) (cpu : Nat) (registers loaded : Registers) (after : State)
      (ran : (schedule cpu registers).run machine.state = (.ok loaded, after)) :
      Step hhdm others machine
        { machine with
          state := after
          saved :=
            if after.currentTask cpu = machine.state.currentTask cpu then machine.saved
            else update machine.saved (machine.state.currentTask cpu) (some registers) }
  | other (machine : Machine) (heap : Slab.State) (housed : Housed hhdm others heap machine.created)
      (same : ∀ task, task ∈ machine.tasks → SameTask machine.mem heap.mem task) :
      Step hhdm others machine { machine with state := { machine.state with heap := heap } }

/-! ### The invariant -/

structure Scheduled (hhdm : Nat) (others : List Block) (cpus : List Nat) (machine : Machine) :
    Prop where
  housed : Housed hhdm others machine.state.heap machine.created
  list : Chain (taskNext machine.mem) machine.state.taskListHead machine.tasks
  current : ∀ cpu, cpu ∈ cpus → machine.state.currentTask cpu ∈ machine.tasks
  absent : ∀ cpu, cpu ∉ cpus → machine.state.currentTask cpu = 0
  running : ∀ cpu, cpu ∈ cpus → hasState machine.mem (machine.state.currentTask cpu) .running = true
  distinct : ∀ left, left ∈ cpus → ∀ right, right ∈ cpus →
    machine.state.currentTask left = machine.state.currentTask right → left = right
  assigned : ∀ task, task ∈ machine.tasks → hasState machine.mem task .running = true →
    ∃ cpu, cpu ∈ cpus ∧ machine.state.currentTask cpu = task

section

variable {hhdm : Nat} {others : List Block} {heap : Slab.State} {created : List Record}
  {cpus : List Nat} {machine : Machine} {record other : Record}

theorem Record.taskObject_mem (record : Record) : taskObject record.task ∈ record.objects := by
  unfold Record.objects
  split
  · exact .tail _ (.head _)
  · exact .head _

theorem Record.mem_flatMap (member : record ∈ created) {object : Object}
    (isObject : object ∈ record.objects) : object ∈ created.flatMap Record.objects :=
  List.mem_flatMap.mpr ⟨record, member, isObject⟩

namespace Housed

section

variable (housed : Housed hhdm others heap created) (member : record ∈ created)

include housed member

theorem tasks_apart (isOther : other ∈ created) (different : record.task ≠ other.task) :
    record.task + sizeofTask ≤ other.task ∨ other.task + sizeofTask ≤ record.task := by
  obtain ⟨live, ⟨layout, shape⟩, objects⟩ := housed
  exact shape.objects_apart (objects.subset (Record.mem_flatMap member record.taskObject_mem))
    (objects.subset (Record.mem_flatMap isOther other.taskObject_mem)) different

theorem task_end : record.task + sizeofTask ≤ wordSize := by
  obtain ⟨live, ⟨layout, shape⟩, objects⟩ := housed
  exact shape.object_end (objects.subset (Record.mem_flatMap member record.taskObject_mem))

theorem stack_apart (fits : record.stackSize + pageSize ≤ wordSize) (isOther : other ∈ created) :
    record.stack + record.stackSize ≤ other.task ∨ other.task + sizeofTask ≤ record.stack := by
  obtain ⟨live, ⟨layout, shape⟩, objects⟩ := housed
  have stackMem : (⟨record.stack, record.stackSize⟩ : Object) ∈ record.objects := by
    unfold Record.objects
    rw [if_pos fits]
    exact .head _
  have isStack := objects.subset (Record.mem_flatMap member stackMem)
  have isTask := objects.subset (Record.mem_flatMap isOther other.taskObject_mem)
  refine shape.objects_apart isStack isTask (fun same => ?_)
  have equal := List.inj_on_of_nodup_map shape.distinct isStack isTask same
  obtain ⟨kept, perm, sublist⟩ := objects
  have nodup := perm.nodup_iff.mp ((List.Nodup.of_map _ shape.distinct).sublist sublist)
  obtain ⟨each, apart⟩ := List.nodup_flatMap.mp nodup
  rcases eq_or_ne record other with rfl | different
  · have pair := each record member
    unfold Record.objects at pair
    rw [if_pos fits, List.nodup_cons] at pair
    exact pair.1 (equal ▸ List.mem_cons_self)
  · have symmetric : Std.Symm (Function.onFun List.Disjoint Record.objects) :=
      ⟨fun _ _ => List.Disjoint.symm⟩
    have disjoint := apart.forall member isOther different
    exact disjoint stackMem (equal ▸ other.taskObject_mem)

end

theorem write (housed : Housed hhdm others heap created) (mem : Memory)
    (inside : ∀ byte, mem byte ≠ heap.mem byte →
      ∃ record ∈ created, record.task ≤ byte ∧ byte < record.task + sizeofTask) :
    Housed hhdm others { heap with mem := mem } created := by
  obtain ⟨live, ⟨layout, shape⟩, objects⟩ := housed
  refine ⟨live, ⟨layout, shape.write mem ?_⟩, objects⟩
  intro byte changed
  obtain ⟨record, member, low, high⟩ := inside byte changed
  exact ⟨taskObject record.task, objects.subset (Record.mem_flatMap member record.taskObject_mem),
    low, high⟩

end Housed

theorem Machine.mem_tasks {task : Nat} :
    task ∈ machine.tasks ↔ ∃ record ∈ machine.created, record.task = task :=
  List.mem_map

namespace Scheduled

variable (scheduled : Scheduled hhdm others cpus machine)

include scheduled

theorem tasks_apart {left right : Nat} (isLeft : left ∈ machine.tasks)
    (isRight : right ∈ machine.tasks) (different : left ≠ right) :
    left + sizeofTask ≤ right ∨ right + sizeofTask ≤ left := by
  obtain ⟨record, member, rfl⟩ := Machine.mem_tasks.mp isLeft
  obtain ⟨other, isOther, rfl⟩ := Machine.mem_tasks.mp isRight
  exact scheduled.housed.tasks_apart member isOther different

theorem task_lt {task : Nat} (member : task ∈ machine.tasks) : task < wordSize := by
  obtain ⟨record, isRecord, rfl⟩ := Machine.mem_tasks.mp member
  have ends := scheduled.housed.task_end isRecord
  unfold sizeofTask at ends
  omega

theorem head_lt : machine.state.taskListHead < 2 ^ 64 := by
  have list := scheduled.list
  cases tasks : machine.tasks with
  | nil =>
    rw [tasks] at list
    rw [show machine.state.taskListHead = 0 from list]
    decide
  | cons task rest =>
    rw [tasks] at list
    rw [list.1]
    exact scheduled.task_lt (tasks ▸ List.mem_cons_self)

theorem keep (heap : Slab.State) (housed : Housed hhdm others heap machine.created)
    (same : ∀ task ∈ machine.tasks, SameTask machine.mem heap.mem task) :
    Scheduled hhdm others cpus { machine with state := { machine.state with heap := heap } } := by
  refine
    { housed := housed
      list := scheduled.list.congr (fun task member => (same task member).taskNext)
      current := scheduled.current
      absent := scheduled.absent
      running := ?_
      distinct := scheduled.distinct
      assigned := ?_ }
  · intro cpu member
    exact ((same _ (scheduled.current cpu member)).hasState .running).trans
      (scheduled.running cpu member)
  · intro task member isRunning
    exact scheduled.assigned task member
      (((same task member).hasState .running).symm.trans isRunning)

end Scheduled

/-! ### New tasks -/

/-- The machine with a new task in front of the list. -/
def Machine.add (machine : Machine) (after : State) (task entryPoint stackSize : Nat) : Machine :=
  { machine with
    state := after
    created := recordOf after.heap.mem task entryPoint stackSize :: machine.created }

/-- What a successful creation did. -/
structure NewTask (hhdm : Nat) (others : List Block) (machine : Machine) (after : State)
    (task entryPoint stackSize : Nat) : Prop where
  nonnull : task ≠ 0
  fresh : task ∉ machine.tasks
  same : ∀ old, old ∈ machine.tasks → SameTask machine.mem after.heap.mem old
  currentTask : after.currentTask = machine.state.currentTask
  head : after.taskListHead = task
  next : taskNext after.heap.mem task = machine.state.taskListHead
  ready : hasState after.heap.mem task .ready = true
  housed : Housed hhdm others after.heap
    (recordOf after.heap.mem task entryPoint stackSize :: machine.created)

theorem recordOf_writeTask (mem : Memory) (task pid stackSize entryPoint next : Nat) {stack : Nat}
    (stackWord : stack < wordSize) (nextWord : next < 2 ^ 64) :
    recordOf (writeTask mem task pid stack stackSize entryPoint next) task entryPoint stackSize =
      ⟨task, entryPoint, stackSize, stack⟩ := by
  unfold recordOf
  rw [(writeTask_fields mem task pid stack stackSize entryPoint next nextWord).2.2]
  congr 1
  unfold wordSize at *
  omega

theorem subperm_gained {live : List Object}
    (objects : (created.flatMap Record.objects).Subperm live) (record : Record) :
    ((record :: created).flatMap Record.objects).Subperm
      (gained (taskObject record.task :: live) record.stack record.stackSize) := by
  rw [List.flatMap_cons]
  unfold Record.objects
  split
  · rename_i fits
    rw [Slab.gained_of_fits _ fits]
    exact (List.subperm_cons _).mpr ((List.subperm_cons _).mpr objects)
  · exact ((List.subperm_cons _).mpr objects).trans (Slab.sublist_gained _ _ _).subperm

theorem Scheduled.run_createTask (scheduled : Scheduled hhdm others cpus machine)
    (entryPoint stackSize : Nat) :
    (∃ heap, (createTask hhdm entryPoint stackSize).run machine.state =
        (.ok 0, { machine.state with heap := heap }) ∧
      Housed hhdm others heap machine.created ∧
      ∀ old ∈ machine.tasks, SameTask machine.mem heap.mem old) ∨
    ∃ task after, (createTask hhdm entryPoint stackSize).run machine.state = (.ok task, after) ∧
      NewTask hhdm others machine after task entryPoint stackSize := by
  obtain ⟨live, intact, objects⟩ := scheduled.housed
  have held : ∀ old ∈ machine.tasks, taskObject old ∈ live := by
    intro old member
    obtain ⟨record, isRecord, rfl⟩ := Machine.mem_tasks.mp member
    exact objects.subset (Record.mem_flatMap isRecord record.taskObject_mem)
  rcases Sched.run_createTask intact entryPoint stackSize with
    ⟨heap, failed, same, kept⟩ | ⟨task, stack, heap, nonnull, _, stackWord, created, same, grown⟩
  · exact .inl ⟨heap, failed, ⟨live, kept, objects⟩,
      fun old member byte low high => same _ (held old member) byte low high⟩
  have headWord := scheduled.head_lt
  have fields := writeTask_fields heap.mem task machine.state.nextPid stack stackSize entryPoint
    machine.state.taskListHead headWord
  have record := recordOf_writeTask heap.mem task machine.state.nextPid stackSize entryPoint
    machine.state.taskListHead stackWord headWord
  obtain ⟨layout, shape⟩ := grown
  have sublist := Slab.sublist_gained (taskObject task :: live) stack stackSize
  have fresh : task ∉ machine.tasks := by
    intro member
    have starts := shape.distinct.sublist (sublist.map Object.start)
    rw [List.map_cons, List.nodup_cons] at starts
    exact starts.1 (List.mem_map_of_mem (held task member))
  refine .inr ⟨task, _, created,
    { nonnull := nonnull
      fresh := fresh
      same := ?_
      currentTask := rfl
      head := rfl
      next := fields.1
      ready := fields.2.1
      housed := ⟨_, ⟨layout, shape⟩, ?_⟩ }⟩
  · intro old member byte low high
    have apart := shape.objects_apart (sublist.subset (.head _))
      (sublist.subset (.tail _ (held old member)))
      (fun equal => fresh ((show task = old from equal) ▸ member))
    change task + sizeofTask ≤ old ∨ old + sizeofTask ≤ task at apart
    exact (writeTask_outside _ _ _ _ _ _ _ (by omega)).trans
      (same _ (held old member) byte low high)
  · change ((recordOf (writeTask heap.mem task machine.state.nextPid stack stackSize entryPoint
      machine.state.taskListHead) task entryPoint stackSize :: machine.created).flatMap
        Record.objects).Subperm _
    rw [record]
    exact subperm_gained objects ⟨task, entryPoint, stackSize, stack⟩

theorem Scheduled.add (scheduled : Scheduled hhdm others cpus machine) {after : State}
    {task entryPoint stackSize : Nat}
    (new : NewTask hhdm others machine after task entryPoint stackSize) :
    Scheduled hhdm others cpus (machine.add after task entryPoint stackSize) := by
  refine
    { housed := new.housed
      list := ⟨new.head, new.nonnull, ?_⟩
      current := ?_
      absent := ?_
      running := ?_
      distinct := ?_
      assigned := ?_ }
  · change Chain _ (taskNext after.heap.mem task) machine.tasks
    rw [new.next]
    exact scheduled.list.congr (fun old member => (new.same old member).taskNext)
  · intro cpu member
    change after.currentTask cpu ∈ task :: machine.tasks
    rw [new.currentTask]
    exact .tail _ (scheduled.current cpu member)
  · intro cpu outside
    change after.currentTask cpu = 0
    rw [new.currentTask]
    exact scheduled.absent cpu outside
  · intro cpu member
    change hasState after.heap.mem (after.currentTask cpu) .running = true
    rw [new.currentTask]
    exact ((new.same _ (scheduled.current cpu member)).hasState .running).trans
      (scheduled.running cpu member)
  · intro left isLeft right isRight same
    change after.currentTask left = after.currentTask right at same
    rw [new.currentTask] at same
    exact scheduled.distinct left isLeft right isRight same
  · intro other member isRunning
    change other ∈ task :: machine.tasks at member
    change hasState after.heap.mem other .running = true at isRunning
    change ∃ cpu ∈ cpus, after.currentTask cpu = other
    rw [new.currentTask]
    rcases List.mem_cons.mp member with rfl | old
    · exact absurd ((hasState_eq new.ready .running).symm.trans isRunning) (by decide)
    · exact scheduled.assigned other old
        (((new.same other old).hasState .running).symm.trans isRunning)

/-! ### Switches -/

/-- The state after a processor goes from its task to another one. -/
def State.switched (state : State) (cpu next : Nat) (registers : Registers) : State :=
  { state.setMem (switchMem state.heap.mem (state.currentTask cpu) next registers) with
    currentTask := update state.currentTask cpu next }

/-- The first ready task behind the current one, round the list. -/
def nextReady (mem : Memory) (before behind : List Nat) : Option Nat :=
  (behind ++ before).find? (fun task => hasState mem task .ready)

theorem nextReady_some {mem : Memory} {before behind : List Nat} {next : Nat}
    (found : nextReady mem before behind = some next) (current : Nat) :
    next ∈ before ++ current :: behind ∧ hasState mem next .ready = true := by
  refine ⟨?_, List.find?_some (p := fun task => hasState mem task .ready) found⟩
  rcases List.mem_append.mp (List.mem_of_find?_eq_some found) with later | earlier
  · exact List.mem_append_right _ (.tail _ later)
  · exact List.mem_append_left _ earlier

namespace Scheduled

variable (scheduled : Scheduled hhdm others cpus machine)

include scheduled

variable {cpu next : Nat} {before behind : List Nat}

theorem findReady_eq (split : machine.tasks = before ++ machine.state.currentTask cpu :: behind) :
    findReady machine.state (machine.state.currentTask cpu) =
      some ((nextReady machine.mem before behind).getD (machine.state.currentTask cpu)) := by
  have list := scheduled.list
  have short : machine.tasks.length ≤ wordSize := list.length_le (fun task => scheduled.task_lt)
  rw [split] at list
  rw [split, List.length_append, List.length_cons] at short
  exact list.cycle_eq (by omega)

theorem run_schedule (member : cpu ∈ cpus) (registers : Registers)
    (split : machine.tasks = before ++ machine.state.currentTask cpu :: behind) :
    (schedule cpu registers).run machine.state =
      match nextReady machine.mem before behind with
      | none => (.ok registers, machine.state)
      | some next =>
        (.ok (loadContext (machine.state.switched cpu next registers).heap.mem (contextOf next)),
          machine.state.switched cpu next registers) := by
  have nonzero : machine.state.currentTask cpu ≠ 0 :=
    scheduled.list.ne_zero (scheduled.current cpu member)
  rw [schedule, run_bind_ok (run_gets _ _), if_neg nonzero,
    run_bind_ok (run_gets _ _), scheduled.findReady_eq split]
  cases found : nextReady machine.mem before behind with
  | none =>
    simp only [Option.getD_none, if_true]
    rfl
  | some next =>
    have ready := List.find?_some found
    have different : next ≠ machine.state.currentTask cpu := by
      intro same
      rw [same, hasState_eq (scheduled.running cpu member)] at ready
      exact absurd ready (by decide)
    simp only [Option.getD_some, if_neg different]
    rfl

theorem run_schedule_absent (outside : cpu ∉ cpus) (registers : Registers) :
    (schedule cpu registers).run machine.state = (.error .noCurrentTask, machine.state) := by
  rw [schedule, run_bind_ok (run_gets _ _), if_pos (scheduled.absent cpu outside)]
  rfl

theorem schedule_cases {registers loaded : Registers} {after : State}
    (ran : (schedule cpu registers).run machine.state = (.ok loaded, after)) :
    cpu ∈ cpus ∧ ((loaded = registers ∧ after = machine.state) ∨
      ∃ next ∈ machine.tasks, hasState machine.mem next .ready = true ∧
        machine.state.currentTask cpu ≠ next ∧
        loaded = loadContext (switchMem machine.mem (machine.state.currentTask cpu) next registers)
          (contextOf next) ∧
        after = machine.state.switched cpu next registers) := by
  by_cases member : cpu ∈ cpus
  · refine ⟨member, ?_⟩
    obtain ⟨before, behind, split⟩ := List.append_of_mem (scheduled.current cpu member)
    rw [scheduled.run_schedule member registers split] at ran
    cases found : nextReady machine.mem before behind with
    | none =>
      rw [found] at ran
      cases ran
      exact .inl ⟨rfl, rfl⟩
    | some next =>
      rw [found] at ran
      simp only [Prod.mk.injEq, Except.ok.injEq] at ran
      obtain ⟨isTask, ready⟩ := nextReady_some found (machine.state.currentTask cpu)
      refine .inr ⟨next, split ▸ isTask, ready, ?_, ran.1.symm, ran.2.symm⟩
      intro same
      have running := scheduled.running cpu member
      rw [same, hasState_eq ready] at running
      exact absurd running (by decide)
  · rw [scheduled.run_schedule_absent member] at ran
    cases ran

theorem assign {cpus' : List Nat} {mem : Memory} (isTask : next ∈ machine.tasks)
    (members : ∀ other, other ∈ cpus' ↔ other = cpu ∨ other ∈ cpus)
    (idle : hasState machine.mem next .running = false) (runs : hasState mem next .running = true)
    (others_run : ∀ task ∈ machine.tasks, task ≠ next → (hasState mem task .running = true ↔
      task ≠ machine.state.currentTask cpu ∧ hasState machine.mem task .running = true))
    (inside : ∀ byte, mem byte ≠ machine.mem byte →
      ∃ task ∈ machine.tasks, task ≤ byte ∧ byte < task + sizeofTask)
    (links : ∀ task ∈ machine.tasks, taskNext mem task = taskNext machine.mem task)
    (saved : Nat → Option Registers) :
    Scheduled hhdm others cpus'
      { machine with
        state := { machine.state.setMem mem with
                   currentTask := update machine.state.currentTask cpu next }
        saved := saved } := by
  have unowned : ∀ other ∈ cpus, machine.state.currentTask other ≠ next := by
    intro other isOther equal
    have running := scheduled.running other isOther
    rw [equal, idle] at running
    cases running
  have owner : ∀ other ∈ cpus', other ≠ cpu → other ∈ cpus :=
    fun other isOther distinct => ((members other).mp isOther).resolve_left distinct
  refine
    { housed := scheduled.housed.write mem ?_
      list := scheduled.list.congr links
      current := ?_
      absent := ?_
      running := ?_
      distinct := ?_
      assigned := ?_ }
  · intro byte changed
    obtain ⟨task, member, low, high⟩ := inside byte changed
    obtain ⟨record, isRecord, rfl⟩ := Machine.mem_tasks.mp member
    exact ⟨record, isRecord, low, high⟩
  · intro other isOther
    change update machine.state.currentTask cpu next other ∈ machine.tasks
    rcases eq_or_ne other cpu with rfl | distinct
    · rw [update_self]
      exact isTask
    · rw [update_of_ne distinct]
      exact scheduled.current other (owner other isOther distinct)
  · intro other isOther
    have outside := fun member => isOther ((members other).mpr member)
    exact (update_of_ne (fun equal => outside (.inl equal)) _ _).trans
      (scheduled.absent other (fun member => outside (.inr member)))
  · intro other isOther
    change hasState mem (update machine.state.currentTask cpu next other) .running = true
    rcases eq_or_ne other cpu with rfl | distinct
    · rw [update_self]
      exact runs
    · have member := owner other isOther distinct
      rw [update_of_ne distinct]
      refine (others_run _ (scheduled.current other member) (unowned other member)).mpr ⟨?_, ?_⟩
      · intro equal
        by_cases present : cpu ∈ cpus
        · exact distinct (scheduled.distinct other member cpu present equal)
        · rw [scheduled.absent cpu present] at equal
          exact scheduled.list.ne_zero (scheduled.current other member) equal
      · exact scheduled.running other member
  · intro left isLeft right isRight equal
    change update machine.state.currentTask cpu next left =
      update machine.state.currentTask cpu next right at equal
    rcases eq_or_ne left cpu with leftHere | leftDistinct <;>
      rcases eq_or_ne right cpu with rightHere | rightDistinct
    · exact leftHere.trans rightHere.symm
    · rw [leftHere, update_self, update_of_ne rightDistinct] at equal
      exact absurd equal.symm (unowned right (owner right isRight rightDistinct))
    · rw [rightHere, update_self, update_of_ne leftDistinct] at equal
      exact absurd equal (unowned left (owner left isLeft leftDistinct))
    · rw [update_of_ne leftDistinct, update_of_ne rightDistinct] at equal
      exact scheduled.distinct left (owner left isLeft leftDistinct) right
        (owner right isRight rightDistinct) equal
  · intro task isOther isRunning
    change ∃ other ∈ cpus', update machine.state.currentTask cpu next other = task
    rcases eq_or_ne task next with rfl | notNext
    · exact ⟨cpu, (members cpu).mpr (.inl rfl), update_self _ _ _⟩
    · obtain ⟨notCurrent, wasRunning⟩ := (others_run task isOther notNext).mp isRunning
      obtain ⟨other, member, owns⟩ := scheduled.assigned task isOther wasRunning
      have distinct : other ≠ cpu := fun equal => notCurrent (equal ▸ owns.symm)
      exact ⟨other, (members other).mpr (.inr member),
        (update_of_ne distinct _ _).trans owns⟩

theorem switch (member : cpu ∈ cpus) (registers : Registers) (isTask : next ∈ machine.tasks)
    (ready : hasState machine.mem next .ready = true)
    (different : machine.state.currentTask cpu ≠ next) (saved : Nat → Option Registers) :
    Scheduled hhdm others cpus
      { machine with state := machine.state.switched cpu next registers, saved := saved } := by
  have isCurrent := scheduled.current cpu member
  have apart := scheduled.tasks_apart isCurrent isTask different
  refine scheduled.assign isTask ?_ (hasState_eq ready .running)
    (hasState_switchMem_next apart registers machine.mem) ?_ ?_ ?_ saved
  · intro other
    exact ⟨.inr, fun either => either.elim (fun equal => equal ▸ member) id⟩
  · intro task isOther notNext
    rcases eq_or_ne task (machine.state.currentTask cpu) with rfl | notCurrent
    · have currentReady := hasState_switchMem_current apart registers (scheduled.running cpu member)
      rw [hasState_eq currentReady]
      exact ⟨fun impossible => absurd impossible (by decide), fun both => absurd rfl both.1⟩
    · rw [(SameTask.switchMem machine.mem registers
        (scheduled.tasks_apart isCurrent isOther notCurrent.symm)
        (scheduled.tasks_apart isTask isOther notNext.symm)).hasState]
      exact ⟨fun running => ⟨notCurrent, running⟩, fun both => both.2⟩
  · intro byte changed
    by_contra outside
    refine changed (switchMem_outside _ registers ?_ ?_ ?_)
    · rintro rfl
      exact outside ⟨_, isCurrent, by omega, by unfold sizeofTask; omega⟩
    · rintro rfl
      exact outside ⟨_, isTask, by omega, by unfold sizeofTask; omega⟩
    · by_contra inside
      exact outside ⟨_, isCurrent, by omega, by unfold sizeofTask; omega⟩
  · intro task isOther
    refine taskNext_switchMem machine.mem registers ?_ ?_
    · exact or_iff_not_imp_left.mpr (scheduled.tasks_apart isCurrent isOther)
    · exact or_iff_not_imp_left.mpr (scheduled.tasks_apart isTask isOther)

theorem start {task : Nat} (outside : cpu ∉ cpus) (isTask : task ∈ machine.tasks)
    (ready : hasState machine.mem task .ready = true) :
    Scheduled hhdm others (cpus ++ [cpu])
      { machine with
        state := { machine.state.setMem (startMem machine.mem task) with
                   currentTask := update machine.state.currentTask cpu task } } := by
  refine scheduled.assign isTask ?_ (hasState_eq ready .running) (hasState_startMem _ task) ?_ ?_ ?_
    machine.saved
  · intro other
    rw [List.mem_append, List.mem_singleton, or_comm]
  · intro other isOther different
    rw [(SameTask.startMem machine.mem
      (scheduled.tasks_apart isTask isOther different.symm)).hasState, scheduled.absent cpu outside]
    exact ⟨fun running => ⟨scheduled.list.ne_zero isOther, running⟩, fun both => both.2⟩
  · intro byte changed
    by_contra elsewhere
    refine changed (startMem_outside _ ?_)
    by_contra inside
    exact elsewhere ⟨task, isTask, by omega, by unfold sizeofTask; omega⟩
  · intro other isOther
    rcases eq_or_ne task other with rfl | different
    · exact Memory.readWord_congr _ _ _ (fun byte bound => startMem_outside _ (by omega))
    · exact (SameTask.startMem machine.mem
        (scheduled.tasks_apart isTask isOther different)).taskNext

end Scheduled

end

end Synx.Sched
