/-
The fields of a task in memory.
-/

import Synx.Sched.Task

namespace Synx.Sched

open Lib Memory

/-- The bytes of a task are the same in both memories. -/
def SameTask (before after : Memory) (task : Nat) : Prop :=
  ∀ byte, task ≤ byte → byte < task + sizeofTask → after byte = before byte

section

variable {mem mem' : Memory} {task : Nat}

theorem SameTask.trans {last : Memory} (first : SameTask mem mem' task)
    (second : SameTask mem' last task) :
    SameTask mem last task :=
  fun byte low high => (second byte low high).trans (first byte low high)

section

variable (same : SameTask mem mem' task)

include same

theorem SameTask.readWord {offset : Nat} (inside : offset + 8 ≤ sizeofTask) :
    readWord mem' (task + offset) = readWord mem (task + offset) :=
  readWord_congr mem' mem _ (fun byte bound => same _ (by omega) (by omega))

theorem SameTask.hasState (state : TaskState) :
    hasState mem' task state = hasState mem task state := by
  unfold Sched.hasState
  rw [same (task + 8) (by omega) (by unfold sizeofTask; omega)]

theorem SameTask.taskNext : taskNext mem' task = taskNext mem task :=
  same.readWord (by decide)

theorem SameTask.loadContext :
    loadContext mem' (contextOf task) = loadContext mem (contextOf task) := by
  have word : ∀ offset, offset + 24 ≤ sizeofTask →
      loadWord mem' (contextOf task + offset) = loadWord mem (contextOf task + offset) := by
    intro offset inside
    unfold loadWord contextOf
    rw [add_assoc, same.readWord (by omega)]
  unfold Sched.loadContext
  rw [word 0x08 (by decide), word 0x28 (by decide), word 0x30 (by decide), word 0x38 (by decide),
    word 0x40 (by decide), word 0x48 (by decide), word 0x50 (by decide)]

end

/-! ### The state -/

theorem TaskState.code_inj {left right : TaskState} (same : left.code = right.code) :
    left = right := by
  cases left <;> cases right <;> first | rfl | exact absurd same (by decide)

variable {byte current next : Nat}

theorem setState_outside (mem : Memory) (task : Nat) (state : TaskState)
    (outside : byte ≠ task + 8) : setState mem task state byte = mem byte := by
  refine writeBytes_outside mem (task + 8) [state.code] byte ?_
  rw [List.length_singleton]
  omega

theorem hasState_setState (mem : Memory) (task : Nat) (state other : TaskState) :
    hasState (setState mem task state) task other = decide (state = other) := by
  have written : setState mem task state (task + 8) = state.code :=
    writeBytes_inside mem (task + 8) [state.code] 0 one_pos
  unfold hasState
  rw [written]
  exact decide_eq_decide.mpr ⟨TaskState.code_inj, congrArg TaskState.code⟩

theorem hasState_eq {state : TaskState} (holds : hasState mem task state = true)
    (other : TaskState) :
    hasState mem task other = decide (state = other) := by
  have code : mem (task + 8) = state.code := of_decide_eq_true holds
  unfold hasState
  rw [code]
  exact decide_eq_decide.mpr ⟨TaskState.code_inj, congrArg TaskState.code⟩

/-! ### The context -/

theorem saveContext_outside (mem : Memory) (context : Nat) (registers : Registers)
    (outside : byte < context + 0x08 ∨ context + 0x58 ≤ byte) :
    saveContext mem context registers byte = mem byte := by
  unfold saveContext
  iterate 7 rw [writeWord_outside (by omega)]

theorem loadWord_writeWord_of_ne (mem : Memory) {address other : Nat} (value : Nat)
    (apart : other + 8 ≤ address ∨ address + 8 ≤ other) :
    loadWord (writeWord mem address value) other = loadWord mem other := by
  unfold loadWord
  rw [readWord_writeWord_of_ne apart]

theorem loadWord_writeWord (mem : Memory) (address : Nat) (value : UInt64) :
    loadWord (writeWord mem address value.toNat) address = value := by
  unfold loadWord
  rw [readWord_writeWord_of_lt _ _ _ value.toNat_lt, UInt64.ofNat_toNat]

theorem loadContext_saveContext (mem : Memory) (context : Nat) (registers : Registers) :
    loadContext (saveContext mem context registers) context = registers := by
  unfold loadContext saveContext
  simp (disch := omega) only [loadWord_writeWord_of_ne, loadWord_writeWord]

/-! ### The switch -/

/-- The memory after `schedule` goes from one task to another. -/
def switchMem (mem : Memory) (current next : Nat) (registers : Registers) : Memory :=
  saveContext (handOver mem current next) (contextOf current) registers

theorem handOver_outside (mem : Memory) (outside : byte ≠ current + 8)
    (outsideNext : byte ≠ next + 8) : handOver mem current next byte = mem byte := by
  unfold handOver
  rw [setState_outside _ _ _ outsideNext]
  split
  · exact setState_outside _ _ _ outside
  · rfl

theorem switchMem_outside (mem : Memory) (registers : Registers) (outside : byte ≠ current + 8)
    (outsideNext : byte ≠ next + 8) (outsideContext : byte < current + 24 ∨ current + 104 ≤ byte) :
    switchMem mem current next registers byte = mem byte := by
  unfold switchMem
  rw [saveContext_outside _ _ _ (by unfold contextOf; omega),
    handOver_outside _ outside outsideNext]

section

variable {current next : Nat}
  (apart : current + sizeofTask ≤ next ∨ next + sizeofTask ≤ current) (registers : Registers)

include apart

theorem hasState_switchMem_next (mem : Memory) :
    hasState (switchMem mem current next registers) next .running = true := by
  unfold sizeofTask at apart
  unfold switchMem hasState
  rw [saveContext_outside _ _ _ (by unfold contextOf; omega)]
  exact (hasState_setState _ next .running .running).trans (decide_eq_true rfl)

theorem hasState_switchMem_current (running : hasState mem current .running = true) :
    hasState (switchMem mem current next registers) current .ready = true := by
  unfold sizeofTask at apart
  unfold switchMem handOver
  rw [if_pos running]
  unfold hasState
  rw [saveContext_outside _ _ _ (by unfold contextOf; omega), setState_outside _ _ _ (by omega)]
  exact (hasState_setState _ current .ready .ready).trans (decide_eq_true rfl)

end

theorem SameTask.switchMem (mem : Memory) (registers : Registers)
    (apart : current + sizeofTask ≤ task ∨ task + sizeofTask ≤ current)
    (apartNext : next + sizeofTask ≤ task ∨ task + sizeofTask ≤ next) :
    SameTask mem (switchMem mem current next registers) task := by
  intro byte low high
  unfold sizeofTask at *
  exact switchMem_outside mem registers (by omega) (by omega) (by omega)

theorem taskNext_switchMem (mem : Memory) (registers : Registers)
    (apart : current = task ∨ current + sizeofTask ≤ task ∨ task + sizeofTask ≤ current)
    (apartNext : next = task ∨ next + sizeofTask ≤ task ∨ task + sizeofTask ≤ next) :
    taskNext (switchMem mem current next registers) task = taskNext mem task := by
  unfold sizeofTask at *
  refine readWord_congr _ _ _ (fun byte bound => ?_)
  exact switchMem_outside mem registers (by omega) (by omega) (by omega)

/-! ### A new task -/

theorem writeTask_outside (mem : Memory) (task pid stack stackSize entryPoint next : Nat)
    (outside : byte < task ∨ task + sizeofTask ≤ byte) :
    writeTask mem task pid stack stackSize entryPoint next byte = mem byte := by
  unfold sizeofTask at outside
  unfold writeTask contextOf
  iterate 9 rw [writeWord_outside (by omega)]
  rw [setState_outside _ _ _ (by omega), writeWord_outside (by omega)]

theorem writeTask_fields (mem : Memory) (task pid stack stackSize entryPoint next : Nat)
    (nextWord : next < 2 ^ 64) :
    taskNext (writeTask mem task pid stack stackSize entryPoint next) task = next ∧
      hasState (writeTask mem task pid stack stackSize entryPoint next) task .ready = true ∧
      taskStack (writeTask mem task pid stack stackSize entryPoint next) task =
        (stack + stackSize) % 2 ^ 64 := by
  refine ⟨?_, ?_, ?_⟩
  · unfold writeTask taskNext
    exact readWord_writeWord_of_lt _ _ _ nextWord
  · unfold writeTask contextOf hasState
    iterate 9 rw [writeWord_outside (by omega)]
    exact (hasState_setState _ task .ready .ready).trans (decide_eq_true rfl)
  · unfold writeTask contextOf taskStack
    iterate 8 rw [readWord_writeWord_of_ne (by omega)]
    rw [readWord_writeWord]

/-- The memory after `init_all_cpus` turns a new task into the task of a processor. -/
def startMem (mem : Memory) (task : Nat) : Memory := setState (writeWord mem task 0) task .running

theorem startMem_outside (mem : Memory) (outside : byte < task ∨ task + 9 ≤ byte) :
    startMem mem task byte = mem byte := by
  unfold startMem
  rw [setState_outside _ _ _ (by omega), writeWord_outside (by omega)]

theorem hasState_startMem (mem : Memory) (task : Nat) :
    hasState (startMem mem task) task .running = true :=
  (hasState_setState _ task .running .running).trans (decide_eq_true rfl)

theorem SameTask.startMem (mem : Memory) {other : Nat}
    (apart : task + sizeofTask ≤ other ∨ other + sizeofTask ≤ task) :
    SameTask mem (startMem mem task) other := by
  intro byte low high
  unfold sizeofTask at *
  exact startMem_outside mem (by omega)

end

end Synx.Sched
