/-
The scheduler of `proc/sched.cpp` and `proc/switch_context.S`.
-/

import Synx.Mem.Slab

namespace Synx.Sched

open Lib Function
open Lib.Memory (readWord writeWord writeBytes)
open Pmm (wordSize)

def maxCpus : Nat := 256

/-! ### The fields of a task -/

/-- The size of a `Task`: `pid` at 0, `state` at 8, `context` at 16, `iframe` at 136,
`stack` at 312, `stack_size` at 320 and `next` at 328. -/
def sizeofTask : Nat := 336

inductive TaskState
  | ready
  | running
  | blocked
  | zombie
  deriving DecidableEq

def TaskState.code : TaskState → UInt8
  | .ready => 0
  | .running => 1
  | .blocked => 2
  | .zombie => 3

def hasState (mem : Memory) (task : Nat) (state : TaskState) : Bool := mem (task + 8) = state.code

def setState (mem : Memory) (task : Nat) (state : TaskState) : Memory :=
  writeBytes mem (task + 8) [state.code]

def contextOf (task : Nat) : Nat := task + 16

/-- The field `stack`, which holds the upper end of the stack. -/
def taskStack (mem : Memory) (task : Nat) : Nat := readWord mem (task + 312)

def taskNext (mem : Memory) (task : Nat) : Nat := readWord mem (task + 328)

/-! ### The context switch -/

/-- The registers that a function keeps for its caller, and the stack pointer. -/
structure Registers where
  rbx : UInt64
  rbp : UInt64
  r12 : UInt64
  r13 : UInt64
  r14 : UInt64
  r15 : UInt64
  rsp : UInt64
  deriving DecidableEq

/-- The first half of `switch_context`. -/
def saveContext (mem : Memory) (context : Nat) (registers : Registers) : Memory :=
  let mem := writeWord mem (context + 0x08) registers.rbx.toNat
  let mem := writeWord mem (context + 0x28) registers.rbp.toNat
  let mem := writeWord mem (context + 0x30) registers.r12.toNat
  let mem := writeWord mem (context + 0x38) registers.r13.toNat
  let mem := writeWord mem (context + 0x40) registers.r14.toNat
  let mem := writeWord mem (context + 0x48) registers.r15.toNat
  writeWord mem (context + 0x50) registers.rsp.toNat

def loadWord (mem : Memory) (address : Nat) : UInt64 := UInt64.ofNat (readWord mem address)

/-- The second half of `switch_context`. -/
def loadContext (mem : Memory) (context : Nat) : Registers :=
  { rbx := loadWord mem (context + 0x08)
    rbp := loadWord mem (context + 0x28)
    r12 := loadWord mem (context + 0x30)
    r13 := loadWord mem (context + 0x38)
    r14 := loadWord mem (context + 0x40)
    r15 := loadWord mem (context + 0x48)
    rsp := loadWord mem (context + 0x50) }

/-! ### Scheduling -/

structure State where
  heap : Slab.State
  /-- The array `per_cpu_data`, with null for a processor without a task. -/
  currentTask : Nat → Nat
  taskListHead : Nat
  nextPid : Nat
  initialized : Bool

inductive Halt
  | slab (cause : Slab.Halt)
  | lapicId
  | idleTask
  | noCurrentTask
  | endless
  deriving DecidableEq

abbrev Call (α : Type) := Program State Halt α

def onHeap {α : Type} (call : Slab.Call α) : Call α := fun state =>
  match call.run state.heap with
  | (.ok value, heap) => (.ok value, { state with heap := heap })
  | (.error cause, heap) => (.error (.slab cause), { state with heap := heap })

def State.setMem (state : State) (mem : Memory) : State :=
  { state with heap := { state.heap with mem := mem } }

/-- The fields that `create_task` sets, in its order.  Of the context it sets the
field `rbp` alone. -/
@[irreducible]
def writeTask (mem : Memory) (task pid stack stackSize entryPoint next : Nat) : Memory :=
  let mem := writeWord mem task pid
  let mem := setState mem task .ready
  let mem := writeWord mem (task + 312) (stack + stackSize)
  let mem := writeWord mem (task + 320) stackSize
  let mem := writeWord mem (contextOf task + 48) 0
  let mem := writeWord mem (task + 272) entryPoint
  let mem := writeWord mem (task + 280) 0x08
  let mem := writeWord mem (task + 288) 0x202
  let mem := writeWord mem (task + 296) (taskStack mem task)
  let mem := writeWord mem (task + 304) 0x10
  writeWord mem (task + 328) next

section

variable (hhdm : Nat)

def createTask (entryPoint stackSize : Nat) : Call Nat := do
  let newTask ← onHeap (Slab.alloc hhdm sizeofTask)
  if newTask = 0 then pure 0
  else do
    let stack ← onHeap (Slab.alloc hhdm stackSize)
    if stack = 0 then do
      onHeap (Slab.free hhdm newTask sizeofTask)
      pure 0
    else do
      Program.modify (fun state =>
        { state.setMem (writeTask state.heap.mem newTask state.nextPid stack stackSize entryPoint
            state.taskListHead) with
          nextPid := (state.nextPid + 1) % wordSize
          taskListHead := newTask })
      pure newTask

/-- The task of a processor in `init_all_cpus`. -/
def createIdle (entry stackSize lapicId : Nat) : Call Unit :=
  if maxCpus ≤ lapicId then Program.stop .lapicId
  else do
    let task ← createTask hhdm entry stackSize
    if task = 0 then Program.stop .idleTask
    else Program.modify (fun state =>
      { state.setMem (setState (writeWord state.heap.mem task 0) task .running) with
        currentTask := update state.currentTask lapicId task })

def initAllCpus (entry stackSize : Nat) (lapicIds : List Nat) : Call Unit := do
  let initialized ← Program.gets State.initialized
  if initialized then pure ()
  else do
    Program.modify (fun state => { state with initialized := true })
    Program.each (createIdle hhdm entry stackSize) lapicIds

/-- The `init` of the scheduler, with no check of the processor. -/
def init (entry stackSize processorId : Nat) : Call Unit := do
  let initialized ← Program.gets State.initialized
  if initialized then pure ()
  else do
    Program.modify (fun state => { state with initialized := true })
    let task ← createTask hhdm entry stackSize
    if task = 0 then Program.stop .idleTask
    else Program.modify (fun state =>
      { state.setMem (setState (writeWord state.heap.mem task 0) task .running) with
        currentTask := update state.currentTask processorId task })

end

/-- The search of `schedule`.  Links have 64 bits, so a search of more steps repeats
one and has no end. -/
def findReady (state : State) (current : Nat) : Option Nat :=
  cycle (taskNext state.heap.mem) (fun task => hasState state.heap.mem task .ready)
    state.taskListHead current (wordSize + 1) (taskNext state.heap.mem current)

/-- The change of states when a processor goes from one task to another. -/
def handOver (mem : Memory) (current next : Nat) : Memory :=
  let mem := if hasState mem current .running then setState mem current .ready else mem
  setState mem next .running

/-- A call of `schedule` with the registers at the context switch.  The result holds
the registers behind it. -/
def schedule (cpu : Nat) (registers : Registers) : Call Registers := do
  let current ← Program.gets (fun state => state.currentTask cpu)
  if current = 0 then Program.stop .noCurrentTask
  else do
    let found ← Program.gets (fun state => findReady state current)
    match found with
    | none => Program.stop .endless
    | some next =>
      if next = current then pure registers
      else do
        Program.modify (fun state =>
          { state.setMem (saveContext (handOver state.heap.mem current next) (contextOf current)
              registers) with
            currentTask := update state.currentTask cpu next })
        Program.gets (fun state => loadContext state.heap.mem (contextOf next))

end Synx.Sched
