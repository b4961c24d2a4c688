/-
The creation of tasks.
-/

import Synx.Mem.SlabSafety
import Synx.Sched.Fields

namespace Synx.Sched

open Lib Program
open Pmm (pageSize wordSize Block)
open Slab (Object Untouched Intact gained)

def taskObject (task : Nat) : Object := ⟨task, sizeofTask⟩

/-- The state after the fields of a new task are written. -/
def State.withTask (state : State) (heap : Slab.State) (task stack stackSize entryPoint : Nat) :
    State :=
  { state with
    heap :=
      { heap with
        mem := writeTask heap.mem task state.nextPid stack stackSize entryPoint state.taskListHead }
    nextPid := (state.nextPid + 1) % wordSize
    taskListHead := task }

section

variable {hhdm : Nat} {others : List Block} {live : List Object} {state : State}

theorem run_onHeap {α : Type} {call : Slab.Call α} {value : α} {heap : Slab.State}
    (ran : call.run state.heap = (.ok value, heap)) :
    (onHeap call).run state = (.ok value, { state with heap := heap }) := by
  unfold Program.run onHeap
  rw [ran]

theorem Untouched.trans {first second third : Memory} (before : Untouched live first second)
    (after : Untouched live second third) : Untouched live first third :=
  fun object isLive byte low high =>
    (after object isLive byte low high).trans (before object isLive byte low high)

theorem run_createTask (intact : Intact hhdm others ⟨state.heap, live⟩)
    (entryPoint stackSize : Nat) :
    (∃ heap, (createTask hhdm entryPoint stackSize).run state =
      (.ok 0, { state with heap := heap }) ∧
      Untouched live state.heap.mem heap.mem ∧ Intact hhdm others ⟨heap, live⟩) ∨
    ∃ task stack heap, task ≠ 0 ∧ task < wordSize ∧ stack < wordSize ∧
      (createTask hhdm entryPoint stackSize).run state =
        (.ok task, state.withTask heap task stack stackSize entryPoint) ∧
      Untouched live state.heap.mem heap.mem ∧
      Intact hhdm others ⟨(state.withTask heap task stack stackSize entryPoint).heap,
        gained (taskObject task :: live) stack stackSize⟩ := by
  obtain ⟨layout, shape⟩ := intact
  rcases Slab.run_alloc shape sizeofTask with
    failed | ⟨task, first, layout', taskNonnull, taskWord, tookTask, firstSame, withTask⟩
  · refine .inl ⟨state.heap, ?_, fun _ _ _ _ _ => rfl, layout, shape⟩
    rw [createTask, run_bind_ok (run_onHeap failed), if_pos rfl]
    rfl
  rw [Slab.gained_of_fits task (by decide)] at withTask
  change Slab.Shape hhdm first layout' others (taskObject task :: live) at withTask
  rcases Slab.run_alloc withTask stackSize with
    failed | ⟨stack, second, layout'', stackNonnull, stackWord, tookStack, secondSame, withStack⟩
  · obtain ⟨heap, layout'', released, same, back⟩ := Slab.run_free withTask (.head _)
    change (Slab.free hhdm task sizeofTask).run first = _ at released
    rw [List.erase_cons_head] at same back
    refine .inl ⟨heap, ?_, Untouched.trans firstSame same, layout'', back⟩
    rw [createTask, run_bind_ok (run_onHeap tookTask), if_neg taskNonnull,
      run_bind_ok (@run_onHeap { state with heap := first } _ _ _ _ failed), if_pos rfl,
      run_bind_ok (@run_onHeap { state with heap := first } _ _ _ _ released)]
    rfl
  · refine .inr ⟨task, stack, second, taskNonnull, taskWord, stackWord, ?_, ?_, layout'', ?_⟩
    · rw [createTask, run_bind_ok (run_onHeap tookTask), if_neg taskNonnull,
        run_bind_ok (@run_onHeap { state with heap := first } _ _ _ _ tookStack),
        if_neg stackNonnull]
      rfl
    · exact Untouched.trans firstSame
        (fun object isLive => secondSame object (.tail _ isLive))
    · have isTask : taskObject task ∈ gained (taskObject task :: live) stack stackSize :=
        (Slab.sublist_gained _ stack stackSize).subset (.head _)
      refine withStack.write (writeTask second.mem task state.nextPid stack stackSize entryPoint
        state.taskListHead) (fun byte changed => ⟨taskObject task, isTask, ?_⟩)
      by_contra outside
      refine changed (writeTask_outside _ _ _ _ _ _ _ ?_)
      unfold taskObject at outside
      simp only at outside
      omega

end

end Synx.Sched
