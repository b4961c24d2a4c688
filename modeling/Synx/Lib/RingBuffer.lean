/-
Ring buffers.
-/

import Mathlib.Logic.Function.Basic

namespace Lib

open Function

/-- The slots, the position the next item is stored at and the one that is taken next. -/
structure RingBuffer (α : Type) where
  slots : Nat → α
  head : Nat := 0
  tail : Nat := 0

namespace RingBuffer

variable {α : Type} {size : Nat} {ring : RingBuffer α} {items : List α}

def push (size : Nat) (ring : RingBuffer α) (item : α) : RingBuffer α :=
  let next := (ring.head + 1) % size
  if next ≠ ring.tail then
    { ring with slots := update ring.slots ring.head item, head := next }
  else ring

def poll (size : Nat) (ring : RingBuffer α) : Option α × RingBuffer α :=
  if ring.head = ring.tail then (none, ring)
  else (some (ring.slots ring.tail), { ring with tail := (ring.tail + 1) % size })

/-- The ring is the queue of these items, oldest first. -/
structure Queues (size : Nat) (ring : RingBuffer α) (items : List α) : Prop where
  tail_lt : ring.tail < size
  room : items.length < size
  head_eq : ring.head = (ring.tail + items.length) % size
  slot : ∀ index item, items[index]? = some item →
    ring.slots ((ring.tail + index) % size) = item

/-- A position wraps at most once. -/
theorem wrap_eq {start index : Nat} (startBelow : start < size) (indexBelow : index ≤ size) :
    (start + index) % size = if start + index <
      size then start + index else start + index - size := by
  split
  · exact Nat.mod_eq_of_lt (by assumption)
  · rw [Nat.mod_eq_sub_mod (by omega)]
    exact Nat.mod_eq_of_lt (by omega)

section

variable (queues : Queues size ring items)

include queues

theorem Queues.head_lt : ring.head < size := by
  rw [queues.head_eq]
  exact Nat.mod_lt _ (Nat.lt_of_le_of_lt (Nat.zero_le _) queues.room)

theorem Queues.next_eq : (ring.head + 1) % size = (ring.tail + (items.length + 1)) % size := by
  rw [queues.head_eq, Nat.mod_add_mod, Nat.add_assoc]

/-- Storing an item reaches the other end exactly when one slot is left. -/
theorem Queues.full_iff : (ring.head + 1) % size = ring.tail ↔ items.length + 1 = size := by
  have tailBelow := queues.tail_lt
  have room := queues.room
  rw [queues.next_eq, wrap_eq tailBelow room]
  split <;> omega

theorem Queues.empty_iff : ring.head = ring.tail ↔ items = [] := by
  have tailBelow := queues.tail_lt
  have room := queues.room
  rw [queues.head_eq, wrap_eq tailBelow (by omega), ← List.length_eq_zero_iff]
  split <;> omega

theorem Queues.push_full (full : items.length + 1 = size) (item : α) : ring.push size item = ring :=
  if_neg (fun free => free (queues.full_iff.mpr full))

theorem Queues.push_head (item : α) :
    (ring.push size item).head ≠ ring.head ↔ items.length + 1 < size := by
  have room := queues.room
  by_cases full : items.length + 1 = size
  · rw [queues.push_full full]
    omega
  · have stored : (ring.push size item).head = (ring.head + 1) % size :=
      congrArg head (if_pos (fun same => full (queues.full_iff.mp same)))
    have headBelow := queues.head_lt
    rw [stored, wrap_eq headBelow (by omega)]
    split <;> omega

theorem Queues.push (free : items.length + 1 < size) (item : α) :
    Queues size (ring.push size item) (items ++ [item]) := by
  have stored : ring.push size item =
      { ring with slots := update ring.slots ring.head item, head :=
        (ring.head + 1) % size } :=
    if_pos (fun same => Nat.ne_of_lt free (queues.full_iff.mp same))
  have tailBelow := queues.tail_lt
  rw [stored]
  refine ⟨tailBelow, ?_, ?_, ?_⟩
  · rwa [List.length_append]
  · rw [List.length_append]
    exact queues.next_eq
  · intro index item' found
    change update ring.slots ring.head item ((ring.tail + index) % size) = item'
    rcases Nat.lt_or_ge index items.length with old | new
    · -- an older item lies before the head
      have apart : (ring.tail + index) % size ≠ ring.head := by
        rw [queues.head_eq, wrap_eq tailBelow (by omega), wrap_eq tailBelow (by omega)]
        split <;> split <;> omega
      rw [List.getElem?_append_left old] at found
      rw [update_of_ne apart]
      exact queues.slot index item' found
    · rw [List.getElem?_append_right new, List.getElem?_singleton] at found
      split at found
      · rw [show index = items.length by omega, ← queues.head_eq, update_self]
        exact Option.some.inj found
      · cases found

end

theorem Queues.poll_nil (queues : Queues size ring []) : ring.poll size = (none, ring) :=
  if_pos (queues.empty_iff.mpr rfl)

theorem Queues.poll_cons {item : α} (queues : Queues size ring (item :: items)) :
    ring.poll size = (some item, { ring with tail := (ring.tail + 1) % size }) ∧
      Queues size { ring with tail := (ring.tail + 1) % size } items := by
  have tailBelow := queues.tail_lt
  have room := queues.room
  rw [List.length_cons] at room
  have front := queues.slot 0 item rfl
  rw [Nat.add_zero, Nat.mod_eq_of_lt tailBelow] at front
  refine ⟨?_, Nat.mod_lt _ (by omega), by omega, ?_, ?_⟩
  · rw [poll, if_neg (fun same => List.cons_ne_nil _ _ (queues.empty_iff.mp same)), front]
  · rw [Nat.mod_add_mod, queues.head_eq, List.length_cons, Nat.add_assoc, Nat.add_comm 1]
  · intro index item' found
    rw [Nat.mod_add_mod, Nat.add_assoc, Nat.add_comm 1]
    exact queues.slot (index + 1) item' found

end RingBuffer

end Lib
