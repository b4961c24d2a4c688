/-
Fixed-size buffers: stores that have to stay inside their bounds, and the
zero-terminated strings in them.
-/

import Mathlib.Data.List.TakeWhile

namespace Lib.Buffer

open List

variable {α : Type}

/-- The buffer with items stored from an index on, if they fit. -/
def put (buffer : List α) (index : Nat) (items : List α) : Option (List α) :=
  if index + items.length ≤ buffer.length then
    some (buffer.take index ++ items ++ buffer.drop (index + items.length))
  else none

/-- A store behind a known front. -/
theorem put_append {front back items : List α} (fits : items.length ≤ back.length) :
    put (front ++ back) front.length items = some (front ++ items ++ back.drop items.length) := by
  unfold put
  rw [if_pos (by rw [length_append]; omega), take_left, drop_length_add_append]

/-- The items of a buffer after a store. -/
theorem getElem?_stored {buffer items : List α} {start : Nat}
    (fits : start + items.length ≤ buffer.length) (index : Nat) :
    (buffer.take start ++ items ++ buffer.drop (start + items.length))[index]? =
      if start ≤ index ∧ index < start + items.length then items[index - start]?
      else buffer[index]? := by
  have front : (buffer.take start).length = start := by
    rw [length_take]
    omega
  by_cases early : index < start
  · rw [if_neg (by omega), append_assoc, getElem?_append_left (by omega),
      getElem?_take_of_lt early]
  · rw [append_assoc, getElem?_append_right (by omega), front]
    by_cases inside : index < start + items.length
    · rw [if_pos ⟨by omega, inside⟩, getElem?_append_left (by omega)]
    · rw [if_neg (by omega), getElem?_append_right (by omega), getElem?_drop]
      congr 1
      omega

variable [BEq α] [LawfulBEq α] [Zero α]

/-- The items before the first zero; none if the buffer has no zero. -/
def string (buffer : List α) : Option (List α) :=
  if buffer.contains 0 then some (buffer.takeWhile (· != 0)) else none

theorem string_append {text rest : List α} (nonzero : 0 ∉ text) :
    string (text ++ 0 :: rest) = some text := by
  have ends : (text ++ 0 :: rest).takeWhile (· != 0) = text := by
    rw [takeWhile_append_of_pos (fun item member => by
      simpa using fun isZero : item = 0 => nonzero (isZero ▸ member))]
    simp
  unfold string
  rw [if_pos (by simp), ends]

/-- A string is followed by its zero. -/
theorem eq_append_of_string {buffer text : List α} (found : string buffer = some text) :
    0 ∉ text ∧ ∃ rest, buffer = text ++ 0 :: rest := by
  unfold string at found
  split at found
  · rename_i has
    have same := Option.some.inj found
    refine ⟨?_, ?_⟩
    · rw [← same]
      intro member
      have passes := mem_takeWhile_imp member
      simp at passes
    · have whole : buffer.takeWhile (· != 0) ++ buffer.dropWhile (· != 0) = buffer :=
        takeWhile_append_dropWhile
      cases rest : buffer.dropWhile (· != 0) with
      | nil =>
        have isMember : (0 : α) ∈ buffer.takeWhile (· != 0) := by
          rw [rest, append_nil] at whole
          rw [whole]
          simpa using has
        have passes := mem_takeWhile_imp isMember
        simp at passes
      | cons head tail =>
        have isZero : head = 0 := by
          have first := head?_dropWhile_not (· != 0) buffer
          rw [rest] at first
          simpa using first
        rw [rest, isZero, same] at whole
        exact ⟨tail, whole.symm⟩
  · cases found

end Lib.Buffer
