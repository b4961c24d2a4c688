/-
Stores into a memory that is seen through a view: the items stand at their places, and
what is seen at every other place is as before.
-/

import Mathlib.Data.List.TakeWhile

namespace Lib

variable {ι β : Type}

/-- The view after a store of items at places. -/
structure Stored (before after : ι → Option β) (places : List ι) (items : List β) : Prop where
  there : ∀ (index : Nat) place, places[index]? = some place → after place = items[index]?
  elsewhere : ∀ place, place ∉ places → after place = before place

namespace Stored

variable {first second third : ι → Option β} {places more : List ι} {items later : List β}

theorem nothing (view : ι → Option β) : Stored view view [] [] :=
  ⟨nofun, fun _ _ => rfl⟩

/-- One store after another at other places. -/
theorem append (one : Stored first second places items) (two : Stored second third more later)
    (same : places.length = items.length) (apart : ∀ place ∈ places, place ∉ more) :
    Stored first third (places ++ more) (items ++ later) := by
  constructor
  · intro index place found
    by_cases early : index < places.length
    · rw [List.getElem?_append_left early] at found
      rw [List.getElem?_append_left (by omega),
        two.elsewhere place (apart place (List.mem_of_getElem? found))]
      exact one.there index place found
    · rw [List.getElem?_append_right (by omega)] at found
      rw [List.getElem?_append_right (by omega), ← same]
      exact two.there _ place found
  · intro place outside
    rw [List.mem_append, not_or] at outside
    rw [two.elsewhere place outside.2, one.elsewhere place outside.1]

/-- A store that covers the places of an earlier one. -/
theorem cover (one : Stored first second places items) (two : Stored second third more later)
    (covers : ∀ place ∈ places, place ∈ more) : Stored first third more later := by
  refine ⟨two.there, ?_⟩
  intro place outside
  rw [two.elsewhere place outside,
    one.elsewhere place (fun inside => outside (covers place inside))]

end Stored

end Lib
