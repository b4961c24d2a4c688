/-
Counting the indices below a bound that meet a Boolean predicate, and the places
where a partial map has a value.
-/

import Mathlib.Tactic

namespace Lib

def countBelow (holds : Nat → Bool) (bound : Nat) : Nat :=
  (List.range bound).countP holds

theorem countBelow_succ (holds : Nat → Bool) (bound : Nat) :
    countBelow holds (bound + 1) = countBelow holds bound + (holds bound).toNat := by
  unfold countBelow
  rw [List.range_succ, List.countP_append, List.countP_cons, List.countP_nil]
  cases holds bound <;> simp

theorem countBelow_le (holds : Nat → Bool) (bound : Nat) : countBelow holds bound ≤ bound := by
  unfold countBelow
  exact le_trans List.countP_le_length (by rw [List.length_range])

theorem countBelow_congr (left right : Nat → Bool) (bound : Nat)
    (same : ∀ index < bound, left index = right index) :
    countBelow left bound = countBelow right bound := by
  induction bound with
  | zero => rfl
  | succ bound ih =>
    rw [countBelow_succ, countBelow_succ, same bound (Nat.lt_succ_self bound),
      ih (fun index inside => same index (Nat.lt_succ_of_lt inside))]

/-- Turning one index on adds one to the count. -/
theorem countBelow_flip (off on : Nat → Bool) (bound index : Nat) (inside : index < bound)
    (wasOff : off index = false) (isOn : on index = true)
    (elsewhere : ∀ other, other ≠ index → on other = off other) :
    countBelow on bound = countBelow off bound + 1 := by
  induction bound with
  | zero => omega
  | succ bound ih =>
    rw [countBelow_succ, countBelow_succ]
    by_cases last : index = bound
    · subst index
      have before : countBelow on bound = countBelow off bound := by
        apply countBelow_congr
        intro other below
        exact elsewhere other (by omega)
      rw [before, wasOff, isOn]
      rfl
    · rw [ih (by omega), elsewhere bound (fun same => last same.symm)]
      omega

/-! ### Places of a value -/

section Fibre

variable {α β : Type}

/-- The places where a partial map has a value. -/
def fibre (map : α → Option β) (value : β) : Set α := {place | map place = some value}

theorem mem_fibre {map : α → Option β} {value : β} {place : α} :
    place ∈ fibre map value ↔ map place = some value := Iff.rfl

theorem fibre_finite {map : Nat → Option β} {bound : Nat}
    (below : ∀ place value, map place = some value → place < bound) (value : β) :
    (fibre map value).Finite :=
  (Set.finite_Iio bound).subset (fun place member => below place value member)

/-- An update takes a place from its old value to its new one. -/
theorem ncard_fibre_update [DecidableEq α] [DecidableEq β] (map : α → Option β) (place : α)
    (new : Option β) (value : β) (finite : (fibre map value).Finite) :
    ((fibre (Function.update map place new) value).ncard : Int) =
      (fibre map value).ncard - (if map place = some value then 1 else 0) +
        (if new = some value then 1 else 0) := by
  by_cases now : new = some value
  · have same : fibre (Function.update map place new) value = insert place (fibre map value) := by
      ext other
      rw [Set.mem_insert_iff, mem_fibre, mem_fibre]
      by_cases here : other = place
      · simp [here, now]
      · simp [here]
    rw [same, if_pos now]
    by_cases before : map place = some value
    · rw [Set.insert_eq_of_mem (mem_fibre.mpr before), if_pos before]
      omega
    · rw [Set.ncard_insert_of_notMem (mem_fibre.not.mpr before) finite, if_neg before]
      omega
  · have same : fibre (Function.update map place new) value = fibre map value \ {place} := by
      ext other
      rw [Set.mem_sdiff, Set.mem_singleton_iff, mem_fibre, mem_fibre]
      by_cases here : other = place
      · simp [here, now]
      · simp [here]
    rw [same, if_neg now]
    by_cases before : map place = some value
    · have one := Set.ncard_sdiff_singleton_add_one (mem_fibre.mpr before) finite
      rw [if_pos before]
      omega
    · rw [Set.sdiff_singleton_eq_self (mem_fibre.not.mpr before), if_neg before]
      omega

end Fibre

end Lib
