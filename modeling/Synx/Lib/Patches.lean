/-
Writes of whole ranges into a function of addresses.
-/

import Mathlib.Data.List.GetD
import Mathlib.Tactic

namespace Lib

structure Patch (β : Type) where
  address : Nat
  value : List β

namespace Patch

variable {β : Type}

def Covers (patch : Patch β) (other : Nat) : Prop :=
  patch.address ≤ other ∧ other < patch.address + patch.value.length

def Apart (one two : Patch β) : Prop :=
  one.address + one.value.length ≤ two.address ∨ two.address + two.value.length ≤ one.address

def apply (patch : Patch β) (memory : Nat → β) : Nat → β := fun other =>
  if patch.address ≤ other then patch.value.getD (other - patch.address) (memory other)
  else memory other

def applyAll (patches : List (Patch β)) (memory : Nat → β) : Nat → β :=
  patches.foldl (fun memory patch => patch.apply memory) memory

variable {patch : Patch β} {memory : Nat → β} {other : Nat}

theorem apply_outside (outside : ¬patch.Covers other) :
    patch.apply memory other = memory other := by
  unfold apply
  split
  · rename_i above
    unfold Covers at outside
    exact List.getD_eq_default _ _ (by omega)
  · rfl

theorem apply_covered (covered : patch.Covers other) :
    patch.apply memory other = patch.value.getD (other - patch.address) (memory other) :=
  if_pos covered.1

/-- A covered address does not depend on what was there. -/
theorem apply_congr {memory' : Nat → β} (covered : patch.Covers other) :
    patch.apply memory other = patch.apply memory' other := by
  have inside : other - patch.address < patch.value.length := by
    unfold Covers at covered
    omega
  rw [apply_covered covered, apply_covered covered, List.getD_eq_getElem _ _ inside,
    List.getD_eq_getElem _ _ inside]

theorem Apart.not_covers {one two : Patch β} (apart : Apart one two) (covered : one.Covers other) :
    ¬two.Covers other := by
  unfold Apart at apart
  unfold Covers at covered ⊢
  omega

theorem applyAll_outside {patches : List (Patch β)}
    (outside : ∀ patch ∈ patches, ¬patch.Covers other) :
    applyAll patches memory other = memory other := by
  induction patches generalizing memory with
  | nil => rfl
  | cons patch rest ih =>
    have later : applyAll rest (patch.apply memory) other = patch.apply memory other :=
      ih (fun next member => outside next (.tail _ member))
    exact later.trans (apply_outside (outside patch (.head _)))

theorem applyAll_covered {patches : List (Patch β)} (apart : patches.Pairwise Apart)
    (member : patch ∈ patches) (covered : patch.Covers other) :
    applyAll patches memory other = patch.apply memory other := by
  induction patches generalizing memory with
  | nil => cases member
  | cons head rest ih =>
    obtain ⟨first, later⟩ := List.pairwise_cons.mp apart
    show applyAll rest (head.apply memory) other = _
    rcases List.mem_cons.mp member with rfl | inRest
    · exact applyAll_outside (fun next inRest => (first next inRest).not_covers covered)
    · rw [ih later inRest]
      exact apply_congr covered

theorem applyAll_append (first second : List (Patch β)) (memory : Nat → β) :
    applyAll (first ++ second) memory = applyAll second (applyAll first memory) :=
  List.foldl_append

end Patch
end Lib
