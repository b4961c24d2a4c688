/-
Tearing an address space down: `destroy_address_space` frees every frame of a
well-formed space once, children first, and nothing else.
-/

import Synx.Exec.Edits

namespace Synx.Exec

open Lib List
open Pmm (pageSize bitmapGet)
open Paging

/-- The slots that a teardown looks at, by remaining depth. -/
def lowSlots (depth : Nat) : List Nat := if depth = 4 then range 256 else range 512

private theorem follows_table (depth : Nat) (below : depth < 4) (path : List Nat) :
    Trie.Follows lowSlots depth path ↔ path.length ≤ depth ∧ ∀ index ∈ path, index < 512 := by
  induction path generalizing depth with
  | nil => simp [Trie.Follows]
  | cons index rest ih =>
    cases depth with
    | zero => simp [Trie.Follows]
    | succ depth =>
      have notRoot : depth + 1 ≠ 4 := by omega
      simp only [Trie.Follows, ih depth (by omega), lowSlots, if_neg notRoot, mem_range,
        length_cons, forall_mem_cons]
      constructor
      · rintro ⟨first, short, later⟩
        exact ⟨by omega, first, later⟩
      · rintro ⟨short, first, later⟩
        exact ⟨first, by omega, later⟩

theorem follows_iff_lowPath (path : List Nat) : Trie.Follows lowSlots 4 path ↔ LowPath path := by
  cases path with
  | nil => simp [Trie.Follows, LowPath]
  | cons index rest =>
    simp only [Trie.Follows, follows_table 3 (by decide), lowSlots, if_true, mem_range,
      LowPath, length_cons, forall_mem_cons, head?_cons, Option.mem_some_iff]
    constructor
    · rintro ⟨first, short, later⟩
      refine ⟨by omega, ⟨by omega, later⟩, ?_⟩
      rintro _ rfl
      exact first
    · rintro ⟨short, ⟨_, later⟩, first⟩
      exact ⟨first index rfl, by omega, later⟩

/-- The frames of a space in the order of its teardown. -/
def spaceFrames (mem : Memory) (root : Nat) : List Nat :=
  Trie.postorder (nextFrame mem) lowSlots 4 root

theorem mem_spaceFrames (mem : Memory) (root phys : Nat) :
    phys ∈ spaceFrames mem root ↔ Reaches mem root phys := by
  unfold spaceFrames Reaches frameAt
  rw [Trie.mem_postorder]
  simp only [follows_iff_lowPath]

variable {mem : Memory} {root depth table index : Nat}

theorem Space.nodup_spaceFrames (space : Space mem root) : (spaceFrames mem root).Nodup := by
  apply Trie.nodup_postorder
  · intro depth
    unfold lowSlots
    split <;> exact nodup_range
  · intro left right node followsLeft followsRight
    exact space.unshared left right node ((follows_iff_lowPath left).mp followsLeft)
      ((follows_iff_lowPath right).mp followsRight)

/-! ### Freeing a list of frames -/

def Machine.freeFrames (machine : Machine) (frames : List Nat) : Machine :=
  frames.foldl Machine.freeFrame machine

theorem Machine.freeFrames_append (machine : Machine) (left right : List Nat) :
    machine.freeFrames (left ++ right) = (machine.freeFrames left).freeFrames right :=
  foldl_append

section

variable (machine : Machine) (frames : List Nat)

include machine frames

theorem Machine.freeFrames_mem : (machine.freeFrames frames).mem = machine.mem := by
  induction frames generalizing machine with
  | nil => rfl
  | cons phys rest ih => exact ih (machine.freeFrame phys)

theorem Machine.freeFrames_log :
    (machine.freeFrames frames).log = (frames.map FrameEvent.gave).reverse ++ machine.log := by
  induction frames generalizing machine with
  | nil => rfl
  | cons phys rest ih =>
    refine (ih (machine.freeFrame phys)).trans ?_
    simp [Machine.freeFrame]

theorem Machine.freeFrames_totalPages :
    (machine.freeFrames frames).pmm.totalPages = machine.pmm.totalPages := by
  induction frames generalizing machine with
  | nil => rfl
  | cons phys rest ih =>
    exact (ih (machine.freeFrame phys)).trans (Pmm.release_totalPages _ _)

theorem Machine.freeFrames_bitmap
    (inside : ∀ phys ∈ frames, phys / pageSize < machine.pmm.totalPages) (page : Nat) :
    bitmapGet (machine.freeFrames frames).pmm.bitmap page = true ↔
      bitmapGet machine.pmm.bitmap page = true ∧ ∀ phys ∈ frames, phys / pageSize ≠ page := by
  induction frames generalizing machine with
  | nil => simp [Machine.freeFrames]
  | cons phys rest ih =>
    have first := inside phys (.head _)
    refine (ih (machine.freeFrame phys) ?_).trans ?_
    · intro other member
      refine Nat.lt_of_lt_of_eq (inside other (.tail phys member)) ?_
      exact (Pmm.release_totalPages _ _).symm
    · change bitmapGet (machine.pmm.release (phys / pageSize)).bitmap page = true ∧ _ ↔ _
      rw [Pmm.bitmapGet_release]
      simp only [first, and_true, Bool.and_eq_true, Bool.not_eq_true', decide_eq_false_iff_not,
        forall_mem_cons]
      constructor
      · rintro ⟨⟨here, used⟩, later⟩
        exact ⟨used, fun same => here same.symm, later⟩
      · rintro ⟨used, here, later⟩
        exact ⟨⟨fun same => here same.symm, used⟩, later⟩

end

/-! ### The recursion frees the list -/

private theorem foldl_freeFrames (items : List Nat) (frames : Nat → List Nat)
    (step : Machine → Nat → Machine) (mem : Memory)
    (frees : ∀ machine index, machine.mem = mem → index ∈ items →
      step machine index = machine.freeFrames (frames index))
    (machine : Machine) (same : machine.mem = mem) :
    items.foldl step machine = machine.freeFrames (items.flatMap frames) := by
  induction items generalizing machine with
  | nil => rfl
  | cons index rest ih =>
    have first := frees machine index same (.head _)
    rw [foldl_cons, first, flatMap_cons, Machine.freeFrames_append]
    apply ih
    · intro other otherIndex otherSame member
      exact frees other otherIndex otherSame (.tail index member)
    · rw [Machine.freeFrames_mem, same]

/-- No present entry on the way down is a large page. -/
def CleanBelow (mem : Memory) (depth table : Nat) : Prop :=
  ∀ path node index, Trie.Follows lowSlots depth (path ++ [index]) →
    frameAt mem table path = some node →
    flagged (entryAt mem node index) ptePresent = true →
      flagged (entryAt mem node index) pteLarge = false

theorem CleanBelow.child {next : Nat} (clean : CleanBelow mem (depth + 1) table)
    (member : index ∈ lowSlots (depth + 1)) (at_ : nextFrame mem table index = some next) :
    CleanBelow mem depth next := by
  intro path node slot follows reached
  apply clean (index :: path) node slot ⟨member, follows⟩
  unfold frameAt
  rw [Trie.descend_cons, at_]
  exact reached

theorem CleanBelow.nextFrame_eq (clean : CleanBelow mem (depth + 1) table)
    (member : index ∈ lowSlots (depth + 1))
    (present : flagged (entryAt mem table index) ptePresent = true) :
    flagged (entryAt mem table index) pteLarge = false ∧
      nextFrame mem table index = some (pteAddress (entryAt mem table index)) := by
  have small := clean [] table index ⟨member, Trie.follows_nil _ _⟩ rfl present
  refine ⟨small, ?_⟩
  simp only [nextFrame, present, small, Bool.not_false, Bool.and_self, if_true]

theorem destroyTableTree_eq (depth : Nat) (shallow : depth + 1 < 4) (machine : Machine)
    (table : Nat) (clean : CleanBelow machine.mem (depth + 1) table) :
    destroyTableTree (depth + 1) machine table =
      machine.freeFrames (Trie.postorder (nextFrame machine.mem) lowSlots (depth + 1) table) := by
  induction depth generalizing machine table with
  | zero =>
    have slots : lowSlots (0 + 1) = range pageTableEntries := if_neg (by decide)
    rw [destroyTableTree, Trie.postorder, Machine.freeFrames_append]
    simp only
    rw [← slots, foldl_freeFrames (lowSlots (0 + 1)) _ _ machine.mem _ machine rfl]
    · rfl
    intro other index same member
    rw [same]
    cases present : flagged (entryAt machine.mem table index) ptePresent with
    | false => rw [nextFrame_absent present]; rfl
    | true => rw [(clean.nextFrame_eq member present).2]; rfl
  | succ depth ih =>
    have notRoot : depth + 1 + 1 ≠ 4 := by omega
    have slots : lowSlots (depth + 1 + 1) = range pageTableEntries := if_neg notRoot
    rw [destroyTableTree, Trie.postorder, Machine.freeFrames_append]
    simp only
    rw [← slots, foldl_freeFrames (lowSlots (depth + 1 + 1)) _ _ machine.mem _ machine rfl]
    · rfl
    intro other index same member
    rw [same]
    cases present : flagged (entryAt machine.mem table index) ptePresent with
    | false => rw [nextFrame_absent present]; rfl
    | true =>
      obtain ⟨small, next⟩ := clean.nextFrame_eq member present
      rw [next, small]
      simp only [if_true, Nat.succ_ne_zero, if_false, Bool.false_eq_true, Option.elim_some]
      rw [← same]
      apply ih (by omega)
      rw [same]
      exact clean.child member next

theorem Space.destroyAddressSpace_eq {machine : Machine} (space : Space machine.mem root) :
    destroyAddressSpace machine root = machine.freeFrames (spaceFrames machine.mem root) := by
  have clean : CleanBelow machine.mem 4 root := by
    intro path node index follows reached present
    exact (space.clean path node index ((follows_iff_lowPath _).mp follows) reached present).1
  have nonzero := (space.frame [] root lowPath_nil rfl).nonzero
  have slots : lowSlots 4 = range 256 := if_pos rfl
  unfold destroyAddressSpace spaceFrames
  rw [if_neg nonzero, Trie.postorder, Machine.freeFrames_append]
  simp only
  rw [← slots, foldl_freeFrames (lowSlots 4) _ _ machine.mem _ machine rfl]
  · rfl
  intro other index same member
  rw [same]
  cases present : flagged (entryAt machine.mem root index) ptePresent with
  | false => rw [nextFrame_absent present]; rfl
  | true =>
    obtain ⟨small, next⟩ := clean.nextFrame_eq member present
    rw [next, small]
    simp only [Bool.not_false, Bool.and_self, if_true, Option.elim_some]
    rw [← same]
    apply destroyTableTree_eq 2 (by decide)
    rw [same]
    exact clean.child member next

end Synx.Exec
