/-
The slab allocator keeps to the kernel's view of it.
-/

import Synx.Kernel.State
import Synx.Mem.SlabRelease

namespace Synx.Kernel

open Lib Program List Function
open Pmm (Block pageSize wordSize)
open Slab (Shape Object largeObjHeaderSize)

/-- The view in which the next small request finds a free slot or not. -/
def Pages.foresee (pages : Pages) (hit : Bool) : Pages :=
  { pages with slots := update pages.slots pages.requests hit }

/-- For one of the two ways in which a request may find the slots, the view takes the
same pages and fails alike.  It names a large object by its pages. -/
def Pages.Serves (pages : Pages) (hhdm size ptr : Nat) (pmm : Pmm.State) : Prop :=
  ∃ hit found next, Pages.alloc size (pages.foresee hit) = (found, next) ∧ next.pmm = pmm ∧
    (found = none ↔ ptr = 0) ∧
    ∀ address ∈ found, slabSizeMax < size → ptr = hhdm + address + largeObjHeaderSize

section

variable {hhdm size ptr count phys : Nat} {others : List Block} {live : List Object}
  {state after : Slab.State} {layout : Slab.Layout} {pages : Pages}

theorem slabPages_eq (small : size ≤ slabSizeMax) :
    slabPages size = Slab.slabPages (Slab.sizeToIndex size) := by
  have all : ∀ row < 65, ∀ column < 64, slabPages (64 * row + column) =
      Slab.slabPages (Slab.sizeToIndex (64 * row + column)) := by decide +kernel
  unfold slabSizeMax at small
  have here := all (size / 64) (by omega) (size % 64) (by omega)
  rwa [Nat.div_add_mod] at here

theorem largePages_eq (fits : size + pageSize ≤ wordSize) :
    Slab.largePages size = largePages size := by
  unfold Slab.largePages largePages
  rw [Nat.mod_eq_of_lt (by unfold pageSize at fits ⊢; omega)]

theorem allocBlock_eq (same : pages.pmm = state.pmm)
    (ran : (Slab.allocPages count).run state = (.ok phys, after)) :
    pages.allocBlock count =
      (if phys = 0 then none else some phys, { pages with pmm := after.pmm }) := by
  have taken : (Pmm.allocPages state.pmm count).1 = phys := Except.ok.inj (Prod.mk.inj ran).1
  have left : (Pmm.allocPages state.pmm count).2 = after.pmm :=
    congrArg Slab.State.pmm (Prod.mk.inj ran).2
  rw [Pages.allocBlock, same, ← taken, ← left]

section

variable (shape : Shape hhdm state layout others live) (same : pages.pmm = state.pmm)

include shape same

theorem serves_large (large : slabSizeMax < size) (fits : size + pageSize ≤ wordSize)
    (ran : (Slab.allocLarge hhdm size).run state = (.ok ptr, after)) :
    pages.Serves hhdm size ptr after.pmm := by
  have viewed : Pages.alloc size (pages.foresee true) =
      (pages.foresee true).allocBlock (Slab.largePages size) := by
    rw [Pages.alloc, if_neg (Nat.ne_zero_of_lt large), if_pos large, largePages_eq fits]
  rcases Slab.run_allocPages shape.owned (Slab.largePages size) with
    failed | ⟨phys, pmm, took, nonzero, total, owned⟩
  · refine ⟨true, _, _, viewed.trans (allocBlock_eq same failed), ?_⟩
    rw [Slab.allocLarge, run_bind_ok failed, if_pos rfl] at ran
    cases ran
    simp
  · refine ⟨true, _, _, viewed.trans (allocBlock_eq same took), ?_⟩
    have grown := shape.toPlaced.addLarge total owned
    have bounds := (grown.block_bounds (Slab.Placed.large_block (.head _))).2
    have virt : Slab.physToVirt hhdm phys = hhdm + phys :=
      Slab.physToVirt_eq (lt_of_lt_of_le
        (Nat.lt_add_of_pos_right (Nat.mul_pos (Nat.succ_pos _) (by decide))) bounds)
    rw [Slab.allocLarge, run_bind_ok took, if_neg nonzero, virt] at ran
    cases ran
    simp [nonzero, largeObjHeaderSize]

theorem serves_small (positive : 0 < size) (small : size ≤ slabSizeMax)
    (ran : (Slab.allocSmall hhdm (Slab.sizeToIndex size)).run state = (.ok ptr, after)) :
    pages.Serves hhdm size ptr after.pmm := by
  have viewed : ∀ hit, Pages.alloc size (pages.foresee hit) =
      let served := { pages.foresee hit with requests := pages.requests + 1 }
      if hit then (some pages.requests, served)
      else served.allocBlock (Slab.slabPages (Slab.sizeToIndex size)) := by
    intro hit
    rw [Pages.alloc, if_neg (Nat.ne_of_gt positive), if_neg (not_lt.mpr small),
      slabPages_eq small]
    simp only [Pages.foresee, update_self]
  have named : ∀ {found : Option Nat}, ∀ address ∈ found, slabSizeMax < size →
      ptr = hhdm + address + largeObjHeaderSize :=
    fun _ _ large => absurd large (not_lt.mpr small)
  rcases Slab.run_allocSmall shape small with
    ⟨slab, slot, rest, member, _, first, found⟩ | ⟨failed, empty⟩ |
    ⟨slab, slot, rest, grown, _, _, first, next, _, found, nonzero, took⟩
  · refine ⟨true, _, _, viewed true, ?_⟩
    have nonnull := (shape.holds slab member).list.ne_zero (first ▸ mem_cons_self)
    rw [found] at ran
    cases ran
    exact ⟨same, by simp [nonnull], named⟩
  · refine ⟨false, _, _, (viewed false).trans (allocBlock_eq same empty), ?_⟩
    rw [failed] at ran
    cases ran
    exact ⟨rfl, by simp, named⟩
  · refine ⟨false, _, _, (viewed false).trans (allocBlock_eq same took), ?_⟩
    have list := (next.holds slab (.head _)).list
    simp only [Slab.Layout.addSlab, update_self, first] at list
    have nonnull := list.ne_zero (.head _)
    rw [found] at ran
    cases ran
    exact ⟨rfl, by simp [nonnull, nonzero], named⟩

theorem free_view {object : Object} (isLive : object ∈ live)
    (ran : (Slab.free hhdm object.start object.size).run state = (.ok (), after)) :
    (Pages.free (object.start - largeObjHeaderSize - hhdm) object.size pages).pmm =
      after.pmm := by
  obtain ⟨positive, fits⟩ := shape.sizes object isLive
  by_cases small : object.size ≤ slabSizeMax
  · obtain ⟨slab, member, cache, isSlot, used⟩ := shape.small object isLive small
    rw [Slab.run_free_small shape positive small member cache isSlot used] at ran
    cases ran
    rw [Pages.free, if_pos ⟨positive, small⟩, same]
  · obtain ⟨block, member, start, pages⟩ := shape.large object isLive (not_le.mp small)
    have called :=
      Slab.run_free_large shape.toStored shape.toPlaced member (not_le.mp small)
    rw [← start, ran, pages, largePages_eq fits] at called
    rw [Pages.free, if_neg (fun both => small both.2), start, Nat.add_sub_cancel,
      Nat.add_sub_cancel_left]
    cases called
    split
    · exact same
    · rw [same]

end

end

/-- From every state of the slab allocator that a run reaches, each request and each
release does to the page allocator what the kernel's view of the heap says. -/
theorem slab_refines_pages (hhdm : Nat) (others : List Block) (start booted : Slab.State)
    (heap : Slab.Heap) (pages : Pages) (fresh : Slab.Fresh hhdm others start)
    (boot : (Slab.init hhdm).run start = (.ok (), booted))
    (calls : Relation.ReflTransGen (Slab.Step hhdm) ⟨booted, []⟩ heap)
    (same : pages.pmm = heap.state.pmm) :
    (∀ size ptr after, 0 < size → size + pageSize ≤ wordSize →
      (Slab.alloc hhdm size).run heap.state = (.ok ptr, after) →
      pages.Serves hhdm size ptr after.pmm) ∧
    ∀ object ∈ heap.live, ∀ after,
      (Slab.free hhdm object.start object.size).run heap.state = (.ok (), after) →
      (Pages.free (object.start - largeObjHeaderSize - hhdm) object.size pages).pmm =
        after.pmm := by
  obtain ⟨layout, shape⟩ := (fresh.booted boot).run calls
  refine ⟨fun size ptr after positive fits ran => ?_,
    fun _ isLive _ ran => free_view shape same isLive ran⟩
  rw [Slab.alloc, if_neg (Nat.ne_of_gt positive)] at ran
  split at ran
  · exact serves_large shape same ‹_› fits ran
  · exact serves_small shape same positive (not_lt.mp ‹_›) ran

end Synx.Kernel
