/-
The entry points of the slab allocator on its invariant.
-/

import Synx.Mem.SlabObjects

namespace Synx.Slab

open Lib List
open Lib.Memory (readWord writeWord)
open Pmm (pageSize wordSize Block Owned)

section

variable {hhdm : Nat} {state : State} {layout : Layout} {others : List Block} {live : List Object}
  {mem : Memory}

/-! ### Large objects -/

variable {pmm : Pmm.State} {block : Block} {phys size : Nat}

theorem Placed.addLarge {after : Pmm.State} (placed : Placed hhdm pmm layout others)
    (total : after.totalPages = pmm.totalPages)
    (owned : Owned after (block :: (layout.blocks ++ others))) :
    Placed hhdm after { layout with larges := block :: layout.larges } others := by
  refine ⟨by rw [total]; exact placed.window, owned.perm ?_, placed.cache⟩
  exact (perm_middle.symm.append_right others)

theorem Placed.dropLarge (placed : Placed hhdm pmm layout others) (member : block ∈ layout.larges) :
    Placed hhdm (Pmm.freePages pmm block.phys block.pages)
      { layout with larges := layout.larges.erase block } others := by
  have order : (layout.blocks ++ others).Perm (block ::
      (layout.slabs.map Descriptor.block ++ layout.larges.erase block ++ others)) :=
    ((((perm_cons_erase member).append_left _).trans perm_middle).append_right others)
  have owned := placed.owned.freePages block (Placed.large_block member)
  refine ⟨?_, owned.perm ?_, placed.cache⟩
  · rw [show (Pmm.freePages pmm block.phys block.pages).totalPages = pmm.totalPages from
      Pmm.releaseRun_totalPages pmm _ 0 block.pages]
    exact placed.window
  · have erased := order.erase block
    rw [erase_cons_head] at erased
    exact erased

/-- The memory after the header of a large object is written. -/
def writeLargeHeader (mem : Memory) (virt size : Nat) : Memory :=
  writeWord (writeWord mem virt (largePages size)) (virt + 8) size

theorem run_allocLarge (placed : Placed hhdm state.pmm layout others) (size : Nat) :
    (allocLarge hhdm size).run state = (.ok 0, state) ∨
    ∃ phys pmm, (allocLarge hhdm size).run state =
        (.ok (hhdm + phys + largeObjHeaderSize),
          { state with mem := writeLargeHeader state.mem (hhdm + phys) size, pmm := pmm }) ∧
      Pmm.allocPages state.pmm (largePages size) = (phys, pmm) ∧
      Placed hhdm pmm { layout with larges := ⟨phys, largePages size⟩ :: layout.larges }
        others := by
  rcases run_allocPages placed.owned (largePages size) with
    failed | ⟨phys, pmm, took, nonzero, total, owned⟩
  · left
    rw [allocLarge, Program.run_bind_ok failed, if_pos rfl]
    rfl
  · right
    have grown := placed.addLarge total owned
    have bounds := (grown.block_bounds (Placed.large_block (.head _))).2
    have virt : physToVirt hhdm phys = hhdm + phys := by
      apply physToVirt_eq
      have pages : 0 < largePages size := Nat.succ_pos _
      have bytes : pageSize ≤ largePages size * pageSize := Nat.le_mul_of_pos_left _ pages
      have page : 0 < pageSize := by decide
      simp only at bounds
      omega
    refine ⟨phys, pmm, ?_, ?_, grown⟩
    · rw [allocLarge, Program.run_bind_ok took, if_neg nonzero, virt]
      rfl
    · have result : (allocPages (largePages size)).run state =
          (.ok (Pmm.allocPages state.pmm (largePages size)).1,
            { state with pmm := (Pmm.allocPages state.pmm (largePages size)).2 }) := rfl
      rw [result] at took
      obtain ⟨isPhys, isPmm⟩ := Prod.mk.inj took
      exact Prod.ext (Except.ok.inj isPhys) (congrArg State.pmm isPmm)

theorem largePages_word (size : Nat) : largePages size < 2 ^ 64 := by
  unfold largePages pageSize wordSize
  omega

theorem writeLargeHeader_outside (mem : Memory) (virt size byte : Nat)
    (outside : byte < virt ∨ virt + largeObjHeaderSize ≤ byte) :
    writeLargeHeader mem virt size byte = mem byte := by
  unfold largeObjHeaderSize at outside
  unfold writeLargeHeader
  rw [Memory.writeWord_outside (by omega), Memory.writeWord_outside (by omega)]

theorem readWord_writeLargeHeader (mem : Memory) (virt size : Nat) :
    readWord (writeLargeHeader mem virt size) virt = largePages size := by
  unfold writeLargeHeader
  rw [Memory.readWord_writeWord_of_ne (by omega),
    Memory.readWord_writeWord_of_lt _ _ _ (largePages_word size)]

theorem Placed.large_new
    (grown : Placed hhdm pmm { layout with larges := block :: layout.larges } others) :
    (∀ slab ∈ layout.slabs, slab.base hhdm + slabTotal slab.cache ≤ hhdm + block.phys ∨
      hhdm + block.phys + block.pages * pageSize ≤ slab.base hhdm) ∧
    ∀ other ∈ layout.larges, block.phys + block.pages * pageSize ≤ other.phys ∨
      other.phys + other.pages * pageSize ≤ block.phys := by
  refine ⟨fun slab member => grown.slab_large_apart member (.head _), ?_⟩
  intro other member
  have larges := (pairwise_append.mp grown.layout_apart).2.1
  exact grown.blocks_apart (Placed.large_block (.head _))
    (Placed.large_block (.tail block member))
    ((pairwise_cons.mp larges).1 other member)

theorem Stored.addLarge {caches : Nat → Nat} (stored : Stored hhdm mem caches layout)
    {after : Pmm.State} (placed : Placed hhdm pmm layout others)
    (grown : Placed hhdm after { layout with larges := ⟨phys, largePages size⟩ :: layout.larges }
      others) :
    Stored hhdm (writeLargeHeader mem (hhdm + phys) size) caches
      { layout with larges := ⟨phys, largePages size⟩ :: layout.larges } := by
  obtain ⟨slabsApart, largesApart⟩ := grown.large_new
  have bytes : pageSize ≤ largePages size * pageSize := Nat.le_mul_of_pos_left _ (Nat.succ_pos _)
  have page : largeObjHeaderSize ≤ pageSize := by decide
  simp only at slabsApart largesApart
  have old : Stored hhdm (writeLargeHeader mem (hhdm + phys) size) caches layout := by
    refine stored.frame placed ?_
    rintro byte (⟨slab, member, low, high⟩ | ⟨slab, member, slot, isFree, low, high⟩ |
      ⟨block, member, low, high⟩)
    · have fits := (geometry (placed.cache slab member)).fits
      have apart := slabsApart slab member
      exact writeLargeHeader_outside mem _ size byte (by omega)
    · have inside :=
        ((stored.holds slab member).slots slot isFree).inside (placed.cache slab member)
      have apart := slabsApart slab member
      exact writeLargeHeader_outside mem _ size byte (by omega)
    · have blockBytes : pageSize ≤ block.pages * pageSize :=
        Nat.le_mul_of_pos_left _ (placed.owned.nonempty block (Placed.large_block member))
      have apart := largesApart block member
      exact writeLargeHeader_outside mem _ size byte (by omega)
  refine ⟨old.chains, old.holds, ?_⟩
  intro block member
  rcases mem_cons.mp member with rfl | before
  · exact readWord_writeLargeHeader mem (hhdm + phys) size
  · exact old.headers block before

theorem Shape.addBlock (shape : Shape hhdm state layout others live)
    (grown : Placed hhdm pmm { layout with larges := ⟨phys, largePages size⟩ :: layout.larges }
      others) :
    Shape hhdm { state with mem := writeLargeHeader state.mem (hhdm + phys) size, pmm := pmm }
      { layout with larges := ⟨phys, largePages size⟩ :: layout.larges } others live := by
  refine
    { toPlaced := grown
      toStored := shape.toStored.addLarge shape.toPlaced grown
      sizes := shape.sizes
      small := shape.small
      large := ?_
      distinct := shape.distinct
      complete := shape.complete }
  intro object isLive isLarge
  obtain ⟨block, member, facts⟩ := shape.large object isLive isLarge
  exact ⟨block, mem_cons_of_mem _ member, facts⟩

theorem Shape.addBlock_untouched (shape : Shape hhdm state layout others live)
    (grown : Placed hhdm pmm { layout with larges := ⟨phys, largePages size⟩ :: layout.larges }
      others) :
    Untouched live state.mem (writeLargeHeader state.mem (hhdm + phys) size) := by
  obtain ⟨slabsApart, largesApart⟩ := grown.large_new
  have bytes : pageSize ≤ largePages size * pageSize := Nat.le_mul_of_pos_left _ (Nat.succ_pos _)
  have page : largeObjHeaderSize ≤ pageSize := by decide
  simp only at slabsApart largesApart
  refine shape.untouched_within ?_
  rintro byte (⟨slab, member, low, high⟩ | ⟨block, member, low, high⟩)
  · have apart := slabsApart slab member
    exact writeLargeHeader_outside state.mem _ size byte (by omega)
  · have apart := largesApart block member
    exact writeLargeHeader_outside state.mem _ size byte (by omega)

theorem Shape.addLarge (shape : Shape hhdm state layout others live)
    (grown : Placed hhdm pmm { layout with larges := ⟨phys, largePages size⟩ :: layout.larges }
      others)
    (large : slabSizeMax < size) (bound : size + pageSize ≤ wordSize) :
    Shape hhdm { state with mem := writeLargeHeader state.mem (hhdm + phys) size, pmm := pmm }
      { layout with larges := ⟨phys, largePages size⟩ :: layout.larges } others
      (⟨hhdm + phys + largeObjHeaderSize, size⟩ :: live) := by
  obtain ⟨slabsApart, largesApart⟩ := grown.large_new
  have bytes : pageSize ≤ largePages size * pageSize := Nat.le_mul_of_pos_left _ (Nat.succ_pos _)
  have page : largeObjHeaderSize < pageSize := by decide
  have next := shape.addBlock grown
  simp only at slabsApart largesApart
  refine
    { toPlaced := grown
      toStored := next.toStored
      sizes := ?_
      small := ?_
      large := ?_
      distinct := ?_
      complete := ?_ }
  · intro object isLive
    rcases mem_cons.mp isLive with rfl | old
    · exact ⟨Nat.zero_lt_of_lt large, bound⟩
    · exact shape.sizes object old
  · intro object isLive isSmall
    rcases mem_cons.mp isLive with rfl | old
    · exact absurd large (Nat.not_lt_of_le isSmall)
    · exact next.small object old isSmall
  · intro object isLive isLarge
    rcases mem_cons.mp isLive with rfl | old
    · exact ⟨_, mem_cons_self, rfl, rfl⟩
    · exact next.large object old isLarge
  · rw [map_cons, nodup_cons]
    refine ⟨?_, shape.distinct⟩
    intro again
    obtain ⟨object, isLive, same⟩ := mem_map.mp again
    simp only at same
    have positive := (shape.sizes object isLive).1
    rcases shape.object_within isLive (Nat.le_refl object.start) (by omega) with
      ⟨slab, member, low, high⟩ | ⟨block, member, low, high⟩
    · have apart := slabsApart slab member
      omega
    · have apart := largesApart block member
      omega
  · intro slab member address isSlot
    rcases shape.complete slab member address isSlot with isFree | ⟨object, isLive, facts⟩
    · exact .inl isFree
    · exact .inr ⟨object, mem_cons_of_mem _ isLive, facts⟩

theorem run_freeLarge (stored : Stored hhdm state.mem state.caches layout)
    (placed : Placed hhdm state.pmm layout others) (member : block ∈ layout.larges) :
    (freeLarge hhdm (hhdm + block.phys + largeObjHeaderSize)).run state =
      (.ok (), if 1024 < block.pages then state
        else { state with pmm := Pmm.freePages state.pmm block.phys block.pages }) := by
  have bounds := placed.block_bounds (Placed.large_block member)
  have nonempty := placed.owned.nonempty block (Placed.large_block member)
  have bytes : pageSize ≤ block.pages * pageSize := Nat.le_mul_of_pos_left _ nonempty
  have header : (hhdm + block.phys + largeObjHeaderSize + (wordSize - largeObjHeaderSize)) %
    wordSize =
      hhdm + block.phys := by
    unfold largeObjHeaderSize wordSize pageSize at *
    omega
  have phys : virtToPhys hhdm (hhdm + block.phys) = block.phys := by
    unfold virtToPhys wordSize pageSize at *
    omega
  unfold freeLarge
  rw [Program.run_modify]
  simp only [header, stored.headers block member, phys, Nat.ne_of_gt nonempty, false_or]

theorem Accounted.forget (accounted : Accounted hhdm layout live) {object : Object}
    (isLive : object ∈ live) (large : slabSizeMax < object.size) {larges : List Block}
    (owned : ∀ other ∈ live.erase object, slabSizeMax < other.size → other ∈ live →
      Layout.Own hhdm { layout with larges := larges } other) :
    Accounted hhdm { layout with larges := larges } (live.erase object) := by
  have keeps : ∀ other ∈ live.erase object, other ∈ live :=
    fun _ member => mem_of_mem_erase member
  refine
    { sizes := fun other member => accounted.sizes other (keeps other member)
      small := fun other member => accounted.small other (keeps other member)
      large := fun other member isLarge => owned other member isLarge (keeps other member)
      distinct := accounted.distinct.sublist (erase_sublist.map Object.start)
      complete := ?_ }
  intro slab member address isSlot
  rcases accounted.complete slab member address isSlot with
    isFree | ⟨other, isOther, same, small, index⟩
  · exact .inl isFree
  · have different : other ≠ object := by
      rintro rfl
      omega
    exact .inr ⟨other, (mem_erase_of_ne different).mpr isOther, same, small, index⟩

/-! ### The two entry points -/

/-- The objects after a request.  For a size so near to the end of the 64 bits that
the page count wraps, the block has a header and no room for the object. -/
@[irreducible]
def gained (live : List Object) (ptr size : Nat) : List Object :=
  if size + pageSize ≤ wordSize then ⟨ptr, size⟩ :: live else live

theorem gained_of_fits (ptr : Nat) (fits : size + pageSize ≤ wordSize) :
    gained live ptr size = ⟨ptr, size⟩ :: live := by
  unfold gained
  exact if_pos fits

theorem sublist_gained (live : List Object) (ptr size : Nat) :
    live.Sublist (gained live ptr size) := by
  unfold gained
  split
  · exact sublist_cons_self _ _
  · exact List.Sublist.refl _

theorem run_alloc (shape : Shape hhdm state layout others live) (size : Nat) :
    (alloc hhdm size).run state = (.ok 0, state) ∨
    ∃ ptr after layout', ptr ≠ 0 ∧ ptr < wordSize ∧ (alloc hhdm size).run state = (.ok ptr, after) ∧
      Untouched live state.mem after.mem ∧
      Shape hhdm after layout' others (gained live ptr size) := by
  by_cases zero : size = 0
  · left
    rw [alloc, if_pos zero]
    rfl
  have positive : 0 < size := pos_of_ne_zero zero
  unfold alloc
  rw [if_neg zero]
  by_cases large : slabSizeMax < size
  · rw [if_pos large]
    rcases run_allocLarge shape.toPlaced size with failed | ⟨phys, pmm, ran, _, grown⟩
    · exact .inl failed
    · have bounds := (grown.block_bounds (Placed.large_block (.head _))).2
      have bytes : pageSize ≤ largePages size * pageSize :=
        Nat.le_mul_of_pos_left _ (Nat.succ_pos _)
      have page : largeObjHeaderSize < pageSize := by decide
      simp only at bounds
      refine .inr ⟨_, _, { layout with larges := ⟨phys, largePages size⟩ :: layout.larges }, ?_,
        by omega, ran, shape.addBlock_untouched grown, ?_⟩
      · unfold largeObjHeaderSize
        omega
      · unfold gained
        split
        · rename_i bound
          exact shape.addLarge grown large bound
        · exact shape.addBlock grown
  · have small : size ≤ slabSizeMax := Nat.le_of_not_lt large
    have fits : size + pageSize ≤ wordSize :=
      le_trans (Nat.add_le_add_right small pageSize) (by decide)
    have gain : ∀ slot, gained live slot size = ⟨slot, size⟩ :: live :=
      fun slot => gained_of_fits slot fits
    rw [if_neg large]
    rcases run_allocSmall shape small with
      ⟨slab, slot, rest, member, cache, first, ran⟩ | ⟨failed, _⟩ |
      ⟨slab, slot, rest, grown, _, cache, first, next, same, ran, _⟩
    · have isFree : slot ∈ layout.free slab := first ▸ mem_cons_self
      exact .inr ⟨slot, _, _, (shape.holds slab member).list.ne_zero isFree,
        shape.free_lt member isFree, ran, shape.take_untouched member,
        gain slot ▸ shape.take member first positive small cache⟩
    · exact .inl failed
    · have isNew : slab ∈ (layout.addSlab hhdm slab).slabs := mem_cons_self
      have head : (layout.addSlab hhdm slab).free slab = slot :: rest := by
        simp only [Layout.addSlab, Function.update_self]
        exact first
      have isFree : slot ∈ (layout.addSlab hhdm slab).free slab := head ▸ mem_cons_self
      refine .inr
        ⟨slot, _, _, (next.holds slab isNew).list.ne_zero isFree, next.free_lt isNew isFree,
        ran, ?_, gain slot ▸ next.take isNew head positive small cache⟩
      · intro object isLive byte low high
        exact (next.take_untouched isNew object isLive byte low high).trans
          (same object isLive byte low high)

theorem run_free_small (shape : Shape hhdm state layout others live) {object : Object}
    {slab : Descriptor} (positive : 0 < object.size) (small : object.size ≤ slabSizeMax)
    (member : slab ∈ layout.slabs) (cache : slab.cache = sizeToIndex object.size)
    (isSlot : slab.IsSlot hhdm object.start) (used : object.start ∉ layout.free slab) :
    (free hhdm object.start object.size).run state =
      (.ok (), { state with mem := putHead (slab.base hhdm) object.start state.mem }) := by
  have inside := isSlot.inside (shape.cache slab member)
  have wide := (geometry (shape.cache slab member)).slot
  have base := (shape.base_lt member).1
  have spans : slabSpans object.start state.mem (slab.base hhdm) = true := by
    rw [slabSpans_iff (shape.holds slab member)]
    omega
  have ran := run_freeSmall_inside shape member spans
  rw [if_neg used, cache] at ran
  unfold free
  rw [if_neg (by omega), if_pos ⟨small, positive⟩]
  exact ran

theorem run_free_large (stored : Stored hhdm state.mem state.caches layout)
    (placed : Placed hhdm state.pmm layout others) {block : Block} (member : block ∈ layout.larges)
    {size : Nat} (large : slabSizeMax < size) :
    (free hhdm (hhdm + block.phys + largeObjHeaderSize) size).run state =
      (.ok (), if 1024 < block.pages then state
        else { state with pmm := Pmm.freePages state.pmm block.phys block.pages }) := by
  unfold free
  rw [if_neg (by unfold largeObjHeaderSize; omega),
    if_neg (fun bounds => absurd large (Nat.not_lt_of_le bounds.1))]
  exact run_freeLarge stored placed member

theorem run_free (shape : Shape hhdm state layout others live) {object : Object}
    (isLive : object ∈ live) :
    ∃ after layout', (free hhdm object.start object.size).run state = (.ok (), after) ∧
      Untouched (live.erase object) state.mem after.mem ∧
      Shape hhdm after layout' others (live.erase object) := by
  have positive := (shape.sizes object isLive).1
  by_cases small : object.size ≤ slabSizeMax
  · obtain ⟨slab, member, cache, isSlot, used⟩ := shape.small object isLive small
    exact ⟨_, _, run_free_small shape positive small member cache isSlot used,
      shape.put_untouched isLive member isSlot used, shape.put isLive member isSlot used⟩
  · obtain ⟨block, member, start, pages⟩ := shape.large object isLive (by omega)
    have called := run_free_large shape.toStored shape.toPlaced member (Nat.lt_of_not_le small)
    rw [← start] at called
    by_cases many : 1024 < block.pages
    · rw [if_pos many] at called
      exact ⟨state, layout, called, fun _ _ _ _ _ => rfl, shape.toPlaced, shape.toStored,
        shape.toAccounted.forget isLive (by omega)
          (fun other _ isLarge isOther => shape.large other isOther isLarge)⟩
    · rw [if_neg many] at called
      refine ⟨_, { layout with larges := layout.larges.erase block }, called, fun _ _ _ _ _ => rfl,
        shape.toPlaced.dropLarge member, ?_, shape.toAccounted.forget isLive (by omega) ?_⟩
      · exact ⟨shape.chains, shape.holds,
          fun other isOther => shape.headers other (mem_of_mem_erase isOther)⟩
      · intro other isErased isLarge isOther
        obtain ⟨own, isOwn, otherStart, otherPages⟩ := shape.large other isOther isLarge
        refine ⟨own, (mem_erase_of_ne ?_).mpr isOwn, otherStart, otherPages⟩
        intro same
        rw [same, ← start] at otherStart
        exact shape.start_ne isLive isErased otherStart

end

end Synx.Slab
