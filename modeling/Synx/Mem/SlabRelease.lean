/-
What `slab::free` undoes and what it refuses.
-/

import Synx.Mem.FirstFit
import Synx.Mem.SlabSafety

namespace Synx.Slab

open Lib
open Lib.Memory (readWord)
open Pmm (pageSize wordSize Block Owned)

/-! ### A release right after the request -/

/-- The free memory is that of the state before: the pages of a large object are
back, and the slot of a small one is on the free list of a slab that has as many
free slots as before, or all of them if it is new. -/
structure FreeMemoryRestored (before after : State) (ptr size : Nat) : Prop where
  large : slabSizeMax < size → after.pmm = before.pmm
  small : size ≤ slabSizeMax → ∃ base, SlabOf after (sizeToIndex size) base ∧
    FreeSlot after.mem base ptr ∧
    (SlabOf before (sizeToIndex size) base → freeCount after.mem base = freeCount before.mem base) ∧
    (¬SlabOf before (sizeToIndex size) base → freeCount after.mem base = totalObjs after.mem base)

section

variable {hhdm : Nat} {state taken : State} {layout : Layout} {others : List Block}
  {live : List Object} {ptr size : Nat}

theorem Shape.take_put (shape : Shape hhdm state layout others live) {slab : Descriptor}
    {slot : Nat} {rest : List Nat} (member : slab ∈ layout.slabs)
    (first : layout.free slab = slot :: rest) (positive : 0 < size) (small : size ≤ slabSizeMax)
    (cache : slab.cache = sizeToIndex size) :
    ∃ after, (free hhdm slot size).run { state with mem := takeHead (slab.base hhdm) state.mem } =
        (.ok (), after) ∧
      SlabOf after (sizeToIndex size) (slab.base hhdm) ∧ FreeSlot after.mem (slab.base hhdm) slot ∧
      freeCount after.mem (slab.base hhdm) = freeCount state.mem (slab.base hhdm) ∧
      totalObjs after.mem (slab.base hhdm) = slotsOf slab.cache := by
  have holds := shape.holds slab member
  have isSlot := holds.slots slot (first ▸ List.mem_cons_self)
  have taken := shape.take member first positive small cache
  have used : slot ∉ (layout.setFree slab rest).free slab := by
    rw [first] at holds
    rw [Layout.setFree_self]
    exact (List.nodup_cons.mp holds.list.nodup).1
  have released := taken.put (.head _) member isSlot used
  have index := (sizeToIndex_spec small).1
  refine ⟨_,
    @run_free_small _ _ _ _ _ taken ⟨slot, size⟩ slab positive small member cache isSlot used,
    ?_, ?_, ?_, ?_⟩
  · exact (released.slabOf_iff index).mpr ⟨slab, member, cache, rfl⟩
  · rw [released.freeSlot_iff member, Layout.setFree_self]
    exact .head _
  · rw [(released.holds slab member).freeCount, holds.freeCount, Layout.setFree_self,
      Layout.setFree_self, first]
  · exact (released.holds slab member).totalObjs

theorem small_restored (shape : Shape hhdm state layout others live) (positive : 0 < size)
    (small : size ≤ slabSizeMax) (nonnull : ptr ≠ 0)
    (took : (alloc hhdm size).run state = (.ok ptr, taken)) :
    ∃ after, (free hhdm ptr size).run taken = (.ok (), after) ∧
      FreeMemoryRestored state after ptr size := by
  have index := (sizeToIndex_spec small).1
  have called : (alloc hhdm size).run state = (allocSmall hhdm (sizeToIndex size)).run state := by
    unfold alloc
    rw [if_neg (Nat.ne_of_gt positive), if_neg (Nat.not_lt_of_le small)]
  rw [called] at took
  rcases run_allocSmall shape small with
    ⟨slab, slot, rest, member, cache, first, ran⟩ | ⟨failed, _⟩ |
    ⟨slab, slot, rest, grown, fresh, cache, first, next, _, ran, _⟩
  · rw [ran] at took
    cases took
    obtain ⟨after, released, isSlab, isFree, count, _⟩ :=
      shape.take_put member first positive small cache
    have before := (shape.slabOf_iff index).mpr ⟨slab, member, cache, rfl⟩
    exact ⟨after, released, fun large => absurd large (Nat.not_lt_of_le small),
      fun _ => ⟨_, isSlab, isFree, fun _ => count, fun absent => absurd before absent⟩⟩
  · rw [failed] at took
    cases took
    exact absurd rfl nonnull
  · rw [ran] at took
    cases took
    have isNew : slab ∈ (layout.addSlab hhdm slab).slabs := List.mem_cons_self
    have all : (layout.addSlab hhdm slab).free slab = slab.slots hhdm := by
      simp only [Layout.addSlab, Function.update_self]
    obtain ⟨after, released, isSlab, isFree, count, total⟩ :=
      next.take_put isNew (all.trans first) positive small cache
    refine ⟨after, released, fun large => absurd large (Nat.not_lt_of_le small),
      fun _ => ⟨_, isSlab, isFree, ?_, fun _ => ?_⟩⟩
    · intro before
      obtain ⟨old, isOld, oldCache, same⟩ := (shape.slabOf_iff index).mp before
      have equal : old = slab := by
        cases old
        cases slab
        unfold Descriptor.base at same
        simp only at oldCache cache same
        rw [Descriptor.mk.injEq]
        omega
      exact absurd (equal ▸ isOld) fresh
    · rw [count, total, (next.holds slab isNew).freeCount, all, Descriptor.slots, slotsBelow_length]

theorem Placed.freePages_lt {pmm : Pmm.State} (placed : Placed hhdm pmm layout others) :
    pmm.freePages < wordSize := by
  have count := Pmm.clearPages_le pmm
  have addressable := pmm.addressable
  rw [placed.owned.counted]
  unfold wordSize
  omega

theorem large_restored_iff (shape : Shape hhdm state layout others live)
    (large : slabSizeMax < size) (nonnull : ptr ≠ 0)
    (took : (alloc hhdm size).run state = (.ok ptr, taken)) :
    (∃ after, (free hhdm ptr size).run taken = (.ok (), after) ∧
      FreeMemoryRestored state after ptr size) ↔ largePages size ≤ 1024 := by
  have called : (alloc hhdm size).run state = (allocLarge hhdm size).run state := by
    unfold alloc
    rw [if_neg (by omega), if_pos large]
  rw [called] at took
  rcases run_allocLarge shape.toPlaced size with failed | ⟨phys, pmm, ran, pages, grown⟩
  · rw [failed] at took
    cases took
    exact absurd rfl nonnull
  · rw [ran] at took
    cases took
    have released := @run_free_large hhdm
      { state with mem := writeLargeHeader state.mem (hhdm + phys) size, pmm := pmm } _ others
      (shape.toStored.addLarge shape.toPlaced grown) grown _ (.head _) size large
    have blockNonnull : phys ≠ 0 := by
      have bounds := (grown.block_bounds (Placed.large_block (.head _))).1
      unfold pageSize at bounds
      simp only at bounds
      omega
    obtain ⟨changed, restored⟩ :=
      Pmm.freePages_allocPages shape.toPlaced.freePages_lt blockNonnull pages
    simp only at released
    constructor
    · rintro ⟨after, ended, back⟩
      by_contra many
      rw [released, if_pos (by omega)] at ended
      cases ended
      exact changed (back.large large)
    · intro few
      rw [if_neg (by omega), restored] at released
      exact ⟨_, released, fun _ => rfl, fun small => absurd large (Nat.not_lt_of_le small)⟩

end

theorem run_alloc_large (hhdm : Nat) (state : State) {size phys : Nat} (large : slabSizeMax < size)
    (pages : (Pmm.allocPages state.pmm (largePages size)).1 = phys) (nonnull : phys ≠ 0) :
    ∃ taken, (alloc hhdm size).run state =
      (.ok (physToVirt hhdm phys + largeObjHeaderSize), taken) := by
  have ran : (allocPages (largePages size)).run state =
      (.ok phys, { state with pmm := (Pmm.allocPages state.pmm (largePages size)).2 }) := by
    rw [← pages]
    rfl
  unfold alloc
  rw [if_neg (by omega), if_pos large, allocLarge, Program.run_bind_ok ran, if_neg nonnull]
  exact ⟨_, rfl⟩

/-- Right after a request the release restores the free memory if and only if the
object is small or has at most 1024 pages with its header. -/
theorem free_undoes_alloc_iff (hhdm : Nat) (others : List Block) (start booted : State)
    (heap : Heap) (size ptr : Nat) (taken : State) (fresh : Fresh hhdm others start)
    (boot : (init hhdm).run start = (.ok (), booted))
    (calls : Relation.ReflTransGen (Step hhdm) ⟨booted, []⟩ heap)
    (took : (alloc hhdm size).run heap.state = (.ok ptr, taken)) (nonnull : ptr ≠ 0) :
    (∃ after, (free hhdm ptr size).run taken = (.ok (), after) ∧
      FreeMemoryRestored heap.state after ptr size) ↔
    size ≤ slabSizeMax ∨ largePages size ≤ 1024 := by
  obtain ⟨layout, shape⟩ := (fresh.booted boot).run calls
  by_cases small : size ≤ slabSizeMax
  · have positive : 0 < size := by
      by_contra zero
      rw [alloc, if_pos (by omega)] at took
      cases took
      exact nonnull rfl
    exact ⟨fun _ => Or.inl small, fun _ => small_restored shape positive small nonnull took⟩
  · rw [large_restored_iff shape (by omega) nonnull took]
    exact ⟨Or.inr, fun choice => choice.resolve_left small⟩

/-- An object of 5000 bytes on the small machine: three pages, given back. -/
theorem free_undoes_alloc_small :
    ∃ ptr taken after, (alloc kernelBase 5000).run (bootedFrom smallStart) = (.ok ptr, taken) ∧
      ptr = kernelBase + 17 * pageSize + 16 ∧
      (free kernelBase ptr 5000).run taken = (.ok (), after) ∧
      FreeMemoryRestored (bootedFrom smallStart) after ptr 5000 := by
  have pages : (Pmm.allocPages (bootedFrom smallStart).pmm (largePages 5000)).1 =
    17 * pageSize := by
    decide +kernel
  obtain ⟨taken, took⟩ := run_alloc_large kernelBase (bootedFrom smallStart)
    (by decide : slabSizeMax < 5000) pages (by decide)
  obtain ⟨after, released, restored⟩ := (free_undoes_alloc_iff kernelBase [] smallStart _
    ⟨bootedFrom smallStart, []⟩ 5000 _ taken smallStart_fresh smallStart_boots
    Relation.ReflTransGen.refl took (by decide)).mpr (Or.inr (by decide))
  exact ⟨_, taken, after, took, by decide, released, restored⟩

/-- A machine of 2048 pages whose first page is in use. -/
def largeStart : State :=
  { smallStart with pmm := ⟨fun index => if index = 0 then 1 else 0, 2048, 2047, by decide⟩ }

/-- An object of four mebibytes has 1025 pages with its header, and the release
leaves them in use. -/
theorem free_leaks_large :
    ∃ ptr taken, ptr ≠ 0 ∧ (alloc kernelBase 4194304).run (bootedFrom largeStart) =
      (.ok ptr, taken) ∧
      ¬∃ after, (free kernelBase ptr 4194304).run taken = (.ok (), after) ∧
        FreeMemoryRestored (bootedFrom largeStart) after ptr 4194304 := by
  have boot : (init kernelBase).run largeStart = (.ok (), bootedFrom largeStart) :=
    boots largeStart (by decide +kernel)
  have fresh : Fresh kernelBase [] largeStart :=
    ⟨Owned.initial _ (by decide +kernel) (by decide +kernel), by decide +kernel, fun _ => rfl⟩
  have pages : (Pmm.allocPages (bootedFrom largeStart).pmm (largePages 4194304)).1 =
    17 * pageSize := by
    decide +kernel
  obtain ⟨taken, took⟩ := run_alloc_large kernelBase (bootedFrom largeStart)
    (by decide : slabSizeMax < 4194304) pages (by decide)
  obtain ⟨layout, shape⟩ := fresh.booted boot
  refine ⟨_, taken, by decide, took, ?_⟩
  rw [large_restored_iff shape (by decide) (by decide) took]
  decide

/-! ### Pointers that are refused -/

/-- The pointer is the start of an object in use of the cache for the size. -/
def InUse (live : List Object) (ptr size : Nat) : Prop :=
  ∃ object, object ∈ live ∧ object.start = ptr ∧ object.size ≤ slabSizeMax ∧
    sizeToIndex object.size = sizeToIndex size

/-- The release returns only for null and for an object in use of its cache.  For
any other pointer it panics and changes nothing. -/
structure BadFreeDetected (hhdm : Nat) (heap : Heap) (ptr size : Nat) : Prop where
  accepted : ∀ after, (free hhdm ptr size).run heap.state = (.ok (), after) →
    ptr = 0 ∨ InUse heap.live ptr size
  refused : ¬(ptr = 0 ∨ InUse heap.live ptr size) →
    ∃ reason, (free hhdm ptr size).run heap.state = (.error (.panic reason), heap.state)

/-- The pointer is null, or it is outside the slabs of the cache, or it is the
start of a slot. -/
def Recognised (state : State) (ptr size : Nat) : Prop :=
  ptr = 0 ∨
  (∀ base, SlabOf state (sizeToIndex size) base → slabSpans ptr state.mem base = false) ∨
  ∃ base, SlabOf state (sizeToIndex size) base ∧ SlotOf state.mem base ptr

section

variable {hhdm : Nat} {heap : Heap} {layout : Layout} {others : List Block} {ptr size : Nat}

theorem free_eq_freeSmall (nonnull : ptr ≠ 0) (positive : 1 ≤ size) (small : size ≤ slabSizeMax) :
    free hhdm ptr size = freeSmall ptr (sizeToIndex size) := by
  unfold free
  rw [if_neg nonnull, if_pos ⟨small, positive⟩]

theorem free_accepts (shape : Shape hhdm heap.state layout others heap.live) (nonnull : ptr ≠ 0)
    (positive : 1 ≤ size) (small : size ≤ slabSizeMax) {slab : Descriptor}
    (member : slab ∈ layout.slabs) (cache : slab.cache = sizeToIndex size)
    (spans : slabSpans ptr heap.state.mem (slab.base hhdm) = true)
    (between : ¬slab.IsSlot hhdm ptr) :
    ∃ after, (free hhdm ptr size).run heap.state = (.ok (), after) := by
  have absent : ptr ∉ layout.free slab := fun isFree =>
    between ((shape.holds slab member).slots ptr isFree)
  have ran := run_freeSmall_inside shape member spans
  rw [if_neg absent, cache] at ran
  rw [free_eq_freeSmall nonnull positive small]
  exact ⟨_, ran⟩

theorem Shape.cache_head {state : State} {live : List Object}
    (shape : Shape hhdm state layout others live) {idx : Nat} (cache : idx < numSlabCaches)
    (nonnull : state.caches idx ≠ 0) :
    ∃ slab ∈ layout.slabs, slab.cache = idx ∧ slab.base hhdm = state.caches idx := by
  rw [← Layout.mem_bases]
  have chain := shape.chains idx cache
  cases bases : layout.bases hhdm idx with
  | nil =>
    rw [bases] at chain
    exact absurd chain nonnull
  | cons base rest =>
    rw [bases] at chain
    rw [chain.1]
    exact .head _

theorem Shape.inUse_slot (shape : Shape hhdm heap.state layout others heap.live)
    (inUse : InUse heap.live ptr size) :
    ∃ slab ∈ layout.slabs, slab.cache = sizeToIndex size ∧ slab.IsSlot hhdm ptr := by
  obtain ⟨object, isLive, rfl, isSmall, same⟩ := inUse
  obtain ⟨slab, member, cache, isSlot, _⟩ := shape.small object isLive isSmall
  exact ⟨slab, member, cache.trans same, isSlot⟩

theorem Shape.detects_iff (shape : Shape hhdm heap.state layout others heap.live)
    (positive : 1 ≤ size) (small : size ≤ slabSizeMax) :
    BadFreeDetected hhdm heap ptr size ↔ Recognised heap.state ptr size := by
  have index := (sizeToIndex_spec small).1
  by_cases null : ptr = 0
  · exact ⟨fun _ => .inl null, fun _ =>
      ⟨fun _ _ => .inl null, fun other => absurd (.inl null) other⟩⟩
  have called := @free_eq_freeSmall hhdm ptr size null positive small
  constructor
  · intro detected
    by_contra unknown
    simp only [Recognised, not_or, not_forall, Bool.not_eq_false] at unknown
    obtain ⟨_, ⟨base, isSlab, spans⟩, between⟩ := unknown
    obtain ⟨slab, member, cache, rfl⟩ := (shape.slabOf_iff index).mp isSlab
    have slotOf := fun isSlot => between ⟨_, isSlab, (shape.slotOf_iff member ptr).mpr isSlot⟩
    obtain ⟨after, ran⟩ := free_accepts shape null positive small member cache spans slotOf
    obtain ⟨other, isOther, otherCache, isSlot⟩ :=
      shape.inUse_slot ((detected.accepted after ran).resolve_left null)
    exact between ⟨_, (shape.slabOf_iff index).mpr ⟨other, isOther, otherCache, rfl⟩,
      (shape.slotOf_iff isOther ptr).mpr isSlot⟩
  · rintro (isNull | outside | ⟨base, isSlab, isSlot⟩)
    · exact absurd isNull null
    · have ran :=
        @run_freeSmall_outside hhdm heap.state layout others heap.live shape (sizeToIndex size)
        ptr index (fun slab member cache =>
          outside _ ((shape.slabOf_iff index).mpr ⟨slab, member, cache, rfl⟩))
      rw [← called] at ran
      refine ⟨?_, fun _ => ⟨_, ran⟩⟩
      intro after ended
      rw [ran] at ended
      cases ended
    · obtain ⟨slab, member, cache, rfl⟩ := (shape.slabOf_iff index).mp isSlab
      rw [shape.slotOf_iff member] at isSlot
      rcases shape.complete slab member ptr isSlot with
        isFree | ⟨object, isLive, start, isSmall, same⟩
      · have inside := isSlot.inside (shape.cache slab member)
        have wide := (geometry (shape.cache slab member)).slot
        have spans : slabSpans ptr heap.state.mem (slab.base hhdm) = true := by
          rw [slabSpans_iff (shape.holds slab member)]
          omega
        have ran := run_freeSmall_inside shape member spans
        rw [if_pos isFree, cache, ← called] at ran
        refine ⟨?_, fun _ => ⟨_, ran⟩⟩
        intro after ended
        rw [ran] at ended
        cases ended
      · have inUse : InUse heap.live ptr size := ⟨object, isLive, start, isSmall, same.trans cache⟩
        exact ⟨fun _ _ => .inr inUse, fun other => absurd (.inr inUse) other⟩

end

/-- A bad release is detected if and only if the pointer is null, outside the slabs
of its cache, or the start of a slot. -/
theorem bad_free_detected_iff (hhdm : Nat) (others : List Block) (start booted : State)
    (heap : Heap) (ptr size : Nat) (fresh : Fresh hhdm others start)
    (boot : (init hhdm).run start = (.ok (), booted))
    (calls : Relation.ReflTransGen (Step hhdm) ⟨booted, []⟩ heap) (positive : 1 ≤ size)
    (small : size ≤ slabSizeMax) :
    BadFreeDetected hhdm heap ptr size ↔ Recognised heap.state ptr size := by
  obtain ⟨layout, shape⟩ := (fresh.booted boot).run calls
  exact shape.detects_iff positive small

theorem not_inUse_nil (ptr size : Nat) : ¬InUse [] ptr size := by
  rintro ⟨object, isLive, _⟩
  cases isLive

/-- The small machine refuses a pointer below its slabs. -/
theorem bad_free_detected_low :
    ∃ reason, (free kernelBase 8 16).run (bootedFrom smallStart) =
      (.error (.panic reason), bootedFrom smallStart) := by
  obtain ⟨layout, shape⟩ := smallStart_fresh.booted smallStart_boots
  have outside : ∀ base, SlabOf (bootedFrom smallStart) (sizeToIndex 16) base →
      slabSpans 8 (bootedFrom smallStart).mem base = false := by
    intro base isSlab
    obtain ⟨slab, member, _, rfl⟩ := (shape.slabOf_iff (by decide)).mp isSlab
    have low := (shape.slab_bounds member).1
    unfold pageSize at low
    unfold slabSpans
    rw [decide_eq_false_iff_not]
    omega
  have detected :=
    (bad_free_detected_iff kernelBase [] smallStart _ ⟨bootedFrom smallStart, []⟩ 8 16
    smallStart_fresh smallStart_boots Relation.ReflTransGen.refl (by decide) (by decide)).mpr
    (Or.inr (Or.inl outside))
  exact detected.refused (not_or.mpr ⟨by decide, not_inUse_nil 8 16⟩)

/-- Before any request the header of the first slab is accepted as an object of 16
bytes. -/
theorem free_accepts_header :
    ∃ ptr after, ptr ≠ 0 ∧ ¬InUse [] ptr 16 ∧ ptr = (bootedFrom smallStart).caches 0 ∧
      (free kernelBase ptr 16).run (bootedFrom smallStart) = (.ok (), after) := by
  obtain ⟨layout, shape⟩ := smallStart_fresh.booted smallStart_boots
  have head : (bootedFrom smallStart).caches 0 = kernelBase + pageSize := by decide +kernel
  have nonnull : (bootedFrom smallStart).caches 0 ≠ 0 := by
    rw [head]
    decide
  obtain ⟨slab, member, cache, base⟩ := shape.cache_head (by decide) nonnull
  have spans : slabSpans (slab.base kernelBase) (bootedFrom smallStart).mem (slab.base kernelBase) =
    true := by
    rw [slabSpans_iff (shape.holds slab member)]
    unfold sizeofSlabHeader
    omega
  have between : ¬slab.IsSlot kernelBase (slab.base kernelBase) := by
    intro isSlot
    have inside := (isSlot.inside (shape.cache slab member)).1
    unfold sizeofSlabHeader at inside
    omega
  rw [← base] at nonnull ⊢
  obtain ⟨after, ran⟩ :=
    @free_accepts kernelBase ⟨bootedFrom smallStart, []⟩ layout [] _ 16 shape nonnull
    (by decide) (by decide) slab member cache spans between
  exact ⟨_, after, nonnull, not_inUse_nil _ 16, rfl, ran⟩

end Synx.Slab
