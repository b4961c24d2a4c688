/-
The safety of the slab allocator over whole runs.
-/

import Synx.Mem.SlabCalls

namespace Synx.Slab

open Lib
open Lib.Memory (readWord)
open Pmm (pageSize wordSize Block Owned)

/-! ### What a state says about itself -/

def SlabOf (state : State) (idx base : Nat) : Prop :=
  ∃ bases, Chain (readWord state.mem) (state.caches idx) bases ∧ base ∈ bases

def FreeSlot (mem : Memory) (base slot : Nat) : Prop :=
  ∃ free, Chain (readWord mem) (freeList mem base) free ∧ slot ∈ free

def SlotOf (mem : Memory) (base slot : Nat) : Prop :=
  ∃ i, i < totalObjs mem base ∧ slot = base + sizeofSlabHeader + i * objSize mem base

/-- The bytes from `start` on are apart from those from `other` on. -/
def BytesApart (start count other otherCount : Nat) : Prop :=
  start + count ≤ other ∨ other + otherCount ≤ start

/-- The free list of a slab ends, and has as many slots as the header says. -/
def ListSound (mem : Memory) (base : Nat) : Prop :=
  ∃ free, Chain (readWord mem) (freeList mem base) free ∧ free.Nodup ∧
    free.length = freeCount mem base ∧ ∀ slot, slot ∈ free → SlotOf mem base slot

structure HeapSound (state : State) (live : List Object) : Prop where
  objects : live.Pairwise (fun first second =>
    BytesApart first.start first.size second.start second.size)
  slabHeaders : ∀ idx base, idx < numSlabCaches → SlabOf state idx base → ∀ object, object ∈ live →
    BytesApart object.start object.size base sizeofSlabHeader
  largeHeaders : ∀ large, large ∈ live → slabSizeMax < large.size → ∀ object, object ∈ live →
    BytesApart object.start object.size (large.start - largeObjHeaderSize) largeObjHeaderSize
  freeSlots : ∀ idx base slot, idx < numSlabCaches → SlabOf state idx base →
    FreeSlot state.mem base slot → ∀ object, object ∈ live →
      BytesApart object.start object.size slot (objSize state.mem base)
  caches : ∀ idx, idx < numSlabCaches → ∃ bases, Chain (readWord state.mem) (state.caches idx) bases
  lists : ∀ idx base, idx < numSlabCaches → SlabOf state idx base → ListSound state.mem base

section

variable {hhdm : Nat} {state : State} {layout : Layout} {others : List Block} {live : List Object}

section

variable (shape : Shape hhdm state layout others live)

include shape

theorem Shape.slabOf_iff {idx base : Nat} (cache : idx < numSlabCaches) :
    SlabOf state idx base ↔ ∃ slab ∈ layout.slabs, slab.cache = idx ∧ slab.base hhdm = base := by
  rw [← Layout.mem_bases]
  constructor
  · rintro ⟨bases, chain, member⟩
    rw [← chain.unique (shape.chains idx cache)]
    exact member
  · intro member
    exact ⟨_, shape.chains idx cache, member⟩

theorem Shape.freeSlot_iff {slab : Descriptor} (member : slab ∈ layout.slabs) (slot : Nat) :
    FreeSlot state.mem (slab.base hhdm) slot ↔ slot ∈ layout.free slab := by
  have holds := shape.holds slab member
  constructor
  · rintro ⟨free, chain, isFree⟩
    rw [← chain.unique holds.list]
    exact isFree
  · intro isFree
    exact ⟨_, holds.list, isFree⟩

theorem Shape.slotOf_iff {slab : Descriptor} (member : slab ∈ layout.slabs) (slot : Nat) :
    SlotOf state.mem (slab.base hhdm) slot ↔ slab.IsSlot hhdm slot := by
  have holds := shape.holds slab member
  unfold SlotOf Descriptor.IsSlot
  rw [holds.totalObjs, holds.objSize]

theorem Shape.sound : HeapSound state live := by
  have apart : ∀ object ∈ live, ∀ start count,
      (∀ byte, start ≤ byte → byte < start + count → layout.Meta hhdm byte) →
      0 < object.size → 0 < count → BytesApart object.start object.size start count := by
    intro object isLive start count isMeta positive nonempty
    by_contra overlap
    unfold BytesApart at overlap
    exact shape.object_meta isLive (le_max_left object.start start) (by omega)
      (isMeta (max object.start start) (le_max_right _ _) (by omega))
  refine
    { objects := ?_
      slabHeaders := ?_
      largeHeaders := ?_
      freeSlots := ?_
      caches := fun idx cache => ⟨_, shape.chains idx cache⟩
      lists := ?_ }
  · refine (List.pairwise_map.mp shape.distinct).imp_of_mem ?_
    intro first second isFirst isSecond different
    exact shape.objects_apart isFirst isSecond different
  · intro idx base cache isSlab object isLive
    obtain ⟨slab, member, _, rfl⟩ := (shape.slabOf_iff cache).mp isSlab
    exact apart object isLive _ _ (fun byte low high => .inl ⟨slab, member, low, high⟩)
      (shape.sizes object isLive).1 (by decide)
  · intro large isLarge size object isLive
    obtain ⟨block, member, start, _⟩ := shape.large large isLarge size
    rw [start, Nat.add_sub_cancel]
    exact apart object isLive _ _ (fun byte low high => .inr (.inr ⟨block, member, low, high⟩))
      (shape.sizes object isLive).1 (by decide)
  · intro idx base slot cache isSlab isFree object isLive
    obtain ⟨slab, member, _, rfl⟩ := (shape.slabOf_iff cache).mp isSlab
    rw [(shape.holds slab member).objSize]
    exact shape.free_apart isLive member ((shape.freeSlot_iff member slot).mp isFree)
  · intro idx base cache isSlab
    obtain ⟨slab, member, _, rfl⟩ := (shape.slabOf_iff cache).mp isSlab
    have holds := shape.holds slab member
    exact ⟨_, holds.list, holds.list.nodup, holds.freeCount.symm,
      fun slot isFree => (shape.slotOf_iff member slot).mpr (holds.slots slot isFree)⟩

end

end

/-! ### Runs -/

/-- The allocator with the objects that its users hold. -/
structure Heap where
  state : State
  live : List Object

/-- One call, or one write into an object.  Only objects that are held are
released, with the size of the request. -/
inductive Step (hhdm : Nat) : Heap → Heap → Prop
  | alloc (heap : Heap) (size ptr : Nat) (after : State) (positive : 1 ≤ size)
      (bound : size < 2 ^ 63) (ran : (alloc hhdm size).run heap.state = (.ok ptr, after)) :
      Step hhdm heap ⟨after, if ptr = 0 then heap.live else ⟨ptr, size⟩ :: heap.live⟩
  | free (heap : Heap) (object : Object) (after : State) (held : object ∈ heap.live)
      (ran : (free hhdm object.start object.size).run heap.state = (.ok (), after)) :
      Step hhdm heap ⟨after, heap.live.erase object⟩
  | write (heap : Heap) (object : Object) (mem : Memory) (held : object ∈ heap.live)
      (inside : ∀ byte, mem byte ≠ heap.state.mem byte →
        object.start ≤ byte ∧ byte < object.start + object.size) :
      Step hhdm heap ⟨{ heap.state with mem := mem }, heap.live⟩

def Intact (hhdm : Nat) (others : List Block) (heap : Heap) : Prop :=
  ∃ layout, Shape hhdm heap.state layout others heap.live

section

variable {hhdm : Nat} {others : List Block} {heap : Heap}

theorem Step.intact {first second : Heap} (step : Step hhdm first second)
    (intact : Intact hhdm others first) : Intact hhdm others second := by
  obtain ⟨layout, shape⟩ := intact
  cases step with
  | alloc size ptr after positive bound ran =>
    rcases run_alloc shape size with failed | ⟨ptr', after', layout', nonzero, _, took, _, next⟩
    · rw [failed] at ran
      cases ran
      exact ⟨layout, shape⟩
    · rw [took] at ran
      cases ran
      rw [gained_of_fits _ (by unfold pageSize wordSize; omega)] at next
      rw [if_neg nonzero]
      exact ⟨layout', next⟩
  | free object after held ran =>
    obtain ⟨after', layout', released, _, next⟩ := run_free shape held
    rw [released] at ran
    cases ran
    exact ⟨layout', next⟩
  | write object mem held inside =>
    exact ⟨layout, shape.write mem (fun byte changed => ⟨object, held, inside byte changed⟩)⟩

theorem Intact.run {first second : Heap} (steps : Relation.ReflTransGen (Step hhdm) first second)
    (intact : Intact hhdm others first) : Intact hhdm others second := by
  induction steps with
  | refl => exact intact
  | tail _ step ih => exact step.intact ih

/-- The state before `slab::init`: no cache has a slab, and the direct map reaches
the memory that the page allocator manages. -/
structure Fresh (hhdm : Nat) (others : List Block) (start : State) : Prop where
  owned : Owned start.pmm others
  window : hhdm + start.pmm.totalPages * pageSize ≤ wordSize
  empty : ∀ idx, start.caches idx = 0

theorem Fresh.booted {start after : State} (fresh : Fresh hhdm others start)
    (boot : (init hhdm).run start = (.ok (), after)) : Intact hhdm others ⟨after, []⟩ := by
  have initial : Intact hhdm others ⟨start, []⟩ := by
    refine ⟨⟨[], fun _ => [], []⟩, ⟨fresh.window, fresh.owned, nofun⟩,
      ⟨fun idx _ => fresh.empty idx, nofun, nofun⟩, ?_⟩
    exact ⟨nofun, nofun, nofun, List.nodup_nil, nofun⟩
  have kept : Program.Triple (fun state => Intact hhdm others ⟨state, []⟩) (init hhdm)
      (fun _ state => Intact hhdm others ⟨state, []⟩) (fun _ _ => True) := by
    refine .each _ _ _ ?_
    intro idx member state intact
    obtain ⟨layout, shape⟩ := intact
    have cache : idx < numSlabCaches := List.mem_range.mp member
    rcases run_createSlab shape cache with
      ⟨failed, _⟩ | ⟨slab, grown, _, _, created, _, next, _⟩
    · rw [Program.run_bind_ok failed, if_pos rfl]
      trivial
    · have nonzero := (next.base_lt (.head _)).1
      rw [Program.run_bind_ok created, if_neg (Nat.ne_of_gt nonzero)]
      exact ⟨_, next⟩
  exact kept.ok initial boot

end

/-- In every run after `slab::init` the objects, the headers and the free slots
keep apart, the lists are sound, and every call returns: no panic is reached. -/
theorem slab_safe (hhdm : Nat) (others : List Block) (start after : State) (heap : Heap)
    (fresh : Fresh hhdm others start) (boot : (init hhdm).run start = (.ok (), after))
    (calls : Relation.ReflTransGen (Step hhdm) ⟨after, []⟩ heap) :
    HeapSound heap.state heap.live ∧
      (∀ size, 1 ≤ size → size < 2 ^ 63 →
        ∃ ptr next, (alloc hhdm size).run heap.state = (.ok ptr, next)) ∧
      ∀ object, object ∈ heap.live →
        ∃ next, (free hhdm object.start object.size).run heap.state = (.ok (), next) := by
  obtain ⟨layout, shape⟩ := (fresh.booted boot).run calls
  refine ⟨shape.sound, ?_, ?_⟩
  · intro size _ _
    rcases run_alloc shape size with failed | ⟨ptr, next, _, _, _, took, _⟩
    · exact ⟨0, _, failed⟩
    · exact ⟨ptr, next, took⟩
  · intro object held
    obtain ⟨next, _, released, _⟩ := run_free shape held
    exact ⟨next, released⟩

/-- A machine of 32 pages whose first page is in use. -/
def smallStart : State :=
  { mem := fun _ => 0
    pmm := ⟨fun index => if index = 0 then 1 else 0, 32, 31, by decide⟩
    caches := fun _ => 0 }

def kernelBase : Nat := 0xffff800000000000

theorem smallStart_fresh : Fresh kernelBase [] smallStart :=
  ⟨Owned.initial _ (by decide +kernel) (by decide +kernel), by decide +kernel, fun _ => rfl⟩

@[irreducible]
def bootedFrom (start : State) : State := ((init kernelBase).run start).2

theorem boots (start : State) (ended : ((init kernelBase).run start).1.toOption = some ()) :
    (init kernelBase).run start = (.ok (), bootedFrom start) := by
  unfold bootedFrom
  exact Prod.ext (Program.ok_of_toOption ended) rfl

theorem smallStart_boots : (init kernelBase).run smallStart = (.ok (), bootedFrom smallStart) :=
  boots smallStart (by decide +kernel)

/-- The heap of the small machine after a request for 100 bytes. -/
theorem slab_safe_small :
    ∃ next, (alloc kernelBase 100).run (bootedFrom smallStart) = (.ok (kernelBase + 20264), next) ∧
      HeapSound next [⟨kernelBase + 20264, 100⟩] := by
  have ran := Program.run_of_toOption (show ((alloc kernelBase 100).run
    (bootedFrom smallStart)).1.toOption = some (kernelBase + 20264) by decide +kernel)
  have step := Step.alloc ⟨bootedFrom smallStart, []⟩ 100 _ _ (by decide) (by decide) ran
  rw [if_neg (by decide)] at step
  exact ⟨_, ran, (slab_safe kernelBase [] smallStart _ _ smallStart_fresh smallStart_boots
    (.single step)).1⟩

end Synx.Slab
