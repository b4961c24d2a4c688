/-
The invariant of the slab allocator.
-/

import Synx.Mem.PmmOwnership
import Synx.Mem.Slab

namespace Synx.Slab

open Lib List Function
open Lib.Memory (readWord writeWord fill)
open Pmm (pageSize wordSize Block Owned)

/-- An object as its user knows it. -/
structure Object where
  start : Nat
  size : Nat
  deriving DecidableEq

/-- A slab by its physical address and its cache. -/
structure Descriptor where
  phys : Nat
  cache : Nat
  deriving DecidableEq

def Descriptor.block (slab : Descriptor) : Block := ⟨slab.phys, slabPages slab.cache⟩

@[simp]
theorem Descriptor.block_phys (slab : Descriptor) : slab.block.phys = slab.phys := rfl

@[simp]
theorem Descriptor.block_pages (slab : Descriptor) : slab.block.pages = slabPages slab.cache := rfl

structure Layout where
  slabs : List Descriptor
  free : Descriptor → List Nat
  larges : List Block

def Layout.blocks (layout : Layout) : List Block :=
  layout.slabs.map Descriptor.block ++ layout.larges

section

variable (hhdm : Nat)

def Descriptor.base (slab : Descriptor) : Nat := hhdm + slab.phys

def Descriptor.IsSlot (slab : Descriptor) (address : Nat) : Prop :=
  ∃ i, i < slotsOf slab.cache ∧
    address = slab.base hhdm + sizeofSlabHeader + i * indexToSize slab.cache

/-- The slabs of a cache, in the order of its list. -/
def Layout.bases (layout : Layout) (idx : Nat) : List Nat :=
  (layout.slabs.filter (fun slab => slab.cache = idx)).map (Descriptor.base hhdm)

/-- The header of a slab and its free list. -/
structure Holds (mem : Memory) (slab : Descriptor) (free : List Nat) : Prop where
  objSize : objSize mem (slab.base hhdm) = indexToSize slab.cache
  totalObjs : totalObjs mem (slab.base hhdm) = slotsOf slab.cache
  freeCount : freeCount mem (slab.base hhdm) = free.length
  list : Chain (readWord mem) (freeList mem (slab.base hhdm)) free
  slots : ∀ address, address ∈ free → slab.IsSlot hhdm address

/-- The blocks of the layout are held, beside those of other users, and the direct
map reaches all of memory. -/
structure Placed (pmm : Pmm.State) (layout : Layout) (others : List Block) : Prop where
  window : hhdm + pmm.totalPages * pageSize ≤ wordSize
  owned : Owned pmm (layout.blocks ++ others)
  cache : ∀ slab, slab ∈ layout.slabs → slab.cache < numSlabCaches

structure Stored (mem : Memory) (caches : Nat → Nat) (layout : Layout) : Prop where
  chains : ∀ idx, idx < numSlabCaches → Chain (readWord mem) (caches idx) (layout.bases hhdm idx)
  holds : ∀ slab, slab ∈ layout.slabs → Holds hhdm mem slab (layout.free slab)
  headers : ∀ block, block ∈ layout.larges → readWord mem (hhdm + block.phys) = block.pages

/-- A small object is a slot of its cache that is not free. -/
def Layout.Slot (layout : Layout) (object : Object) : Prop :=
  ∃ slab, slab ∈ layout.slabs ∧ slab.cache = sizeToIndex object.size ∧
    slab.IsSlot hhdm object.start ∧ object.start ∉ layout.free slab

/-- A large object lies behind the header of its block. -/
def Layout.Own (layout : Layout) (object : Object) : Prop :=
  ∃ block, block ∈ layout.larges ∧ object.start = hhdm + block.phys + largeObjHeaderSize ∧
    block.pages = largePages object.size

structure Accounted (layout : Layout) (live : List Object) : Prop where
  sizes : ∀ object, object ∈ live → 0 < object.size ∧ object.size + pageSize ≤ wordSize
  small : ∀ object, object ∈ live → object.size ≤ slabSizeMax → layout.Slot hhdm object
  large : ∀ object, object ∈ live → slabSizeMax < object.size → layout.Own hhdm object
  distinct : (live.map Object.start).Nodup
  complete : ∀ slab, slab ∈ layout.slabs → ∀ address, slab.IsSlot hhdm address →
    address ∈ layout.free slab ∨
      ∃ object, object ∈ live ∧ object.start = address ∧ object.size ≤ slabSizeMax ∧
        sizeToIndex object.size = slab.cache

/-- The allocator with the objects in use. -/
structure Shape (state : State) (layout : Layout) (others : List Block) (live : List Object) : Prop
  extends Placed hhdm state.pmm layout others, Stored hhdm state.mem state.caches layout,
    Accounted hhdm layout live

end

section

variable {hhdm : Nat} {mem mem' : Memory} {caches : Nat → Nat} {pmm : Pmm.State}
  {layout : Layout} {others : List Block} {live : List Object} {slab other : Descriptor}
  {block : Block} {address : Nat} {free : List Nat}

/-! ### Where things are -/

theorem Descriptor.IsSlot.inside (isSlot : slab.IsSlot hhdm address)
    (cache : slab.cache < numSlabCaches) :
    slab.base hhdm + sizeofSlabHeader ≤ address ∧
      address + indexToSize slab.cache ≤
        slab.base hhdm + sizeofSlabHeader + slotsOf slab.cache * indexToSize slab.cache ∧
      address + indexToSize slab.cache ≤ slab.base hhdm + slabTotal slab.cache := by
  obtain ⟨i, bound, rfl⟩ := isSlot
  have fits := (geometry cache).fits
  have upper : (i + 1) * indexToSize slab.cache ≤ slotsOf slab.cache * indexToSize slab.cache :=
    Nat.mul_le_mul_right _ bound
  rw [Nat.succ_mul] at upper
  omega

theorem Descriptor.IsSlot.apart {first second : Nat} (isFirst : slab.IsSlot hhdm first)
    (isSecond : slab.IsSlot hhdm second) (different : first ≠ second) :
    first + indexToSize slab.cache ≤ second ∨ second + indexToSize slab.cache ≤ first := by
  obtain ⟨i, _, rfl⟩ := isFirst
  obtain ⟨j, _, rfl⟩ := isSecond
  rcases Nat.lt_trichotomy i j with less | same | more
  · have step : (i + 1) * indexToSize slab.cache ≤ j * indexToSize slab.cache :=
      Nat.mul_le_mul_right _ less
    rw [Nat.succ_mul] at step
    omega
  · rw [same] at different
    exact absurd rfl different
  · have step : (j + 1) * indexToSize slab.cache ≤ i * indexToSize slab.cache :=
      Nat.mul_le_mul_right _ more
    rw [Nat.succ_mul] at step
    omega

theorem Layout.mem_bases {base idx : Nat} :
    base ∈ layout.bases hhdm idx ↔ ∃ slab ∈ layout.slabs, slab.cache = idx ∧
      slab.base hhdm = base := by
  simp only [Layout.bases, mem_map, mem_filter, decide_eq_true_eq, and_assoc]

namespace Placed

theorem slab_block (member : slab ∈ layout.slabs) :
    slab.block ∈ layout.blocks ++ others :=
  mem_append_left _ (mem_append_left _ (mem_map_of_mem member))

theorem large_block (member : block ∈ layout.larges) :
    block ∈ layout.blocks ++ others :=
  mem_append_left _ (mem_append_right _ member)

section

variable (placed : Placed hhdm pmm layout others)

include placed

theorem block_bounds (member : block ∈ layout.blocks ++ others) :
    pageSize ≤ block.phys ∧ hhdm + block.phys + block.pages * pageSize ≤ wordSize := by
  have window := placed.window
  have ends := placed.owned.block_end member
  have positive := placed.owned.positive block member
  unfold Block.firstPage pageSize at *
  omega

theorem slab_bounds (member : slab ∈ layout.slabs) :
    pageSize ≤ slab.base hhdm ∧ slab.base hhdm + slabTotal slab.cache ≤ wordSize := by
  have bounds := placed.block_bounds (slab_block member)
  simp only [Descriptor.block_phys, Descriptor.block_pages] at bounds
  rw [(geometry (placed.cache slab member)).bytes]
  unfold Descriptor.base
  omega

theorem blocks_apart {left right : Block} (isLeft : left ∈ layout.blocks ++ others)
    (isRight : right ∈ layout.blocks ++ others) (apart : left.Apart right) :
    left.phys + left.pages * pageSize ≤ right.phys ∨ right.phys + right.pages * pageSize ≤
      left.phys :=
  apart.bytes (placed.owned.aligned left isLeft) (placed.owned.aligned right isRight)
    (placed.owned.nonempty left isLeft) (placed.owned.nonempty right isRight)

theorem layout_apart : layout.blocks.Pairwise Block.Apart :=
  (pairwise_append.mp placed.owned.apart).1

theorem slabs_apart (member : slab ∈ layout.slabs) (isOther : other ∈ layout.slabs)
    (different : slab ≠ other) : slab.base hhdm + slabTotal slab.cache ≤ other.base hhdm ∨
      other.base hhdm + slabTotal other.cache ≤ slab.base hhdm := by
  have pairwise := pairwise_map.mp (pairwise_append.mp placed.layout_apart).1
  have symm : Std.Symm (fun left right : Descriptor => left.block.Apart right.block) :=
    ⟨fun _ _ => Block.Apart.symm⟩
  have bytes := placed.blocks_apart (slab_block member) (slab_block isOther)
    (pairwise.forall member isOther different)
  rw [(geometry (placed.cache slab member)).bytes, (geometry (placed.cache other isOther)).bytes]
  simp only [Descriptor.block_phys, Descriptor.block_pages] at bytes
  unfold Descriptor.base
  omega

theorem slab_large_apart (member : slab ∈ layout.slabs) (isLarge : block ∈ layout.larges) :
    slab.base hhdm + slabTotal slab.cache ≤ hhdm + block.phys ∨
      hhdm + block.phys + block.pages * pageSize ≤ slab.base hhdm := by
  have apart : slab.block.Apart block := (pairwise_append.mp placed.layout_apart).2.2
    slab.block (mem_map_of_mem member) block isLarge
  have bytes := placed.blocks_apart (slab_block member) (large_block isLarge) apart
  rw [(geometry (placed.cache slab member)).bytes]
  simp only [Descriptor.block_phys, Descriptor.block_pages] at bytes
  unfold Descriptor.base
  omega

theorem larges_apart {left right : Block} (isLeft : left ∈ layout.larges)
    (isRight : right ∈ layout.larges) (different : left ≠ right) :
    left.phys + left.pages * pageSize ≤ right.phys ∨ right.phys + right.pages * pageSize ≤
      left.phys := by
  have symm : Std.Symm Block.Apart := ⟨fun _ _ => Block.Apart.symm⟩
  exact placed.blocks_apart (large_block isLeft) (large_block isRight)
    ((pairwise_append.mp placed.layout_apart).2.1.forall isLeft isRight different)

end

end Placed

/-! ### Memory that stays -/

theorem readWord_same {mem mem' : Memory} {address : Nat}
    (same : ∀ byte, address ≤ byte → byte < address + 8 → mem' byte = mem byte) :
    readWord mem' address = readWord mem address :=
  Memory.readWord_congr mem' mem address
    (fun offset bound => same (address + offset) (by omega) (by omega))

theorem Holds.frame (holds : Holds hhdm mem slab free)
    (header : ∀ byte, slab.base hhdm + 8 ≤ byte → byte < slab.base hhdm + sizeofSlabHeader →
      mem' byte = mem byte)
    (links : ∀ slot ∈ free, ∀ byte, slot ≤ byte → byte < slot + 8 → mem' byte = mem byte) :
    Holds hhdm mem' slab free := by
  have word : ∀ offset, 8 ≤ offset → offset + 8 ≤ sizeofSlabHeader →
      readWord mem' (slab.base hhdm + offset) = readWord mem (slab.base hhdm + offset) := by
    intro offset low high
    exact readWord_same (fun byte first last => header byte (by omega) (by omega))
  refine
    { objSize := (word 16 (by decide) (by decide)).trans holds.objSize
      totalObjs := (word 24 (by decide) (by decide)).trans holds.totalObjs
      freeCount := (word 32 (by decide) (by decide)).trans holds.freeCount
      list := ?_
      slots := holds.slots }
  unfold freeList
  rw [word 8 (by decide) (by decide)]
  exact holds.list.congr (fun slot member => readWord_same (links slot member))

theorem Holds.keep (holds : Holds hhdm mem slab free) (cache : slab.cache < numSlabCaches)
    (same : ∀ byte, slab.base hhdm ≤ byte → byte < slab.base hhdm + slabTotal slab.cache →
      mem' byte = mem byte) : Holds hhdm mem' slab free := by
  have shape := geometry cache
  have fits := shape.fits
  have wide := shape.slot
  refine holds.frame ?_ ?_
  · intro byte low high
    exact same byte (by omega) (by omega)
  · intro slot member byte low high
    have inside := (holds.slots slot member).inside cache
    exact same byte (by omega) (by omega)

/-- The bytes that the allocator keeps for itself: the headers and the free
slots. -/
def Layout.Meta (hhdm : Nat) (layout : Layout) (byte : Nat) : Prop :=
  (∃ slab, slab ∈ layout.slabs ∧ slab.base hhdm ≤ byte ∧ byte < slab.base hhdm + sizeofSlabHeader) ∨
  (∃ slab, slab ∈ layout.slabs ∧ ∃ slot, slot ∈ layout.free slab ∧
    slot ≤ byte ∧ byte < slot + indexToSize slab.cache) ∨
  ∃ block, block ∈ layout.larges ∧ hhdm + block.phys ≤ byte ∧
    byte < hhdm + block.phys + largeObjHeaderSize

/-- The bytes of the slabs and of the blocks of large objects. -/
def Layout.Within (hhdm : Nat) (layout : Layout) (byte : Nat) : Prop :=
  (∃ slab, slab ∈ layout.slabs ∧ slab.base hhdm ≤ byte ∧
    byte < slab.base hhdm + slabTotal slab.cache) ∨
  ∃ block, block ∈ layout.larges ∧ hhdm + block.phys ≤ byte ∧
    byte < hhdm + block.phys + block.pages * pageSize

theorem Stored.frame (stored : Stored hhdm mem caches layout)
    (placed : Placed hhdm pmm layout others)
    (same : ∀ byte, layout.Meta hhdm byte → mem' byte = mem byte) :
    Stored hhdm mem' caches layout := by
  refine ⟨?_, ?_, ?_⟩
  · intro idx cache
    refine (stored.chains idx cache).congr ?_
    intro base member
    obtain ⟨slab, isSlab, _, rfl⟩ := Layout.mem_bases.mp member
    refine readWord_same (fun byte low high => same byte (.inl ⟨slab, isSlab, low, ?_⟩))
    unfold sizeofSlabHeader
    omega
  · intro slab member
    have wide := (geometry (placed.cache slab member)).slot
    refine (stored.holds slab member).frame ?_ ?_
    · intro byte low high
      exact same byte (.inl ⟨slab, member, by omega, high⟩)
    · intro slot isFree byte low high
      exact same byte (.inr (.inl ⟨slab, member, slot, isFree, low, by omega⟩))
  · intro block member
    rw [← stored.headers block member]
    refine readWord_same (fun byte low high => same byte (.inr (.inr ⟨block, member, low, ?_⟩)))
    unfold largeObjHeaderSize
    omega

theorem Stored.replace (stored : Stored hhdm mem caches layout)
    (placed : Placed hhdm pmm layout others) (member : slab ∈ layout.slabs)
    (same : ∀ byte, byte < slab.base hhdm + 8 ∨ slab.base hhdm + slabTotal slab.cache ≤ byte →
      mem' byte = mem byte)
    (holds : Holds hhdm mem' slab free) :
    Stored hhdm mem' caches { layout with free := update layout.free slab free } := by
  have elsewhere : ∀ other ∈ layout.slabs, other ≠ slab → ∀ byte, other.base hhdm ≤ byte →
      byte < other.base hhdm + slabTotal other.cache → mem' byte = mem byte := by
    intro other isOther different byte low high
    have apart := placed.slabs_apart isOther member different
    exact same byte (by omega)
  refine ⟨?_, ?_, ?_⟩
  · intro idx cache
    refine (stored.chains idx cache).congr ?_
    intro base isBase
    obtain ⟨other, isOther, _, rfl⟩ := Layout.mem_bases.mp isBase
    by_cases sameSlab : other = slab
    · rw [sameSlab]
      exact readWord_same (fun byte _ high => same byte (.inl high))
    · have shape := geometry (placed.cache other isOther)
      have fits := shape.fits
      have header : 8 ≤ sizeofSlabHeader := by decide
      exact readWord_same (fun byte low high =>
        elsewhere other isOther sameSlab byte low (by omega))
  · intro other isOther
    by_cases sameSlab : other = slab
    · rw [sameSlab]
      simp only [update_self]
      exact holds
    · simp only [update_of_ne sameSlab]
      exact (stored.holds other isOther).keep (placed.cache other isOther)
        (elsewhere other isOther sameSlab)
  · intro block isLarge
    rw [← stored.headers block isLarge]
    have apart := placed.slab_large_apart member isLarge
    have pages := placed.owned.nonempty block (Placed.large_block isLarge)
    have bytes : pageSize ≤ block.pages * pageSize := Nat.le_mul_of_pos_left _ pages
    have page : 8 ≤ pageSize := by decide
    exact readWord_same (fun byte low high => same byte (by omega))

end

end Synx.Slab
