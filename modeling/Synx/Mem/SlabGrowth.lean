/-
The growth of a cache of the slab allocator.
-/

import Synx.Mem.SlabShape

namespace Synx.Slab

open Lib Memory List Function
open Pmm (pageSize wordSize Block Owned)

/-! ### The memory of a new slab -/

/-- The first `count` slots, the last of them in front. -/
def slotsBelow (base size : Nat) : Nat → List Nat
  | 0 => []
  | count + 1 => (base + count * size) :: slotsBelow base size count

theorem mem_slotsBelow {base size count address : Nat} :
    address ∈ slotsBelow base size count ↔ ∃ i < count, address = base + i * size := by
  induction count with
  | zero => simp [slotsBelow]
  | succ count ih =>
    rw [slotsBelow, mem_cons, ih]
    constructor
    · rintro (rfl | ⟨i, bound, rfl⟩)
      · exact ⟨count, Nat.lt_succ_self count, rfl⟩
      · exact ⟨i, Nat.lt_succ_of_lt bound, rfl⟩
    · rintro ⟨i, bound, rfl⟩
      by_cases last : i = count
      · exact .inl (by rw [last])
      · exact .inr ⟨i, by omega, rfl⟩

theorem slotsBelow_length (base size count : Nat) :
    (slotsBelow base size count).length = count := by
  induction count with
  | zero => rfl
  | succ count ih => rw [slotsBelow, length_cons, ih]

theorem threadSlots_outside (header base size i count : Nat) (mem : Memory) (byte : Nat)
    (wide : 8 ≤ size) (head : byte < header + 8 ∨ header + 16 ≤ byte)
    (outside : byte < base ∨ base + (i + count) * size ≤ byte) :
    threadSlots header base size i count mem byte = mem byte := by
  induction count generalizing i mem with
  | zero => rfl
  | succ count ih =>
    have upper : (i + 1) * size ≤ (i + (count + 1)) * size := Nat.mul_le_mul_right _ (by omega)
    rw [Nat.succ_mul] at upper
    rw [threadSlots,
      ih (i + 1) _ (by rw [show i + 1 + count = i + (count + 1) by omega]; exact outside),
      writeWord_outside (by omega), writeWord_outside (by omega)]

theorem threadSlots_chain (header base size i count : Nat) (mem : Memory)
    (wide : 8 ≤ size) (behind : header + 16 ≤ base) (window : base + (i + count) * size ≤ wordSize)
    (chain : Chain (readWord mem) (freeList mem header) (slotsBelow base size i)) :
    Chain (readWord (threadSlots header base size i count mem))
      (freeList (threadSlots header base size i count mem) header)
      (slotsBelow base size (i + count)) := by
  induction count generalizing i mem with
  | zero => exact chain
  | succ count ih =>
    rw [show i + (count + 1) = i + 1 + count by omega] at window ⊢
    have upper : (i + 1) * size ≤ (i + 1 + count) * size := Nat.mul_le_mul_right _ (by omega)
    rw [Nat.succ_mul] at upper
    apply ih (i + 1) _ window
    have small : base + i * size < 2 ^ 64 := by
      unfold wordSize at window
      omega
    refine ⟨readWord_writeWord_of_lt _ _ _ small, by omega, ?_⟩
    rw [readWord_writeWord_of_ne (by omega),
      readWord_writeWord_of_lt _ _ (freeList mem header) (readWord_lt _ _)]
    refine chain.congr ?_
    intro node member
    obtain ⟨j, before, rfl⟩ := mem_slotsBelow.mp member
    have earlier : (j + 1) * size ≤ i * size := Nat.mul_le_mul_right _ before
    rw [Nat.succ_mul] at earlier
    rw [readWord_writeWord_of_ne (by omega),
      readWord_writeWord_of_ne (by omega)]

theorem writeHeader_outside (mem : Memory) (header size objects next byte : Nat)
    (outside : byte < header ∨ header + sizeofSlabHeader ≤ byte) :
    writeHeader mem header size objects next byte = mem byte := by
  unfold sizeofSlabHeader at outside
  unfold writeHeader
  iterate 5 rw [writeWord_outside (by omega)]

theorem writeHeader_words (mem : Memory) (header size objects next : Nat)
    (sizeWord : size < 2 ^ 64) (objectsWord : objects < 2 ^ 64) (nextWord : next < 2 ^ 64) :
    readWord (writeHeader mem header size objects next) header = next ∧
      freeList (writeHeader mem header size objects next) header = 0 ∧
      objSize (writeHeader mem header size objects next) header = size ∧
      totalObjs (writeHeader mem header size objects next) header = objects ∧
      freeCount (writeHeader mem header size objects next) header = objects := by
  unfold writeHeader freeList objSize totalObjs freeCount
  refine ⟨?_, ?_, ?_, ?_, ?_⟩
  · rw [readWord_writeWord_of_ne (by omega),
      readWord_writeWord_of_lt _ _ _ nextWord]
  · exact readWord_writeWord_of_lt _ _ _ (by decide)
  · iterate 4 rw [readWord_writeWord_of_ne (by omega)]
    exact readWord_writeWord_of_lt _ _ _ sizeWord
  · iterate 3 rw [readWord_writeWord_of_ne (by omega)]
    exact readWord_writeWord_of_lt _ _ _ objectsWord
  · rw [readWord_writeWord_of_ne (by omega), readWord_writeWord_of_ne (by omega),
      readWord_writeWord_of_lt _ _ _ (readWord_lt _ _),
      readWord_writeWord_of_lt _ _ _ objectsWord]

/-- The slots of a slab in the order of its first free list. -/
def Descriptor.slots (hhdm : Nat) (slab : Descriptor) : List Nat :=
  slotsBelow (slab.base hhdm + sizeofSlabHeader) (indexToSize slab.cache) (slotsOf slab.cache)

theorem Descriptor.mem_slots {hhdm address : Nat} {slab : Descriptor} :
    address ∈ slab.slots hhdm ↔ slab.IsSlot hhdm address :=
  mem_slotsBelow

section

variable {hhdm : Nat} {state : State} {layout : Layout} {others : List Block} {live : List Object}
  {slab : Descriptor}

variable {idx : Nat} {pmm : Pmm.State}

theorem buildSlab_outside (mem : Memory) {header : Nat} (next byte : Nat)
    (cache : idx < numSlabCaches) (nextWord : next < 2 ^ 64)
    (outside : byte < header ∨ header + slabTotal idx ≤ byte) :
    buildSlab mem header idx next byte = mem byte := by
  have shape := geometry cache
  have fits := shape.fits
  have wide := shape.slot
  have words := writeHeader_words (fill mem header (slabTotal idx) 0) header (indexToSize idx)
    (slotsOf idx) next shape.size (Nat.lt_of_succ_lt shape.slots_lt) nextWord
  unfold buildSlab
  rw [words.2.2.2.1, threadSlots_outside _ _ _ _ _ _ _ (by omega), writeHeader_outside,
    fill_outside _ _ _ _ _ outside]
  · omega
  · unfold sizeofSlabHeader at fits
    omega
  · rw [zero_add]
    unfold sizeofSlabHeader at fits ⊢
    omega

theorem buildSlab_holds (mem : Memory) (next : Nat) (cache : slab.cache < numSlabCaches)
    (nextWord : next < 2 ^ 64) (window : slab.base hhdm + slabTotal slab.cache ≤ wordSize) :
    readWord (buildSlab mem (slab.base hhdm) slab.cache next) (slab.base hhdm) = next ∧
      Holds hhdm (buildSlab mem (slab.base hhdm) slab.cache next) slab (slab.slots hhdm) := by
  have shape := geometry cache
  have fits := shape.fits
  have wide := shape.slot
  have words := writeHeader_words (fill mem (slab.base hhdm) (slabTotal slab.cache) 0)
    (slab.base hhdm) (indexToSize slab.cache) (slotsOf slab.cache) next shape.size
      (Nat.lt_of_succ_lt shape.slots_lt)
    nextWord
  simp only [buildSlab]
  rw [words.2.2.2.1]
  generalize headed : writeHeader (fill mem (slab.base hhdm) (slabTotal slab.cache) 0)
    (slab.base hhdm) (indexToSize slab.cache) (slotsOf slab.cache) next = memory at words
  obtain ⟨link, empty, size, objects, count⟩ := words
  have kept : ∀ offset, offset + 8 ≤ sizeofSlabHeader → offset + 8 ≤ 8 ∨ 16 ≤ offset →
      readWord (threadSlots (slab.base hhdm) (slab.base hhdm + sizeofSlabHeader)
        (indexToSize slab.cache) 0 (slotsOf slab.cache) memory) (slab.base hhdm + offset) =
      readWord memory (slab.base hhdm + offset) := by
    intro offset inside apart
    refine readWord_same (fun byte low high =>
      threadSlots_outside _ _ _ _ _ _ _ (by omega) (by omega) (by omega))
  have chain := threadSlots_chain (slab.base hhdm) (slab.base hhdm + sizeofSlabHeader)
    (indexToSize slab.cache) 0 (slotsOf slab.cache) memory (by omega)
    (by unfold sizeofSlabHeader; omega) (by rw [zero_add]; omega) empty
  rw [zero_add] at chain
  refine ⟨(kept 0 (by decide) (by decide)).trans link, ?_⟩
  exact
    { objSize := (kept 16 (by decide) (by decide)).trans size
      totalObjs := (kept 24 (by decide) (by decide)).trans objects
      freeCount := by
        rw [Descriptor.slots, slotsBelow_length]
        exact (kept 32 (by decide) (by decide)).trans count
      list := chain
      slots := fun _ member => Descriptor.mem_slots.mp member }

/-! ### Growing a cache -/

def Layout.addSlab (hhdm : Nat) (layout : Layout) (slab : Descriptor) : Layout :=
  { layout with
    slabs := slab :: layout.slabs
    free := update layout.free slab (slab.slots hhdm) }

theorem Layout.bases_addSlab (layout : Layout) (slab : Descriptor) (idx : Nat) :
    (layout.addSlab hhdm slab).bases hhdm idx =
      if slab.cache = idx then slab.base hhdm :: layout.bases hhdm idx else layout.bases hhdm
        idx := by
  unfold Layout.bases Layout.addSlab
  by_cases same : slab.cache = idx
  · simp only [filter_cons, same, decide_true, if_true, map_cons]
  · simp only [filter_cons, same, decide_false, Bool.false_eq_true, if_false]

theorem Placed.addSlab (placed : Placed hhdm state.pmm layout others)
    (cache : slab.cache < numSlabCaches) (total : pmm.totalPages = state.pmm.totalPages)
    (owned : Owned pmm (slab.block :: (layout.blocks ++ others))) :
    Placed hhdm pmm (layout.addSlab hhdm slab) others := by
  refine ⟨?_, owned, ?_⟩
  · rw [total]
    exact placed.window
  · intro other member
    rcases mem_cons.mp member with rfl | old
    · exact cache
    · exact placed.cache other old

theorem Placed.fresh (placed : Placed hhdm pmm (layout.addSlab hhdm slab) others) :
    slab ∉ layout.slabs := by
  intro member
  have apart : slab.block.Apart slab.block :=
    (pairwise_cons.mp placed.owned.apart).1 slab.block
      (mem_append_left _ (mem_append_left _ (mem_map_of_mem member)))
  have covers := Block.covers_first slab.block
    (placed.owned.nonempty slab.block (.head _))
  exact apart _ covers covers

theorem Placed.chain_head_lt (placed : Placed hhdm state.pmm layout others) {next : Nat → Nat}
    {head : Nat} (chain : Chain next head (layout.bases hhdm idx)) : head < 2 ^ 64 := by
  cases nodes : layout.bases hhdm idx with
  | nil =>
    rw [nodes] at chain
    rw [show head = 0 from chain]
    decide
  | cons base rest =>
    rw [nodes] at chain
    obtain ⟨slab, member, _, isBase⟩ :=
      Layout.mem_bases.mp (nodes ▸ mem_cons_self : base ∈ layout.bases hhdm idx)
    have bounds := placed.slab_bounds member
    have pages := (geometry (placed.cache slab member)).fits
    rw [chain.1, ← isBase]
    unfold wordSize sizeofSlabHeader at *
    omega

theorem Placed.new_apart {pmm : Pmm.State}
    (grown : Placed hhdm pmm (layout.addSlab hhdm slab) others) {next byte : Nat} (mem : Memory)
    (nextWord : next < 2 ^ 64) (within : layout.Within hhdm byte) :
    buildSlab mem (slab.base hhdm) slab.cache next byte = mem byte := by
  have isNew : slab ∈ (layout.addSlab hhdm slab).slabs := mem_cons_self
  have cache := grown.cache slab isNew
  rcases within with ⟨other, isOther, low, high⟩ | ⟨block, isLarge, low, high⟩
  · have apart := grown.slabs_apart isNew (.tail slab isOther)
      (fun same => grown.fresh (same ▸ isOther))
    exact buildSlab_outside mem next byte cache nextWord (by omega)
  · have apart := grown.slab_large_apart isNew isLarge
    exact buildSlab_outside mem next byte cache nextWord (by omega)

theorem Stored.addSlab {mem : Memory} {caches : Nat → Nat} (stored : Stored hhdm mem caches layout)
    (placed : Placed hhdm state.pmm layout others)
    (grown : Placed hhdm pmm (layout.addSlab hhdm slab) others) :
    Stored hhdm (buildSlab mem (slab.base hhdm) slab.cache (caches slab.cache))
      (update caches slab.cache (slab.base hhdm)) (layout.addSlab hhdm slab) := by
  have isNew : slab ∈ (layout.addSlab hhdm slab).slabs := mem_cons_self
  have cache := grown.cache slab isNew
  have bounds := grown.slab_bounds isNew
  have nextWord := placed.chain_head_lt (stored.chains slab.cache cache)
  have stays := fun byte within =>
    @Placed.new_apart hhdm layout others slab pmm grown _ byte mem nextWord within
  obtain ⟨link, holds⟩ := buildSlab_holds mem (caches slab.cache) cache nextWord bounds.2
  have oldChain : ∀ idx < numSlabCaches,
      Chain (readWord (buildSlab mem (slab.base hhdm) slab.cache (caches slab.cache))) (caches idx)
        (layout.bases hhdm idx) := by
    intro idx isCache
    refine (stored.chains idx isCache).congr ?_
    intro base member
    obtain ⟨other, isOther, _, rfl⟩ := Layout.mem_bases.mp member
    have fits := (geometry (placed.cache other isOther)).fits
    have header : 8 ≤ sizeofSlabHeader := by decide
    exact readWord_same (fun byte low high => stays byte (.inl ⟨other, isOther, low, by omega⟩))
  refine ⟨?_, ?_, ?_⟩
  · intro idx isCache
    rw [Layout.bases_addSlab]
    by_cases same : slab.cache = idx
    · rw [if_pos same, ← same, update_self]
      refine ⟨rfl, ?_, ?_⟩
      · have page : 0 < pageSize := by decide
        omega
      · rw [link]
        exact oldChain slab.cache cache
    · rw [if_neg same, update_of_ne (Ne.symm same)]
      exact oldChain idx isCache
  · intro other member
    rcases mem_cons.mp member with rfl | old
    · simp only [Layout.addSlab, update_self]
      exact holds
    · have different : other ≠ slab := fun same => grown.fresh (same ▸ old)
      simp only [Layout.addSlab, update_of_ne different]
      exact (stored.holds other old).keep (placed.cache other old)
        (fun byte low high => stays byte (.inl ⟨other, old, low, high⟩))
  · intro block isLarge
    rw [← stored.headers block isLarge]
    have pages := placed.owned.nonempty block (Placed.large_block isLarge)
    have bytes : pageSize ≤ block.pages * pageSize := Nat.le_mul_of_pos_left _ pages
    have page : 8 ≤ pageSize := by decide
    exact readWord_same (fun byte low high => stays byte (.inr ⟨block, isLarge, low, by omega⟩))

theorem Accounted.addSlab (accounted : Accounted hhdm layout live) (fresh : slab ∉ layout.slabs) :
    Accounted hhdm (layout.addSlab hhdm slab) live := by
  have unchanged : ∀ other ∈ layout.slabs,
      (layout.addSlab hhdm slab).free other = layout.free other := by
    intro other member
    have different : other ≠ slab := fun same => fresh (same ▸ member)
    simp only [Layout.addSlab, update_of_ne different]
  refine
    { sizes := accounted.sizes
      small := ?_
      large := accounted.large
      distinct := accounted.distinct
      complete := ?_ }
  · intro object isLive isSmall
    obtain ⟨other, member, cache, isSlot, used⟩ := accounted.small object isLive isSmall
    exact ⟨other, mem_cons_of_mem slab member, cache, isSlot, by
      rw [unchanged other member]; exact used⟩
  · intro other member address isSlot
    rcases mem_cons.mp member with rfl | old
    · simp only [Layout.addSlab, update_self]
      exact .inl (Descriptor.mem_slots.mpr isSlot)
    · rw [unchanged other old]
      exact accounted.complete other old address isSlot

theorem run_allocPages {held : List Block} (owned : Owned state.pmm held) (count : Nat) :
    (allocPages count).run state = (.ok 0, state) ∨
    ∃ phys pmm, (allocPages count).run state = (.ok phys, { state with pmm := pmm }) ∧ phys ≠ 0 ∧
      pmm.totalPages = state.pmm.totalPages ∧ Owned pmm (⟨phys, count⟩ :: held) := by
  have ran : (allocPages count).run state = (.ok (Pmm.allocPages state.pmm count).1,
      { state with pmm := (Pmm.allocPages state.pmm count).2 }) := rfl
  rw [ran]
  have total : (Pmm.allocPages state.pmm count).2.totalPages = state.pmm.totalPages := by
    rcases Pmm.allocPages_cases state.pmm count with failed | ⟨page, _, _, _, took⟩
    · rw [failed]
    · rw [took]
      rfl
  rcases owned.allocPages count with failed | ⟨phys, pmm, took, nonzero, next⟩
  · left
    rw [failed]
  · right
    rw [took] at total ⊢
    exact ⟨phys, pmm, rfl, nonzero, total, next⟩

theorem physToVirt_eq {phys : Nat} (window : hhdm + phys < wordSize) :
    physToVirt hhdm phys = hhdm + phys := by
  rw [physToVirt, add_comm, Nat.mod_eq_of_lt window]

theorem run_createSlab (shape : Shape hhdm state layout others live) (cache : idx < numSlabCaches) :
    (createSlab hhdm idx).run state = (.ok 0, state) ∧
      (allocPages (slabPages idx)).run state = (.ok 0, state) ∨
    ∃ slab after, slab.cache = idx ∧ slab ∉ layout.slabs ∧
      (createSlab hhdm idx).run state = (.ok (slab.base hhdm), after) ∧
      (∀ byte, layout.Within hhdm byte → after.mem byte = state.mem byte) ∧
      Shape hhdm after (layout.addSlab hhdm slab) others live ∧ slab.phys ≠ 0 ∧
      (allocPages (slabPages idx)).run state =
        (.ok slab.phys, { state with pmm := after.pmm }) := by
  rcases run_allocPages shape.owned (slabPages idx) with
    failed | ⟨phys, pmm, took, nonzero, total, owned⟩
  · refine .inl ⟨?_, failed⟩
    rw [createSlab, Program.run_bind_ok failed, if_pos rfl]
    rfl
  · right
    obtain ⟨slab, rfl, rfl⟩ : ∃ slab : Descriptor, slab.phys = phys ∧ slab.cache = idx :=
      ⟨⟨phys, idx⟩, rfl, rfl⟩
    have grown : Placed hhdm pmm (layout.addSlab hhdm slab) others :=
      shape.toPlaced.addSlab cache total owned
    have bounds := grown.slab_bounds (mem_cons_self : slab ∈ (layout.addSlab hhdm slab).slabs)
    have fits := (geometry cache).fits
    have header : 0 < sizeofSlabHeader := by decide
    have virt : physToVirt hhdm slab.phys = slab.base hhdm :=
      physToVirt_eq (lt_of_lt_of_le (by unfold Descriptor.base; omega) bounds.2)
    have final : Shape hhdm
        { mem := buildSlab state.mem (slab.base hhdm) slab.cache (state.caches slab.cache)
          pmm := pmm
          caches := update state.caches slab.cache (slab.base hhdm) }
        (layout.addSlab hhdm slab) others live :=
      ⟨grown, shape.toStored.addSlab shape.toPlaced grown, shape.toAccounted.addSlab grown.fresh⟩
    have nextWord := shape.toPlaced.chain_head_lt (shape.chains slab.cache cache)
    refine ⟨slab, _, rfl, grown.fresh, ?_, fun byte within =>
      grown.new_apart state.mem nextWord within, final, nonzero, took⟩
    rw [createSlab, Program.run_bind_ok took, if_neg nonzero, virt]
    rfl

end

end Synx.Slab
