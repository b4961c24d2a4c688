/-
Small objects of the slab allocator.
-/

import Synx.Mem.SlabGrowth

namespace Synx.Slab

open Lib Program Memory List Function
open Pmm (pageSize wordSize Block Owned)

section

variable {hhdm : Nat} {state : State} {layout : Layout} {others : List Block} {live : List Object}
  {slab : Descriptor} {mem : Memory} {free rest : List Nat} {slot : Nat}

/-! ### Objects and their bytes -/

variable {object : Object} {byte ptr size : Nat} {other : Descriptor} {pmm : Pmm.State}

section

variable (shape : Shape hhdm state layout others live)

include shape

theorem Shape.object_bounds (isLive : object ∈ live) :
    (object.size ≤ slabSizeMax ∧ ∃ slab ∈ layout.slabs, slab.cache = sizeToIndex object.size ∧
      slab.IsSlot hhdm object.start ∧ object.start ∉ layout.free slab ∧
      object.size ≤ indexToSize slab.cache) ∨
    (slabSizeMax < object.size ∧ ∃ block ∈ layout.larges,
      object.start = hhdm + block.phys + largeObjHeaderSize ∧ block.pages = largePages object.size ∧
      object.start + object.size ≤ hhdm + block.phys + block.pages * pageSize) := by
  by_cases small : object.size ≤ slabSizeMax
  · left
    obtain ⟨slab, member, cache, isSlot, used⟩ := shape.small object isLive small
    refine ⟨small, slab, member, cache, isSlot, used, ?_⟩
    rw [cache]
    exact (sizeToIndex_spec small).2
  · right
    obtain ⟨block, member, start, pages⟩ := shape.large object isLive (by omega)
    refine ⟨by omega, block, member, start, pages, ?_⟩
    have bound := (shape.sizes object isLive).2
    rw [start, pages]
    unfold largePages largeObjHeaderSize pageSize wordSize at *
    omega

theorem Shape.free_lt (member : slab ∈ layout.slabs) (isFree : slot ∈ layout.free slab) :
    slot < wordSize := by
  have inside := ((shape.holds slab member).slots slot isFree).inside (shape.cache slab member)
  have bounds := (shape.slab_bounds member).2
  have wide := (geometry (shape.cache slab member)).slot
  omega

theorem Shape.free_apart (isLive : object ∈ live) {slot : Nat} (member : slab ∈ layout.slabs)
    (isFree : slot ∈ layout.free slab) :
    object.start + object.size ≤ slot ∨ slot + indexToSize slab.cache ≤ object.start := by
  have isSlot := (shape.holds slab member).slots slot isFree
  have inside := isSlot.inside (shape.cache slab member)
  rcases shape.object_bounds isLive with
    ⟨_, other, isOther, _, otherSlot, used, fits⟩ | ⟨_, block, isBlock, start, _, ends⟩
  · have otherInside := otherSlot.inside (shape.cache other isOther)
    by_cases same : other = slab
    · subst same
      have different : object.start ≠ slot := fun equal => used (equal ▸ isFree)
      have apart := otherSlot.apart isSlot different
      omega
    · have apart := shape.slabs_apart isOther member same
      omega
  · have apart := shape.slab_large_apart member isBlock
    unfold largeObjHeaderSize at start
    omega

theorem Shape.object_meta (isLive : object ∈ live) (low : object.start ≤ byte)
    (high : byte < object.start + object.size) : ¬layout.Meta hhdm byte := by
  rintro (⟨slab, member, first, last⟩ | ⟨slab, member, slot, isFree, first, last⟩ |
    ⟨block, member, first, last⟩)
  · have fits := (geometry (shape.cache slab member)).fits
    rcases shape.object_bounds isLive with
      ⟨_, other, isOther, _, otherSlot, _, _⟩ | ⟨_, block, isBlock, start, _, ends⟩
    · have inside := otherSlot.inside (shape.cache other isOther)
      by_cases same : other = slab
      · subst same
        omega
      · have apart := shape.slabs_apart isOther member same
        have fitsOther := (geometry (shape.cache other isOther)).fits
        omega
    · have apart := shape.slab_large_apart member isBlock
      unfold largeObjHeaderSize at start
      omega
  · have apart := shape.free_apart isLive member isFree
    omega
  · have bytes : pageSize ≤ block.pages * pageSize :=
      Nat.le_mul_of_pos_left _ (shape.owned.nonempty block (Placed.large_block member))
    have page : largeObjHeaderSize ≤ pageSize := by decide
    rcases shape.object_bounds isLive with
      ⟨_, other, isOther, _, otherSlot, _, _⟩ | ⟨_, own, isOwn, start, _, ends⟩
    · have inside := otherSlot.inside (shape.cache other isOther)
      have apart := shape.slab_large_apart isOther member
      omega
    · by_cases same : own = block
      · subst same
        omega
      · have apart := shape.larges_apart isOwn member same
        omega

theorem Shape.objects_apart {first second : Object} (isFirst : first ∈ live)
    (isSecond : second ∈ live) (different : first.start ≠ second.start) :
    first.start + first.size ≤ second.start ∨ second.start + second.size ≤ first.start := by
  rcases shape.object_bounds isFirst with
    ⟨_, slab, member, _, isSlot, _, fits⟩ | ⟨_, block, isBlock, start, _, ends⟩
  · have inside := isSlot.inside (shape.cache slab member)
    rcases shape.object_bounds isSecond with
      ⟨_, slab', member', _, isSlot', _, fits'⟩ | ⟨_, block', isBlock', start', _, ends'⟩
    · have inside' := isSlot'.inside (shape.cache slab' member')
      by_cases same : slab = slab'
      · subst same
        have apart := isSlot.apart isSlot' different
        omega
      · have apart := shape.slabs_apart member member' same
        omega
    · have apart := shape.slab_large_apart member isBlock'
      omega
  · rcases shape.object_bounds isSecond with
      ⟨_, slab', member', _, isSlot', _, fits'⟩ | ⟨_, block', isBlock', start', _, ends'⟩
    · have inside' := isSlot'.inside (shape.cache slab' member')
      have apart := shape.slab_large_apart member' isBlock
      omega
    · have distinct : block ≠ block' := by
        intro same
        rw [same] at start
        omega
      have apart := shape.larges_apart isBlock isBlock' distinct
      omega

end

def Untouched (live : List Object) (before after : Memory) : Prop :=
  ∀ object, object ∈ live → ∀ byte, object.start ≤ byte → byte < object.start + object.size →
    after byte = before byte

section

variable (shape : Shape hhdm state layout others live)

include shape

theorem Shape.untouched (changes : ∀ byte, mem byte ≠ state.mem byte → layout.Meta hhdm byte) :
    Untouched live state.mem mem := by
  intro object isLive byte low high
  by_contra changed
  exact shape.object_meta isLive low high (changes byte changed)

theorem Shape.object_within (isLive : object ∈ live) (low : object.start ≤ byte)
    (high : byte < object.start + object.size) : layout.Within hhdm byte := by
  rcases shape.object_bounds isLive with
    ⟨_, slab, member, _, isSlot, _, fits⟩ | ⟨_, block, member, start, _, ends⟩
  · have inside := isSlot.inside (shape.cache slab member)
    exact .inl ⟨slab, member, by omega, by omega⟩
  · exact .inr ⟨block, member, by omega, by omega⟩

theorem Shape.object_end (isLive : object ∈ live) : object.start + object.size ≤ wordSize := by
  have positive := (shape.sizes object isLive).1
  have last :=
    shape.object_within isLive (show object.start ≤ object.start + object.size - 1 by omega)
    (by omega)
  rcases last with ⟨slab, member, _, high⟩ | ⟨block, member, _, high⟩
  · have bounds := (shape.slab_bounds member).2
    omega
  · have bounds := (shape.block_bounds (Placed.large_block member)).2
    omega

theorem Shape.untouched_within (stays : ∀ byte, layout.Within hhdm byte →
    mem byte = state.mem byte) :
    Untouched live state.mem mem :=
  fun _ isLive _ low high => stays _ (shape.object_within isLive low high)

theorem Shape.write (mem : Memory) (inside : ∀ byte, mem byte ≠ state.mem byte →
      ∃ object ∈ live, object.start ≤ byte ∧ byte < object.start + object.size) :
    Shape hhdm { state with mem := mem } layout others live := by
  refine ⟨shape.toPlaced, shape.toStored.frame shape.toPlaced ?_, shape.toAccounted⟩
  intro byte isMeta
  by_contra changed
  obtain ⟨object, isLive, low, high⟩ := inside byte changed
  exact shape.object_meta isLive low high isMeta

end

/-! ### One slot -/

/-- The bytes of the two header fields that change. -/
def InLinkFields (base byte : Nat) : Prop :=
  (base + 8 ≤ byte ∧ byte < base + 16) ∨ (base + 32 ≤ byte ∧ byte < base + 40)

theorem takeHead_outside {base : Nat} (mem : Memory) (outside : ¬InLinkFields base byte) :
    takeHead base mem byte = mem byte := by
  unfold InLinkFields at outside
  unfold takeHead
  rw [writeWord_outside (by omega), writeWord_outside (by omega)]

theorem putHead_outside {base : Nat} (mem : Memory) (outside : ¬InLinkFields base byte)
    (elsewhere : byte < ptr ∨ ptr + 8 ≤ byte) : putHead base ptr mem byte = mem byte := by
  unfold InLinkFields at outside
  unfold putHead
  rw [writeWord_outside (by omega), writeWord_outside (by omega),
    writeWord_outside elsewhere]

theorem Holds.length_le (holds : Holds hhdm mem slab free) : free.length ≤ slotsOf slab.cache := by
  have subset : free ⊆ slab.slots hhdm :=
    fun slot member => Descriptor.mem_slots.mpr (holds.slots slot member)
  have shorter := (subperm_of_subset holds.list.nodup subset).length_le
  rwa [Descriptor.slots, slotsBelow_length] at shorter

theorem takeHead_holds (holds : Holds hhdm mem slab (slot :: rest))
    (cache : slab.cache < numSlabCaches) :
    Holds hhdm (takeHead (slab.base hhdm) mem) slab rest := by
  obtain ⟨head, _, tail⟩ := holds.list
  have count := holds.freeCount
  have bound := holds.length_le
  have limit := (geometry cache).slots_lt
  have kept : ∀ address, (∀ byte, address ≤ byte → byte < address + 8 →
      ¬InLinkFields (slab.base hhdm) byte) →
      readWord (takeHead (slab.base hhdm) mem) address = readWord mem address :=
    fun address apart =>
      readWord_same (fun byte low high => takeHead_outside mem (apart byte low high))
  rw [length_cons] at count bound
  refine
    { objSize := (kept _ (by unfold InLinkFields; omega)).trans holds.objSize
      totalObjs := (kept _ (by unfold InLinkFields; omega)).trans holds.totalObjs
      freeCount := ?_
      list := ?_
      slots := fun address member => holds.slots address (.tail slot member) }
  · unfold takeHead freeCount at *
    rw [readWord_writeWord, readWord_writeWord_of_ne (by omega), count]
    unfold wordSize at *
    omega
  · have first : freeList (takeHead (slab.base hhdm) mem) (slab.base hhdm) = readWord mem slot := by
      unfold takeHead freeList at *
      rw [readWord_writeWord_of_ne (by omega), head,
        readWord_writeWord_of_lt _ _ _ (readWord_lt _ _)]
    rw [first]
    refine tail.congr (fun node member => kept node ?_)
    have inside := (holds.slots node (.tail slot member)).inside cache
    unfold InLinkFields sizeofSlabHeader at *
    omega

theorem putHead_holds (holds : Holds hhdm mem slab free) (cache : slab.cache < numSlabCaches)
    (isSlot : slab.IsSlot hhdm slot) (used : slot ∉ free)
    (window : slab.base hhdm + slabTotal slab.cache ≤ wordSize) :
    Holds hhdm (putHead (slab.base hhdm) slot mem) slab (slot :: free) := by
  have inside := isSlot.inside cache
  have wide := (geometry cache).slot
  have bound := holds.length_le
  have limit := (geometry cache).slots_lt
  have count := holds.freeCount
  have kept : ∀ address, (∀ byte, address ≤ byte → byte < address + 8 →
      ¬InLinkFields (slab.base hhdm) byte ∧ (byte < slot ∨ slot + 8 ≤ byte)) →
      readWord (putHead (slab.base hhdm) slot mem) address = readWord mem address :=
    fun address apart => readWord_same (fun byte low high =>
      putHead_outside mem (apart byte low high).1 (apart byte low high).2)
  unfold sizeofSlabHeader at inside
  refine
    { objSize := (kept _ (by unfold InLinkFields; omega)).trans holds.objSize
      totalObjs := (kept _ (by unfold InLinkFields; omega)).trans holds.totalObjs
      freeCount := ?_
      list := ⟨?_, by omega, ?_⟩
      slots := ?_ }
  · unfold putHead freeCount at *
    rw [readWord_writeWord, readWord_writeWord_of_ne (by omega),
      readWord_writeWord_of_ne (by omega), count, length_cons]
    unfold wordSize at limit
    omega
  · unfold putHead freeList
    rw [readWord_writeWord_of_ne (by omega)]
    refine readWord_writeWord_of_lt _ _ _ ?_
    unfold wordSize at window
    omega
  · have link : readWord (putHead (slab.base hhdm) slot mem) slot =
      freeList mem (slab.base hhdm) := by
      unfold putHead
      rw [readWord_writeWord_of_ne (by omega), readWord_writeWord_of_ne (by omega)]
      exact readWord_writeWord_of_lt _ _ _ (readWord_lt _ _)
    rw [link]
    refine holds.list.congr (fun node member => kept node ?_)
    have nodeInside := (holds.slots node member).inside cache
    have apart := isSlot.apart (holds.slots node member) (fun same => used (same ▸ member))
    unfold InLinkFields sizeofSlabHeader at *
    omega
  · intro address member
    rcases mem_cons.mp member with rfl | old
    · exact isSlot
    · exact holds.slots address old

def Layout.setFree (layout : Layout) (slab : Descriptor) (free : List Nat) : Layout :=
  { layout with free := update layout.free slab free }

theorem Layout.setFree_self (layout : Layout) (slab : Descriptor) (free : List Nat) :
    (layout.setFree slab free).free slab = free := by
  simp only [Layout.setFree, update_self]

theorem Layout.setFree_of_ne (layout : Layout) {slab : Descriptor} (free : List Nat)
    (different : other ≠ slab) : (layout.setFree slab free).free other = layout.free other := by
  simp only [Layout.setFree, update_of_ne different]

theorem Layout.Slot.setFree (isSlot : layout.Slot hhdm object)
    (stays : ∀ owner, owner = slab → object.start ∉ layout.free owner → object.start ∉ free) :
    (layout.setFree slab free).Slot hhdm object := by
  obtain ⟨owner, member, cache, start, used⟩ := isSlot
  refine ⟨owner, member, cache, start, ?_⟩
  by_cases same : owner = slab
  · have kept := stays owner same used
    rw [same, Layout.setFree_self]
    exact kept
  · rw [Layout.setFree_of_ne layout free same]
    exact used

theorem Accounted.take (accounted : Accounted hhdm layout live) (member : slab ∈ layout.slabs)
    (isSlot : slab.IsSlot hhdm slot) (first : layout.free slab = slot :: rest)
    (unique : slot ∉ rest) (apart : ∀ object ∈ live, object.start ≠ slot) (positive : 0 < size)
    (small : size ≤ slabSizeMax) (cache : slab.cache = sizeToIndex size) :
    Accounted hhdm (layout.setFree slab rest) (⟨slot, size⟩ :: live) := by
  refine
    { sizes := ?_
      small := ?_
      large := ?_
      distinct := ?_
      complete := ?_ }
  · intro object isLive
    rcases mem_cons.mp isLive with rfl | old
    · exact ⟨positive, le_trans (Nat.add_le_add_right small pageSize) (by decide)⟩
    · exact accounted.sizes object old
  · intro object isLive isSmall
    rcases mem_cons.mp isLive with rfl | old
    · exact ⟨slab, member, cache, isSlot, by rw [Layout.setFree_self]; exact unique⟩
    · refine (accounted.small object old isSmall).setFree ?_
      intro owner same used inRest
      rw [same, first] at used
      exact used (.tail slot inRest)
  · intro object isLive isLarge
    rcases mem_cons.mp isLive with rfl | old
    · exact absurd isLarge (Nat.not_lt_of_le small)
    · exact accounted.large object old isLarge
  · rw [map_cons, nodup_cons]
    refine ⟨?_, accounted.distinct⟩
    intro again
    obtain ⟨object, isLive, same⟩ := mem_map.mp again
    exact apart object isLive same
  · intro other isOther address otherSlot
    by_cases same : other = slab
    · subst same
      rw [Layout.setFree_self]
      rcases accounted.complete other isOther address otherSlot with isFree | ⟨object, isLive, rest⟩
      · rw [first] at isFree
        rcases mem_cons.mp isFree with rfl | later
        · exact .inr ⟨⟨address, size⟩, mem_cons_self, rfl, small, cache.symm⟩
        · exact .inl later
      · exact .inr ⟨object, mem_cons_of_mem _ isLive, rest⟩
    · rw [Layout.setFree_of_ne layout rest same]
      rcases accounted.complete other isOther address otherSlot with isFree | ⟨object, isLive, rest⟩
      · exact .inl isFree
      · exact .inr ⟨object, mem_cons_of_mem _ isLive, rest⟩

theorem Accounted.start_ne (accounted : Accounted hhdm layout live) {other : Object}
    (isLive : object ∈ live) (member : other ∈ live.erase object) : other.start ≠ object.start := by
  intro same
  have order : live.Perm (object :: live.erase object) := perm_cons_erase isLive
  have distinct := (order.map Object.start).nodup_iff.mp accounted.distinct
  rw [map_cons, nodup_cons] at distinct
  exact distinct.1 (same ▸ mem_map_of_mem member)

theorem Accounted.put (accounted : Accounted hhdm layout live) (isLive : object ∈ live)
    (owner : ∀ other ∈ layout.slabs, other.IsSlot hhdm object.start → other = slab) :
    Accounted hhdm (layout.setFree slab (object.start :: layout.free slab))
      (live.erase object) := by
  have keeps : ∀ other ∈ live.erase object, other ∈ live :=
    fun _ member => mem_of_mem_erase member
  refine
    { sizes := fun other member => accounted.sizes other (keeps other member)
      small := ?_
      large := fun other member => accounted.large other (keeps other member)
      distinct := accounted.distinct.sublist (erase_sublist.map Object.start)
      complete := ?_ }
  · intro other member isSmall
    refine (accounted.small other (keeps other member) isSmall).setFree ?_
    intro owner same used now
    rw [same] at used
    rcases mem_cons.mp now with equal | before
    · exact accounted.start_ne isLive member equal
    · exact used before
  · intro other isOther address isSlot
    by_cases returned : address = object.start
    · rw [returned] at isSlot ⊢
      rw [owner other isOther isSlot, Layout.setFree_self]
      exact .inl (.head _)
    · rcases accounted.complete other isOther address isSlot with
        isFree | ⟨tenant, member, rfl, bound, index⟩
      · left
        by_cases same : other = slab
        · rw [same] at isFree ⊢
          rw [Layout.setFree_self]
          exact .tail _ isFree
        · rw [Layout.setFree_of_ne layout _ same]
          exact isFree
      · have different : tenant ≠ object := fun same => returned (congrArg Object.start same)
        exact .inr ⟨tenant, (mem_erase_of_ne different).mpr member, rfl, bound, index⟩

theorem Placed.setFree (placed : Placed hhdm pmm layout others) (slab : Descriptor)
    (free : List Nat) : Placed hhdm pmm (layout.setFree slab free) others :=
  ⟨placed.window, placed.owned, placed.cache⟩

theorem Placed.slot_owner (placed : Placed hhdm pmm layout others) (member : slab ∈ layout.slabs)
    (isSlot : slab.IsSlot hhdm slot) (isOther : other ∈ layout.slabs)
    (otherSlot : other.IsSlot hhdm slot) : other = slab := by
  by_contra different
  have apart := placed.slabs_apart isOther member different
  have inside := isSlot.inside (placed.cache slab member)
  have otherInside := otherSlot.inside (placed.cache other isOther)
  have wide := (geometry (placed.cache slab member)).slot
  have otherWide := (geometry (placed.cache other isOther)).slot
  omega

section

variable (shape : Shape hhdm state layout others live)

include shape

theorem Shape.take (member : slab ∈ layout.slabs) (first : layout.free slab = slot :: rest)
    (positive : 0 < size) (small : size ≤ slabSizeMax) (cache : slab.cache = sizeToIndex size) :
    Shape hhdm { state with mem := takeHead (slab.base hhdm) state.mem } (layout.setFree slab rest)
      others (⟨slot, size⟩ :: live) := by
  have holds := shape.holds slab member
  have isFree : slot ∈ layout.free slab := by
    rw [first]
    exact .head _
  have apart : ∀ object ∈ live, object.start ≠ slot := by
    intro object isLive same
    have bytes := shape.free_apart isLive member isFree
    have size := (shape.sizes object isLive).1
    have wide := (geometry (shape.cache slab member)).slot
    omega
  have isSlot := holds.slots slot isFree
  rw [first] at holds
  have fits := (geometry (shape.cache slab member)).fits
  refine ⟨shape.toPlaced.setFree slab _, shape.toStored.replace shape.toPlaced member ?_
    (takeHead_holds holds (shape.cache slab member)),
    shape.toAccounted.take member isSlot first (nodup_cons.mp holds.list.nodup).1 apart positive
      small cache⟩
  intro byte outside
  refine takeHead_outside state.mem ?_
  unfold InLinkFields sizeofSlabHeader at *
  omega

theorem Shape.take_untouched (member : slab ∈ layout.slabs) :
    Untouched live state.mem (takeHead (slab.base hhdm) state.mem) := by
  refine shape.untouched ?_
  intro byte changed
  by_contra outside
  refine changed (takeHead_outside state.mem (fun isField => outside (.inl ⟨slab, member, ?_⟩)))
  unfold InLinkFields at isField
  unfold sizeofSlabHeader
  omega

theorem Shape.put (isLive : object ∈ live) (member : slab ∈ layout.slabs)
    (isSlot : slab.IsSlot hhdm object.start) (used : object.start ∉ layout.free slab) :
    Shape hhdm { state with mem := putHead (slab.base hhdm) object.start state.mem }
      (layout.setFree slab (object.start :: layout.free slab)) others (live.erase object) := by
  have cache := shape.cache slab member
  have inside := isSlot.inside cache
  have wide := (geometry cache).slot
  have fits := (geometry cache).fits
  refine ⟨shape.toPlaced.setFree slab _, shape.toStored.replace shape.toPlaced member ?_
    (putHead_holds (shape.holds slab member) cache isSlot used (shape.slab_bounds member).2),
    shape.toAccounted.put isLive (fun other isOther => shape.slot_owner member isSlot isOther)⟩
  intro byte outside
  unfold sizeofSlabHeader at inside fits
  exact putHead_outside state.mem (by unfold InLinkFields; omega) (by omega)

theorem Shape.put_untouched (isLive : object ∈ live) (member : slab ∈ layout.slabs)
    (isSlot : slab.IsSlot hhdm object.start) (used : object.start ∉ layout.free slab) :
    Untouched (live.erase object) state.mem (putHead (slab.base hhdm) object.start state.mem) := by
  have wide := (geometry (shape.cache slab member)).slot
  have now := shape.put isLive member isSlot used
  intro other isOther byte low high
  refine putHead_outside state.mem (fun isField => ?_) ?_
  · refine now.object_meta isOther low high (.inl ⟨slab, member, ?_⟩)
    unfold InLinkFields at isField
    unfold sizeofSlabHeader
    omega
  · have apart := now.free_apart isOther member (by rw [Layout.setFree_self]; exact (.head _))
    omega

end

/-! ### Small objects -/

theorem run_takeSlot (base : Nat) (state : State) :
    (takeSlot base).run state =
      (.ok (freeList state.mem base), { state with mem := takeHead base state.mem }) := rfl

theorem run_follow {head : State → Nat} {test : Memory → Nat → Bool} {nodes : List Nat}
    (chain : Chain (readWord state.mem) (head state) nodes)
    (bounded : ∀ node ∈ nodes, node < wordSize) :
    (follow head test).run state = (.ok ((nodes.find? (test state.mem)).getD 0), state) := by
  unfold follow
  rw [run_bind_ok (run_gets _ _),
    chain.walk_eq (test state.mem) (chain.length_le bounded)]
  rfl

theorem Placed.base_lt (placed : Placed hhdm pmm layout others) (member : slab ∈ layout.slabs) :
    0 < slab.base hhdm ∧ slab.base hhdm < wordSize := by
  have bounds := placed.slab_bounds member
  have fits := (geometry (placed.cache slab member)).fits
  unfold sizeofSlabHeader pageSize at *
  omega

theorem Shape.search (shape : Shape hhdm state layout others live) {idx : Nat}
    (cache : idx < numSlabCaches) (test : Memory → Nat → Bool) :
    ((follow (fun state => state.caches idx) test).run state = (.ok 0, state) ∧
      ∀ slab ∈ layout.slabs, slab.cache = idx → test state.mem (slab.base hhdm) = false) ∨
    ∃ slab ∈ layout.slabs, slab.cache = idx ∧ test state.mem (slab.base hhdm) = true ∧
      (follow (fun state => state.caches idx) test).run state = (.ok (slab.base hhdm), state) := by
  have ran := @run_follow state (fun state => state.caches idx) test _ (shape.chains idx cache) (by
    intro node member
    obtain ⟨slab, isSlab, _, rfl⟩ := Layout.mem_bases.mp member
    exact (shape.base_lt isSlab).2)
  rw [ran]
  cases found : (layout.bases hhdm idx).find? (test state.mem) with
  | none =>
    refine .inl ⟨rfl, ?_⟩
    intro slab member same
    have failed := List.find?_eq_none.mp found (slab.base hhdm)
      (Layout.mem_bases.mpr ⟨slab, member, same, rfl⟩)
    exact Bool.eq_false_iff.mpr failed
  | some base =>
    obtain ⟨slab, member, same, rfl⟩ := Layout.mem_bases.mp (mem_of_find?_eq_some found)
    exact .inr ⟨slab, member, same, find?_some found, rfl⟩

theorem headInside_of_holds (holds : Holds hhdm mem slab (slot :: rest))
    (cache : slab.cache < numSlabCaches) : headInside mem (slab.base hhdm) = true := by
  have inside := (holds.slots slot (.head _)).inside cache
  have wide := (geometry cache).slot
  unfold headInside
  rw [holds.totalObjs, holds.objSize, holds.list.1]
  simp only [decide_eq_true_eq]
  omega

theorem run_allocSmall (shape : Shape hhdm state layout others live) (small : size ≤ slabSizeMax) :
    (∃ slab slot rest, slab ∈ layout.slabs ∧ slab.cache = sizeToIndex size ∧
      layout.free slab = slot :: rest ∧
      (allocSmall hhdm (sizeToIndex size)).run state =
        (.ok slot, { state with mem := takeHead (slab.base hhdm) state.mem })) ∨
    (allocSmall hhdm (sizeToIndex size)).run state = (.ok 0, state) ∧
      (allocPages (slabPages (sizeToIndex size))).run state = (.ok 0, state) ∨
    ∃ slab slot rest grown, slab ∉ layout.slabs ∧ slab.cache = sizeToIndex size ∧
      slab.slots hhdm = slot :: rest ∧ Shape hhdm grown (layout.addSlab hhdm slab) others live ∧
      Untouched live state.mem grown.mem ∧
      (allocSmall hhdm (sizeToIndex size)).run state =
        (.ok slot, { grown with mem := takeHead (slab.base hhdm) grown.mem }) ∧ slab.phys ≠ 0 ∧
      (allocPages (slabPages (sizeToIndex size))).run state =
        (.ok slab.phys, { state with pmm := grown.pmm }) := by
  have cache := (sizeToIndex_spec small).1
  rcases shape.search cache (fun mem slab => 0 < freeCount mem slab) with
    ⟨ended, _⟩ | ⟨slab, member, same, stocked, found⟩
  · right
    rcases run_createSlab shape cache with
      ⟨failed, empty⟩ | ⟨slab, grown, same, fresh, created, stays, next, took⟩
    · refine .inl ⟨?_, empty⟩
      rw [allocSmall, run_bind_ok ended, if_pos rfl,
        run_bind_ok failed, if_pos rfl]
      rfl
    · right
      have isNew : slab ∈ (layout.addSlab hhdm slab).slabs := mem_cons_self
      have nonzero := (next.base_lt isNew).1
      obtain ⟨slot, rest, first⟩ : ∃ slot rest, slab.slots hhdm = slot :: rest := by
        cases list : slab.slots hhdm with
        | nil =>
          have length := slotsBelow_length (slab.base hhdm + sizeofSlabHeader)
            (indexToSize slab.cache) (slotsOf slab.cache)
          have some := (geometry (next.cache slab isNew)).some
          rw [show slotsBelow _ _ _ = [] from list] at length
          exact absurd length (ne_of_lt some)
        | cons slot rest => exact ⟨slot, rest, rfl⟩
      have holds := next.holds slab isNew
      simp only [Layout.addSlab, update_self] at holds
      rw [first] at holds
      refine ⟨slab, slot, rest, grown, fresh, same, first, next, shape.untouched_within stays, ?_,
        took⟩
      rw [allocSmall, run_bind_ok ended, if_pos rfl,
        run_bind_ok created, if_neg (Nat.ne_of_gt nonzero), run_takeSlot, holds.list.1]
  · left
    have holds := shape.holds slab member
    have nonzero := (shape.base_lt member).1
    rw [holds.freeCount, decide_eq_true_eq] at stocked
    obtain ⟨slot, rest, first⟩ := exists_cons_of_length_pos stocked
    rw [first] at holds
    refine ⟨slab, slot, rest, member, same, first, ?_⟩
    rw [allocSmall, run_bind_ok found, if_neg (Nat.ne_of_gt nonzero),
      run_bind_ok (run_gets _ _),
      headInside_of_holds holds (shape.cache slab member), if_pos rfl, run_takeSlot, holds.list.1]

theorem slabSpans_iff (holds : Holds hhdm mem slab free) (ptr : Nat) :
    slabSpans ptr mem (slab.base hhdm) = true ↔ slab.base hhdm ≤ ptr ∧
      ptr < slab.base hhdm + (sizeofSlabHeader + slotsOf slab.cache * indexToSize slab.cache) := by
  unfold slabSpans
  rw [holds.totalObjs, holds.objSize, decide_eq_true_eq]

theorem Shape.spans_owner (shape : Shape hhdm state layout others live)
    (member : slab ∈ layout.slabs) (spans : slabSpans ptr state.mem (slab.base hhdm) = true)
    (isOther : other ∈ layout.slabs)
    (otherSpans : slabSpans ptr state.mem (other.base hhdm) = true) : other = slab := by
  by_contra different
  have apart := shape.slabs_apart isOther member different
  have fits := (geometry (shape.cache slab member)).fits
  have otherFits := (geometry (shape.cache other isOther)).fits
  rw [slabSpans_iff (shape.holds slab member)] at spans
  rw [slabSpans_iff (shape.holds other isOther)] at otherSpans
  omega

theorem run_freeSmall_outside (shape : Shape hhdm state layout others live) {idx ptr : Nat}
    (cache : idx < numSlabCaches) (outside : ∀ slab ∈ layout.slabs, slab.cache = idx →
      slabSpans ptr state.mem (slab.base hhdm) = false) :
    (freeSmall ptr idx).run state = (.error (.panic .invalidFree), state) := by
  rcases shape.search cache (slabSpans ptr) with ⟨ended, _⟩ | ⟨slab, member, same, spans, _⟩
  · rw [freeSmall, run_bind_ok ended, if_pos rfl]
    rfl
  · rw [outside slab member same] at spans
    cases spans

theorem run_freeSmall_inside (shape : Shape hhdm state layout others live)
    (member : slab ∈ layout.slabs) (spans : slabSpans ptr state.mem (slab.base hhdm) = true) :
    (freeSmall ptr slab.cache).run state =
      if ptr ∈ layout.free slab then (.error (.panic .doubleFree), state)
      else (.ok (), { state with mem := putHead (slab.base hhdm) ptr state.mem }) := by
  have holds := shape.holds slab member
  have found : (follow (fun state => state.caches slab.cache) (slabSpans ptr)).run state =
      (.ok (slab.base hhdm), state) := by
    rcases shape.search (shape.cache slab member) (slabSpans ptr) with
      ⟨_, outside⟩ | ⟨other, isOther, _, otherSpans, found⟩
    · rw [outside slab member rfl] at spans
      cases spans
    · rw [shape.spans_owner member spans isOther otherSpans] at found
      exact found
  have walked := @run_follow state (fun state => freeList state.mem (slab.base hhdm))
    (fun _ cur => cur = ptr) _ holds.list (by
      intro node isFree
      exact shape.free_lt member isFree)
  rw [freeSmall, run_bind_ok found,
    if_neg (Nat.ne_of_gt (shape.base_lt member).1), run_bind_ok walked]
  cases hit : (layout.free slab).find? (fun cur => decide (cur = ptr)) with
  | none =>
    have absent : ptr ∉ layout.free slab := fun isFree =>
      List.find?_eq_none.mp hit ptr isFree (decide_eq_true rfl)
    rw [if_neg absent, Option.getD_none, if_pos rfl]
    rfl
  | some node =>
    have passed := find?_some hit
    have same : node = ptr := of_decide_eq_true passed
    have isFree : ptr ∈ layout.free slab := same ▸ mem_of_find?_eq_some hit
    rw [if_pos isFree, Option.getD_some, same, if_neg (holds.list.ne_zero isFree)]
    rfl

end

end Synx.Slab
