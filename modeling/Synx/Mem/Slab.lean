/-
The slab allocator of `mem/slab.cpp`.
-/

import Synx.Lib.Chain
import Synx.Lib.Memory
import Synx.Lib.Program
import Synx.Mem.Pmm

namespace Synx.Slab

open Lib
open Lib.Memory (readWord writeWord fill)
open Pmm (pageSize wordSize)

def slabSizeMax : Nat := 4096
def numSlabCaches : Nat := 9
def sizeofSlabHeader : Nat := 40
def largeObjHeaderSize : Nat := 16

inductive Panic
  | initialCache
  | corruptedFreeList
  | doubleFree
  | invalidFree
  deriving DecidableEq

/-- A call that does not return: it panics, or it follows a list without an end. -/
inductive Halt
  | panic (reason : Panic)
  | endless
  deriving DecidableEq

/-- The memory, the page allocator and the array `slab_caches`. -/
structure State where
  mem : Memory
  pmm : Pmm.State
  caches : Nat → Nat

abbrev Call (α : Type) := Program State Halt α

/-- The direct map, with the offset that the boot loader reports. -/
def physToVirt (hhdm phys : Nat) : Nat := (phys + hhdm) % wordSize

def virtToPhys (hhdm virt : Nat) : Nat := (virt + (wordSize - hhdm % wordSize)) % wordSize

/-! ### Sizes -/

/-- The loop of `size_to_index`, which ends at the last cache. -/
def sizeToIndexLoop (size : Nat) : Nat → Nat → Nat → Nat
  | 0, _, idx => idx
  | remaining + 1, s, idx =>
    if s < size then sizeToIndexLoop size remaining (s * 2) (idx + 1) else idx

def sizeToIndex (size : Nat) : Nat :=
  if size ≤ 16 then 0 else sizeToIndexLoop size (numSlabCaches - 1) 16 0

def indexToSize (idx : Nat) : Nat := 16 <<< idx

/-- The loop of `create_slab` that finds the pages and the bytes of a slab.  A step
adds a page, so `needed` steps are enough. -/
def slabExtentLoop (needed : Nat) : Nat → Nat → Nat → Nat × Nat
  | 0, pages, total => (pages, total)
  | remaining + 1, pages, total =>
    if total < needed then slabExtentLoop needed remaining (pages + 1) (total + pageSize)
    else (pages, total)

def slabExtent (objSize : Nat) : Nat × Nat :=
  let needed := sizeofSlabHeader + objSize * 4
  slabExtentLoop needed needed 1 pageSize

def slabPages (idx : Nat) : Nat := (slabExtent (indexToSize idx)).1

def slabTotal (idx : Nat) : Nat := (slabExtent (indexToSize idx)).2

def slotsOf (idx : Nat) : Nat := (slabTotal idx - sizeofSlabHeader) / indexToSize idx

/-- The pages of a large object with its header page. -/
def largePages (size : Nat) : Nat := (size + pageSize - 1) % wordSize / pageSize + 1

/-! ### The slab header -/

def freeList (mem : Memory) (slab : Nat) : Nat := readWord mem (slab + 8)
def objSize (mem : Memory) (slab : Nat) : Nat := readWord mem (slab + 16)
def totalObjs (mem : Memory) (slab : Nat) : Nat := readWord mem (slab + 24)
def freeCount (mem : Memory) (slab : Nat) : Nat := readWord mem (slab + 32)

/-! ### Growing a cache -/

/-- Puts the `count` slots from the `i`-th on the free list. -/
def threadSlots (header base size : Nat) : Nat → Nat → Memory → Memory
  | _, 0, mem => mem
  | i, count + 1, mem =>
    let slot := base + i * size
    let linked := writeWord mem slot (freeList mem header)
    threadSlots header base size (i + 1) count (writeWord linked (header + 8) slot)

/-- The fields that `create_slab` sets before it threads the slots. -/
def writeHeader (mem : Memory) (header size objects next : Nat) : Memory :=
  let sized := writeWord mem (header + 16) size
  let counted := writeWord sized (header + 24) objects
  let free := writeWord counted (header + 32) (totalObjs counted header)
  let linked := writeWord free header next
  writeWord linked (header + 8) 0

@[irreducible]
def buildSlab (mem : Memory) (header idx next : Nat) : Memory :=
  let zeroed := fill mem header (slabTotal idx) 0
  let headed := writeHeader zeroed header (indexToSize idx) (slotsOf idx) next
  threadSlots header (header + sizeofSlabHeader) (indexToSize idx) 0 (totalObjs headed header)
    headed

/-- The call of `pmm::allocPages`; zero reports a failure. -/
def allocPages (count : Nat) : Call Nat := fun state =>
  let (phys, pmm) := Pmm.allocPages state.pmm count
  (.ok phys, { state with pmm := pmm })

section

variable (hhdm : Nat)

def createSlab (idx : Nat) : Call Nat := do
  let phys ← allocPages (slabPages idx)
  if phys = 0 then pure 0
  else do
    let virt := physToVirt hhdm phys
    Program.modify (fun state =>
      { state with
        mem := buildSlab state.mem virt idx (state.caches idx)
        caches := Function.update state.caches idx virt })
    pure virt

def init : Call Unit :=
  Program.each (fun idx => do
    let slab ← createSlab hhdm idx
    if slab = 0 then Program.stop (.panic .initialCache) else pure ()) (List.range numSlabCaches)

/-! ### Allocation -/

/-- Follows a list.  Addresses have 64 bits, so a list of more links repeats one
and has no end. -/
def follow (head : State → Nat) (test : Memory → Nat → Bool) : Call Nat := do
  let stopped ← Program.gets
    (fun state => walk (readWord state.mem) (test state.mem) wordSize (head state))
  match stopped with
  | some node => pure node
  | none => Program.stop .endless

/-- Takes the first slot off the free list of a slab. -/
def takeHead (slab : Nat) (mem : Memory) : Memory :=
  let popped := writeWord mem (slab + 8) (readWord mem (freeList mem slab))
  writeWord popped (slab + 32) (freeCount popped slab + (wordSize - 1))

def takeSlot (slab : Nat) : Call Nat := do
  let obj ← Program.gets (fun state => freeList state.mem slab)
  Program.modify (fun state => { state with mem := takeHead slab state.mem })
  pure obj

def allocLarge (size : Nat) : Call Nat := do
  let phys ← allocPages (largePages size)
  if phys = 0 then pure 0
  else do
    let virt := physToVirt hhdm phys
    Program.modify (fun state =>
      { state with mem := writeWord (writeWord state.mem virt (largePages size)) (virt + 8) size })
    pure (virt + largeObjHeaderSize)

/-- Whether the head of the free list lies among the slots of its slab. -/
def headInside (mem : Memory) (slab : Nat) : Bool :=
  let slabStart := slab + sizeofSlabHeader
  slabStart ≤ freeList mem slab ∧ freeList mem slab <
    slabStart + totalObjs mem slab * objSize mem slab

def allocSmall (idx : Nat) : Call Nat := do
  let slab ← follow (fun state => state.caches idx) (fun mem slab => 0 < freeCount mem slab)
  if slab = 0 then do
    let created ← createSlab hhdm idx
    if created = 0 then pure 0 else takeSlot created
  else do
    let inside ← Program.gets (fun state => headInside state.mem slab)
    if inside then takeSlot slab else Program.stop (.panic .corruptedFreeList)

def alloc (size : Nat) : Call Nat :=
  if size = 0 then pure 0
  else if slabSizeMax < size then allocLarge hhdm size
  else allocSmall hhdm (sizeToIndex size)

/-! ### Release -/

/-- Whether a pointer lies in the header or the slots of a slab. -/
def slabSpans (ptr : Nat) (mem : Memory) (slab : Nat) : Bool :=
  slab ≤ ptr ∧ ptr < slab + (sizeofSlabHeader + totalObjs mem slab * objSize mem slab)

def putHead (slab ptr : Nat) (mem : Memory) : Memory :=
  let linked := writeWord mem ptr (freeList mem slab)
  let pushed := writeWord linked (slab + 8) ptr
  writeWord pushed (slab + 32) (freeCount pushed slab + 1)

def freeSmall (ptr idx : Nat) : Call Unit := do
  let slab ← follow (fun state => state.caches idx) (slabSpans ptr)
  if slab = 0 then Program.stop (.panic .invalidFree)
  else do
    let found ← follow (fun state => freeList state.mem slab) (fun _ cur => cur = ptr)
    if found = 0 then Program.modify (fun state => { state with mem := putHead slab ptr state.mem })
    else Program.stop (.panic .doubleFree)

/-- A header with no pages or more than 1024 of them is reported and left alone. -/
def freeLarge (ptr : Nat) : Call Unit :=
  Program.modify (fun state =>
    let header := (ptr + (wordSize - largeObjHeaderSize)) % wordSize
    let pages := readWord state.mem header
    if pages = 0 ∨ 1024 < pages then state
    else { state with pmm := Pmm.freePages state.pmm (virtToPhys hhdm header) pages })

def free (ptr size : Nat) : Call Unit :=
  if ptr = 0 then pure ()
  else if size ≤ slabSizeMax ∧ 0 < size then freeSmall ptr (sizeToIndex size)
  else freeLarge hhdm ptr

end

/-! ### Facts about sizes -/

theorem indexToSize_eq (idx : Nat) : indexToSize idx = 16 * 2 ^ idx := Nat.shiftLeft_eq 16 idx

private theorem sizeToIndexLoop_spec (size remaining s idx : Nat)
    (reached : size ≤ s * 2 ^ remaining) :
    ∃ steps ≤ remaining, sizeToIndexLoop size remaining s idx = idx + steps ∧
      size ≤ s * 2 ^ steps := by
  induction remaining generalizing s idx with
  | zero => exact ⟨0, Nat.le_refl 0, rfl, reached⟩
  | succ remaining ih =>
    rw [sizeToIndexLoop]
    split
    · obtain ⟨steps, few, index, fits⟩ := ih (s * 2) (idx + 1) (by
        rw [mul_assoc, ← Nat.pow_succ']
        exact reached)
      refine ⟨steps + 1, Nat.succ_le_succ few, by omega, ?_⟩
      rw [Nat.pow_succ', ← mul_assoc]
      exact fits
    · rename_i large
      exact ⟨0, zero_le, rfl, by omega⟩

theorem sizeToIndex_spec {size : Nat} (small : size ≤ slabSizeMax) :
    sizeToIndex size < numSlabCaches ∧ size ≤ indexToSize (sizeToIndex size) := by
  unfold sizeToIndex
  split
  · rename_i tiny
    exact ⟨by decide, tiny⟩
  · obtain ⟨steps, few, index, fits⟩ := sizeToIndexLoop_spec size (numSlabCaches - 1) 16 0 small
    rw [index, zero_add, indexToSize_eq]
    exact ⟨lt_of_le_of_lt few (by decide), fits⟩

/-- The shape of the slabs of a cache. -/
structure Geometry (idx : Nat) : Prop where
  bytes : slabTotal idx = slabPages idx * pageSize
  pages : 0 < slabPages idx
  fits : sizeofSlabHeader + slotsOf idx * indexToSize idx ≤ slabTotal idx
  some : 0 < slotsOf idx
  slot : 16 ≤ indexToSize idx
  size : indexToSize idx < wordSize
  total : slabTotal idx + 1 < wordSize

theorem geometry {idx : Nat} (cache : idx < numSlabCaches) : Geometry idx := by
  have checked : ∀ idx < 9, slabTotal idx = slabPages idx * pageSize ∧ 0 < slabPages idx ∧
      sizeofSlabHeader + slotsOf idx * indexToSize idx ≤ slabTotal idx ∧ 0 < slotsOf idx ∧
      16 ≤ indexToSize idx ∧ indexToSize idx < wordSize ∧ slabTotal idx + 1 < wordSize := by
    decide +kernel
  obtain ⟨bytes, pages, fits, some, slot, size, total⟩ := checked idx cache
  exact ⟨bytes, pages, fits, some, slot, size, total⟩

theorem Geometry.slots_lt {idx : Nat} (shape : Geometry idx) : slotsOf idx + 1 < wordSize :=
  lt_of_le_of_lt
    (Nat.succ_le_succ (le_trans (Nat.div_le_self _ _) (Nat.sub_le _ _))) shape.total

end Synx.Slab
