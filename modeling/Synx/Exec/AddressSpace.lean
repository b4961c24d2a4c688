/-
User address spaces of `proc/elf_exec.cpp`: four-level page tables that are
built from freshly allocated frames and torn down frame by frame.
-/

import Synx.Lib.Program
import Synx.Mem.Pmm
import Synx.Mem.PageEntry

namespace Synx.Exec

open Lib
open Pmm (pageSize)
open Paging

def userTop : Nat := 0x0000800000000000

inductive FrameEvent
  | took (phys : Nat)
  | gave (phys : Nat)
  | wrote (address length : Nat)
  deriving DecidableEq

structure Machine where
  mem : Memory
  pmm : Pmm.State
  log : List FrameEvent

namespace Machine

def record (machine : Machine) (event : FrameEvent) : Machine :=
  { machine with log := event :: machine.log }

def writeBytes (machine : Machine) (address : Nat) (bytes : List UInt8) : Machine :=
  { machine with
    mem := Memory.writeBytes machine.mem address bytes
    log := .wrote address bytes.length :: machine.log }

def writeWord (machine : Machine) (address value : Nat) : Machine :=
  { machine with
    mem := Memory.writeWord machine.mem address value
    log := .wrote address 8 :: machine.log }

/-- `memset(phys_to_virt(phys), 0, PAGE_SIZE)`. -/
def zeroPage (machine : Machine) (phys : Nat) : Machine :=
  { machine with
    mem := Memory.fill machine.mem phys pageSize 0
    log := .wrote phys pageSize :: machine.log }

/-- `pmm::freePage` on a frame of an address space. -/
def freeFrame (machine : Machine) (phys : Nat) : Machine :=
  { machine with
    pmm := Pmm.freePage machine.pmm phys
    log := .gave phys :: machine.log }

end Machine

/-- A loader function that may return `false`. -/
abbrev Loader (α : Type) := Program Machine Unit α

def refuse {α : Type} : Loader α := Program.stop ()

/-! ### Allocation and teardown -/

def allocateZeroedPage : Loader Nat := fun machine =>
  let (phys, pmm) := Pmm.allocPage machine.pmm
  let machine := { machine with pmm := pmm }
  if phys = 0 then (.ok 0, machine)
  else (.ok phys, (machine.record (.took phys)).zeroPage phys)

/-- Frees the tables and leaves below a table of the given level, then the
table.  Level one holds the leaves. -/
def destroyTableTree : Nat → Machine → Nat → Machine
  | 0, machine, _ => machine
  | level + 1, machine, tablePhys =>
    let emptied := (List.range pageTableEntries).foldl (fun machine index =>
      let entry := entryAt machine.mem tablePhys index
      if flagged entry ptePresent then
        if level = 0 then machine.freeFrame (pteAddress entry)
        else if flagged entry pteLarge then machine
        else destroyTableTree level machine (pteAddress entry)
      else machine) machine
    emptied.freeFrame tablePhys

def destroyAddressSpace (machine : Machine) (rootPhys : Nat) : Machine :=
  if rootPhys = 0 then machine
  else
    let emptied := (List.range 256).foldl (fun machine index =>
      let entry := entryAt machine.mem rootPhys index
      if flagged entry ptePresent && !flagged entry pteLarge then
        destroyTableTree 3 machine (pteAddress entry)
      else machine) machine
    emptied.freeFrame rootPhys

/-- The new root shares the upper half of the kernel's root. -/
def copyKernelEntry (kernelRoot rootPhys index : Nat) : Loader Unit :=
  Program.modify (fun machine =>
    machine.writeWord (entryAddress rootPhys index) (entryAt machine.mem kernelRoot index))

def upperHalf : List Nat := List.range' 256 256

theorem mem_upperHalf (index : Nat) : index ∈ upperHalf ↔ 256 ≤ index ∧ index < 512 := by
  unfold upperHalf
  rw [List.mem_range'_1]

-- unification must not run a loop over this list
attribute [irreducible] upperHalf

/-- `kernelRoot` is the physical address of `paging::pml4_base`, zero before
paging is set up. -/
def createAddressSpace (kernelRoot : Nat) : Loader Nat :=
  if kernelRoot = 0 then refuse
  else do
    let rootPhys ← allocateZeroedPage
    if rootPhys = 0 then refuse
    else do
      Program.each (copyKernelEntry kernelRoot rootPhys) upperHalf
      pure rootPhys

/-! ### Walking and mapping -/

def pageIndices (virtualAddress : Nat) : List Nat :=
  [virtualAddress / 2 ^ 39 % 512, virtualAddress / 2 ^ 30 % 512,
    virtualAddress / 2 ^ 21 % 512, virtualAddress / 2 ^ 12 % 512]

def tableIndices (virtualAddress : Nat) : List Nat := (pageIndices virtualAddress).take 3

def leafIndex (virtualAddress : Nat) : Nat := virtualAddress / 2 ^ 12 % 512

/-- The walk of `locate_pte` through present tables. -/
def locateTable (mem : Memory) : Nat → List Nat → Option Nat
  | table, [] => some table
  | table, index :: rest =>
    let entry := entryAt mem table index
    if flagged entry ptePresent && !flagged entry pteLarge then
      locateTable mem (pteAddress entry) rest
    else none

/-- The physical address of the leaf entry of a page. -/
def locatePte (mem : Memory) (root virtualAddress : Nat) : Option Nat :=
  if 256 ≤ virtualAddress / 2 ^ 39 % 512 then none
  else (locateTable mem root (tableIndices virtualAddress)).map
    (fun table => entryAddress table (leafIndex virtualAddress))

/-- The three upper levels of `map_user_page`: missing tables are created and
present ones are opened to the user. -/
def openTables : Nat → List Nat → Loader Nat
  | table, [] => pure table
  | table, index :: rest => do
      let entry ← Program.gets (fun machine => entryAt machine.mem table index)
      if flagged entry ptePresent then
        if flagged entry pteLarge then refuse
        else do
          let entry := entry ||| pteUser
          Program.modify (fun machine => machine.writeWord (entryAddress table index) entry)
          openTables (pteAddress entry) rest
      else do
        let tablePhys ← allocateZeroedPage
        if tablePhys = 0 then refuse
        else do
          let entry := tablePhys ||| ptePresent ||| pteWritable ||| pteUser
          Program.modify (fun machine => machine.writeWord (entryAddress table index) entry)
          openTables (pteAddress entry) rest

/-- `leaf &= ~PTE_NX`. -/
def clearNx (entry : Nat) : Nat := entry &&& (2 ^ 64 - 1 - pteNx)

def mergedLeaf (leaf flags : Nat) : Nat :=
  let widened := leaf ||| (flags &&& pteWritable)
  if flagged flags pteNx then widened else clearNx widened

def mapUserPage (root virtualAddress flags : Nat) : Loader Unit :=
  if 256 ≤ virtualAddress / 2 ^ 39 % 512 then refuse
  else do
    let table ← openTables root (tableIndices virtualAddress)
    let index := leafIndex virtualAddress
    let leaf ← Program.gets (fun machine => entryAt machine.mem table index)
    if flagged leaf ptePresent then
      Program.modify (fun machine =>
        machine.writeWord (entryAddress table index) (mergedLeaf leaf flags))
    else do
      let pagePhys ← allocateZeroedPage
      if pagePhys = 0 then refuse
      else
        Program.modify (fun machine => machine.writeWord (entryAddress table index)
          (pagePhys ||| ptePresent ||| pteUser ||| flags))

/-! ### Copies through the page tables -/

/-- The loop of `copy_to_space`.  Every round copies at least one byte, so the
number of bytes bounds the number of rounds. -/
def copyChunks (root address : Nat) : Nat → Nat → List UInt8 → Loader Unit
  | _, _, [] => pure ()
  | 0, _, _ :: _ => refuse
  | rounds + 1, copied, byte :: rest =>
    let bytes := byte :: rest
    if userTop ≤ address ∨ userTop - address < copied then refuse
    else do
      let mem ← Program.gets Machine.mem
      match locatePte mem root (address + copied) with
      | none => refuse
      | some pte =>
        let entry := Memory.readWord mem pte
        if flagged entry ptePresent then do
          let inPage := (address + copied) % pageSize
          let chunk := min (pageSize - inPage) bytes.length
          Program.modify (fun machine =>
            machine.writeBytes (pteAddress entry + inPage) (bytes.take chunk))
          copyChunks root address rounds (copied + chunk) (bytes.drop chunk)
        else refuse

def copyToSpace (root address : Nat) (source : List UInt8) : Loader Unit :=
  copyChunks root address source.length 0 source

/-- The loop of `copy_from_space`, with the bytes still to read. -/
def readChunks (mem : Memory) (root address : Nat) : Nat → Nat → Nat → Option (List UInt8)
  | _, _, 0 => some []
  | 0, _, _ + 1 => none
  | rounds + 1, copied, missing + 1 =>
    if userTop ≤ address ∨ userTop - address < copied then none
    else
      match locatePte mem root (address + copied) with
      | none => none
      | some pte =>
        let entry := Memory.readWord mem pte
        if flagged entry ptePresent then
          let inPage := (address + copied) % pageSize
          let chunk := min (pageSize - inPage) (missing + 1)
          (readChunks mem root address rounds (copied + chunk) (missing + 1 - chunk)).map
            (fun later => Memory.readBytes mem (pteAddress entry + inPage) chunk ++ later)
        else none

def copyFromSpace (root address size : Nat) : Loader (List UInt8) := do
  let mem ← Program.gets Machine.mem
  match readChunks mem root address size 0 size with
  | some bytes => pure bytes
  | none => refuse

end Synx.Exec
