/-
The state of the kernel that system calls work on.
-/

import Synx.Exec.Image
import Synx.Fs.Ramfs

namespace Synx.Kernel

open Lib
open Program (Stop)
open Pmm (pageSize)
open Exec (Machine Loader FrameEvent)
open Vfs (Fs Heap Fault)

def slabSizeMax : Nat := 4096
def sizeofSlabHeader : Nat := 40

/-- The page allocator and the requests that the slab allocator has served. -/
structure Pages where
  pmm : Pmm.State
  /-- Whether a request for a small object finds a free slot. -/
  slots : Nat → Bool
  requests : Nat

/-- The object size of the cache for a request, and the pages of a new slab. -/
def cacheSize (size : Nat) : Nat :=
  ((List.range 9).map (16 * 2 ^ ·)).find? (size ≤ ·) |>.getD slabSizeMax

def slabPages (size : Nat) : Nat :=
  (sizeofSlabHeader + cacheSize size * 4 + pageSize - 1) / pageSize

/-- The pages of a large object with its header page. -/
def largePages (size : Nat) : Nat := (size + pageSize - 1) / pageSize + 1

namespace Pages

def allocBlock (pages : Pages) (count : Nat) : Option Nat × Pages :=
  let (phys, pmm) := Pmm.allocPages pages.pmm count
  (if phys = 0 then none else some phys, { pages with pmm := pmm })

def alloc (size : Nat) (pages : Pages) : Option Nat × Pages :=
  if size = 0 then (none, pages)
  else if slabSizeMax < size then pages.allocBlock (largePages size)
  else
    let served := { pages with requests := pages.requests + 1 }
    if pages.slots pages.requests then (some pages.requests, served)
    else served.allocBlock (slabPages size)

/-- A large object of more than 1024 pages is not given back. -/
def free (address size : Nat) (pages : Pages) : Pages :=
  if 0 < size ∧ size ≤ slabSizeMax then pages
  else if 1024 < largePages size then pages
  else { pages with pmm := Pmm.freePages pages.pmm address (largePages size) }

def heap : Heap Pages := ⟨alloc, free⟩

end Pages

/-- A key that the keyboard driver has decoded. -/
structure KeyEvent where
  pressed : Bool
  ascii : UInt8

structure State where
  mem : Memory
  log : List FrameEvent
  pages : Pages
  vfs : Vfs.State
  /-- The physical address of `paging::pml4_base`, zero before it is set. -/
  kernelRoot : Nat
  /-- Whether the processor has the no-execute bit. -/
  nx : Bool
  activeRootPhys : Nat
  cr3 : Nat
  openFiles : Nat → Option Nat
  fdFlags : Nat → Nat
  /-- The buffer `current_directory`. -/
  currentDirectory : List UInt8
  fileCreationMask : Nat
  /-- The events that the keyboard will still deliver. -/
  keyboard : List KeyEvent := []
  /-- The characters written to the console so far. -/
  console : List UInt8 := []
  uptimeUs : Nat := 0

abbrev Action (α : Type) := Program State (Stop Fault) α

def fail {α : Type} (code : Int) : Action α := Program.stop (.code code)

namespace State

def machine (kernel : State) : Machine := ⟨kernel.mem, kernel.pages.pmm, kernel.log⟩

def setMachine (machine : Machine) (kernel : State) : State :=
  { kernel with
    mem := machine.mem
    log := machine.log
    pages := { kernel.pages with pmm := machine.pmm } }

def fs (kernel : State) : Fs Pages := ⟨kernel.vfs, kernel.pages⟩

def setFs (fs : Fs Pages) (kernel : State) : State :=
  { kernel with vfs := fs.vfs, pages := fs.heap }

end State

def onFs {α : Type} (call : Vfs.Call Pages α) : Action α := Program.zoom State.fs State.setFs call

/-- A loader function; `none` is the result `false`. -/
def onMachine {α : Type} (loader : Loader α) : Action (Option α) := fun kernel =>
  match loader.run kernel.machine with
  | (.ok value, machine) => (.ok (some value), kernel.setMachine machine)
  | (.error (), machine) => (.ok none, kernel.setMachine machine)

def changeMachine (change : Machine → Machine) : Action Unit :=
  Program.modify (fun kernel => kernel.setMachine (change kernel.machine))

theorem run_changeMachine (change : Machine → Machine) (kernel : State) :
    (changeMachine change).run kernel = (.ok (), kernel.setMachine (change kernel.machine)) := rfl

def slabAlloc (size : Nat) : Action (Option Nat) := onFs (Vfs.slabAlloc Pages.heap size)

def slabFree (address size : Nat) : Action Unit := onFs (Vfs.slabFree Pages.heap address size)

end Synx.Kernel
