/-
Isolation of the loader: whatever the file is, `load_image` writes only to
frames that were free and that it took itself, leaves the kernel's page tables
alone, and hands out a space of fresh, unshared frames.
-/

import Synx.Exec.Accounts
import Synx.Fs.OpenWalk
import Synx.Kernel.LoadOutcome

namespace Synx.Kernel

open Lib Program Memory
open Pmm (pageSize bitmapGet)
open Exec
open Paging

/-- The frame was free before and has been taken since. -/
def FreshFrame (before : State) (events : List FrameEvent) (phys : Nat) : Prop :=
  .took phys ∈ events ∧ bitmapGet before.pages.pmm.bitmap (phys / pageSize) = false

/-- Everything that was written lies in fresh frames, and no kernel page table
in use has been written. -/
structure Confined (before : State) (events : List FrameEvent) (after : State) : Prop where
  log : after.log = events ++ before.log
  writes : ∀ address length, .wrote address length ∈ events →
    ∃ phys, FreshFrame before events phys ∧ phys ≤ address ∧ address + length ≤ phys + 4096
  memory : ∀ address, after.mem address ≠ before.mem address →
    ∃ phys, FreshFrame before events phys ∧ phys ≤ address ∧ address < phys + 4096
  kernelTables : ∀ table, KernelTable before.mem before.kernelRoot table →
    InUse before.machine table →
    (∀ address length, .wrote address length ∈ events →
      address + length ≤ table ∨ table + 4096 ≤ address) ∧
    ∀ address, table ≤ address → address < table + 4096 →
      after.mem address = before.mem address

/-- The upper half is that of a kernel root in use; the leaves of the lower half are fresh, open
to the user and all different. -/
structure FreshSpace (before : State) (events : List FrameEvent) (root : Nat) (after : State) :
    Prop where
  upper : InUse before.machine before.kernelRoot →
    SharesKernel before.mem before.kernelRoot root after.mem
  leaves : ∀ path index table, LowPath (path ++ [index]) → path.length = 3 →
    frameAt after.mem root path = some table →
    flagged (entryAt after.mem table index) ptePresent = true →
      flagged (entryAt after.mem table index) pteUser = true ∧
        FreshFrame before events (pteAddress (entryAt after.mem table index))
  distinct : ∀ path index table path' index' table', LowPath (path ++ [index]) → path.length = 3 →
    LowPath (path' ++ [index']) → path'.length = 3 →
    frameAt after.mem root path = some table → frameAt after.mem root path' = some table' →
    flagged (entryAt after.mem table index) ptePresent = true →
    flagged (entryAt after.mem table' index') ptePresent = true →
    pteAddress (entryAt after.mem table index) = pteAddress (entryAt after.mem table' index') →
      path ++ [index] = path' ++ [index']

variable {before after : State} {root : Nat} {events : List FrameEvent}

theorem confined_of_built {middle : State} {gone : List FrameEvent} (ready : Ready before)
    (built : Built before.machine root events middle.machine) (mem : after.mem = middle.mem)
    (log : after.log = gone ++ middle.log) (silent : ∀ event ∈ gone, ∃ phys, event = .gave phys) :
    Confined before (gone ++ events) after := by
  have onlyGave : ∀ {event : FrameEvent}, event ∈ gone ++ events →
      (∀ phys, event ≠ .gave phys) → event ∈ events := by
    intro event member notGave
    rcases List.mem_append.mp member with inGone | inEvents
    · obtain ⟨phys, same⟩ := silent event inGone
      exact absurd same (notGave phys)
    · exact inEvents
  have fresh : ∀ phys ∈ takenIn events, FreshFrame before (gone ++ events) phys :=
    fun phys member => ⟨List.mem_append_right _ ((mem_takenIn events phys).mp member),
      built.wasFree phys member⟩
  have writes : ∀ address length, .wrote address length ∈ gone ++ events →
      InsideOne (takenIn events) address length := by
    intro address length wrote
    exact built.writes address length (onlyGave wrote (by intro phys same; cases same))
  have changes : ∀ address, after.mem address ≠ before.mem address →
      InsideOne (takenIn events) address 1 := by
    intro address changed
    rw [mem] at changed
    exact built.memory address changed
  refine ⟨?_, ?_, ?_, ?_⟩
  · have logged : middle.log = events ++ before.log := built.log
    rw [log, logged, List.append_assoc]
  · intro address length wrote
    obtain ⟨phys, member, above, below⟩ := writes address length wrote
    exact ⟨phys, fresh phys member, above, below⟩
  · intro address changed
    obtain ⟨phys, member, above, below⟩ := changes address changed
    exact ⟨phys, fresh phys member, above, by omega⟩
  · intro table kernelTable used
    have alignedTable := kernelTable_aligned ready.aligned kernelTable
    refine ⟨?_, ?_⟩
    · intro address length wrote
      obtain ⟨phys, member, above, below⟩ := writes address length wrote
      have apart := built.taken_apart used alignedTable member
      omega
    · intro address above below
      rw [mem]
      exact built.untouched used alignedTable above below

theorem Quiet.confined (quiet : Quiet before after) : Confined before [] after := by
  have mem : after.mem = before.mem := by rw [quiet.rest]
  have log : after.log = before.log := by rw [quiet.rest]
  refine ⟨log, ?_, ?_, ?_⟩
  · intro address length wrote
    cases wrote
  · intro address changed
    rw [mem] at changed
    exact absurd rfl changed
  · intro table _ _
    refine ⟨?_, ?_⟩
    · intro address length wrote
      cases wrote
    · intro address _ _
      rw [mem]

theorem freshSpace_of_built (built : Built before.machine root events after.machine)
    (shares : InUse before.machine before.kernelRoot →
      SharesKernel before.mem before.kernelRoot root after.mem) :
    FreshSpace before events root after := by
  have space : Space after.mem root := built.live.space
  have leafFrame : ∀ path index table, LowPath (path ++ [index]) →
      frameAt after.mem root path = some table →
      flagged (entryAt after.mem table index) ptePresent = true →
        frameAt after.mem root (path ++ [index]) =
          some (pteAddress (entryAt after.mem table index)) := by
    intro path index table low reached present
    rw [frameAt_snoc_eq_some]
    refine ⟨table, reached, ?_⟩
    rw [space.nextFrame_eq low reached, if_pos present]
  refine ⟨shares, ?_, ?_⟩
  · intro path index table low _ reached present
    have member := (built.reaches _).mpr ⟨_, low, leafFrame path index table low reached present⟩
    exact ⟨(space.clean path table index low reached present).2,
      (mem_takenIn events _).mp member, built.wasFree _ member⟩
  · intro path index table path' index' table' low _ low' _ reached reached' present present' same
    have atLeaf := leafFrame path index table low reached present
    have atLeaf' := leafFrame path' index' table' low' reached' present'
    rw [← same] at atLeaf'
    exact space.unshared _ _ _ low low' atLeaf atLeaf'

/-- Isolation of `load_image`, however it ends. -/
theorem loadImage_isolated (before : State) (ready : Ready before) (path : List UInt8)
    (argv envp : List (List UInt8)) :
    ∃ events, Confined before events ((loadImage path argv envp).run before).2 ∧
      ∀ image, ((loadImage path argv envp).run before).1 = .ok image →
        FreshSpace before events image.rootPhys ((loadImage path argv envp).run before).2 := by
  have outcome := triple_loadImage before ready path argv envp before rfl
  split at outcome
  · rename_i image after ran
    obtain ⟨events, built⟩ := outcome.built
    rw [ran]
    refine ⟨events, ?_, ?_⟩
    · have nothingGone : ∀ event, event ∈ ([] : List FrameEvent) → ∃ phys, event = .gave phys := by
        intro event member
        cases member
      exact confined_of_built ready built rfl rfl nothingGone
    · intro other same
      cases same
      exact freshSpace_of_built built outcome.shares
  · rename_i reason after ran
    rw [ran]
    cases outcome with
    | quiet quiet =>
      refine ⟨[], quiet.confined, ?_⟩
      intro image impossible
      cases impossible
    | @destroyed middle root events built rest =>
      have destroyed := built.live.space.destroyAddressSpace_eq
      let gone := ((spaceFrames middle.mem root).map FrameEvent.gave).reverse
      have given : ∀ event, event ∈ gone → ∃ phys, event = .gave phys := by
        intro event member
        rw [List.mem_reverse, List.mem_map] at member
        obtain ⟨phys, _, same⟩ := member
        exact ⟨phys, same.symm⟩
      refine ⟨gone ++ events, confined_of_built ready built ?_ ?_ given, ?_⟩
      · exact (congrArg Machine.mem destroyed).trans (Machine.freeFrames_mem _ _)
      · exact (congrArg Machine.log destroyed).trans (Machine.freeFrames_log _ _)
      · intro image impossible
        cases impossible

/-! ### A small machine -/

def elfBytes (entry : Nat) (segments : List ProgramHeader) : List UInt8 :=
  elfIdent ++ List.replicate 9 0 ++ numberBytes etExec 2 ++ numberBytes emX8664 2 ++
    numberBytes 1 4 ++ numberBytes entry 8 ++ numberBytes sizeofElfHeader 8 ++
    numberBytes 0 12 ++ numberBytes sizeofElfHeader 2 ++
    numberBytes sizeofProgramHeader 2 ++ numberBytes segments.length 2 ++
    numberBytes 0 6 ++
    segments.flatMap (fun segment =>
      numberBytes segment.type 4 ++ numberBytes segment.flags 4 ++
        numberBytes segment.offset 8 ++ numberBytes segment.vaddr 8 ++
        numberBytes 0 8 ++ numberBytes segment.filesz 8 ++
        numberBytes segment.memsz 8 ++ numberBytes segment.align 8)

/-- Sixteen megabytes with the kernel's root in page one, and a tree with the
single file `/a`. -/
def kernelWith (file : List UInt8) : State :=
  { mem := fun _ => 0
    log := []
    pages :=
      { pmm :=
          { bitmap := fun byte => if byte = 0 then 3 else 0
            totalPages := 4096
            freePages := 4094
            addressable := by decide }
        slots := fun _ => true
        requests := 0 }
    vfs := { Ramfs.smallFs.vfs with
      inodes := Function.update Ramfs.smallFs.vfs.inodes 1
        (some ⟨0, 2, .regular, file.length, 1, some ⟨0, some (0, file), file.length⟩⟩) }
    kernelRoot := 4096
    nx := true
    activeRootPhys := 0
    cr3 := 4096
    openFiles := fun _ => none
    fdFlags := fun _ => 0
    currentDirectory := [Vfs.slash]
    fileCreationMask := 0 }

theorem kernelWith_ready (file : List UInt8) : Ready (kernelWith file) where
  addressable := show 4096 ≤ 2 ^ 40 by decide
  aligned := show 4096 % 4096 = 0 by decide

/-- A page of code that starts with the file's own headers. -/
def codeSegment : ProgramHeader := ⟨ptLoad, 4 ||| pfX, 0, 0x400000, 120, 512, 0⟩

def singleFile : List UInt8 := elfBytes 0x400000 [codeSegment]

def singleImage : ExecImage :=
  { rootPhys := 8192
    entry := 0x400000
    stack := 0x7FFFFFFEFF60
    argc := 0
    argv := 0x7FFFFFFEFF68
    envp := 0x7FFFFFFEFF70 }

/-- The kernel after the small executable has been loaded. -/
def singleLoaded : State := ((loadImage [Vfs.slash, 97] [] []).run (kernelWith singleFile)).2

theorem singleFile_loads : (loadImage [Vfs.slash, 97] [] []).run (kernelWith singleFile) =
      (.ok singleImage, singleLoaded) := by
  have same : ((loadImage [Vfs.slash, 97] [] []).run (kernelWith singleFile)).1.toOption =
      some singleImage := by decide +kernel
  rw [run_of_toOption same, singleLoaded]

-- unification must not run the load
attribute [irreducible] singleLoaded

theorem loadImage_isolated_single :
    ∃ events, Confined (kernelWith singleFile) events singleLoaded ∧
      FreshSpace (kernelWith singleFile) events 8192 singleLoaded := by
  obtain ⟨events, confined, fresh⟩ :=
    loadImage_isolated (kernelWith singleFile) (kernelWith_ready _) [Vfs.slash, 97] [] []
  rw [singleFile_loads] at confined fresh
  exact ⟨events, confined, fresh singleImage rfl⟩

end Synx.Kernel
