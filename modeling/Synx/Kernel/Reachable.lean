/-
The states that the kernel comes to after its boot.
-/

import Synx.Fs.Boot
import Synx.Kernel.Dispatch
import Synx.Kernel.Isolation

namespace Synx.Vfs

open Lib Option

theorem Paired.counted {vfs : State} (paired : Paired vfs) {id : Nat} {inode : Inode}
    (live : vfs.inodes id = some inode) : inode.refCount = (fibre vfs.dentryInode id).ncard := by
  obtain ⟨holder, dentry, liveHolder, points⟩ := paired.holder id inode live
  have only : fibre vfs.dentryInode id = {holder} := by
    ext other
    rw [mem_fibre, Set.mem_singleton_iff]
    constructor
    · intro pointsToo
      obtain ⟨second, liveOther, same⟩ := bind_eq_some_iff.mp pointsToo
      exact paired.alone other holder second dentry liveOther liveHolder (same.trans points.symm)
    · rintro rfl
      exact bind_eq_some_iff.mpr ⟨dentry, liveHolder, points⟩
  rw [paired.inode id inode live, only, Set.ncard_singleton]
  rfl

end Synx.Vfs

namespace Synx.Kernel

open Lib
open Lib.Program
open Exec (FrameEvent ptLoad pfX)
open Initramfs (TreeBuilt FreshTree mountRoot loadModules newcArchive)
open Vfs (Accounts Fs)

/-- `current_directory` before the first call. -/
def rootDirectory : List UInt8 := Vfs.slash :: List.replicate 255 0

inductive Reachable (stamp : List UInt8) (vfs : Vfs.State) : State → Prop
  | boot {kernel : State} (files : kernel.vfs = vfs) (closed : ∀ fd, kernel.openFiles fd = none)
      (flags : ∀ fd, kernel.fdFlags fd = 0) (directory : kernel.currentDirectory = rootDirectory)
      (noProgram : kernel.activeRootPhys = 0) : Reachable stamp vfs kernel
  | launch {kernel after : State} {result : Except (Stop Vfs.Fault) Exec.ExecImage}
      (path : List UInt8) (earlier : Reachable stamp vfs kernel)
      (ran : (launchStatic path).run kernel = (result, after)) :
      Reachable stamp vfs after
  | call {kernel after : State} {result : Except (Stop Vfs.Fault) (Option Reply)}
      (frame : RegisterFrame) (earlier : Reachable stamp vfs kernel)
      (ran : (syscallDispatch stamp frame).run kernel = (result, after)) : Reachable stamp vfs after
  | other {kernel : State} (mem : Memory) (log : List FrameEvent) (pages : Pages)
      (keyboard : List KeyEvent) (console : List UInt8) (uptimeUs : Nat)
      (earlier : Reachable stamp vfs kernel) :
      Reachable stamp vfs { kernel with
        mem := mem, log := log, pages := pages, keyboard := keyboard, console := console,
        uptimeUs := uptimeUs }

section

variable {stamp : List UInt8} {vfs : Vfs.State} {kernel : State}

theorem Reachable.launched (reached : Reachable stamp vfs kernel) (path : List UInt8) :
    Reachable stamp vfs ((launchStatic path).run kernel).2 := .launch path reached rfl

theorem Reachable.called (reached : Reachable stamp vfs kernel) (frame : RegisterFrame) :
    Reachable stamp vfs ((syscallDispatch stamp frame).run kernel).2 := .call frame reached rfl

theorem accounts_of_fresh (fresh : FreshTree vfs) : Accounts maxOpenFiles (fun _ => none) vfs := by
  refine { tree := fresh.tree, slot := nofun, held := ?_, file := ?_, dentry := ?_ }
  · intro id file found
    rw [fresh.unopened.files id] at found
    cases found
  · intro id file found
    rw [fresh.unopened.files id] at found
    cases found
  · intro id dentry found
    have empty : fibre vfs.fileDentry id = ∅ := by
      rw [Set.eq_empty_iff_forall_notMem]
      intro other points
      obtain ⟨file, live, _⟩ := Option.map_eq_some_iff.mp points
      rw [fresh.unopened.files other] at live
      cases live
    rw [fresh.unopened.dentry id dentry found, empty, Set.ncard_empty]
    rfl

theorem rootDirectory_text : cString rootDirectory = .ok [Vfs.slash] :=
  @cString_append [Vfs.slash] (List.replicate 254 0) (by decide)

theorem sound_of_fresh (fresh : FreshTree vfs) (files : kernel.vfs = vfs)
    (closed : ∀ fd, kernel.openFiles fd = none)
    (directory : kernel.currentDirectory = rootDirectory) :
    Sound vfs.shape kernel := by
  have slots : kernel.openFiles = fun _ => none := funext closed
  have noFile : ∀ id, kernel.vfs.files id = none := by
    rw [files]
    exact fresh.unopened.files
  refine
    { shape := by rw [files]
      accounts := ?_
      fits := ?_
      near := ?_
      offset := ?_
      capacity := ?_
      text := ?_ }
  · rw [slots, files]
    exact accounts_of_fresh fresh
  · rw [files]
    exact fresh.fits
  · intro id file found
    rw [noFile id] at found
    cases found
  · intro id file found
    rw [noFile id] at found
    cases found
  · rw [directory]
    unfold rootDirectory
    rw [List.length_cons, List.length_replicate]
    decide
  · rw [directory]
    exact ⟨_, rootDirectory_text⟩

theorem Sound.launched {tree : Vfs.State} (sound : Sound tree kernel) (path : List UInt8) :
    Sound tree ((launchStatic path).run kernel).2 := by
  have ended := loadImage_answers sound (.refl kernel) path [] [] kernel rfl
  unfold launchStatic prepare
  cases ran : (loadImage path [] []).run kernel with
  | mk result after =>
    rw [ran] at ended
    cases result with
    | ok image =>
      rw [run_bind_ok ran]
      exact (sound.same ended).of_parts rfl rfl rfl
    | error reason =>
      obtain ⟨code, rfl, _, same⟩ := ended
      rw [run_bind_error ran]
      exact sound.same same

theorem Reachable.sound (reached : Reachable stamp vfs kernel) (fresh : FreshTree vfs) :
    Sound vfs.shape kernel := by
  induction reached with
  | boot files closed _ directory _ => exact sound_of_fresh fresh files closed directory
  | launch path _ ran ih =>
    have launched := ih.launched path
    rw [ran] at launched
    exact launched
  | call frame _ ran ih =>
    obtain ⟨reply, after, served, sound, _⟩ := syscallDispatch_replies ih stamp frame
    rw [served] at ran
    cases ran
    exact sound
  | other _ _ _ _ _ _ _ ih => exact ih.of_parts rfl rfl rfl

end

/-! ### Calls in reachable states -/

section Calls

variable {stamp : List UInt8} {memory : Pages} {modules : List (Option (List UInt8))}
  {start fs : Fs Pages} {kernel : State}

/-- A call on files or paths that returns a negative value has changed nothing. -/
theorem failed_call_changes_nothing (built : TreeBuilt Pages.heap memory modules start fs)
    (reached : Reachable stamp fs.vfs kernel) {frame started : RegisterFrame} {service : Service}
    (known : serviceOf frame.rax = some service) (onFiles : service ∈ fileServices) {value : Nat}
    {after : State}
    (ran : (syscallDispatch stamp frame).run kernel = (.ok (some (value, started)), after))
    (negative : 2 ^ 63 ≤ value) :
    started = frame ∧ after.openFiles = kernel.openFiles ∧ after.fdFlags = kernel.fdFlags ∧
      after.vfs.files = kernel.vfs.files ∧ after.vfs.dentries = kernel.vfs.dentries ∧
      after.vfs.inodes = kernel.vfs.inodes ∧ after.currentDirectory = kernel.currentDirectory ∧
      after.activeRootPhys = kernel.activeRootPhys ∧ after.cr3 = kernel.cr3 := by
  obtain ⟨reply, later, replied, _, served⟩ :=
    syscallDispatch_replies (reached.sound built.fresh) stamp frame
  rw [ran] at replied
  simp only [Prod.mk.injEq, Except.ok.injEq] at replied
  obtain ⟨isReply, rfl⟩ := replied
  obtain ⟨sameFrame, same⟩ :=
    (served service known onFiles).unchanged value started isReply.symm negative
  have vfs := same.vfs
  refine ⟨sameFrame, same.openFiles, same.fdFlags, ?_, ?_, ?_, same.currentDirectory,
    same.activeRootPhys, same.cr3⟩
  · rw [vfs]
  · rw [vfs]
  · rw [vfs]

/-- In every reachable state the references are counted, the tree is the one that
was loaded, and no call comes to an operation that ramfs does not have. -/
theorem references_counted (built : TreeBuilt Pages.heap memory modules start fs) {root : Nat}
    (mounted : start.vfs.rootDentry = some root) (reached : Reachable stamp fs.vfs kernel) :
    (∀ id file, kernel.vfs.files id = some file →
        file.refCount = (fibre kernel.openFiles id).ncard) ∧
      (∀ id dentry, kernel.vfs.dentries id = some dentry →
        dentry.refCount = 1 + (fibre kernel.vfs.fileDentry id).ncard) ∧
      (∀ id inode, kernel.vfs.inodes id = some inode →
        inode.refCount = (fibre kernel.vfs.dentryInode id).ncard) ∧
      kernel.vfs.shape = fs.vfs.shape ∧
      ∀ frame, ∃ reply after, (syscallDispatch stamp frame).run kernel = (.ok reply, after) := by
  have sound := reached.sound built.fresh
  refine ⟨sound.accounts.file, sound.accounts.dentry, ?_, sound.shape, ?_⟩
  · intro id inode found
    have inodes : kernel.vfs.inodes = fs.vfs.inodes := by
      change kernel.vfs.shape.inodes = fs.vfs.shape.inodes
      rw [sound.shape]
    have holders : kernel.vfs.dentryInode = fs.vfs.dentryInode := by
      rw [← kernel.vfs.shape_dentryInode, sound.shape, fs.vfs.shape_dentryInode]
    rw [inodes] at found
    rw [holders]
    exact (built.paired mounted).counted found
  · intro frame
    obtain ⟨reply, after, ran, _⟩ := syscallDispatch_replies sound stamp frame
    exact ⟨reply, after, ran⟩

end Calls

/-! ### A small machine -/

/-- An executable with the path `/a` after its headers. -/
def smallProgram : List UInt8 :=
  elfBytes 0x400000 [⟨ptLoad, 4 ||| pfX, 0, 0x400000, 123, 512, 0⟩] ++ [Vfs.slash, 97, 0]

/-- The executable `/a` and the directory `/d`. -/
def smallModules : List (Option (List UInt8)) :=
  [some
    (newcArchive [{ path := [97], body := some smallProgram }, { path := [100], body := none }] [])]

theorem smallPages_addressable : 4096 ≤ 2 ^ 52 := by decide

/-- Sixteen megabytes, with the kernel's root in page one. -/
def smallPages : Pages :=
  { pmm :=
      { bitmap := fun byte => if byte = 0 then 3 else 0
        totalPages := 4096
        freePages := 4094
        addressable := smallPages_addressable }
    slots := fun _ => true
    requests := 0 }

def smallRoot : Fs Pages := ((mountRoot Pages.heap).run ⟨Vfs.State.blank, smallPages⟩).2

def smallTree : Fs Pages := ((loadModules Pages.heap smallModules).run smallRoot).2

theorem smallTree_built : TreeBuilt Pages.heap smallPages smallModules smallRoot smallTree := by
  constructor
  · have mounts : ((mountRoot Pages.heap).run ⟨Vfs.State.blank, smallPages⟩).1.toOption =
      some true := by
      decide +kernel
    rw [run_of_toOption mounts, smallRoot]
  · have loads : ((loadModules Pages.heap smallModules).run smallRoot).1.toOption = some true := by
      decide +kernel
    rw [run_of_toOption loads, smallTree]

theorem smallRoot_mounted : smallRoot.vfs.rootDentry = some 1 := by decide +kernel

-- unification must not run the boot
attribute [irreducible] smallRoot smallTree

def smallKernel : State :=
  { mem := fun _ => 0
    log := []
    pages := smallTree.heap
    vfs := smallTree.vfs
    kernelRoot := 4096
    nx := true
    activeRootPhys := 0
    cr3 := 4096
    openFiles := fun _ => none
    fdFlags := fun _ => 0
    currentDirectory := rootDirectory
    fileCreationMask := 0 }

theorem smallKernel_reachable (stamp : List UInt8) : Reachable stamp smallTree.vfs smallKernel :=
  .boot rfl (fun _ => rfl) (fun _ => rfl) rfl rfl

/-- The registers of a call with three arguments. -/
def callFrame (service : Service) (first second third : Nat) : RegisterFrame :=
  ⟨service.number, 0, 0, third, second, first, 0, 0, 0, 0, 0, 0, 0, 0, 0, 0, 0, 0⟩

/-- The kernel with the program `/a` loaded. -/
def launchedKernel : State := ((launchStatic [Vfs.slash, 97]).run smallKernel).2

/-- The program has opened its own file, as descriptor 3. -/
def openedKernel : State :=
  ((syscallDispatch [] (callFrame .open_ 0x400078 0 0)).run launchedKernel).2

theorem openedKernel_reachable : Reachable [] smallTree.vfs openedKernel :=
  ((smallKernel_reachable []).launched [Vfs.slash, 97]).called (callFrame .open_ 0x400078 0 0)

/-- A descriptor with the file `/a` at its start. -/
def AtStart (kernel : State) (fd : Nat) : Prop :=
  kernel.openFiles fd = some 7 ∧
    (kernel.vfs.files 7).map (fun file => (file.dentry, file.offset, file.flags)) = some (3, 0, 0) ∧
    (kernel.vfs.dentries 3).bind Vfs.Dentry.inode = some 2 ∧
    (kernel.vfs.inodes 2).map (fun inode => (inode.type, inode.size, Ramfs.contents inode)) =
      some (.regular, 123, smallProgram)

instance (kernel : State) (fd : Nat) : Decidable (AtStart kernel fd) :=
  inferInstanceAs (Decidable (_ ∧ _ ∧ _ ∧ _))

theorem openedKernel_start : AtStart openedKernel 3 ∧ openedKernel.cr3 = 8192 := by decide +kernel

-- unification must not run the launch
attribute [irreducible] launchedKernel openedKernel

/-- The bytes of the header are taken for a path that names no file. -/
def openedNothing : State :=
  ((syscallDispatch [] (callFrame .open_ 0x400000 0 0)).run openedKernel).2

theorem openedNothing_ran : (syscallDispatch [] (callFrame .open_ 0x400000 0 0)).run openedKernel =
    (.ok (some (codeWord errNoent, callFrame .open_ 0x400000 0 0)), openedNothing) :=
  run_of_toOption (by decide +kernel)

attribute [irreducible] openedNothing

theorem failed_open_changes_nothing :
    2 ^ 63 ≤ codeWord errNoent ∧ openedNothing.openFiles = openedKernel.openFiles ∧
      openedNothing.vfs.files = openedKernel.vfs.files := by
  have large : 2 ^ 63 ≤ codeWord errNoent := by decide
  obtain ⟨_, slots, _, files, _⟩ := failed_call_changes_nothing smallTree_built
    openedKernel_reachable (by decide : serviceOf (callFrame .open_ 0x400000 0 0).rax = some .open_)
    (by decide) openedNothing_ran large
  exact ⟨large, slots, files⟩

/-- The open file has one descriptor. -/
theorem references_counted_small :
    (openedKernel.vfs.files 7).map Vfs.File.refCount = some 1 ∧
      (fibre openedKernel.openFiles 7).ncard = 1 := by
  have counted : (openedKernel.vfs.files 7).map Vfs.File.refCount = some 1 := by decide +kernel
  obtain ⟨file, found, one⟩ := Option.map_eq_some_iff.mp counted
  obtain ⟨files, _⟩ := references_counted smallTree_built smallRoot_mounted openedKernel_reachable
  have held := (files 7 file found).symm.trans one
  exact ⟨counted, by exact_mod_cast held⟩

end Synx.Kernel
