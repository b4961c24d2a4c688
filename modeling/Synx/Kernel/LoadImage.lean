/-
`load_image` and the life of address spaces in `proc/elf_exec.cpp`: preparing an
image from a file, discarding it, making it the active space, and ending the
active space.
-/

import Synx.Kernel.State

namespace Synx.Kernel

open Lib
open Exec
open Ramfs (ramfs)

def maxAddresses : Nat := 128

/-- The buffer of the file is given back and the call fails. -/
def giveUp {α : Type} (buffer size : Nat) (code : Int) : Action α := do
  slabFree buffer size
  fail code

def fileSize (file : Nat) : Action Nat := onFs do
  let object ← Vfs.fileOf file
  let dentry ← Vfs.dentryOf object.dentry
  let (_, inode) ← Vfs.inodeOf dentry
  pure inode.size

/-- The arrays `argv_addresses` and `envp_addresses` of `map_user_stack` have a
place for each string. -/
def fitAddresses (argv envp : List (List UInt8)) : Action Unit :=
  if argv.length ≤ maxAddresses ∧ envp.length ≤ maxAddresses then pure ()
  else Program.stop (.fault .outOfBounds)

/-- The second half of `load_image`, with the file's bytes in its buffer. -/
def loadFile (path : List UInt8) (argv envp : List (List UInt8)) (buffer size : Nat)
    (file : List UInt8) : Action ExecImage :=
  match parseImage file with
  | none => giveUp buffer size (-8)
  | some plan => do
      let kernel ← Program.gets id
      match ← onMachine (createAddressSpace kernel.kernelRoot) with
      | none => giveUp buffer size (-12)
      | some root => do
          fitAddresses argv envp
          let image ← onMachine (buildImage root file plan kernel.nx argv envp path)
          slabFree buffer size
          match image with
          | none => do
              changeMachine (fun machine => destroyAddressSpace machine root)
              fail (-8)
          | some image => pure image

theorem run_fitAddresses {argv envp : List (List UInt8)} (few : argv.length ≤ maxAddresses)
    (fewEnvp : envp.length ≤ maxAddresses) (kernel : State) :
    (fitAddresses argv envp).run kernel = (.ok (), kernel) := by
  unfold fitAddresses
  rw [if_pos ⟨few, fewEnvp⟩]
  rfl

/-- The result is the image that the source writes on success; on failure it is
zeroed. -/
def loadImage (path : List UInt8) (argv envp : List (List UInt8)) : Action ExecImage :=
  if 128 < argv.length ∨ 128 < envp.length then fail (-22)
  else do
    let file ← onFs (Vfs.openFile Pages.heap ramfs path Vfs.oRdonly)
    let size ← fileSize file
    if size < sizeofElfHeader ∨ maxExecFileSize < size then do
      onFs (Vfs.closeFile Pages.heap ramfs file)
      fail (-8)
    else do
      match ← slabAlloc size with
      | none => do
          onFs (Vfs.closeFile Pages.heap ramfs file)
          fail (-12)
      | some buffer => do
          let (count, bytes) ← onFs (Vfs.readFile ramfs file size)
          onFs (Vfs.closeFile Pages.heap ramfs file)
          if count ≠ size then giveUp buffer size (-8)
          else loadFile path argv envp buffer size bytes

def prepare (path : List UInt8) (argv envp : List (List UInt8)) : Action ExecImage :=
  loadImage path argv envp

/-- An image that has been discarded or activated holds no root. -/
def discard (image : ExecImage) : Action Unit :=
  if image.rootPhys = 0 then pure ()
  else changeMachine (fun machine => destroyAddressSpace machine image.rootPhys)

structure RegisterFrame where
  rax : Nat
  rbx : Nat
  rcx : Nat
  rdx : Nat
  rsi : Nat
  rdi : Nat
  rbp : Nat
  r8 : Nat
  r9 : Nat
  r10 : Nat
  r11 : Nat
  r12 : Nat
  r13 : Nat
  r14 : Nat
  r15 : Nat
  rip : Nat
  rflags : Nat
  rsp : Nat
  deriving DecidableEq, Repr

/-- The frame with which the new program starts. -/
def startFrame (image : ExecImage) (frame : RegisterFrame) : RegisterFrame :=
  { frame with
    rdi := image.argc
    rsi := image.argv
    rdx := image.envp
    rbx := 0
    rbp := 0
    r8 := 0
    r9 := 0
    r10 := 0
    r12 := 0
    r13 := 0
    r14 := 0
    r15 := 0
    rip := image.entry
    rsp := image.stack
    rflags := 0x202 }

def activate (image : ExecImage) (frame : RegisterFrame) : Action RegisterFrame :=
  if image.rootPhys = 0 then pure frame
  else do
    let kernel ← Program.gets id
    Program.modify (fun kernel =>
      { kernel with cr3 := image.rootPhys, activeRootPhys := image.rootPhys })
    if kernel.activeRootPhys = 0 then pure (startFrame image frame)
    else do
      changeMachine (fun machine => destroyAddressSpace machine kernel.activeRootPhys)
      pure (startFrame image frame)

def terminateCurrent : Action Unit := do
  let kernel ← Program.gets id
  if kernel.activeRootPhys = 0 then pure ()
  else do
    Program.modify (fun kernel => { kernel with cr3 := kernel.kernelRoot, activeRootPhys := 0 })
    changeMachine (fun machine => destroyAddressSpace machine kernel.activeRootPhys)

/-- The first program, started when the kernel has booted. -/
def launchStatic (path : List UInt8) : Action ExecImage := do
  let image ← prepare path [] []
  Program.modify (fun kernel =>
    { kernel with activeRootPhys := image.rootPhys, cr3 := image.rootPhys })
  pure image

end Synx.Kernel
