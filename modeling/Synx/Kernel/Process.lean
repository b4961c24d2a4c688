/-
`sys_execve` and `sys_exit` of `proc/syscall_process.cpp`.
-/

import Synx.Kernel.Files

namespace Synx.Kernel

open Lib Program
open Exec
open Ramfs (ramfs)

def errNomem : Int := -12
def maxExecStrings : Nat := 64
def maxExecStringBytes : Nat := 16 * 1024

def closeIf (condition : Nat → Bool) (fd : Nat) : Action Unit := do
  let kernel ← gets id
  match ← lift (slotOf kernel fd) with
  | none => pure ()
  | some file => if condition (kernel.fdFlags fd) then closeSlot fd file else pure ()

/-- The loop at the end of `sys_execve`. -/
def closeOnExec : Action Unit :=
  each (closeIf (fun flags => flags &&& fdCloexec != 0)) userDescriptors

/-- The loop of `sys_exit`. -/
def closeAll : Action Unit := each (closeIf (fun _ => true)) userDescriptors

/-- The storage before anything is in it has no zero, so that a string that was not terminated
has no end. -/
def Buffers.fresh : Buffers := ⟨fun _ => 0, fun _ => 0xCC, 0⟩

/-- The two vectors of `sys_execve`, in one storage.  The strings are read when
the storage has been filled. -/
def execStrings (kernel : State) (userArgv userEnvp : Nat) :
    Checked (List (List UInt8) × List (List UInt8)) :=
  match (copyUserVector kernel.mem kernel.cr3 userArgv maxExecStrings maxExecStringBytes).run
      .fresh with
  | (.error code, _) => refuse code
  | (.ok argc, argv) =>
    match (copyUserVector kernel.mem kernel.cr3 userEnvp maxExecStrings maxExecStringBytes).run
        argv with
    | (.error code, _) => refuse code
    | (.ok envc, envp) => do
      let argvStrings ← { envp with strings := argv.strings }.texts maxExecStringBytes argc 0
      let envpStrings ← envp.texts maxExecStringBytes envc 0
      pure (argvStrings, envpStrings)

/-- The storage is given back after a failure and after a success. -/
def execImage (storage : Nat) (path : List UInt8) (userArgv userEnvp : Nat) : Action ExecImage := do
  let kernel ← gets id
  match ← attempt (lift (execStrings kernel userArgv userEnvp)) with
  | .error code => giveUp storage maxExecStringBytes code
  | .ok (argv, envp) => do
      match ← attempt (prepare path argv envp) with
      | .error code => giveUp storage maxExecStringBytes code
      | .ok image => do
          slabFree storage maxExecStringBytes
          pure image

/-- The result is the frame that the new program starts with. -/
def sysExecve (userPath userArgv userEnvp : Nat) (frame : RegisterFrame) : Action RegisterFrame :=
  do
  let kernel ← gets id
  let path ← lift (copyUserPath kernel.mem kernel.cr3 userPath pathCapacity
    (freshBuffer pathCapacity))
  let text ← lift (cString path)
  match ← slabAlloc maxExecStringBytes with
  | none => fail errNomem
  | some storage => do
      let image ← execImage storage text userArgv userEnvp
      let frame ← activate image frame
      closeOnExec
      pure frame

def sysExit : Action Unit := do
  closeAll
  terminateCurrent

end Synx.Kernel
