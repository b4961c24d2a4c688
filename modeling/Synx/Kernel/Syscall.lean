/-
The dispatcher of system calls, `syscall_dispatch` of `proc/syscall.cpp`, and
`sys_uname` of `proc/syscall_info.cpp`.
-/

import Synx.Kernel.Process
import Synx.Kernel.Transfer

namespace Synx.Kernel

open Lib Program

def errNosys : Int := -38

/-! ### Names -/

/-- A field of `UtsName`. -/
def utsField (value : List UInt8) : Checked (List UInt8) := do
  let field ← putBuffer (List.replicate 65 0) 0 (value.take 64)
  putBuffer field (min value.length 64) [0]

def kernelName : List UInt8 := [83, 121, 110, 120]
def kernelVersion : List UInt8 := [48, 46, 48, 46, 48]
def machineName : List UInt8 := [120, 56, 54, 95, 54, 52]
def domainName : List UInt8 := [40, 110, 111, 110, 101, 41]

/-- The time of compilation is part of the version. -/
def utsName (stamp : List UInt8) : Checked (List UInt8) := do
  let fields ← [kernelName, kernelName, kernelVersion, [83, 77, 80, 32] ++ stamp, machineName,
    domainName].mapM utsField
  pure fields.flatten

def sysUname (stamp : List UInt8) (userBuffer : Nat) : Action Nat := do
  let bytes ← lift (utsName stamp)
  if ← copyToUser userBuffer bytes then pure 0 else fail errFault

/-! ### Dispatch -/

/-- The calls that the kernel knows. -/
inductive Service
  | read | write | open_ | close | stat | fstat | lseek | readv | writev | access | dup | dup2
  | getpid | execve | exit | uname | fcntl | fsync | fdatasync | getcwd | chdir | fchdir | umask
  | getuid | getgid | geteuid | getegid | getppid | getpgrp | gettid | getdents64 | clockGettime
  | clockGetres | exitGroup | openat | newfstatat | faccessat | dup3 | faccessat2
  deriving DecidableEq, Repr

def Service.number : Service → Nat
  | read => 0
  | write => 1
  | open_ => 2
  | close => 3
  | stat => 4
  | fstat => 5
  | lseek => 8
  | readv => 19
  | writev => 20
  | access => 21
  | dup => 32
  | dup2 => 33
  | getpid => 39
  | execve => 59
  | exit => 60
  | uname => 63
  | fcntl => 72
  | fsync => 74
  | fdatasync => 75
  | getcwd => 79
  | chdir => 80
  | fchdir => 81
  | umask => 95
  | getuid => 102
  | getgid => 104
  | geteuid => 107
  | getegid => 108
  | getppid => 110
  | getpgrp => 111
  | gettid => 186
  | getdents64 => 217
  | clockGettime => 228
  | clockGetres => 229
  | exitGroup => 231
  | openat => 257
  | newfstatat => 262
  | faccessat => 269
  | dup3 => 292
  | faccessat2 => 439

def services : List Service :=
  [.read, .write, .open_, .close, .stat, .fstat, .lseek, .readv, .writev, .access, .dup, .dup2,
    .getpid, .execve, .exit, .uname, .fcntl, .fsync, .fdatasync, .getcwd, .chdir, .fchdir, .umask,
    .getuid, .getgid, .geteuid, .getegid, .getppid, .getpgrp, .gettid, .getdents64, .clockGettime,
    .clockGetres, .exitGroup, .openat, .newfstatat, .faccessat, .dup3, .faccessat2]

def serviceOf (number : Nat) : Option Service := services.find? (·.number = number)

/-- The value in `rax` and the frame of the program that continues. -/
abbrev Reply := Nat × RegisterFrame

def codeWord (code : Int) : Nat := (code % 2 ^ 64).toNat

/-- Runs a call that may not return and replies with its result. -/
def answerIf (frame : RegisterFrame) (call : Action (Option Nat)) : Action (Option Reply) := do
  match ← attempt call with
  | .ok (some value) => pure (some (value, frame))
  | .ok none => pure none
  | .error code => pure (some (codeWord code, frame))

def answer (frame : RegisterFrame) (call : Action Nat) : Action (Option Reply) :=
  answerIf frame do
    let value ← call
    pure (some value)

def fcntlDuplicateCloexec : Nat := 1030

def sysDup3 (oldFd newFd flags : Nat) : Action Nat :=
  if flags &&& 0xFFF7FFFF ≠ 0 then fail errInval
  else duplicateFd oldFd newFd true (flags &&& oCloexec ≠ 0)

def dispatchFcntl (fd command argument : Nat) : Action Nat :=
  if command = fcntlDuplicateCloexec then duplicateFd fd argument false true
  else sysFcntl fd command argument

def sysFsync (fd : Nat) : Action Nat := do
  let kernel ← gets id
  let _ ← lift (openSlot kernel fd)
  pure 0

def sysUmask (mask : Nat) : Action Nat := do
  let kernel ← gets id
  modify (fun kernel => { kernel with fileCreationMask := mask % 2 ^ 32 &&& 0o777 })
  pure (kernel.fileCreationMask % 2 ^ 32)

/-- A successful `execve` returns 0 to the new program. -/
def answerExecve (frame : RegisterFrame) : Action (Option Reply) := do
  match ← attempt (sysExecve frame.rdi frame.rsi frame.rdx frame) with
  | .ok started => pure (some (0, started))
  | .error code => pure (some (codeWord code, frame))

def answerExit : Action (Option Reply) := do
  sysExit
  pure none

def serve (stamp : List UInt8) (frame : RegisterFrame) : Service → Action (Option Reply)
  | .read => answerIf frame (sysRead frame.rdi frame.rsi frame.rdx)
  | .write => answer frame (sysWrite frame.rdi frame.rsi frame.rdx)
  | .readv => answerIf frame (sysVectorIo frame.rdi frame.rsi frame.rdx false)
  | .writev => answerIf frame (sysVectorIo frame.rdi frame.rsi frame.rdx true)
  | .open_ => answer frame (sysOpenat atFdcwd frame.rdi frame.rsi)
  | .close => answer frame (sysClose frame.rdi)
  | .lseek => answer frame (sysLseek frame.rdi frame.rsi frame.rdx)
  | .dup => answer frame (duplicateFd frame.rdi 3 false false)
  | .dup2 => answer frame (duplicateFd frame.rdi frame.rsi true false)
  | .dup3 => answer frame (sysDup3 frame.rdi frame.rsi frame.rdx)
  | .fcntl => answer frame (dispatchFcntl frame.rdi frame.rsi frame.rdx)
  | .fsync => answer frame (sysFsync frame.rdi)
  | .fdatasync => answer frame (sysFsync frame.rdi)
  | .getcwd => answer frame (sysGetcwd frame.rdi frame.rsi)
  | .chdir => answer frame (sysChdir frame.rdi)
  | .fchdir => answer frame (sysFchdir frame.rdi)
  | .access => answer frame (sysAccessat atFdcwd frame.rdi frame.rsi 0)
  | .faccessat => answer frame (sysAccessat frame.rdi frame.rsi frame.rdx frame.r10)
  | .faccessat2 => answer frame (sysAccessat frame.rdi frame.rsi frame.rdx frame.r10)
  | .getdents64 => answer frame (sysGetdents64 frame.rdi frame.rsi frame.rdx)
  | .stat => answer frame (sysStat frame.rdi frame.rsi)
  | .fstat => answer frame (sysFstat frame.rdi frame.rsi)
  | .getpid => answer frame (pure 1)
  | .gettid => answer frame (pure 1)
  | .getuid => answer frame (pure 0)
  | .getgid => answer frame (pure 0)
  | .geteuid => answer frame (pure 0)
  | .getegid => answer frame (pure 0)
  | .getppid => answer frame (pure 0)
  | .getpgrp => answer frame (pure 1)
  | .umask => answer frame (sysUmask frame.rdi)
  | .uname => answer frame (sysUname stamp frame.rdi)
  | .clockGettime => answer frame (sysClockGettime frame.rdi frame.rsi false)
  | .clockGetres => answer frame (sysClockGettime frame.rdi frame.rsi true)
  | .execve => answerExecve frame
  | .exit => answerExit
  | .exitGroup => answerExit
  | .openat => answer frame (sysOpenat frame.rdi frame.rsi frame.rdx)
  | .newfstatat => answer frame (sysNewfstatat frame.rdi frame.rsi frame.rdx frame.r10)

/-- The result is `none` if the call does not return.  The stamp is the time at
which the kernel was compiled. -/
def syscallDispatch (stamp : List UInt8) (frame : RegisterFrame) : Action (Option Reply) :=
  match serviceOf frame.rax with
  | none => answer frame (fail errNosys)
  | some service => serve stamp frame service

end Synx.Kernel
