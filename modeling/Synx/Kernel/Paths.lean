/-
Paths of directories and of the arguments of system calls, as in the second half
of `proc/syscall_user.cpp`.
-/

import Synx.Kernel.UserMemory

namespace Synx.Kernel

open Lib
open Vfs (Fault slash)

def errBadf : Int := -9
def errNotdir : Int := -20

def maxOpenFiles : Nat := 32
def pathCapacity : Nat := 256
def maxComponents : Nat := 128

/-- `AT_FDCWD` as a 64-bit number. -/
def atFdcwd : Nat := 2 ^ 64 - 100

def follow {α : Type} (cells : Nat → Option α) (id : Nat) : Checked α :=
  match cells id with
  | some cell => .ok cell
  | none => .error (.fault .badPointer)

/-- `open_files[fd]`. -/
def slotOf (kernel : State) (fd : Nat) : Checked (Option Nat) :=
  if fd < maxOpenFiles then .ok (kernel.openFiles fd) else .error (.fault .outOfBounds)

def openSlot (kernel : State) (fd : Nat) : Checked Nat :=
  if maxOpenFiles ≤ fd then refuse errBadf
  else do
    match ← slotOf kernel fd with
    | none => refuse errBadf
    | some file => pure file

/-! ### The path of a dentry -/

/-- The dentries from below the root to the given one, if there is room for them.
Every round stores one. -/
def collectComponents (vfs : Vfs.State) : Nat → List Nat → Nat → Checked (Option (List Nat))
  | 0, _, _ => .ok none
  | rounds + 1, components, dentry => do
      let object ← follow vfs.dentries dentry
      match object.parent with
      | none => pure (some components.reverse)
      | some parent =>
        if components.length = maxComponents then pure none
        else do
          let components ← pushPointer maxComponents components dentry
          collectComponents vfs rounds components parent

/-- The second loop of `dentry_path`.  When a name does not fit, what has been
written so far stays in the buffer. -/
def writeComponents (vfs : Vfs.State) (capacity : Nat) :
    List Nat → Nat → List UInt8 → Checked (Int × List UInt8)
  | [], used, path => do
      let path ← putBuffer path used [0]
      pure (0, path)
  | component :: rest, used, path => do
      let object ← follow vfs.dentries component
      let separator := if 1 < used then [slash] else []
      if capacity - used ≤ object.name.length + separator.length then pure (errNametoolong, path)
      else do
        let path ← putBuffer path used separator
        let path ← putBuffer path (used + separator.length) object.name
        writeComponents vfs capacity rest (used + separator.length + object.name.length) path

def dentryPath (vfs : Vfs.State) (dentry : Nat) (path : List UInt8) (capacity : Nat) :
    Checked (Int × List UInt8) := do
  match ← collectComponents vfs (maxComponents + 1) [] dentry with
  | none => pure (errNametoolong, path)
  | some components =>
    if capacity < 2 then pure (errNametoolong, path)
    else do
      let path ← putBuffer path 0 [slash]
      writeComponents vfs capacity components 1 path

/-! ### Paths from user programs -/

def openDirectory (kernel : State) (fd : Nat) : Checked Nat := do
  let id ← openSlot kernel fd
  let file ← follow kernel.vfs.files id
  let dentry ← follow kernel.vfs.dentries file.dentry
  match dentry.inode with
  | none => refuse errNotdir
  | some inode => do
      let object ← follow kernel.vfs.inodes inode
      if object.type ≠ .directory then refuse errNotdir else pure file.dentry

/-- The buffer `base`: the path that relative paths start from. -/
def baseDirectory (kernel : State) (dirfd : Nat) : Checked (List UInt8) :=
  if dirfd % 2 ^ 32 = atFdcwd % 2 ^ 32 then do
    let text ← cString kernel.currentDirectory
    putBuffer (freshBuffer pathCapacity) 0 (text ++ [0])
  else do
    let dentry ← openDirectory kernel dirfd
    let (result, base) ← dentryPath kernel.vfs dentry (freshBuffer pathCapacity) pathCapacity
    if result < 0 then refuse result else pure base

def resolveUserPath (kernel : State) (dirfd userPath capacity : Nat) : Checked (List UInt8) := do
  let path ← copyUserPath kernel.mem kernel.cr3 userPath pathCapacity (freshBuffer pathCapacity)
  let text ← cString path
  if path.head? = some slash then
    if capacity ≤ text.length then refuse errNametoolong
    else putBuffer (freshBuffer capacity) 0 (text ++ [0])
  else do
    let base ← baseDirectory kernel dirfd
    let baseText ← cString base
    let separator := if 1 < baseText.length then [slash] else []
    if capacity < baseText.length + separator.length + text.length + 1 then refuse errNametoolong
    else do
      let absolute ← putBuffer (freshBuffer capacity) 0 baseText
      let absolute ← putBuffer absolute baseText.length separator
      putBuffer absolute (baseText.length + separator.length) (text ++ [0])

end Synx.Kernel
