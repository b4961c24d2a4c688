/-
The system calls on files and directories of `proc/syscall_fs.cpp`.
-/

import Synx.Kernel.LoadImage
import Synx.Kernel.Paths

namespace Synx.Kernel

open Lib Program Memory
open Pmm (pageSize)
open Ramfs (ramfs)
open Vfs (Fault slash SimpleDirent)

def errInval : Int := -22
def errNfile : Int := -24
def errRange : Int := -34

def maxIoSize : Nat := 1024 * 1024
def oCloexec : Nat := 0x80000
def fdCloexec : Nat := 1
def int64Max : Int := 2 ^ 63 - 1

def wrap (value : Nat) : Nat := value % 2 ^ 64

def signed (value : Nat) : Int :=
  if value % 2 ^ 64 < 2 ^ 63 then (value % 2 ^ 64 : Nat) else (value % 2 ^ 64 : Nat) - 2 ^ 64

/-! ### The table of descriptors -/

/-- Stores into `open_files[fd]` and `fd_flags[fd]`. -/
def setSlot (fd : Nat) (file : Option Nat) (flags : Nat) : Action Unit :=
  if fd < maxOpenFiles then
    modify (fun kernel =>
      { kernel with
        openFiles := Function.update kernel.openFiles fd file
        fdFlags := Function.update kernel.fdFlags fd flags })
  else stop (.fault .outOfBounds)

/-- The descriptors that user programs open files with. -/
def userDescriptors : List Nat := List.range' 3 (maxOpenFiles - 3)

theorem mem_userDescriptors (fd : Nat) : fd ∈ userDescriptors ↔ 3 ≤ fd ∧ fd < maxOpenFiles := by
  unfold userDescriptors maxOpenFiles
  rw [List.mem_range'_1]

-- unification must not run a loop over this list
attribute [irreducible] userDescriptors

/-- The first descriptor of a list that is not open. -/
def firstFree (kernel : State) : List Nat → Checked (Option Nat)
  | [] => .ok none
  | fd :: rest => do
      match ← slotOf kernel fd with
      | none => pure (some fd)
      | some _ => firstFree kernel rest

def closeFile (file : Nat) : Action Unit := onFs (Vfs.closeFile Pages.heap ramfs file)

def sysOpenat (dirfd userPath flags : Nat) : Action Nat := do
  let kernel ← gets id
  match ← lift (firstFree kernel userDescriptors) with
  | none => fail errNfile
  | some fd => do
      let path ← lift (resolveUserPath kernel dirfd userPath pathCapacity)
      let text ← lift (cString path)
      let file ← onFs (Vfs.openFile Pages.heap ramfs text (flags % 2 ^ 32 &&& 0xFFF7FFFF))
      setSlot fd (some file) (if flags &&& oCloexec ≠ 0 then fdCloexec else 0)
      pure fd

def closeSlot (fd file : Nat) : Action Unit := do
  closeFile file
  setSlot fd none 0

def sysClose (fd : Nat) : Action Nat := do
  if fd < 3 then fail errBadf
  else do
    let kernel ← gets id
    let file ← lift (openSlot kernel fd)
    closeSlot fd file
    pure 0

def findFreeFd (kernel : State) (minimum : Nat) : Checked Nat :=
  if maxOpenFiles ≤ minimum then refuse errBadf
  else do
    match ← firstFree kernel (List.range' minimum (maxOpenFiles - minimum)) with
    | some fd => pure fd
    | none => refuse errNfile

/-- The descriptor that a duplicate is installed at. -/
def duplicateTarget (kernel : State) (newFd : Nat) (exact_ : Bool) : Checked Nat :=
  if exact_ then
    if maxOpenFiles ≤ newFd then refuse errBadf else pure newFd
  else findFreeFd kernel newFd

def changeFile (file : Nat) (change : Vfs.File → Vfs.File) : Action Unit := onFs do
  let object ← Vfs.fileOf file
  Vfs.update (·.setFile file (some (change object)))

def retainFile (file : Nat) : Action Unit :=
  changeFile file (fun object => { object with refCount := object.refCount + 1 })

def closeTarget (file : Option Nat) : Action Unit :=
  match file with
  | none => pure ()
  | some file => closeFile file

def duplicateFd (oldFd newFd : Nat) (exact_ closeOnExec : Bool) : Action Nat := do
  let kernel ← gets id
  let file ← lift (openSlot kernel oldFd)
  let newFd ← lift (duplicateTarget kernel newFd exact_)
  if oldFd = newFd then
    if exact_ && closeOnExec then fail errInval else pure newFd
  else do
    let target ← lift (slotOf kernel newFd)
    closeTarget target
    setSlot newFd (some file) (if closeOnExec then fdCloexec else 0)
    retainFile file
    pure newFd

/-! ### Positions and flags -/

def seekBase (vfs : Vfs.State) (file : Vfs.File) (whence : Nat) : Checked Int :=
  match whence with
  | 0 => pure 0
  | 1 => if int64Max < file.offset then refuse errRange else pure file.offset
  | 2 => do
      let dentry ← follow vfs.dentries file.dentry
      match dentry.inode with
      | none => .error (.fault .badPointer)
      | some inode => do
          let object ← follow vfs.inodes inode
          if int64Max < object.size then refuse errRange else pure object.size
  | _ => refuse errInval

/-- The position that is sought, in the range of a signed number. -/
def seekTarget (base offset : Int) : Checked Nat :=
  if (0 < offset ∧ int64Max - offset < base) ∨
      (offset < 0 ∧ (offset = -2 ^ 63 ∨ base < -offset)) then refuse errRange
  else if base + offset < 0 then refuse errInval
  else pure (base + offset).toNat

def setOffset (file offset : Nat) : Action Unit :=
  changeFile file (fun object => { object with offset := offset })

def sysLseek (fd rawOffset whence : Nat) : Action Nat := do
  let kernel ← gets id
  let id ← lift (openSlot kernel fd)
  let file ← lift (follow kernel.vfs.files id)
  let base ← lift (seekBase kernel.vfs file whence)
  let position ← lift (seekTarget base (signed rawOffset))
  setOffset id position
  pure position

def sysFcntl (fd command argument : Nat) : Action Nat := do
  let kernel ← gets id
  let file ← lift (openSlot kernel fd)
  match command with
  | 0 => duplicateFd fd argument false false
  | 1 => pure (kernel.fdFlags fd % 2 ^ 32)
  | 2 =>
    if argument &&& 0xFFFFFFFE ≠ 0 then fail errInval
    else do
      setSlot fd (some file) (argument % 2 ^ 32)
      pure 0
  | 3 => do
      let object ← lift (follow kernel.vfs.files file)
      pure (object.flags % 2 ^ 32)
  | 4 => do
      changeFile file (fun object =>
        { object with flags := Vfs.statusFlags object.flags argument })
      pure 0
  | _ => fail errInval

/-! ### The current directory -/

def sysGetcwd (userBuffer size : Nat) : Action Nat := do
  let kernel ← gets id
  let text ← lift (cString kernel.currentDirectory)
  if size < text.length + 1 then fail errRange
  else do
    if ← copyToUser userBuffer (text ++ [0]) then pure (text.length + 1) else fail errFault

/-- `dentry_path` writes into `current_directory`. -/
def storeDirectory (dentry : Nat) : Action Int := do
  let kernel ← gets id
  let (result, buffer) ← lift
    (dentryPath kernel.vfs dentry kernel.currentDirectory pathCapacity)
  modify (fun kernel => { kernel with currentDirectory := buffer })
  pure result

/-- A result of the source: an error code or a value. -/
def returned (result : Int) : Action Nat :=
  if result < 0 then fail result else pure result.toNat

def walkPath (text : List UInt8) : Action Nat := onFs (Vfs.pathWalk Pages.heap ramfs text)

def releaseDentry (dentry : Nat) : Action Unit := onFs (Vfs.dput Pages.heap ramfs dentry)

def sysChdir (userPath : Nat) : Action Nat := do
  let kernel ← gets id
  let path ← lift (resolveUserPath kernel atFdcwd userPath pathCapacity)
  let text ← lift (cString path)
  let dentry ← walkPath text
  let object ← onFs (Vfs.dentryOf dentry)
  match object.inode with
  | none => fail errNoent
  | some inode => do
      let content ← onFs (Vfs.fetch Vfs.State.inodes inode)
      if content.type ≠ .directory then do
        releaseDentry dentry
        fail errNotdir
      else do
        let result ← storeDirectory dentry
        releaseDentry dentry
        returned result

def sysFchdir (fd : Nat) : Action Nat := do
  let kernel ← gets id
  let dentry ← lift (openDirectory kernel fd)
  let result ← storeDirectory dentry
  returned result

def sysAccessat (dirfd userPath mode flags : Nat) : Action Nat := do
  if mode &&& 0xFFFFFFFFFFFFFFF8 ≠ 0 then fail errInval
  else if flags &&& 0xFFFFFFFFFFFFFDFF ≠ 0 then fail errInval
  else do
    let kernel ← gets id
    let path ← lift (resolveUserPath kernel dirfd userPath pathCapacity)
    let text ← lift (cString path)
    let dentry ← walkPath text
    releaseDentry dentry
    pure 0

/-! ### Directory entries -/

def sizeofDirentHeader : Nat := 19
def sizeofRecord : Nat := sizeofDirentHeader + 256 + 7
def maxEntries : Nat := 8

/-- The length of the record for a name, with its padding. -/
def recordLength (name : List UInt8) : Nat := (sizeofDirentHeader + (name.length + 1) + 7) / 8 * 8

/-- `linux_dirent64`: inode number, position behind it, length, type and name. -/
def direntRecord (entry : SimpleDirent) (position : Nat) (type : UInt8) : Checked (List UInt8) := do
  let header := numberBytes entry.ino 8 ++ numberBytes position 8 ++
    numberBytes (recordLength entry.name) 2 ++ [type]
  let record ← putBuffer (List.replicate sizeofRecord 0) 0 header
  let record ← putBuffer record sizeofDirentHeader (entry.name ++ [0])
  getBuffer record 0 (recordLength entry.name)

-- the buffer must not be computed when the loop below is unfolded
attribute [irreducible] direntRecord

def dtDir : UInt8 := 4
def dtReg : UInt8 := 8

/-- The type field, from another search for the name. -/
def direntType (file : Nat) (name : List UInt8) : Action UInt8 := onFs do
  let object ← Vfs.fileOf file
  match ← Vfs.dLookup object.dentry name with
  | none => pure dtReg
  | some child => do
      let dentry ← Vfs.dentryOf child
      match dentry.inode with
      | none => pure dtReg
      | some inode => do
          let content ← Vfs.fetch Vfs.State.inodes inode
          pure (if content.type = .directory then dtDir else dtReg)

/-- The call ends before the entry at `index`: the position goes back to it. -/
def stopListing (file oldOffset index written : Nat) (code : Int) : Action Nat := do
  setOffset file (wrap (oldOffset + index))
  if written ≠ 0 then pure written else fail code

def writeRecords (file userBuffer count oldOffset : Nat) :
    Nat → Nat → List SimpleDirent → Action Nat
  | _, written, [] => pure written
  | index, written, entry :: rest => do
      if count - written < recordLength entry.name then
        stopListing file oldOffset index written errInval
      else do
        let type ← direntType file entry.name
        let record ← lift (direntRecord entry (wrap (oldOffset + index + 1)) type)
        if ← copyToUser (wrap (userBuffer + written)) record then
          writeRecords file userBuffer count oldOffset (index + 1)
            (written + recordLength entry.name) rest
        else stopListing file oldOffset index written errFault

/-- `readdir` of the file, if it has one. -/
def readDirectory (file : Nat) : Vfs.Call Pages (Int × List SimpleDirent) :=
  match ramfs.readdir with
  | none => pure (-Vfs.ENOTDIR, [])
  | some readdir => readdir file maxEntries

/-- The array `entries` as `readdir` fills it. -/
def readEntries (file : Nat) : Action (List SimpleDirent) := do
  let (result, entries) ← onFs (readDirectory file)
  if maxEntries < entries.length then stop (.fault .outOfBounds)
  else if result < 0 then fail result
  else pure entries

def sysGetdents64 (fd userBuffer count : Nat) : Action Nat := do
  let kernel ← gets id
  let file ← lift (openSlot kernel fd)
  if maxIoSize < count then fail errInval
  else if count = 0 then pure 0
  else do
    let object ← lift (follow kernel.vfs.files file)
    let entries ← readEntries file
    writeRecords file userBuffer count object.offset 0 0 entries

/-! ### File status -/

/-- The directories among the children, for the link count. -/
def countDirectories (vfs : Vfs.State) : List Nat → Checked Nat
  | [] => pure 0
  | child :: rest => do
      let dentry ← follow vfs.dentries child
      match dentry.inode with
      | none => countDirectories vfs rest
      | some inode => do
          let content ← follow vfs.inodes inode
          let later ← countDirectories vfs rest
          pure (if content.type = .directory then later + 1 else later)

/-- The bytes of `struct Stat` for an inode. -/
def statBytes (inode : Vfs.Inode) (links mode : Nat) : List UInt8 :=
  numberBytes 1 8 ++ numberBytes inode.ino 8 ++ numberBytes links 8 ++
    numberBytes mode 4 ++ numberBytes 0 4 ++ numberBytes 0 4 ++
    numberBytes 0 4 ++ numberBytes 0 8 ++ numberBytes inode.size 8 ++
    numberBytes pageSize 8 ++
    numberBytes ((inode.size + 511) % 2 ^ 64 / 512) 8 ++ List.replicate 72 0

def fillStat (kernel : State) (dentry : Vfs.Dentry) (inode : Vfs.Inode) : Checked (List UInt8) :=
  let allowed := 0xFFFFFFFF ^^^ kernel.fileCreationMask
  if inode.type = .directory then do
    let directories ← countDirectories kernel.vfs dentry.children
    pure (statBytes inode (2 + directories) (0o040000 ||| (0o777 &&& allowed)))
  else pure (statBytes inode 1 (0o100000 ||| (0o666 &&& allowed)))

def sysStatDentry (dentry userStatbuf : Nat) : Action Nat := do
  let kernel ← gets id
  let object ← lift (follow kernel.vfs.dentries dentry)
  match object.inode with
  | none => fail errNoent
  | some inode => do
      let content ← lift (follow kernel.vfs.inodes inode)
      let bytes ← lift (fillStat kernel object content)
      if ← copyToUser userStatbuf bytes then pure 0 else fail errFault

def sysStatPath (text : List UInt8) (userStatbuf : Nat) : Action Nat := do
  if text.head? ≠ some slash then fail errInval
  else do
    let dentry ← walkPath text
    let result ← attempt (sysStatDentry dentry userStatbuf)
    releaseDentry dentry
    match result with
    | .ok value => pure value
    | .error code => fail code

def sysNewfstatat (dirfd userPath userStatbuf flags : Nat) : Action Nat := do
  if flags ≠ 0 then fail errInval
  else do
    let kernel ← gets id
    let path ← lift (resolveUserPath kernel dirfd userPath pathCapacity)
    let text ← lift (cString path)
    sysStatPath text userStatbuf

def sysStat (userPath userStatbuf : Nat) : Action Nat :=
  sysNewfstatat atFdcwd userPath userStatbuf 0

def sysFstat (fd userStatbuf : Nat) : Action Nat := do
  if fd < 3 then fail errBadf
  else do
    let kernel ← gets id
    let id ← lift (openSlot kernel fd)
    let file ← lift (follow kernel.vfs.files id)
    sysStatDentry file.dentry userStatbuf

end Synx.Kernel
