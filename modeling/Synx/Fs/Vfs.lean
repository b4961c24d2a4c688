/-
The virtual file system of `fs/vfs.cpp`: inodes, dentries and open files with
reference counts, path resolution, and the operations on open files.
-/

import Synx.Lib.Program

namespace Synx.Vfs

open Lib
open Program (Stop)

abbrev Name := List UInt8

inductive FileType
  | regular
  | directory
  | charDev
  | blockDev
  deriving DecidableEq, Repr

/-- The private data of a ramfs inode: the block it was given and the file's
buffer, a block and its contents. -/
structure InodeData where
  address : Nat
  buffer : Option (Nat × List UInt8)
  capacity : Nat

structure Inode where
  address : Nat
  ino : Nat
  type : FileType
  size : Nat
  refCount : Int
  privateData : Option InodeData

structure Dentry where
  address : Nat
  name : Name
  inode : Option Nat
  parent : Option Nat
  children : List Nat
  refCount : Int

structure File where
  address : Nat
  dentry : Nat
  offset : Nat
  flags : Nat
  refCount : Int

structure SuperBlock where
  address : Nat
  magic : Nat
  root : Option Nat

structure Mount where
  sb : SuperBlock
  mountPoint : Option Nat

structure State where
  dentries : Nat → Option Dentry
  inodes : Nat → Option Inode
  files : Nat → Option File
  /-- The next unused name of an object. -/
  nextId : Nat
  /-- `g_next_ino` of ramfs. -/
  nextIno : Nat
  rootMount : Option Mount
  mountList : List Mount

/-- Memory as its clients see it: `slab::alloc`, which may return null, and
`slab::free`. -/
structure Heap (τ : Type) where
  alloc : Nat → τ → Option Nat × τ
  free : Nat → Nat → τ → τ

structure Fs (τ : Type) where
  vfs : State
  heap : τ

inductive Fault
  /-- A null or freed pointer is followed. -/
  | badPointer
  /-- A null entry of an operation table is called. -/
  | nullOperation
  /-- A buffer is read past its end. -/
  | outOfBounds
  deriving DecidableEq, Repr

abbrev Call (τ α : Type) := Program (Fs τ) (Stop Fault) α

def fail {τ α : Type} (errno : Int) : Call τ α := Program.stop (.code errno)

def crash {τ α : Type} (reason : Fault) : Call τ α := Program.stop (.fault reason)

/-- One entry written by `readdir`. -/
structure SimpleDirent where
  ino : Nat
  name : Name

/-- The operation tables of a file system; a null entry is `none`. -/
structure FileSystem (τ : Type) where
  lookup : Option (Nat → Nat → Name → Call τ (Option Nat))
  create : Option (Nat → Nat → Nat → Call τ Int)
  read : Option (Nat → Nat → Nat → Call τ (Int × List UInt8))
  write : Option (Nat → List UInt8 → Nat → Call τ Int)
  readdir : Option (Nat → Nat → Call τ (Int × List SimpleDirent))
  destroyInode : Option (Nat → Call τ Unit)

def ENOENT : Int := 2
def EIO : Int := 5
def ENOMEM : Int := 12
def EEXIST : Int := 17
def ENOTDIR : Int := 20
def EINVAL : Int := 22
def ENAMETOOLONG : Int := 36
def ENOSYS : Int := 38

def oRdonly : Nat := 0x00
def oWronly : Nat := 0x01
def oExcl : Nat := 0x08
def oCreat : Nat := 0x40
def oAppend : Nat := 0x400

/-- The flags after `fcntl(F_SETFL)`: only `O_APPEND` follows the argument. -/
def statusFlags (flags argument : Nat) : Nat :=
  (flags &&& 0xFFFFFBFF) ||| (argument % 2 ^ 32 &&& oAppend)

def sizeofInode : Nat := 56
def sizeofDentry : Nat := 296
def sizeofFile : Nat := 40
def sizeofMount : Nat := 24
def sizeofSuperBlock : Nat := 32
def sizeofInodeData : Nat := 16

def slash : UInt8 := 47
def dot : UInt8 := 46

/-! ### Access to the heaps -/

def store {α : Type} (cells : Nat → Option α) (id : Nat) (cell : Option α) : Nat → Option α :=
  fun other => if other = id then cell else cells other

variable {α : Type} {cells : Nat → Option α} {id : Nat} {cell : Option α}

theorem store_same :
    store cells id cell id = cell := if_pos rfl

theorem store_other {other : Nat} (different : other ≠ id) :
    store cells id cell other = cells other := if_neg different

namespace State

def setDentry (vfs : State) (id : Nat) (dentry : Option Dentry) : State :=
  { vfs with dentries := store vfs.dentries id dentry }

def setInode (vfs : State) (id : Nat) (inode : Option Inode) : State :=
  { vfs with inodes := store vfs.inodes id inode }

def setFile (vfs : State) (id : Nat) (file : Option File) : State :=
  { vfs with files := store vfs.files id file }

end State

section

variable {τ : Type}

def update (change : State → State) : Call τ Unit :=
  Program.modify (fun fs => { fs with vfs := change fs.vfs })

def fetch {α : Type} (cells : State → Nat → Option α) (id : Nat) : Call τ α := fun fs =>
  match cells fs.vfs id with
  | some cell => (.ok cell, fs)
  | none => (.error (.fault .badPointer), fs)

def dentryOf (id : Nat) : Call τ Dentry := fetch State.dentries id

def fileOf (id : Nat) : Call τ File := fetch State.files id

/-- `dentry->inode->...`: the inode of a dentry and its name. -/
def inodeOf (dentry : Dentry) : Call τ (Nat × Inode) :=
  match dentry.inode with
  | none => crash .badPointer
  | some id => do
      let inode ← fetch State.inodes id
      pure (id, inode)

def slabAlloc (heap : Heap τ) (size : Nat) : Call τ (Option Nat) := fun fs =>
  let (address, after) := heap.alloc size fs.heap
  (.ok address, { fs with heap := after })

def slabFree (heap : Heap τ) (address size : Nat) : Call τ Unit :=
  Program.modify (fun fs => { fs with heap := heap.free address size fs.heap })

def freshId : Call τ Nat := fun fs =>
  (.ok fs.vfs.nextId, { fs with vfs := { fs.vfs with nextId := fs.vfs.nextId + 1 } })

/-! ### Reference counts -/

variable (heap : Heap τ) (ops : FileSystem τ)

def iget (inode : Option Nat) : Call τ Unit :=
  match inode with
  | none => pure ()
  | some id => do
      let object ← fetch State.inodes id
      update (·.setInode id (some { object with refCount := object.refCount + 1 }))

def iput (inode : Option Nat) : Call τ Unit :=
  match inode with
  | none => pure ()
  | some id => do
      let object ← fetch State.inodes id
      update (·.setInode id (some { object with refCount := object.refCount - 1 }))
      if object.refCount - 1 = 0 then
        match ops.destroyInode with
        | none => crash .nullOperation
        | some destroyInode => do
            destroyInode id
            update (·.setInode id none)
            slabFree heap object.address sizeofInode
      else pure ()

def dget (id : Nat) : Call τ Unit := do
  let object ← dentryOf id
  update (·.setDentry id (some { object with refCount := object.refCount + 1 }))

/-- Takes a dentry out of the list of its parent. -/
def unlinkChild (id : Nat) (parent : Option Nat) : Call τ Unit :=
  match parent with
  | none => pure ()
  | some above => do
      let directory ← dentryOf above
      update (·.setDentry above (some { directory with children := directory.children.erase id }))

def dput (id : Nat) : Call τ Unit := do
  let object ← dentryOf id
  update (·.setDentry id (some { object with refCount := object.refCount - 1 }))
  if object.refCount - 1 = 0 then do
    unlinkChild id object.parent
    iput heap ops object.inode
    update (·.setDentry id none)
    slabFree heap object.address sizeofDentry
  else pure ()

/-! ### Dentries -/

/-- `d->sibling = parent->child; parent->child = d`. -/
def linkChild (id : Nat) (parent : Option Nat) : Call τ Unit :=
  match parent with
  | none => pure ()
  | some above => do
      let directory ← dentryOf above
      update (·.setDentry above (some { directory with children := id :: directory.children }))

def dAlloc (name : Name) (inode parent : Option Nat) : Call τ (Option Nat) := do
  match ← slabAlloc heap sizeofDentry with
  | none => pure none
  | some address => do
      let id ← freshId
      let dentry : Dentry :=
        { address := address
          name := name.take 255
          inode := inode
          parent := parent
          children := []
          refCount := 1 }
      update (·.setDentry id (some dentry))
      linkChild id parent
      pure (some id)

def searchChildren (name : Name) : List Nat → Call τ (Option Nat)
  | [] => pure none
  | child :: rest => do
      let dentry ← dentryOf child
      if dentry.name = name then pure (some child) else searchChildren name rest

def dLookup (parent : Nat) (name : Name) : Call τ (Option Nat) := do
  let directory ← dentryOf parent
  searchChildren name directory.children

/-! ### Path resolution -/

def skipSlashes (path : Name) : Name := path.dropWhile (· == slash)

def nextComponent (path : Name) : Name := path.takeWhile (· != slash)

/-- The walk drops `current` and ends with an error. -/
def abandon {α : Type} (current : Nat) (errno : Int) : Call τ α := do
  dput heap ops current
  fail (-errno)

/-- `dget(next); dput(current)`. -/
def moveTo (current next : Nat) : Call τ Nat := do
  dget next
  dput heap ops current
  pure next

/-- A name that is not among the children: the file system is asked, with a
temporary dentry that has no inode. -/
def lookupMissing (current inode : Nat) (component : Name) : Call τ Nat :=
  match ops.lookup with
  | none => abandon heap ops current ENOENT
  | some lookup => do
      match ← dAlloc heap component none (some current) with
      | none => abandon heap ops current ENOMEM
      | some temp => do
          match ← lookup inode temp component with
          | none => do
              dput heap ops temp
              abandon heap ops current ENOENT
          | some next => moveTo heap ops current next

def walkComponent (current : Nat) (component : Name) : Call τ Nat :=
  if component = [dot] then pure current
  else if component = [dot, dot] then do
    let dentry ← dentryOf current
    match dentry.parent with
    | none => pure current
    | some parent => moveTo heap ops current parent
  else do
    let dentry ← dentryOf current
    let (id, inode) ← inodeOf dentry
    if inode.type ≠ .directory then abandon heap ops current ENOTDIR
    else do
      match ← dLookup current component with
      | some next => moveTo heap ops current next
      | none => lookupMissing heap ops current id component

/-- The loop of `path_walk`.  Every round consumes a byte of the path. -/
def walkFrom : Nat → Nat → Name → Call τ Nat
  | _, current, [] => pure current
  | 0, current, _ :: _ => pure current
  | rounds + 1, current, byte :: rest =>
    let path := byte :: rest
    let component := nextComponent path
    if 255 < component.length then abandon heap ops current ENAMETOOLONG
    else do
      let next ← walkComponent heap ops current component
      walkFrom rounds next (skipSlashes (path.drop component.length))

def pathWalk (path : Name) : Call τ Nat := do
  if path.head? ≠ some slash then fail (-EINVAL)
  else do
    let vfs ← Program.gets Fs.vfs
    match vfs.rootMount with
    | none => fail (-ENOENT)
    | some mount =>
      if mount.sb.root.isNone then fail (-ENOENT)
      else
        match mount.mountPoint with
        | none => fail (-ENOENT)
        | some root => do
            dget root
            walkFrom heap ops path.length root (skipSlashes path)

/-- Mounts a file system.  After the first mount the target of a mount is what
`path_walk` returned, an error pointer included. -/
def mount (sb : SuperBlock) (mountPoint : Name) : Call τ Unit := do
  if sb.root.isNone then fail (-EINVAL)
  else do
    match ← slabAlloc heap sizeofMount with
    | none => fail (-ENOMEM)
    | some _ => do
        let rootDentry ← dAlloc heap [slash] sb.root none
        let vfs ← Program.gets Fs.vfs
        match vfs.rootMount with
        | none =>
          let first : Mount := ⟨sb, rootDentry⟩
          update (fun vfs =>
            { vfs with rootMount := some first, mountList := first :: vfs.mountList })
        | some _ => do
            let target ← Program.attempt (pathWalk heap ops mountPoint)
            let next : Mount := ⟨sb, target.toOption⟩
            update (fun vfs => { vfs with mountList := next :: vfs.mountList })

/-! ### Open files -/

def baseName (path : Name) : Name := (path.reverse.takeWhile (· != slash)).reverse

def dirName (path : Name) : Name := path.take (path.length - (baseName path).length - 1)

/-- The dentry that `open` is about, with one reference for the file. -/
def openTarget (parent : Nat) (filename : Name) (flags : Nat) : Call τ Nat := do
  match ← dLookup parent filename with
  | none =>
    if flags &&& oCreat = 0 then abandon heap ops parent ENOENT
    else do
      let directory ← dentryOf parent
      let (id, _) ← inodeOf directory
      match ops.create with
      | none => abandon heap ops parent ENOSYS
      | some create => do
          match ← dAlloc heap filename none (some parent) with
          | none => abandon heap ops parent ENOMEM
          | some created => do
              let result ← create id created 0o644
              if result < 0 then do
                dput heap ops created
                dput heap ops parent
                fail result
              else pure created
  | some target =>
    if flags &&& oExcl ≠ 0 then abandon heap ops parent EEXIST
    else do
      dget target
      pure target

def openFile (path : Name) (flags : Nat) : Call τ Nat := do
  if path.head? ≠ some slash then fail (-EINVAL)
  else if 256 ≤ path.length then fail (-ENAMETOOLONG)
  else do
    let parentPath := if dirName path = [] then [slash] else dirName path
    let parent ← pathWalk heap ops parentPath
    let target ← openTarget heap ops parent (baseName path) flags
    dput heap ops parent
    match ← slabAlloc heap sizeofFile with
    | none => abandon heap ops target ENOMEM
    | some address => do
        let dentry ← dentryOf target
        let _ ← inodeOf dentry
        let id ← freshId
        let file : File :=
          { address := address
            dentry := target
            offset := 0
            flags := flags
            refCount := 1 }
        update (·.setFile id (some file))
        pure id

/-- The result of a read is the returned count and the bytes put into the
buffer. -/
def readFile (id size : Nat) : Call τ (Int × List UInt8) := do
  let file ← fileOf id
  if file.flags &&& oWronly ≠ 0 then pure (- EIO, [])
  else
    match ops.read with
    | none => pure (- EIO, [])
    | some read => do
        let (count, bytes) ← read id size file.offset
        if 0 < count then do
          let file ← fileOf id
          update (·.setFile id (some
            { file with offset := (file.offset + count.toNat) % 2 ^ 64 }))
          pure (count, bytes)
        else pure (count, bytes)

/-- A file with `O_APPEND` is written at its end. -/
def writeOffset (file : File) : Call τ Nat :=
  if file.flags &&& oAppend ≠ 0 then do
    let dentry ← dentryOf file.dentry
    let (_, inode) ← inodeOf dentry
    pure inode.size
  else pure file.offset

def writeFile (id : Nat) (bytes : List UInt8) : Call τ Int := do
  let file ← fileOf id
  if file.flags = oRdonly then pure (- EIO)
  else
    match ops.write with
    | none => pure (- EIO)
    | some write => do
        let offset ← writeOffset file
        let count ← write id bytes offset
        if 0 < count then do
          let file ← fileOf id
          update (·.setFile id (some
            { file with offset := (file.offset + count.toNat) % 2 ^ 64 }))
          let dentry ← dentryOf file.dentry
          let (inodeId, inode) ← inodeOf dentry
          if inode.size < (offset + count.toNat) % 2 ^ 64 then do
            update (·.setInode inodeId (some
              { inode with size := (offset + count.toNat) % 2 ^ 64 }))
            pure count
          else pure count
        else pure count

def closeFile (id : Nat) : Call τ Unit := do
  let file ← fileOf id
  update (·.setFile id (some { file with refCount := file.refCount - 1 }))
  if file.refCount - 1 = 0 then do
    dput heap ops file.dentry
    update (·.setFile id none)
    slabFree heap file.address sizeofFile
  else pure ()

end

end Synx.Vfs
