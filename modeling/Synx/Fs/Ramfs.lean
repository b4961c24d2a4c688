/-
The in-memory file system of `fs/ramfs.cpp`.  Its tree is the dentry tree
itself; files are created when the boot archive is loaded and are read-only
afterwards.
-/

import Synx.Fs.Vfs

namespace Synx.Ramfs

open Lib
open Vfs

section

variable {τ : Type} (heap : Heap τ)

/-- A new inode with one reference and its private data, or null. -/
def allocInode (type : FileType) : Call τ (Option Nat) := do
  match ← slabAlloc heap sizeofInode with
  | none => pure none
  | some address => do
      let vfs ← Program.gets Fs.vfs
      let ino := vfs.nextIno
      update (fun vfs => { vfs with nextIno := (vfs.nextIno + 1) % 2 ^ 32 })
      match ← slabAlloc heap sizeofInodeData with
      | none => do
          slabFree heap address sizeofInode
          pure none
      | some dataAddress => do
          let id ← freshId
          let inode : Inode :=
            { address := address
              ino := ino
              type := type
              size := 0
              refCount := 1
              privateData := some ⟨dataAddress, none, 0⟩ }
          update (·.setInode id (some inode))
          pure (some id)

/-- The children of the directory other than the temporary dentry. -/
def lookupAmong (dentry : Nat) (name : Name) : List Nat → Call τ (Option Nat)
  | [] => pure none
  | child :: rest => do
      let object ← dentryOf child
      if child ≠ dentry ∧ object.name = name then do
        iget object.inode
        pure (some child)
      else lookupAmong dentry name rest

def ramfsLookup (dir dentry : Nat) (name : Name) : Call τ (Option Nat) := do
  let inode ← fetch State.inodes dir
  if inode.type ≠ .directory then pure none
  else do
    let object ← dentryOf dentry
    match object.parent with
    | none => pure none
    | some parent => do
        let directory ← dentryOf parent
        lookupAmong dentry name directory.children

def ramfsRead (file size offset : Nat) : Call τ (Int × List UInt8) := do
  let object ← fileOf file
  let dentry ← dentryOf object.dentry
  let (_, inode) ← inodeOf dentry
  if inode.type ≠ .regular then pure (-EINVAL, [])
  else
    match inode.privateData.bind InodeData.buffer with
    | none => pure (0, [])
    | some (_, bytes) =>
      if inode.size ≤ offset then pure (0, [])
      else
        let size :=
          if inode.size < (offset + size) % 2 ^ 64 then inode.size - offset else size
        if bytes.length < offset + size then crash .outOfBounds
        else pure (size, (bytes.drop offset).take size)

/-- The loop of `ramfs_readdir` over the children from position `index`. -/
def listChildren (offset count : Nat) :
    Nat → List SimpleDirent → List Nat → Call τ (Nat × List SimpleDirent)
  | index, written, [] => pure (index, written)
  | index, written, child :: rest =>
    if written.length < count then do
      let written ←
        if offset ≤ index then do
          let dentry ← dentryOf child
          let (_, inode) ← inodeOf dentry
          pure (written ++ [⟨inode.ino, dentry.name.take 255⟩])
        else pure written
      listChildren offset count (index + 1) written rest
    else pure (index, written)

def ramfsReaddir (file count : Nat) : Call τ (Int × List SimpleDirent) := do
  let object ← fileOf file
  let dentry ← dentryOf object.dentry
  let (_, inode) ← inodeOf dentry
  if inode.type ≠ .directory then pure (-ENOTDIR, [])
  else do
    let (index, written) ← listChildren object.offset count 0 [] dentry.children
    update (·.setFile file (some { object with offset := index % 2 ^ 64 }))
    pure (written.length, written)

/-- The operation tables: nothing can be created or written, and there are no
operations on the super block. -/
def ramfs : FileSystem τ :=
  { lookup := some ramfsLookup
    create := none
    read := some ramfsRead
    write := none
    readdir := some ramfsReaddir
    destroyInode := none }

def init : Call τ (Option SuperBlock) := do
  match ← slabAlloc heap sizeofSuperBlock with
  | none => pure none
  | some address => do
      match ← allocInode heap .directory with
      | none => do
          slabFree heap address sizeofSuperBlock
          pure none
      | some root => pure (some ⟨address, 0x52414D46, some root⟩)

def freeInode (inode : Nat) : Call τ Unit := do
  let object ← fetch State.inodes inode
  match object.privateData with
  | none => crash .badPointer
  | some priv => do
      slabFree heap priv.address sizeofInodeData
      update (·.setInode inode none)
      slabFree heap object.address sizeofInode

/-- The buffer of a new file; an empty file has none. -/
def fillFile (inode : Nat) (data : List UInt8) : Call τ Bool := do
  let object ← fetch State.inodes inode
  let sized := { object with size := data.length }
  if data.length = 0 then do
    update (·.setInode inode (some sized))
    pure true
  else
    match object.privateData with
    | none => crash .badPointer
    | some priv => do
        match ← slabAlloc heap data.length with
        | none => pure false
        | some address => do
            update (·.setInode inode (some
              { sized with
                privateData := some ⟨priv.address, some (address, data), data.length⟩ }))
            pure true

def freeBuffer (inode : Nat) : Call τ Unit := do
  let object ← fetch State.inodes inode
  match object.privateData with
  | some ⟨_, some (address, _), capacity⟩ => slabFree heap address capacity
  | _ => pure ()

def createFile (parentDir : Nat) (name : Name) (data : List UInt8) : Call τ (Option Nat) := do
  let directory ← dentryOf parentDir
  match directory.inode with
  | none => pure none
  | some id => do
      let parent ← fetch State.inodes id
      if parent.type ≠ .directory then pure none
      else do
        match ← allocInode heap .regular with
        | none => pure none
        | some inode => do
            if ← fillFile heap inode data then do
              match ← dAlloc heap name (some inode) (some parentDir) with
              | none => do
                  freeBuffer heap inode
                  freeInode heap inode
                  pure none
              | some _ => pure (some inode)
            else do
              freeInode heap inode
              pure none

def createDir (parentDir : Nat) (name : Name) : Call τ (Option Nat) := do
  let directory ← dentryOf parentDir
  let (_, parent) ← inodeOf directory
  if parent.type ≠ .directory then pure none
  else do
    match ← allocInode heap .directory with
    | none => pure none
    | some inode => do
        match ← dAlloc heap name (some inode) (some parentDir) with
        | none => do
            freeInode heap inode
            pure none
        | some _ => pure (some inode)

end

end Synx.Ramfs
