/-
The use of open files, for any file system: runs of `open`, `read`, `write`,
`lseek`, `fcntl(F_SETFL)`, `dup` and `close`.
-/

import Synx.Fs.Keeping
import Synx.Fs.Tree

namespace Synx.Vfs

open Lib Program Option

def oRdwr : Nat := 0x02

section

variable {τ : Type}

def editFile (id : Nat) (change : File → File) : Call τ Unit := do
  let file ← fileOf id
  update (·.setFile id (some (change file)))

/-- A call on an open file. -/
inductive Use
  | read (id size : Nat)
  | write (id : Nat) (bytes : List UInt8)
  | seek (id offset : Nat)
  | setFlags (id argument : Nat)
  | duplicate (id : Nat)
  | close (id : Nat)

variable (heap : Heap τ) (ops : FileSystem τ)

def perform : Use → Call τ Unit
  | .read id size => do
      let _ ← readFile ops id size
      pure ()
  | .write id bytes => do
      let _ ← writeFile ops id bytes
      pure ()
  | .seek id offset => editFile id (fun file => { file with offset := offset % 2 ^ 64 })
  | .setFlags id argument =>
    editFile id (fun file => { file with flags := statusFlags file.flags argument })
  | .duplicate id => editFile id (fun file => { file with refCount := file.refCount + 1 })
  | .close id => closeFile heap ops id

structure Session (τ : Type) where
  fs : Fs τ
  openedWith : Nat → Option Nat

/-- One call of a session, whether it succeeds or not. -/
inductive SessionStep : Session τ → Session τ → Prop
  | opened {session : Session τ} {path : Name} {flags id : Nat} {after : Fs τ}
      (ran : (openFile heap ops path flags).run session.fs = (.ok id, after)) :
      SessionStep session ⟨after, store session.openedWith id (some flags)⟩
  | refused {session : Session τ} {path : Name} {flags : Nat} {reason : Stop Fault} {after : Fs τ}
      (ran : (openFile heap ops path flags).run session.fs = (.error reason, after)) :
      SessionStep session ⟨after, session.openedWith⟩
  | used (session : Session τ) (use : Use) :
      SessionStep session ⟨((perform heap ops use).run session.fs).2, session.openedWith⟩

/-- Sessions start with no file open. -/
inductive InSession : Session τ → Prop
  | start (fs : Fs τ) (closed : ∀ id, fs.vfs.files id = none) : InSession ⟨fs, fun _ => none⟩
  | step {session after : Session τ} (reached : InSession session)
      (next : SessionStep heap ops session after) : InSession after

end

/-! ### The position of a write -/

section

variable {τ : Type} {fs : Fs τ}

/-- The size of the inode of a file, if its pointers lead to one. -/
def fileSize (fs : Fs τ) (file : File) : Option Nat := do
  let dentry ← fs.vfs.dentries file.dentry
  let inode ← dentry.inode
  let object ← fs.vfs.inodes inode
  pure object.size

/-- The position a file is written at: its end with `O_APPEND`. -/
def position (fs : Fs τ) (file : File) : Option Nat :=
  if file.flags &&& oAppend ≠ 0 then fileSize fs file else some file.offset

theorem fileSize_eq {file : File} {dentry : Dentry} {inode : Nat} {object : Inode}
    (live : fs.vfs.dentries file.dentry = some dentry) (points : dentry.inode = some inode)
    (there : fs.vfs.inodes inode = some object) : fileSize fs file = some object.size := by
  unfold fileSize
  rw [live, bind_eq_bind, bind_some, points, bind_eq_bind, bind_some,
    there]
  rfl

theorem run_fetch_none {α : Type} {cells : State → Nat → Option α} {id : Nat}
    (gone : cells fs.vfs id = none) :
    (fetch cells id).run fs = (.error (.fault .badPointer), fs) := by
  unfold run fetch
  rw [gone]

theorem run_writeOffset (file : File) :
    (writeOffset file).run fs =
      match position fs file with
      | some offset => (.ok offset, fs)
      | none => (.error (.fault .badPointer), fs) := by
  unfold writeOffset position
  split
  · unfold fileSize
    cases live : fs.vfs.dentries file.dentry with
    | none => exact run_bind_error (run_fetch_none live)
    | some dentry =>
      rw [run_bind_ok (run_dentryOf live), bind_eq_bind, bind_some]
      cases points : dentry.inode with
      | none =>
        unfold inodeOf
        rw [points]
        rfl
      | some inode =>
        rw [bind_eq_bind, bind_some]
        cases there : fs.vfs.inodes inode with
        | none =>
          unfold inodeOf
          rw [points]
          exact run_bind_error (run_bind_error (run_fetch_none there))
        | some object =>
          rw [run_bind_ok (run_inodeOf points there)]
          rfl
  · rfl

end

/-! ### Properties of the open files

A view of a file that the operations of the file system leave alone, and a property of it
that the changes of positions, flags and reference counts keep. -/

section

variable {τ γ : Type}

def viewed (view : File → γ) (vfs : State) (id : Nat) : Option γ := (vfs.files id).map view

/-- The operations of a file system leave the view of the open files alone. -/
structure Leaves (view : File → γ) (ops : FileSystem τ) : Prop where
  lookup : ∀ lookup, ops.lookup = some lookup → ∀ dir dentry name table,
    Keeps (fun fs => viewed view fs.vfs = table) (lookup dir dentry name)
  create : ∀ create, ops.create = some create → ∀ dir dentry mode table,
    Keeps (fun fs => viewed view fs.vfs = table) (create dir dentry mode)
  read : ∀ read, ops.read = some read → ∀ file size offset table,
    Keeps (fun fs => viewed view fs.vfs = table) (read file size offset)
  write : ∀ write, ops.write = some write → ∀ file bytes offset table,
    Keeps (fun fs => viewed view fs.vfs = table) (write file bytes offset)
  destroyInode : ∀ destroyInode, ops.destroyInode = some destroyInode → ∀ inode table,
    Keeps (fun fs => viewed view fs.vfs = table) (destroyInode inode)

def EachFile (view : File → γ) (holds : Nat → γ → Prop) (fs : Fs τ) : Prop :=
  ∀ id file, fs.vfs.files id = some file → holds id (view file)

/-- The changes that calls make to a file keep the property. -/
structure Stable (view : File → γ) (holds : Nat → γ → Prop) : Prop where
  offset : ∀ id file offset, holds id (view file) →
    holds id (view { file with offset := offset % 2 ^ 64 })
  flags : ∀ id file argument, holds id (view file) →
    holds id (view { file with flags := statusFlags file.flags argument })
  refCount : ∀ id file count, holds id (view file) → holds id (view { file with refCount := count })

variable {heap : Heap τ} {ops : FileSystem τ} {view : File → γ} {holds : Nat → γ → Prop}

theorem EachFile.of_viewed {fs after : Fs τ} (each : EachFile view holds fs)
    (same : viewed view after.vfs = viewed view fs.vfs) : EachFile view holds after := by
  intro id file live
  have seen : viewed view after.vfs id = some (view file) := congrArg (Option.map view) live
  rw [same] at seen
  obtain ⟨before, was, looks⟩ := map_eq_some_iff.mp seen
  rw [← looks]
  exact each id before was

theorem keeps_each {α : Type} {call : Call τ α}
    (leaves : ∀ table, Keeps (fun fs => viewed view fs.vfs = table) call) :
    Keeps (EachFile view holds) call := by
  intro fs each
  have same := (leaves (viewed view fs.vfs)).final rfl
  split
  · rename_i ran
    rw [ran] at same
    exact each.of_viewed same
  · rename_i ran
    rw [ran] at same
    exact each.of_viewed same

theorem EachFile.setFile {fs : Fs τ} (each : EachFile view holds fs) (id : Nat) (file : Option File)
    (fits : ∀ object, file = some object → holds id (view object)) :
    EachFile view holds { fs with vfs := fs.vfs.setFile id file } := by
  intro other object live
  by_cases same : other = id
  · subst same
    exact fits object ((store_same).symm.trans live)
  · exact each other object ((store_other same).symm.trans live)

theorem keeps_editFile (id : Nat) (change : File → File)
    (changes : ∀ file, holds id (view file) → holds id (view (change file))) :
    Keeps (EachFile view holds) (editFile id change : Call τ Unit) := by
  refine keeps_changed id change (fun fs file live each => each.setFile id _ ?_)
    (fun _ => .pure ())
  rintro _ ⟨⟩
  exact changes file (each id file live)

variable (leaves : Leaves view ops)

include leaves

theorem Leaves.indifferent : Indifferent heap ops (EachFile view holds) where
  dentry _ _ _ each := each
  inode _ _ _ each := each
  fresh _ each := each
  alloc _ _ _ _ each := each
  free _ _ _ _ _ each := each
  lookup lookup looks dir dentry name := keeps_each (leaves.lookup lookup looks dir dentry name)
  create create creates dir dentry mode := keeps_each (leaves.create create creates dir dentry mode)
  destroyInode destroyInode destroys inode :=
    keeps_each (leaves.destroyInode destroyInode destroys inode)

omit leaves

variable (stable : Stable view holds)

include stable

theorem moved_each (id : Nat) (fs : Fs τ) (file : File) (offset : Nat)
    (live : fs.vfs.files id = some file) (each : EachFile view holds fs) :
    EachFile view holds
      { fs with vfs := fs.vfs.setFile id (some { file with offset := offset % 2 ^ 64 }) } := by
  refine each.setFile id _ (fun object moved => ?_)
  cases moved
  exact stable.offset id file offset (each id file live)

include leaves in
theorem perform_each (use : Use) : Keeps (EachFile view holds) (perform heap ops use) := by
  cases use with
  | read id size =>
    exact .bind (readFile_keeps id size
      (fun read reads offset => keeps_each (leaves.read read reads id size offset))
      (moved_each stable id)) (fun _ => .pure ())
  | write id bytes =>
    exact .bind (writeFile_keeps id bytes
      (fun write writes offset => keeps_each (leaves.write write writes id bytes offset))
      (moved_each stable id) (fun _ _ _ _ _ each => each)) (fun _ => .pure ())
  | seek id offset => exact keeps_editFile id _ (fun file now => stable.offset id file _ now)
  | setFlags id argument => exact keeps_editFile id _ (fun file now => stable.flags id file _ now)
  | duplicate id => exact keeps_editFile id _ (fun file now => stable.refCount id file _ now)
  | close id =>
    refine leaves.indifferent.keeps_closeFile id ?_ ?_
    · intro fs file count live each
      refine each.setFile id _ (fun object counted => ?_)
      cases counted
      exact stable.refCount id file count (each id file live)
    · intro fs each
      exact each.setFile id none nofun

end

end Synx.Vfs
