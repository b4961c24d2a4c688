/-
Calls of the file system that keep an invariant.
-/

import Synx.Fs.Vfs

namespace Synx.Vfs

open Lib Program

/-- What an invariant has to stand. -/
structure Indifferent {τ : Type} (heap : Heap τ) (ops : FileSystem τ) (invariant : Fs τ → Prop) :
    Prop where
  dentry : ∀ fs id dentry, invariant fs → invariant { fs with vfs := fs.vfs.setDentry id dentry }
  inode : ∀ fs id inode, invariant fs → invariant { fs with vfs := fs.vfs.setInode id inode }
  fresh : ∀ fs, invariant fs →
    invariant { fs with vfs := { fs.vfs with nextId := fs.vfs.nextId + 1 } }
  alloc : ∀ fs size, 0 < size → size ≤ 4096 → invariant fs →
    invariant { fs with heap := (heap.alloc size fs.heap).2 }
  free : ∀ fs address size, 0 < size → size ≤ 4096 → invariant fs →
    invariant { fs with heap := heap.free address size fs.heap }
  lookup : ∀ lookup, ops.lookup = some lookup → ∀ dir dentry name,
    Keeps invariant (lookup dir dentry name)
  create : ∀ create, ops.create = some create → ∀ dir dentry mode,
    Keeps invariant (create dir dentry mode)
  destroyInode : ∀ destroyInode, ops.destroyInode = some destroyInode → ∀ inode,
    Keeps invariant (destroyInode inode)

section

variable {τ : Type} {heap : Heap τ} {ops : FileSystem τ} {invariant : Fs τ → Prop}

theorem keeps_fetch {α : Type} (cells : State → Nat → Option α) (id : Nat) :
    Keeps invariant (fetch cells id) := by
  intro fs now
  unfold run fetch
  cases cells fs.vfs id <;> exact now

theorem keeps_dentryOf (id : Nat) : Keeps invariant (dentryOf id) := keeps_fetch _ id

theorem keeps_fileOf (id : Nat) : Keeps invariant (fileOf id) := keeps_fetch _ id

theorem keeps_inodeOf (dentry : Dentry) : Keeps invariant (inodeOf dentry) := by
  unfold inodeOf
  cases dentry.inode with
  | none => exact .stop _
  | some id => exact .bind (keeps_fetch _ id) (fun _ => .pure _)

theorem keeps_searchChildren (name : Name) (children : List Nat) :
    Keeps invariant (searchChildren name children) := by
  induction children with
  | nil => exact .pure _
  | cons child rest ih =>
    exact .bind (keeps_dentryOf child) (fun _ => .ite _ (.pure _) ih)

theorem keeps_dLookup (parent : Nat) (name : Name) : Keeps invariant (dLookup parent name) :=
  .bind (keeps_dentryOf parent) (fun _ => keeps_searchChildren _ _)

theorem triple_fetch {α : Type} (cells : State → Nat → Option α) (id : Nat) :
    Triple invariant (fetch cells id) (fun cell fs => invariant fs ∧ cells fs.vfs id = some cell)
      (fun _ => invariant) := by
  intro fs now
  unfold run fetch
  cases there : cells fs.vfs id with
  | none => exact now
  | some cell => exact ⟨now, there⟩

theorem keeps_changed {α : Type} (id : Nat) (change : File → File)
    (changes : ∀ fs file, fs.vfs.files id = some file → invariant fs →
      invariant { fs with vfs := fs.vfs.setFile id (some (change file)) })
    {next : File → Call τ α} (rest : ∀ file, Keeps invariant (next file)) :
    Keeps invariant (do
      let file ← fileOf id
      update (·.setFile id (some (change file)))
      next file) := by
  refine Triple.bind _ (triple_fetch _ id) (fun file =>
    Triple.bind (fun _ => invariant) ?_ (fun _ => rest file))
  exact .modify _ (fun fs now => changes fs file now.2 now.1)

theorem readFile_keeps (id size : Nat)
    (reads : ∀ read, ops.read = some read → ∀ offset, Keeps invariant (read id size offset))
    (moves : ∀ fs file offset, fs.vfs.files id = some file → invariant fs →
      invariant
        { fs with vfs := fs.vfs.setFile id (some { file with offset := offset % 2 ^ 64 }) }) :
    Keeps invariant (readFile ops id size) := by
  refine .bind (keeps_fileOf id) (fun file => .ite _ (.pure _) ?_)
  cases readOp : ops.read with
  | none => exact .pure _
  | some read =>
    refine .bind (reads read readOp _) (fun result => .ite _ ?_ (.pure _))
    exact keeps_changed id
      (fun file => { file with offset := (file.offset + result.1.toNat) % 2 ^ 64 })
      (fun fs file live now => moves fs file _ live now) (fun _ => .pure _)

theorem writeFile_keeps (id : Nat) (bytes : List UInt8)
    (writes : ∀ write, ops.write = some write → ∀ offset, Keeps invariant (write id bytes offset))
    (moves : ∀ fs file offset, fs.vfs.files id = some file → invariant fs →
      invariant { fs with vfs := fs.vfs.setFile id (some { file with offset := offset % 2 ^ 64 }) })
    (sizes : ∀ fs node inode size, fs.vfs.inodes node = some inode → invariant fs →
      invariant { fs with vfs := fs.vfs.setInode node (some { inode with size := size }) }) :
    Keeps invariant (writeFile ops id bytes) := by
  have place : ∀ file, Keeps invariant (writeOffset file : Call τ Nat) := fun file =>
    .ite _ (.bind (keeps_dentryOf _) (fun _ => .bind (keeps_inodeOf _)
      (fun _ => .pure _))) (.pure _)
  refine .bind (keeps_fileOf id) (fun file => .ite _ (.pure _) ?_)
  cases writeOp : ops.write with
  | none => exact .pure _
  | some write =>
    refine .bind (place file) (fun offset =>
      .bind (writes write writeOp _) (fun count => .ite _ ?_ (.pure _)))
    refine keeps_changed id
      (fun file => { file with offset := (file.offset + count.toNat) % 2 ^ 64 })
      (fun fs file live now => moves fs file _ live now) (fun file =>
        .bind (keeps_dentryOf _) (fun dentry => ?_))
    refine Triple.bind (fun found fs => invariant fs ∧ fs.vfs.inodes found.1 = some found.2) ?_
      (fun found => Triple.ite _ (fun _ => Triple.bind (fun _ => invariant) ?_
        (fun _ => Keeps.pure _)) (fun _ => Triple.pure _ (fun _ now => now.1)))
    · unfold inodeOf
      cases dentry.inode with
      | none => exact .stop _ (fun _ now => now)
      | some node =>
        exact .bind _ (triple_fetch _ node) (fun _ => .pure _ (fun _ now => now))
    · exact .modify _ (fun fs now => sizes fs found.1 found.2 _ now.2 now.1)

namespace Indifferent

variable (indifferent : Indifferent heap ops invariant)

include indifferent

theorem keeps_setDentry (id : Nat) (dentry : Option Dentry) :
    Keeps invariant (update (·.setDentry id dentry)) :=
  .modify (fun fs now => indifferent.dentry fs id dentry now)

theorem keeps_setInode (id : Nat) (inode : Option Inode) :
    Keeps invariant (update (·.setInode id inode)) :=
  .modify (fun fs now => indifferent.inode fs id inode now)

theorem keeps_freshId : Keeps invariant freshId := fun fs now => indifferent.fresh fs now

theorem keeps_slabAlloc (size : Nat) (positive : 0 < size) (bounded : size ≤ 4096) :
    Keeps invariant (slabAlloc heap size) :=
  fun fs now => indifferent.alloc fs size positive bounded now

theorem keeps_slabFree (address size : Nat) (positive : 0 < size) (bounded : size ≤ 4096) :
    Keeps invariant (slabFree heap address size) :=
  fun fs now => indifferent.free fs address size positive bounded now

theorem keeps_dget (id : Nat) : Keeps invariant (dget id) :=
  .bind (keeps_dentryOf id) (fun _ => indifferent.keeps_setDentry _ _)

theorem keeps_unlinkChild (id : Nat) (parent : Option Nat) :
    Keeps invariant (unlinkChild id parent) := by
  cases parent with
  | none => exact .pure _
  | some above => exact .bind (keeps_dentryOf above) (fun _ => indifferent.keeps_setDentry _ _)

theorem keeps_linkChild (id : Nat) (parent : Option Nat) :
    Keeps invariant (linkChild id parent) := by
  cases parent with
  | none => exact .pure _
  | some above => exact .bind (keeps_dentryOf above) (fun _ => indifferent.keeps_setDentry _ _)

theorem keeps_iput (inode : Option Nat) : Keeps invariant (iput heap ops inode) := by
  unfold iput
  cases inode with
  | none => exact .pure _
  | some id =>
    refine .bind (keeps_fetch _ id) (fun object =>
      .bind (indifferent.keeps_setInode _ _) (fun _ => .ite _ ?_ (.pure _)))
    cases destroys : ops.destroyInode with
    | none => exact .stop _
    | some destroyInode =>
      exact .bind (indifferent.destroyInode destroyInode destroys id) (fun _ =>
        .bind (indifferent.keeps_setInode _ _) (fun _ =>
          indifferent.keeps_slabFree _ _ (by decide) (by decide)))

theorem keeps_dput (id : Nat) : Keeps invariant (dput heap ops id) :=
  .bind (keeps_dentryOf id) (fun _ => .bind (indifferent.keeps_setDentry _ _) (fun _ =>
    .ite _
      (.bind (indifferent.keeps_unlinkChild _ _) (fun _ =>
        .bind (indifferent.keeps_iput _) (fun _ =>
          .bind (indifferent.keeps_setDentry _ _) (fun _ =>
            indifferent.keeps_slabFree _ _ (by decide) (by decide)))))
      (.pure _)))

theorem keeps_dAlloc (name : Name) (inode parent : Option Nat) :
    Keeps invariant (dAlloc heap name inode parent) := by
  refine .bind (indifferent.keeps_slabAlloc _ (by decide) (by decide)) (fun address => ?_)
  cases address with
  | none => exact .pure _
  | some address =>
    exact .bind indifferent.keeps_freshId (fun _ =>
      .bind (indifferent.keeps_setDentry _ _) (fun _ =>
        .bind (indifferent.keeps_linkChild _ _) (fun _ => .pure _)))

theorem keeps_abandon {α : Type} (current : Nat) (errno : Int) :
    Keeps invariant (abandon heap ops current errno : Call τ α) :=
  .bind (indifferent.keeps_dput current) (fun _ => .stop _)

theorem keeps_moveTo (current next : Nat) : Keeps invariant (moveTo heap ops current next) :=
  .bind (indifferent.keeps_dget next) (fun _ =>
    .bind (indifferent.keeps_dput current) (fun _ => .pure _))

theorem keeps_lookupMissing (current inode : Nat) (component : Name) :
    Keeps invariant (lookupMissing heap ops current inode component) := by
  unfold lookupMissing
  cases looks : ops.lookup with
  | none => exact indifferent.keeps_abandon _ _
  | some lookup =>
    refine .bind (indifferent.keeps_dAlloc _ _ _) (fun temp => ?_)
    cases temp with
    | none => exact indifferent.keeps_abandon _ _
    | some temp =>
      refine .bind (indifferent.lookup lookup looks _ _ _) (fun next => ?_)
      cases next with
      | none =>
        exact .bind (indifferent.keeps_dput _) (fun _ => indifferent.keeps_abandon _ _)
      | some next => exact indifferent.keeps_moveTo _ _

theorem keeps_walkComponent (current : Nat) (component : Name) :
    Keeps invariant (walkComponent heap ops current component) := by
  refine .ite _ (.pure _) (.ite _ ?_ ?_)
  · refine .bind (keeps_dentryOf _) (fun dentry => ?_)
    cases dentry.parent with
    | none => exact .pure _
    | some parent => exact indifferent.keeps_moveTo _ _
  · refine .bind (keeps_dentryOf _) (fun _ => .bind (keeps_inodeOf _) (fun found =>
      .ite _ (indifferent.keeps_abandon _ _) (.bind (keeps_dLookup _ _) (fun next => ?_))))
    cases next with
    | none => exact indifferent.keeps_lookupMissing _ _ _
    | some next => exact indifferent.keeps_moveTo _ _

theorem keeps_walkFrom (rounds current : Nat) (path : Name) :
    Keeps invariant (walkFrom heap ops rounds current path) := by
  induction rounds generalizing current path with
  | zero => cases path <;> exact .pure _
  | succ rounds ih =>
    cases path with
    | nil => exact .pure _
    | cons byte rest =>
      exact .ite _ (indifferent.keeps_abandon _ _)
        (.bind (indifferent.keeps_walkComponent _ _) (fun next => ih next _))

theorem keeps_pathWalk (path : Name) : Keeps invariant (pathWalk heap ops path) := by
  refine .ite _ (.stop _) (.bind (.gets _) (fun vfs => ?_))
  cases vfs.rootMount with
  | none => exact .stop _
  | some mount =>
    refine .ite _ (.stop _) ?_
    cases mount.mountPoint with
    | none => exact .stop _
    | some root =>
      exact .bind (indifferent.keeps_dget root) (fun _ => indifferent.keeps_walkFrom _ _ _)

theorem keeps_openTarget (parent : Nat) (filename : Name) (flags : Nat) :
    Keeps invariant (openTarget heap ops parent filename flags) := by
  refine .bind (keeps_dLookup _ _) (fun target => ?_)
  cases target with
  | none =>
    refine .ite _ (indifferent.keeps_abandon _ _)
      (.bind (keeps_dentryOf _) (fun _ => .bind (keeps_inodeOf _) (fun found => ?_)))
    obtain ⟨id, inode⟩ := found
    simp only
    cases creates : ops.create with
    | none => exact indifferent.keeps_abandon _ _
    | some create =>
      refine .bind (indifferent.keeps_dAlloc _ _ _) (fun created => ?_)
      cases created with
      | none => exact indifferent.keeps_abandon _ _
      | some created =>
        refine .bind (indifferent.create create creates _ _ _) (fun result =>
          .ite _ ?_ (.pure _))
        exact .bind (indifferent.keeps_dput _) (fun _ =>
          .bind (indifferent.keeps_dput _) (fun _ => .stop _))
  | some target =>
    exact .ite _ (indifferent.keeps_abandon _ _)
      (.bind (indifferent.keeps_dget _) (fun _ => .pure _))

theorem openFile_triple {after : Nat → Fs τ → Prop} (path : Name) (flags : Nat)
    (opens : ∀ fs id address dentry, invariant fs →
      after id { fs with vfs := fs.vfs.setFile id (some ⟨address, dentry, 0, flags, 1⟩) }) :
    Triple invariant (openFile heap ops path flags) after (fun _ => invariant) := by
  refine .ite _ (fun _ => .stop _ (fun _ now => now)) (fun _ =>
    .ite _ (fun _ => .stop _ (fun _ now => now)) (fun _ =>
      .bind _ (indifferent.keeps_pathWalk _) (fun parent =>
        .bind _ (indifferent.keeps_openTarget _ _ _) (fun target =>
          .bind _ (indifferent.keeps_dput _) (fun _ =>
            .bind _ (indifferent.keeps_slabAlloc _ (by decide) (by decide)) ?_)))))
  intro address
  cases address with
  | none =>
    exact .bind _ (indifferent.keeps_dput target)
      (fun _ => .stop _ (fun _ now => now))
  | some address =>
    exact .bind _ (keeps_dentryOf _) (fun _ => .bind _ (keeps_inodeOf _) (fun _ =>
      .bind _ indifferent.keeps_freshId (fun id =>
        .bind (fun _ => after id) (.modify _ (fun fs now => opens fs id _ _ now))
          (fun _ => .pure _ (fun _ now => now)))))

theorem keeps_closeFile (id : Nat)
    (counts : ∀ fs file count, fs.vfs.files id = some file → invariant fs →
      invariant { fs with vfs := fs.vfs.setFile id (some { file with refCount := count }) })
    (ends : ∀ fs, invariant fs → invariant { fs with vfs := fs.vfs.setFile id none }) :
    Keeps invariant (closeFile heap ops id) := by
  exact keeps_changed id (fun file => { file with refCount := file.refCount - 1 })
    (fun fs file live now => counts fs file _ live now) (fun file => .ite _
      (.bind (indifferent.keeps_dput _) (fun _ => .bind (.modify ends) (fun _ =>
        indifferent.keeps_slabFree _ _ (by decide) (by decide))))
      (.pure _))

end Indifferent

end

end Synx.Vfs
