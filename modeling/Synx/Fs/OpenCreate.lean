/-
Files that `open` creates.
-/

import Synx.Fs.Growth
import Synx.Fs.OpenWalk
import Synx.Fs.Sessions

namespace Synx.Vfs

open Lib Program List Option

/-! ### What the file system may do -/

/-- The inodes that were there are there, with their types, and new ones have new names. -/
structure InodesStay (before after : State) : Prop where
  later : before.nextId ≤ after.nextId
  root : after.rootMount = before.rootMount
  files : after.files = before.files
  inode : ∀ node object, before.inodes node = some object →
    ∃ later, after.inodes node = some later ∧ later.type = object.type
  known : (∀ node object, before.inodes node = some object → node < before.nextId) →
    ∀ node object, after.inodes node = some object → node < after.nextId

/-- Only the contents of inodes have changed. -/
structure ContentsOnly (before after : State) : Prop where
  stay : InodesStay before after
  dentries : after.dentries = before.dentries
  refCount : ∀ node object later, before.inodes node = some object →
    after.inodes node = some later → later.refCount = object.refCount

/-- A file system whose tree is in memory, whose `read` and `write` change contents only, and
which has a `destroy_inode`. -/
structure Orderly {τ : Type} (ops : FileSystem τ) : Prop where
  cached : Cached ops
  read : ∀ read, ops.read = some read → ∀ file size offset fs,
    ContentsOnly fs.vfs ((read file size offset).run fs).2.vfs
  write : ∀ write, ops.write = some write → ∀ file bytes offset fs,
    ContentsOnly fs.vfs ((write file bytes offset).run fs).2.vfs
  destroyInode : ∃ destroyInode, ops.destroyInode = some destroyInode ∧ ∀ node fs,
    ∃ after, (destroyInode node).run fs = (.ok (), after) ∧ ContentsOnly fs.vfs after.vfs

/-- `create` sets the inode of the dentry and returns 0.  It may take references to the
dentry; the inode is new or has other references. -/
def Makes {τ : Type} (create : Nat → Nat → Nat → Call τ Int) (taken : Nat → Fs τ → Nat) : Prop :=
  ∀ dir id mode fs temp, fs.vfs.dentries id = some temp →
    (∀ node object, fs.vfs.inodes node = some object → node < fs.vfs.nextId) →
    ∃ node object after, (create dir id mode).run fs = (.ok 0, after) ∧
      after.vfs.dentries = store fs.vfs.dentries id
        (some { temp with inode := some node, refCount := temp.refCount + taken id fs }) ∧
      after.vfs.inodes node = some object ∧
      (fs.vfs.inodes node = none ∨ 2 ≤ object.refCount) ∧ InodesStay fs.vfs after.vfs

def Use.file : Use → Nat
  | .read id _ => id
  | .write id _ => id
  | .seek id _ => id
  | .setFlags id _ => id
  | .duplicate id => id
  | .close id => id

section

variable {τ : Type} (heap : Heap τ) (ops : FileSystem τ)

def Uses (id : Nat) : Fs τ → Fs τ → Prop :=
  Relation.ReflTransGen (fun before after => ∃ use : Use, use.file = id ∧
    after = ((perform heap ops use).run before).2)

/-- The path leads to the dentry of the file, with the inode it had. -/
def Survives (path : Name) (id : Nat) (opened later : Fs τ) : Prop :=
  ∃ file dentry node now object, opened.vfs.files id = some file ∧
    opened.vfs.dentries file.dentry = some dentry ∧ dentry.inode = some node ∧
    ((pathWalk heap ops path).run later).1 = .ok file.dentry ∧
    later.vfs.dentries file.dentry = some now ∧ now.inode = some node ∧
    later.vfs.inodes node = some object

/-- The state in which `open` calls `create`: the new dentry is linked, and the directory
has the reference of the walk. -/
def atCreate (fs : Fs τ) (parent : Nat) (directory : Dentry) (name : Name) : Fs τ :=
  ⟨(fs.vfs.adjust (Pi.single parent 1)).attach parent
      { directory with refCount := directory.refCount + 1 }
      ⟨(heap.alloc sizeofDentry fs.heap).1.getD 0, name.take 255, none, some parent, [], 1⟩,
    (heap.alloc sizeofDentry fs.heap).2⟩

end

/-! ### A file in use -/

theorem InodesStay.refl (vfs : State) : InodesStay vfs vfs :=
  ⟨le_rfl, rfl, rfl, fun _ object live => ⟨object, live, rfl⟩, fun known => known⟩

/-- The dentry has the references `new` says, and the file is open. -/
structure InUse (base : State) (parent target : Nat) (directory new : Dentry) (id : Nat)
    (vfs : State) : Prop where
  adopted : Adopted base vfs parent target directory new
  file : ∃ file, vfs.files id = some file ∧ file.dentry = target ∧ 1 ≤ file.refCount
  others : ∀ other, other ≠ id → vfs.files other = base.files other
  fresh : base.files id = none
  last : ∃ node object, new.inode = some node ∧ vfs.inodes node = some object ∧
    (base.inodes node = none ∨ 2 ≤ object.refCount)

section InUse

variable {base vfs after : State} {parent target id : Nat} {directory new : Dentry}

theorem Adopted.contents (adopted : Adopted base vfs parent target directory new)
    (contents : ContentsOnly vfs after) : Adopted base after parent target directory new where
  live := adopted.live
  dentries := contents.dentries.trans adopted.dentries
  unused := adopted.unused
  known := lt_of_lt_of_le adopted.known contents.stay.later
  inodes := by
    intro node object live
    obtain ⟨middle, liveMiddle, sameType⟩ := adopted.inodes node object live
    obtain ⟨last, liveLast, lastType⟩ := contents.stay.inode node middle liveMiddle
    exact ⟨last, liveLast, lastType.trans sameType⟩
  inodeKnown := contents.stay.known adopted.inodeKnown
  root := contents.stay.root.trans adopted.root
  inode := by
    obtain ⟨node, object, points, live⟩ := adopted.inode
    obtain ⟨last, liveLast, _⟩ := contents.stay.inode node object live
    exact ⟨node, last, points, liveLast⟩
  parent := adopted.parent
  children := adopted.children
  counted := adopted.counted

theorem InUse.contents (inUse : InUse base parent target directory new id vfs)
    (contents : ContentsOnly vfs after) : InUse base parent target directory new id after where
  adopted := inUse.adopted.contents contents
  file := by
    rw [contents.stay.files]
    exact inUse.file
  others := by
    rw [contents.stay.files]
    exact inUse.others
  fresh := inUse.fresh
  last := by
    obtain ⟨node, object, points, live, alone⟩ := inUse.last
    obtain ⟨last, liveLast, _⟩ := contents.stay.inode node object live
    refine ⟨node, last, points, liveLast, alone.imp_right (fun shared => ?_)⟩
    rw [contents.refCount node object last live liveLast]
    exact shared

theorem InUse.edited (inUse : InUse base parent target directory new id vfs) {file changed : File}
    (live : vfs.files id = some file) (same : changed.dentry = file.dentry)
    (counted : 1 ≤ changed.refCount) :
    InUse base parent target directory new id (vfs.setFile id (some changed)) where
  adopted := { inUse.adopted with }
  file := by
    obtain ⟨old, liveOld, points, _⟩ := inUse.file
    rw [live] at liveOld
    cases liveOld
    exact ⟨changed, store_same, same.trans points, counted⟩
  others := by
    intro other different
    exact (store_other different).trans (inUse.others other different)
  fresh := inUse.fresh
  last := inUse.last

theorem contentsOnly_setInode {node : Nat} {object changed : Inode}
    (live : vfs.inodes node = some object) (sameType : changed.type = object.type)
    (sameCount : changed.refCount = object.refCount) :
    ContentsOnly vfs (vfs.setInode node (some changed)) := by
  have cases : ∀ other now, (vfs.setInode node (some changed)).inodes other = some now →
      (other = node ∧ now = changed) ∨ vfs.inodes other = some now := by
    intro other now found
    by_cases same : other = node
    · subst same
      exact .inl ⟨rfl, (some.inj ((store_same).symm.trans found)).symm⟩
    · exact .inr ((store_other same).symm.trans found)
  refine ⟨⟨le_rfl, rfl, rfl, ?_, ?_⟩, rfl, ?_⟩
  · intro other old found
    by_cases same : other = node
    · subst same
      rw [live] at found
      cases found
      exact ⟨changed, store_same, sameType⟩
    · exact ⟨old, (store_other same).trans found, rfl⟩
  · intro known other now found
    rcases cases other now found with ⟨rfl, _⟩ | old
    · exact known other object live
    · exact known other now old
  · intro other old now found foundNow
    rcases cases other now foundNow with ⟨rfl, rfl⟩ | kept
    · rw [live] at found
      cases found
      exact sameCount
    · rw [found] at kept
      cases kept
      rfl

end InUse

section Runs

variable {τ : Type} {heap : Heap τ} {ops : FileSystem τ} {base : State}
  {parent target id : Nat} {directory new : Dentry}

theorem keeps_contents {α : Type} {call : Call τ α}
    (contents : ∀ fs, ContentsOnly fs.vfs (call.run fs).2.vfs) :
    Keeps (fun fs => InUse base parent target directory new id fs.vfs) call := by
  intro fs inUse
  have kept := inUse.contents (contents fs)
  split
  · rename_i ran
    rw [ran] at kept
    exact kept
  · rename_i ran
    rw [ran] at kept
    exact kept

theorem keeps_edit (change : File → File) (same : ∀ file, (change file).dentry = file.dentry)
    (counted : ∀ file, file.refCount ≤ (change file).refCount) :
    Keeps (fun fs : Fs τ => InUse base parent target directory new id fs.vfs)
      (editFile id change) := by
  refine keeps_changed id change (fun fs file live inUse => ?_) (fun _ => .pure ())
  obtain ⟨old, liveOld, _, positive⟩ := inUse.file
  rw [live] at liveOld
  cases liveOld
  exact inUse.edited live (same file) (Int.le_trans positive (counted file))

theorem perform_inUse (orderly : Orderly ops) (use : Use) (about : use.file = id)
    (open_ : use ≠ .close id) :
    Keeps (fun fs => InUse base parent target directory new id fs.vfs) (perform heap ops use) := by
  have moves : ∀ (fs : Fs τ) file offset, fs.vfs.files id = some file →
      InUse base parent target directory new id fs.vfs →
      InUse base parent target directory new id
        (fs.vfs.setFile id (some { file with offset := offset % 2 ^ 64 })) := by
    intro fs file offset live inUse
    obtain ⟨old, liveOld, _, positive⟩ := inUse.file
    rw [live] at liveOld
    cases liveOld
    exact inUse.edited live rfl positive
  cases use with
  | read other size =>
    cases about
    exact .bind (readFile_keeps _ size
      (fun read reads offset => keeps_contents (orderly.read read reads _ size offset)) moves)
      (fun _ => .pure ())
  | write other bytes =>
    cases about
    exact .bind (writeFile_keeps _ bytes
      (fun write writes offset => keeps_contents (orderly.write write writes _ bytes offset)) moves
      (fun fs node inode size live inUse => inUse.contents (contentsOnly_setInode live rfl rfl)))
      (fun _ => .pure ())
  | seek other offset =>
    cases about
    exact keeps_edit _ (fun _ => rfl) (fun _ => Int.le_refl _)
  | setFlags other argument =>
    cases about
    exact keeps_edit _ (fun _ => rfl) (fun _ => Int.le_refl _)
  | duplicate other =>
    cases about
    exact keeps_edit _ (fun _ => rfl) (fun file => by simp only; omega)
  | close other =>
    cases about
    exact absurd rfl open_

/-! ### The last close -/

/-- The inodes stay but for one that may have lost its last reference. -/
structure Dropped (node : Nat) (object : Inode) (before after : State) : Prop where
  later : before.nextId ≤ after.nextId
  root : after.rootMount = before.rootMount
  files : after.files = before.files
  dentries : after.dentries = before.dentries
  inode : ∀ other old, before.inodes other = some old → other ≠ node ∨ 2 ≤ object.refCount →
    ∃ later, after.inodes other = some later ∧ later.type = old.type
  known : (∀ other old, before.inodes other = some old → other < before.nextId) →
    ∀ other old, after.inodes other = some old → other < after.nextId

theorem iput_drops (orderly : Orderly ops) {fs : Fs τ} {node : Nat} {object : Inode}
    (live : fs.vfs.inodes node = some object) :
    ∃ after, (iput heap ops (some node)).run fs = (.ok (), after) ∧
      Dropped node object fs.vfs after.vfs := by
  have found : (fetch State.inodes node).run fs = (.ok object, fs) := run_fetch live
  unfold iput
  rw [run_bind_ok found, run_bind_ok (run_update _ _), run_ite]
  -- the count goes down first
  have lowered : ∀ other, other ≠ node →
      (fs.vfs.setInode node (some { object with refCount := object.refCount - 1 })).inodes other =
        fs.vfs.inodes other := fun other different => store_other different
  by_cases last : object.refCount - 1 = 0
  · rw [if_pos last]
    obtain ⟨destroyInode, destroys, returns⟩ := orderly.destroyInode
    obtain ⟨after, ran, contents⟩ := returns node
      { fs with vfs := fs.vfs.setInode node (some { object with refCount := object.refCount - 1 }) }
    rw [destroys]
    simp only
    rw [run_bind_ok ran, run_bind_ok (run_update _ _)]
    refine ⟨_, rfl, contents.stay.later, contents.stay.root, contents.stay.files,
      contents.dentries, ?_, ?_⟩
    · intro other old liveOther reason
      have different : other ≠ node := by
        rcases reason with different | shared
        · exact different
        · omega
      obtain ⟨now, liveNow, sameType⟩ :=
        contents.stay.inode other old ((lowered other different).trans liveOther)
      exact ⟨now, (store_other different).trans liveNow, sameType⟩
    · intro known other old liveOther
      have different : other ≠ node := by
        rintro rfl
        have emptied := (store_same).symm.trans liveOther
        cases emptied
      refine contents.stay.known ?_ other old ((store_other different).symm.trans liveOther)
      intro one first liveOne
      by_cases same : one = node
      · exact known one object (same ▸ live)
      · exact known one first ((lowered one same).symm.trans liveOne)
  · rw [if_neg last]
    refine ⟨_, rfl, le_rfl, rfl, rfl, rfl, ?_, ?_⟩
    · intro other old liveOther _
      by_cases same : other = node
      · subst same
        rw [live] at liveOther
        cases liveOther
        exact ⟨_, store_same, rfl⟩
      · exact ⟨old, (lowered other same).trans liveOther, rfl⟩
    · intro known other old liveOther
      by_cases same : other = node
      · exact known other object (same ▸ live)
      · exact known other old ((lowered other same).symm.trans liveOther)

theorem run_dput_last {fs after : Fs τ} {dentry : Dentry}
    (live : fs.vfs.dentries target = some dentry) (one : dentry.refCount = 1)
    (points : dentry.parent = some parent) (liveParent : fs.vfs.dentries parent = some directory)
    (different : parent ≠ target) (dropped : (iput heap ops dentry.inode).run { fs with
      vfs :=
  (fs.vfs.setDentry target (some { dentry with refCount := dentry.refCount - 1 })).setDentry
        parent (some { directory with children := directory.children.erase target }) } =
      (.ok (), after)) :
    (dput heap ops target).run fs =
      (.ok (),
        ⟨after.vfs.setDentry target none, heap.free dentry.address sizeofDentry after.heap⟩) := by
  have still :
    (fs.vfs.setDentry target (some { dentry with refCount := dentry.refCount - 1 })).dentries
      parent = some directory := (store_other different).trans liveParent
  have unlinked : ∀ (above : Option Nat) (now : Fs τ), above = some parent →
      now.vfs.dentries parent = some directory →
      (unlinkChild target above).run now = (.ok (), { now with
        vfs := now.vfs.setDentry parent
          (some { directory with children := directory.children.erase target }) }) := by
    rintro _ now rfl liveNow
    exact run_unlinkChild liveNow
  unfold dput
  rw [run_bind_ok (run_dentryOf live), run_bind_ok (run_update _ _),
    if_pos (by omega), run_bind_ok (unlinked _ _ points still),
    run_bind_ok dropped, run_bind_ok (run_update _ _)]
  rfl

end Runs

/-- The file is closed.  Its dentry has one reference less, or it is gone. -/
structure Released (base : State) (parent target : Nat) (directory new : Dentry) (vfs : State) :
    Prop where
  files : vfs.files = base.files
  kept : 2 ≤ new.refCount →
    Adopted base vfs parent target directory { new with refCount := new.refCount - 1 }
  gone : new.refCount = 1 → vfs.dentries = base.dentries ∧ InodesStay base vfs

section Runs

variable {τ : Type} {heap : Heap τ} {ops : FileSystem τ} {base : State}
  {parent target id : Nat} {directory new : Dentry}

variable {vfs : State} {fs opened : Fs τ}

theorem InUse.files_none (inUse : InUse base parent target directory new id vfs) :
    store vfs.files id none = base.files := by
  funext other
  by_cases same : other = id
  · rw [same, store_same, inUse.fresh]
  · rw [store_other same, inUse.others other same]

theorem Adopted.dropped (tree : Tree base) (adopted : Adopted base vfs parent target directory new)
    (shared : 2 ≤ new.refCount) :
    Adopted base (vfs.adjust (Pi.single target (-1))) parent target directory
      { new with refCount := new.refCount - 1 } := by
  have known := tree.known parent directory adopted.live
  have unused := adopted.unused
  have cells : (vfs.adjust (Pi.single target (-1))).dentries =
      store (store base.dentries target (some { new with refCount := new.refCount - 1 })) parent
        (some { directory with children := target :: directory.children }) := by
    funext other
    change (vfs.dentries other).map _ = _
    rw [adopted.dentries]
    by_cases isParent : other = parent
    · rw [isParent, store_same, store_same, map_some, Pi.single_eq_of_ne (by omega)]
      simp
    · rw [store_other isParent, store_other isParent]
      by_cases isTarget : other = target
      · rw [isTarget, store_same, store_same, map_some, Pi.single_eq_same]
        rfl
      · rw [store_other isTarget, store_other isTarget, Pi.single_eq_of_ne isTarget]
        cases base.dentries other <;> simp
  exact { adopted with dentries := cells, counted := by simp only; omega }

theorem Adopted.unlinked (tree : Tree base) (adopted : Adopted base vfs parent target directory new)
    (emptied : Option Dentry) :
    store (store (store vfs.dentries target emptied) parent (some { directory with
      children := (target :: directory.children).erase target })) target none = base.dentries := by
  have unused := adopted.unused
  have vacant : base.dentries target = none := by
    cases found : base.dentries target with
    | none => rfl
    | some dentry =>
      have known := tree.known target dentry found
      omega
  rw [adopted.dentries]
  funext other
  by_cases isTarget : other = target
  · rw [isTarget, store_same, vacant]
  · rw [store_other isTarget]
    by_cases isParent : other = parent
    · rw [isParent, store_same, erase_cons_head, adopted.live]
    · rw [store_other isParent, store_other isTarget, store_other isParent,
        store_other isTarget]

theorem close_inUse (orderly : Orderly ops) (tree : Tree base) {fs : Fs τ}
    (inUse : InUse base parent target directory new id fs.vfs) {file : File}
    (live : fs.vfs.files id = some file) :
    if file.refCount = 1 then
      Released base parent target directory new ((closeFile heap ops id).run fs).2.vfs
    else InUse base parent target directory new id ((closeFile heap ops id).run fs).2.vfs := by
  obtain ⟨positive, rfl⟩ : 1 ≤ file.refCount ∧ file.dentry = target := by
    obtain ⟨same, liveSame, isTarget, positive⟩ := inUse.file
    rw [live] at liveSame
    cases liveSame
    exact ⟨positive, isTarget⟩
  have adopted := inUse.adopted
  have known := tree.known parent directory adopted.live
  have unused := adopted.unused
  have liveTarget := adopted.new_live tree
  unfold closeFile
  rw [run_bind_ok (run_fileOf live), run_bind_ok (run_update _ _), run_ite]
  by_cases last : file.refCount = 1
  · rw [if_pos last, if_pos (by omega)]
    have emptied : ∀ counted : Option File,
        store (store fs.vfs.files id counted) id none = base.files := by
      intro counted
      rw [store_store]
      exact inUse.files_none
    by_cases shared : 2 ≤ new.refCount
    · have put := @run_dput _ heap { fs with
        vfs := fs.vfs.setFile id (some { file with refCount := file.refCount - 1 }) } ops
        file.dentry new liveTarget shared
      rw [run_bind_ok put, run_bind_ok (run_update _ _)]
      refine ⟨emptied _, fun _ => ?_, fun one => ?_⟩
      · exact { adopted.dropped tree shared with }
      · omega
    · have one : new.refCount = 1 := by
        have counted := adopted.counted
        omega
      obtain ⟨node, object, points, liveNode, alone⟩ := inUse.last
      have liveParent : fs.vfs.dentries parent =
          some { directory with children := file.dentry :: directory.children } := by
        rw [adopted.dentries, store_same]
      obtain ⟨after, ran, dropped⟩ := @iput_drops _ heap _ orderly { fs with
        vfs := ((fs.vfs.setFile id (some { file with refCount := file.refCount - 1 })).setDentry
          file.dentry (some { new with refCount := new.refCount - 1 })).setDentry parent
          (some { directory with children :=
            (file.dentry :: directory.children).erase file.dentry }) }
        node object liveNode
      have drops : ∀ inode, inode = some node → (iput heap ops inode).run { fs with
          vfs := ((fs.vfs.setFile id (some { file with refCount := file.refCount - 1 })).setDentry
            file.dentry (some { new with refCount := new.refCount - 1 })).setDentry parent
            (some { directory with
              children := (file.dentry :: directory.children).erase file.dentry }) } =
          (.ok (), after) := by
        rintro _ rfl
        exact ran
      have put := @run_dput_last _ heap ops parent file.dentry _ { fs with
        vfs := fs.vfs.setFile id (some { file with refCount := file.refCount - 1 }) } after new
        liveTarget one adopted.parent liveParent (by omega) (drops _ points)
      rw [run_bind_ok put, run_bind_ok (run_update _ _)]
      have files : store after.vfs.files id none = base.files := by
        rw [dropped.files]
        exact emptied _
      refine ⟨files, fun shared => by omega, fun _ => ⟨?_, ?_⟩⟩
      · change store after.vfs.dentries file.dentry none = _
        rw [dropped.dentries]
        exact adopted.unlinked tree _
      · refine ⟨?_, dropped.root.trans adopted.root, files, ?_, fun _ =>
          dropped.known adopted.inodeKnown⟩
        · have later : fs.vfs.nextId ≤ after.vfs.nextId := dropped.later
          have kept := adopted.known
          change base.nextId ≤ after.vfs.nextId
          omega
        · intro other old liveOld
          obtain ⟨now, liveNow, sameType⟩ := adopted.inodes other old liveOld
          have reason : other ≠ node ∨ 2 ≤ object.refCount := by
            rcases alone with vacant | shared
            · refine .inl ?_
              rintro rfl
              rw [vacant] at liveOld
              cases liveOld
            · exact .inr shared
          obtain ⟨last, liveLast, lastType⟩ := dropped.inode other now liveNow reason
          exact ⟨last, liveLast, lastType.trans sameType⟩
  · rw [if_neg last, if_neg (by omega), run_pure]
    exact inUse.edited live rfl (by simp only; omega)

theorem perform_closed (closed : fs.vfs.files id = none) (use : Use) (about : use.file = id) :
    ((perform heap ops use).run fs).2 = fs := by
  have faults : (fileOf id).run fs = (.error (.fault .badPointer), fs) := run_fetch_none closed
  cases use with
  | read other size =>
    cases about
    exact congrArg Prod.snd (run_bind_error (run_bind_error faults))
  | write other bytes =>
    cases about
    exact congrArg Prod.snd (run_bind_error (run_bind_error faults))
  | seek other offset =>
    cases about
    exact congrArg Prod.snd (run_bind_error faults)
  | setFlags other argument =>
    cases about
    exact congrArg Prod.snd (run_bind_error faults)
  | duplicate other =>
    cases about
    exact congrArg Prod.snd (run_bind_error faults)
  | close other =>
    cases about
    exact congrArg Prod.snd (run_bind_error faults)

theorem uses_inUse (orderly : Orderly ops) (tree : Tree base) {later : Fs τ}
    (inUse : InUse base parent target directory new id opened.vfs)
    (uses : Uses heap ops id opened later) : InUse base parent target directory new id later.vfs ∨
      Released base parent target directory new later.vfs := by
  induction uses with
  | refl => exact .inl inUse
  | @tail before _ _ step ih =>
    obtain ⟨use, about, rfl⟩ := step
    rcases ih with now | released
    · by_cases closes : use = .close id
      · subst closes
        obtain ⟨file, live, _⟩ := now.file
        have closed := @close_inUse _ heap _ _ _ _ _ _ _ orderly tree before now file live
        split at closed
        · exact .inr closed
        · exact .inl closed
      · exact .inl ((perform_inUse orderly use about closes).final now)
    · have closed : before.vfs.files id = none := by
        rw [released.files]
        exact inUse.fresh
      rw [perform_closed closed use about]
      exact .inr released

/-! ### Opening -/

theorem openTarget_creates {create : Nat → Nat → Nat → Call τ Int} {taken : Nat → Fs τ → Nat}
    {fs : Fs τ} (makes : Makes create taken) (creates : ops.create = some create)
    (tree : Tree fs.vfs) (live : fs.vfs.dentries parent = some directory) {name : Name}
    (short : name.length ≤ 255) (new : fs.vfs.child parent name = none) {flags : Nat}
    (asks : flags &&& oCreat ≠ 0) :
    (∃ code after, (openTarget heap ops parent name flags).run (fs.adjust (Pi.single parent 1)) =
        (.error (.code code), after)) ∨
      ∃ address node object after,
        (openTarget heap ops parent name flags).run (fs.adjust (Pi.single parent 1)) =
          (.ok fs.vfs.nextId, after) ∧
        Adopted (fs.vfs.adjust (Pi.single parent 1)) after.vfs parent fs.vfs.nextId
          { directory with refCount := directory.refCount + 1 }
          ⟨address, name, some node, some parent, [],
            1 + taken fs.vfs.nextId (atCreate heap fs parent directory name)⟩ ∧
        after.vfs.files = fs.vfs.files ∧ after.vfs.inodes node = some object ∧
        (fs.vfs.inodes node = none ∨ 2 ≤ object.refCount) := by
  have held : (fs.vfs.adjust (Pi.single parent 1)).dentries parent =
      some { directory with refCount := directory.refCount + 1 } := by
    have adjusted := fs.vfs.adjust_dentries (Pi.single parent 1) live
    rw [Pi.single_eq_same] at adjusted
    exact adjusted
  have treeHeld := tree.held parent
  have known := tree.known parent directory live
  obtain ⟨inode, object, points, liveInode⟩ := tree.inode parent directory live
  have here : (inodeOf { directory with refCount := directory.refCount + 1 }).run
      (fs.adjust (Pi.single parent 1)) = (.ok (inode, object), fs.adjust (Pi.single parent 1)) :=
    run_inodeOf points liveInode
  unfold openTarget
  rw [run_bind_ok (run_dLookup treeHeld held name), Fs.adjust_vfs, State.adjust_child, new]
  simp only
  rw [if_neg asks, run_bind_ok (run_dentryOf held), run_bind_ok here, creates]
  simp only
  cases allocated : heap.alloc sizeofDentry fs.heap with
  | mk address after =>
    cases address with
    | none =>
      rw [run_bind_ok (@run_dAlloc_none _ heap (fs.adjust (Pi.single parent 1))
        name none (some parent) after allocated)]
      refine .inl ⟨-ENOMEM, { fs with heap := after }, ?_⟩
      exact @run_abandon _ heap { fs with heap := after } ops _ tree parent directory live ENOMEM
    | some address =>
      rw [run_bind_ok (@run_dAlloc _ heap (fs.adjust (Pi.single parent 1))
        name none parent address after _ held known allocated)]
      simp only
      have calls : (⟨(fs.vfs.adjust (Pi.single parent 1)).attach parent
          { directory with refCount := directory.refCount + 1 }
          ⟨address, name.take 255, none, some parent, [], 1⟩, after⟩ : Fs τ) =
          atCreate heap fs parent directory name := by
        unfold atCreate
        rw [allocated]
        rfl
      have liveTemp : (atCreate heap fs parent directory name).vfs.dentries fs.vfs.nextId =
          some ⟨address, name, none, some parent, [], 1⟩ := by
        rw [← calls, take_of_length_le short]
        change store (store _ _ _) _ _ _ = _
        rw [store_other (by omega)]
        exact store_same
      have older : ∀ node object, (atCreate heap fs parent directory name).vfs.inodes node =
          some object → node < (atCreate heap fs parent directory name).vfs.nextId := by
        intro node object live
        exact Nat.lt_succ_of_lt (tree.inodeKnown node object live)
      obtain ⟨node, made, result, ran, cells, liveNode, alone, stay⟩ :=
        makes inode fs.vfs.nextId 0o644 _ _ liveTemp older
      rw [Fs.adjust_vfs, calls]
      refine .inr ⟨address, node, made, result, ?_, ?_, stay.files, liveNode, alone⟩
      · exact run_bind_ok ran
      · refine
          { live := held, dentries := ?_, unused := le_rfl, known := stay.later,
            inodes := stay.inode, inodeKnown := stay.known older, root := stay.root,
            inode := ⟨node, made, rfl, liveNode⟩, parent := rfl, children := rfl,
            counted := by simp only; omega }
        rw [cells, ← calls]
        funext other
        change store (store (store _ _ _) _ _) _ _ _ = store (store _ _ _) _ _ _
        by_cases isNew : other = fs.vfs.nextId
        · rw [isNew, store_same, store_other (by omega), store_same]
        · rw [store_other isNew]
          by_cases isParent : other = parent
          · rw [isParent, store_same, store_same]
            rfl
          · rw [store_other isParent, store_other isParent]
            exact (store_other isNew).trans (store_other isNew).symm

theorem Adopted.settled {base : State} {parent target : Nat} {directory new : Dentry}
    (live : base.dentries parent = some directory)
    (adopted : Adopted (base.adjust (Pi.single parent 1)) vfs parent target
      { directory with refCount := directory.refCount + 1 } new) :
    Adopted base (vfs.adjust (Pi.single parent (-1))) parent target directory new := by
  have cells : (vfs.adjust (Pi.single parent (-1))).dentries =
      store (store base.dentries target (some new)) parent
        (some { directory with children := target :: directory.children }) := by
    funext other
    change (vfs.dentries other).map _ = _
    rw [adopted.dentries]
    by_cases isParent : other = parent
    · rw [isParent, store_same, store_same, map_some, Pi.single_eq_same]
      simp
    · rw [store_other isParent, store_other isParent, Pi.single_eq_of_ne isParent]
      by_cases isTarget : other = target
      · rw [isTarget, store_same, store_same]
        simp
      · rw [store_other isTarget, store_other isTarget]
        change ((base.dentries other).map _).map _ = _
        rw [Pi.single_eq_of_ne isParent]
        cases base.dentries other <;> simp
  exact { adopted with live := live, dentries := cells }

theorem openFile_creates {create : Nat → Nat → Nat → Call τ Int} {taken : Nat → Fs τ → Nat}
    (cached : Cached ops) (makes : Makes create taken) (creates : ops.create = some create)
    (tree : Tree fs.vfs) {path : Name} (named : Names fs.vfs (State.parentPath path) parent)
    (live : fs.vfs.dentries parent = some directory)
    (new : fs.vfs.child parent (baseName path) = none) {flags : Nat} (asks : flags &&& oCreat ≠ 0)
    (ran : (openFile heap ops path flags).run fs = (.ok id, opened)) :
    path.head? = some slash ∧ path.length ≤ 255 ∧
      (∃ file, opened.vfs.files id = some file ∧ file.refCount = 1) ∧ ∃ address node,
      InUse fs.vfs parent fs.vfs.nextId directory
        ⟨address, baseName path, some node, some parent, [],
          1 + taken fs.vfs.nextId (atCreate heap fs parent directory (baseName path))⟩ id
            opened.vfs := by
  unfold openFile at ran
  split at ran
  · cases ran
  rename_i absolute
  rw [not_not] at absolute
  split at ran
  · cases ran
  rename_i notLong
  have short : path.length ≤ 255 := by omega
  refine ⟨absolute, short, ?_⟩
  have shortName : (baseName path).length ≤ 255 := by
    have length := congrArg List.length (path_split (mem_of_mem_head? absolute))
    rw [length_append, length_cons] at length
    omega
  have walked := @pathWalk_ends _ heap fs ops cached tree (State.parentPath path)
  rw [(resolve_eq_ok_iff fs.vfs _ (parentPath_absolute absolute) parent).mpr named] at walked
  change Program.run (pathWalk heap ops (State.parentPath path) >>= _) fs = _ at ran
  rw [run_bind_ok walked.1] at ran
  rcases @openTarget_creates _ heap ops parent directory _ _ fs makes creates tree live _ shortName
    new flags asks with
      ⟨code, after, failed⟩ | ⟨address, node, object, after, found, adopted, files, liveNode, alone⟩
  · rw [run_bind_error failed] at ran
    cases ran
  rw [run_bind_ok found] at ran
  have liveParent : after.vfs.dentries parent = some { directory with
      refCount := directory.refCount + 1, children := fs.vfs.nextId :: directory.children } := by
    rw [adopted.dentries, store_same]
  have positive := tree.counted parent directory live
  rw [run_bind_ok (run_dput liveParent (by simp only; omega)),
    run_bind_ok (Ramfs.run_slabAlloc heap _ sizeofFile)] at ran
  split at ran
  · obtain ⟨_, _, _, failed⟩ := run_bind_eq_ok ran
    cases failed
  · rename_i fileAddress _
    obtain ⟨_, _, first, located⟩ := run_bind_eq_ok ran
    obtain ⟨_, rfl⟩ := fetch_eq_ok first
    obtain ⟨_, _, second, stored⟩ := run_bind_eq_ok located
    obtain ⟨_, _, rfl⟩ := inodeOf_eq_ok second
    cases stored
    have settled := adopted.settled live
    have known : fs.vfs.nextId < after.vfs.nextId := adopted.known
    refine ⟨⟨_, store_same, rfl⟩, address, node, ?_⟩
    refine
      { adopted := { settled with known := Nat.lt_succ_of_lt settled.known, inodeKnown := ?_ },
        file := ⟨_, store_same, rfl, Int.le_refl 1⟩, others := ?_, fresh := ?_,
        last := ⟨node, object, rfl, liveNode, alone⟩ }
    · intro other old liveOther
      exact Nat.lt_succ_of_lt (settled.inodeKnown other old liveOther)
    · intro other different
      rw [← files]
      exact store_other different
    · change fs.vfs.files after.vfs.nextId = none
      cases there : fs.vfs.files after.vfs.nextId with
      | none => rfl
      | some file =>
        have older := (tree.file _ file there).1
        omega

end Runs

theorem Adopted.found {base vfs : State} {parent target : Nat} {directory now : Dentry}
    (adopted : Adopted base vfs parent target directory now) (tree : Tree base)
    (files : vfs.files = base.files) (isDirectory : base.typeOf parent = some .directory)
    {path : Name} (named : Names base (State.parentPath path) parent)
    (free : base.child parent (baseName path) = none) (sameName : now.name = baseName path) :
    Tree vfs ∧ Names vfs (State.parentPath path) parent ∧
      vfs.child parent (baseName path) = some target ∧ vfs.typeOf parent = some .directory := by
  have vacant : base.child parent now.name = none := by
    rw [sameName]
    exact free
  refine ⟨adopted.wellFormed tree isDirectory ?_, (adopted.walksOn tree vacant).names tree named,
    ?_, (adopted.typeOf tree adopted.live).trans isDirectory⟩
  · intro other object found
    rw [files] at found
    obtain ⟨known, dentry, liveDentry⟩ := tree.file other object found
    have unused := adopted.unused
    have later := adopted.known
    exact ⟨by omega, _, adopted.old_live tree liveDentry⟩
  · rw [adopted.child tree adopted.live, if_pos ⟨rfl, sameName.symm⟩]

/-- What `open` created is still there after the last `close` exactly if `create` took a
reference to the dentry, and the name is one that a walk looks up. -/
theorem created_survives_iff {τ : Type} {heap : Heap τ} {ops : FileSystem τ}
    {create : Nat → Nat → Nat → Call τ Int} {taken : Nat → Fs τ → Nat} (orderly : Orderly ops)
    (creates : ops.create = some create) (makes : Makes create taken) {fs opened : Fs τ}
    (tree : Tree fs.vfs) {path : Name} {parent : Nat} {directory : Dentry}
    (named : Names fs.vfs (State.parentPath path) parent)
    (live : fs.vfs.dentries parent = some directory)
    (isDirectory : fs.vfs.typeOf parent = some .directory)
    (new : fs.vfs.child parent (baseName path) = none) {flags : Nat} (asks : flags &&& oCreat ≠ 0)
    {id : Nat} (opens : (openFile heap ops path flags).run fs = (.ok id, opened)) :
    (∀ later, Uses heap ops id opened later → later.vfs.files id = none →
        Survives heap ops path id opened later) ↔
      0 < taken fs.vfs.nextId (atCreate heap fs parent directory (baseName path)) ∧
        Ramfs.Ordinary (baseName path) := by
  obtain ⟨absolute, short, ⟨file, liveFile, single⟩, address, node, inUse⟩ :=
    openFile_creates orderly.cached makes creates tree named live new asks opens
  have shortName : (baseName path).length ≤ 255 := by
    have length := congrArg List.length (path_split (mem_of_mem_head? absolute))
    rw [length_append, length_cons] at length
    omega
  have isTarget : file.dentry = fs.vfs.nextId := by
    obtain ⟨same, liveSame, isTarget, _⟩ := inUse.file
    rw [liveFile] at liveSame
    cases liveSame
    exact isTarget
  have liveNew := inUse.adopted.new_live tree
  constructor
  · intro survives
    have released := @close_inUse _ heap _ _ _ _ _ _ _ orderly tree opened inUse file liveFile
    rw [if_pos single] at released
    generalize isLater : ((closeFile heap ops id).run opened).2 = later at released
    have closed : later.vfs.files id = none := by
      rw [released.files]
      exact inUse.fresh
    obtain ⟨same, _, _, now, _, liveSame, _, _, walked, there, _⟩ :=
      survives later (Relation.ReflTransGen.single ⟨.close id, rfl, isLater.symm⟩) closed
    rw [liveFile] at liveSame
    cases liveSame
    rw [isTarget] at walked there
    have referenced :
      0 < taken fs.vfs.nextId (atCreate heap fs parent directory (baseName path)) := by
      by_contra none
      obtain ⟨restored, _⟩ := released.gone (by simp only; omega)
      rw [restored] at there
      exact absurd (tree.known _ now there) (lt_irrefl _)
    refine ⟨referenced, ?_⟩
    by_contra special
    obtain ⟨treeLater, namedParent, child, _⟩ :=
      (released.kept (by simp only; omega)).found tree released.files isDirectory named new rfl
    have names := (orderly.cached.pathWalk_ok_iff treeLater absolute _).mp walked
    exact (Ramfs.not_opens_names treeLater absolute special).2 _ names ⟨parent, namedParent, child⟩
  · rintro ⟨referenced, ordinary⟩ later uses closed
    rcases uses_inUse orderly tree inUse uses with still | released
    · obtain ⟨other, liveOther, _⟩ := still.file
      rw [closed] at liveOther
      cases liveOther
    · have adopted := released.kept (by simp only; omega)
      obtain ⟨treeLater, namedParent, child, typed⟩ :=
        adopted.found tree released.files isDirectory named new rfl
      obtain ⟨_, object, points, liveObject⟩ := adopted.inode
      cases points
      refine ⟨file, _, node, _, object, liveFile, isTarget ▸ liveNew, rfl, ?_,
        isTarget ▸ adopted.new_live tree, rfl, liveObject⟩
      rw [isTarget]
      refine (orderly.cached.pathWalk_ok_iff treeLater absolute _).mpr ?_
      refine (names_split absolute _).mpr ⟨parent, namedParent, ?_⟩
      rw [components_single _ ordinary.1 (slash_not_mem_baseName path)]
      exact Leads.down ⟨ordinary.2.1, ordinary.2.2⟩ shortName typed child (Leads.done _)

/-! ### A file system that creates files -/

/-- A new inode for the dentry, and some references to it. -/
def makeFile (extra : Nat) (_dir id _mode : Nat) : Call Nat Int := do
  let object ← dentryOf id
  let node ← freshId
  update (·.setInode node (some ⟨0, 0, .regular, 0, 1, none⟩))
  update (·.setDentry id
    (some { object with inode := some node, refCount := object.refCount + extra }))
  pure 0

def creatingFs (extra : Nat) : FileSystem Nat :=
  { lookup := none
    create := some (makeFile extra)
    read := none
    write := some (fun _ bytes _ => pure bytes.length)
    readdir := none
    destroyInode := some (fun _ => pure ()) }

theorem ContentsOnly.refl (vfs : State) : ContentsOnly vfs vfs := by
  refine ⟨InodesStay.refl vfs, rfl, ?_⟩
  intro node object later live liveLater
  rw [live] at liveLater
  cases liveLater
  rfl

theorem creatingFs_orderly (extra : Nat) : Orderly (creatingFs extra) where
  cached := nofun
  read := nofun
  write := by
    rintro _ ⟨⟩ file bytes offset fs
    exact .refl fs.vfs
  destroyInode := ⟨_, rfl, fun _ fs => ⟨fs, rfl, .refl fs.vfs⟩⟩

theorem makeFile_makes (extra : Nat) : Makes (makeFile extra) (fun _ _ => extra) := by
  intro dir id mode fs temp live known
  have vacant : fs.vfs.inodes fs.vfs.nextId = none := by
    cases found : fs.vfs.inodes fs.vfs.nextId with
    | none => rfl
    | some object => exact absurd (known _ object found) (lt_irrefl _)
  refine ⟨fs.vfs.nextId, ⟨0, 0, .regular, 0, 1, none⟩, ?_⟩
  unfold makeFile
  rw [run_bind_ok (run_dentryOf live), run_bind_ok (run_freshId _),
    run_bind_ok (run_update _ _), run_bind_ok (run_update _ _)]
  refine ⟨_, rfl, rfl, store_same, .inl vacant, ⟨Nat.le_succ _, rfl, rfl, ?_, ?_⟩⟩
  · intro node object liveNode
    have older := known node object liveNode
    exact ⟨object, (store_other (by omega)).trans liveNode, rfl⟩
  · intro _ node object liveNode
    change node < fs.vfs.nextId + 1
    by_cases same : node = fs.vfs.nextId
    · omega
    · have older := known node object ((store_other same).symm.trans liveNode)
      omega

/-- The file `b`, created in the small tree. -/
def createdFs (extra : Nat) : Fs Nat :=
  ((openFile Ramfs.endless (creatingFs extra) [slash, 98] (oCreat ||| oWronly)).run Ramfs.smallFs).2

theorem created_survives_small :
    Ramfs.Ordinary [98] ∧ ∀ later, Uses Ramfs.endless (creatingFs 1) 4 (createdFs 1) later →
      later.vfs.files 4 = none →
        Survives Ramfs.endless (creatingFs 1) [slash, 98] 4 (createdFs 1) later := by
  have opens : ((openFile Ramfs.endless (creatingFs 1) [slash, 98] (oCreat ||| oWronly)).run
      Ramfs.smallFs).1.toOption = some 4 := by decide +kernel
  have named : Names Ramfs.smallFs.vfs (State.parentPath [slash, 98]) 0 := ⟨0, rfl, Leads.done 0⟩
  have survives := created_survives_iff (creatingFs_orderly 1) rfl (makeFile_makes 1)
    Ramfs.smallFs_tree named rfl rfl rfl (by decide) (run_of_toOption opens)
  exact ⟨by decide, survives.mpr ⟨one_pos, by decide⟩⟩

/-- The file is gone after it is closed. -/
theorem created_lost :
    Orderly (creatingFs 0) ∧ Makes (makeFile 0) (fun _ _ => 0) ∧
      ((openFile Ramfs.endless (creatingFs 0) [slash, 98] (oCreat ||| oWronly)).run
        Ramfs.smallFs).1.toOption = some 4 ∧
      ((closeFile Ramfs.endless (creatingFs 0) 4).run (createdFs 0)).1.toOption = some () ∧
      ((pathWalk Ramfs.endless (creatingFs 0) [slash, 98]).run
        ((closeFile Ramfs.endless (creatingFs 0) 4).run (createdFs 0)).2).1 =
          .error (.code (-ENOENT)) :=
  ⟨creatingFs_orderly 0, makeFile_makes 0, by decide +kernel, by decide +kernel, rfl⟩

end Synx.Vfs
