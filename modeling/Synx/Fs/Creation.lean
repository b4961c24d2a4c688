/-
What `create_dir` and `create_file` do to the tree: nothing, or one new dentry
with its inode.
-/

import Synx.Fs.Growth

namespace Synx.Ramfs

open Lib Program
open Vfs

/-- The bytes that a read of the whole file gives. -/
def contents (inode : Inode) : List UInt8 :=
  match inode.privateData.bind InodeData.buffer with
  | none => []
  | some (_, bytes) => bytes

/-- An inode of a type with the given contents and one reference. -/
structure Filled (type : FileType) (data : List UInt8) (inode : Inode) : Prop where
  type : inode.type = type
  size : inode.size = data.length
  contents : contents inode = data
  refCount : inode.refCount = 1

/-- There is a state of the memory in which some request is refused. -/
def MayFail {τ : Type} (heap : Heap τ) : Prop := ∃ size state, (heap.alloc size state).1 = none

/-- The outcome of a creation in a directory.  A refusal has a reason. -/
inductive Creates {τ : Type} (heap : Heap τ) (fs : Fs τ) (parent : Nat) (name : Name)
    (type : FileType) (data : List UInt8) : Except (Stop Fault) (Option Nat) × Fs τ → Prop
  | refused (after : Fs τ) (spent : Spent fs.vfs after.vfs)
      (reason : MayFail heap ∨ fs.vfs.typeOf parent ≠ some .directory) :
      Creates heap fs parent name type data (.ok none, after)
  | created (directory : Dentry) (inode : Inode) (address : Nat) (after : Fs τ)
      (live : fs.vfs.dentries parent = some directory)
      (isDirectory : fs.vfs.typeOf parent = some .directory) (filled : Filled type data inode)
      (grown : after.vfs = fs.vfs.grow parent directory inode address (name.take 255)) :
      Creates heap fs parent name type data (.ok (some fs.vfs.nextId), after)

section Runs

variable {τ : Type} {heap : Heap τ} {fs : Fs τ}

theorem run_slabFree (address size : Nat) (fs : Fs τ) :
    (slabFree heap address size).run fs =
      (.ok (), { fs with heap := heap.free address size fs.heap }) := rfl

/-- A new inode as `alloc_inode` makes it. -/
def emptyInode (vfs : State) (type : FileType) (address dataAddress : Nat) : Inode :=
  { address := address
    ino := vfs.nextIno
    type := type
    size := 0
    refCount := 1
    privateData := some ⟨dataAddress, none, 0⟩ }

theorem run_allocInode (heap : Heap τ) (fs : Fs τ) (type : FileType) :
    (∃ after, (allocInode heap type).run fs = (.ok none, after) ∧ Spent fs.vfs after.vfs ∧
        MayFail heap) ∨
      ∃ address dataAddress after, (allocInode heap type).run fs = (.ok (some fs.vfs.nextId),
          ⟨fs.vfs.addInode (emptyInode fs.vfs type address dataAddress), after⟩) := by
  unfold allocInode
  cases first : heap.alloc sizeofInode fs.heap with
  | mk address after =>
    have ran := run_slabAlloc heap fs sizeofInode
    rw [first] at ran
    rw [run_bind_ok ran]
    cases address with
    | none =>
      exact .inl ⟨_, rfl, .refl _, sizeofInode, fs.heap, by rw [first]⟩
    | some address =>
      simp only
      rw [run_bind_ok (run_gets _ _), run_bind_ok (run_update _ _)]
      cases second : heap.alloc sizeofInodeData after with
      | mk dataAddress later =>
        have ranAgain := run_slabAlloc heap
          ⟨{ fs.vfs with nextIno := (fs.vfs.nextIno + 1) % 2 ^ 32 }, after⟩ sizeofInodeData
        rw [second] at ranAgain
        rw [run_bind_ok ranAgain]
        cases dataAddress with
        | none =>
          refine .inl ⟨_, rfl, ⟨rfl, le_rfl⟩, sizeofInodeData, after, ?_⟩
          rw [second]
        | some dataAddress => exact .inr ⟨address, dataAddress, later, rfl⟩

theorem run_freeInode {vfs : State} {memory : τ} {inode : Inode} {priv : InodeData}
    (fresh : vfs.inodes vfs.nextId = none) (has : inode.privateData = some priv) :
    ∃ after, (freeInode heap vfs.nextId).run ⟨vfs.addInode inode, memory⟩ = (.ok (), after) ∧
      Spent vfs after.vfs := by
  have stored : (vfs.addInode inode).inodes vfs.nextId = some inode := store_same
  have fetched : (fetch State.inodes vfs.nextId).run (⟨vfs.addInode inode, memory⟩ : Fs τ) =
      (.ok inode, ⟨vfs.addInode inode, memory⟩) := run_fetch stored
  unfold freeInode
  rw [run_bind_ok fetched, has]
  simp only
  rw [run_bind_ok (run_slabFree _ _ _), run_bind_ok (run_update _ _), run_slabFree]
  refine ⟨_, rfl, ?_, Nat.le_succ _⟩
  have cells : store (store vfs.inodes vfs.nextId (some inode)) vfs.nextId none = vfs.inodes := by
    rw [store_store]
    funext id
    by_cases same : id = vfs.nextId
    · rw [same, store_same, fresh]
    · rw [store_other same]
  simp only [State.setInode, State.addInode, cells]

theorem run_dAlloc_newest {vfs : State} (tree : Tree vfs) {parent : Nat} {directory : Dentry}
    (live : vfs.dentries parent = some directory) (inode : Inode) (memory : τ) (name : Name) :
    (∃ after, (dAlloc heap name (some vfs.nextId) (some parent)).run ⟨vfs.addInode inode, memory⟩ =
        (.ok none, ⟨vfs.addInode inode, after⟩) ∧ MayFail heap) ∨
      ∃ id address after,
        (dAlloc heap name (some vfs.nextId) (some parent)).run ⟨vfs.addInode inode, memory⟩ =
          (.ok (some id), ⟨vfs.grow parent directory inode address (name.take 255), after⟩) := by
  have known : parent < (vfs.addInode inode).nextId :=
    Nat.lt_succ_of_lt (tree.known parent directory live)
  cases allocated : heap.alloc sizeofDentry memory with
  | mk address after =>
    cases address with
    | none =>
      refine .inl ⟨after, @run_dAlloc_none _ heap ⟨vfs.addInode inode, memory⟩ _ _ _ _ allocated,
        sizeofDentry, memory, ?_⟩
      rw [allocated]
    | some address =>
      exact .inr ⟨_, address, after,
        @run_dAlloc _ heap ⟨vfs.addInode inode, memory⟩ name (some vfs.nextId) parent address after
          directory live known allocated⟩

theorem createDir_creates (tree : Tree fs.vfs) {parent : Nat} {directory : Dentry}
    (live : fs.vfs.dentries parent = some directory) (name : Name) :
    Creates heap fs parent name .directory [] ((createDir heap parent name).run fs) := by
  obtain ⟨inode, object, points, liveInode⟩ := tree.inode parent directory live
  have type := typeOf_of_live live points liveInode
  unfold createDir
  rw [run_bind_ok (run_dentryOf live), run_bind_ok (run_inodeOf points liveInode), run_ite]
  by_cases other : object.type ≠ .directory
  · rw [if_pos other]
    refine .refused fs (.refl _) (.inr ?_)
    rw [type]
    exact fun same => other (Option.some.inj same)
  rw [if_neg other]
  have isDirectory : fs.vfs.typeOf parent = some .directory := by rw [type, not_not.mp other]
  rcases run_allocInode heap fs .directory with
    ⟨after, ran, spent, fails⟩ | ⟨address, dataAddress, memory, ran⟩
  · rw [run_bind_ok ran]
    exact .refused after spent (.inl fails)
  rw [run_bind_ok ran]
  rcases @run_dAlloc_newest _ heap fs.vfs tree parent directory live
      (emptyInode fs.vfs .directory address dataAddress) memory name with
    ⟨later, ranAgain, fails⟩ | ⟨id, newAddress, later, ranAgain⟩
  · simp only
    rw [run_bind_ok ranAgain]
    obtain ⟨after, freed, spent⟩ := @run_freeInode _ heap fs.vfs later
      (emptyInode fs.vfs .directory address dataAddress) _ tree.fresh_inode rfl
    simp only
    rw [run_bind_ok freed]
    exact .refused after spent (.inl fails)
  · simp only
    rw [run_bind_ok ranAgain]
    exact .created directory _ newAddress _ live isDirectory ⟨rfl, rfl, rfl, rfl⟩ rfl

def filledInode (inode : Inode) (dataAddress address : Nat) (data : List UInt8) : Inode :=
  { inode with
    size := data.length
    privateData :=
      if data.length = 0 then inode.privateData
      else some ⟨dataAddress, some (address, data), data.length⟩ }

theorem setInode_addInode (vfs : State) (inode filled : Inode) :
    (vfs.addInode inode).setInode vfs.nextId (some filled) = vfs.addInode filled := by
  simp only [State.setInode, State.addInode, store_store]

theorem run_fillFile (vfs : State) (memory : τ) (type : FileType) (address dataAddress : Nat)
    (data : List UInt8) : (∃ after, (fillFile heap vfs.nextId data).run
        ⟨vfs.addInode (emptyInode vfs type address dataAddress), memory⟩ =
        (.ok false, ⟨vfs.addInode (emptyInode vfs type address dataAddress), after⟩) ∧
        MayFail heap) ∨
      ∃ buffer after, (fillFile heap vfs.nextId data).run
        ⟨vfs.addInode (emptyInode vfs type address dataAddress), memory⟩ = (.ok true, ⟨vfs.addInode
          (filledInode (emptyInode vfs type address dataAddress) dataAddress buffer data),
            after⟩) := by
  have fetched : (fetch State.inodes vfs.nextId).run
      (⟨vfs.addInode (emptyInode vfs type address dataAddress), memory⟩ : Fs τ) =
      (.ok (emptyInode vfs type address dataAddress),
        ⟨vfs.addInode (emptyInode vfs type address dataAddress), memory⟩) :=
    run_fetch (store_same)
  unfold fillFile
  rw [run_bind_ok fetched]
  simp only
  by_cases empty : data.length = 0
  · rw [if_pos empty, run_bind_ok (run_update _ _), run_pure]
    refine .inr ⟨0, memory, ?_⟩
    rw [setInode_addInode, filledInode, if_pos empty]
  · rw [if_neg empty]
    have has : (emptyInode vfs type address dataAddress).privateData =
        some ⟨dataAddress, none, 0⟩ := rfl
    rw [has]
    simp only
    cases allocated : heap.alloc data.length memory with
    | mk buffer after =>
      have ran := run_slabAlloc heap
        ⟨vfs.addInode (emptyInode vfs type address dataAddress), memory⟩ data.length
      rw [allocated] at ran
      rw [run_bind_ok ran]
      cases buffer with
      | none =>
        refine .inl ⟨after, rfl, data.length, memory, ?_⟩
        rw [allocated]
      | some buffer =>
        simp only
        rw [run_bind_ok (run_update _ _), run_pure]
        refine .inr ⟨buffer, after, ?_⟩
        rw [setInode_addInode, filledInode, if_neg empty]

theorem filledInode_filled (vfs : State) (type : FileType) (address dataAddress buffer : Nat)
    (data : List UInt8) :
    Filled type data
      (filledInode (emptyInode vfs type address dataAddress) dataAddress buffer data) := by
  refine ⟨rfl, rfl, ?_, rfl⟩
  unfold filledInode contents
  by_cases empty : data.length = 0
  · rw [List.length_eq_zero_iff.mp empty]
    rfl
  · simp only [if_neg empty]
    rfl

theorem filledInode_privateData (vfs : State) (type : FileType) (address dataAddress buffer : Nat)
    (data : List UInt8) :
    ∃ priv, (filledInode (emptyInode vfs type address dataAddress) dataAddress buffer
      data).privateData = some priv := by
  unfold filledInode
  by_cases empty : data.length = 0
  · exact ⟨_, if_pos empty⟩
  · exact ⟨_, if_neg empty⟩

theorem run_freeBuffer {id : Nat} {inode : Inode} (live : fs.vfs.inodes id = some inode) :
    ∃ memory, (freeBuffer heap id).run fs = (.ok (), { fs with heap := memory }) := by
  unfold freeBuffer
  rw [run_bind_ok (run_fetch live)]
  split
  · exact ⟨_, rfl⟩
  · exact ⟨fs.heap, rfl⟩

theorem createFile_creates (tree : Tree fs.vfs) {parent : Nat} {directory : Dentry}
    (live : fs.vfs.dentries parent = some directory) (name : Name) (data : List UInt8) :
    Creates heap fs parent name .regular data ((createFile heap parent name data).run fs) := by
  obtain ⟨inode, object, points, liveInode⟩ := tree.inode parent directory live
  have type := typeOf_of_live live points liveInode
  unfold createFile
  rw [run_bind_ok (run_dentryOf live), points]
  simp only
  rw [run_bind_ok (run_fetch liveInode), run_ite]
  by_cases other : object.type ≠ .directory
  · rw [if_pos other]
    refine .refused fs (.refl _) (.inr ?_)
    rw [type]
    exact fun same => other (Option.some.inj same)
  rw [if_neg other]
  have isDirectory : fs.vfs.typeOf parent = some .directory := by rw [type, not_not.mp other]
  rcases run_allocInode heap fs .regular with
    ⟨after, ran, spent, fails⟩ | ⟨address, dataAddress, memory, ran⟩
  · rw [run_bind_ok ran]
    exact .refused after spent (.inl fails)
  rw [run_bind_ok ran]
  simp only
  rcases @run_fillFile _ heap fs.vfs memory .regular address dataAddress data with
    ⟨later, filled, fails⟩ | ⟨buffer, later, filled⟩
  · rw [run_bind_ok filled]
    obtain ⟨after, freed, spent⟩ := @run_freeInode _ heap fs.vfs later
      (emptyInode fs.vfs .regular address dataAddress) _ tree.fresh_inode rfl
    simp only [Bool.false_eq_true, if_false]
    rw [run_bind_ok freed]
    exact .refused after spent (.inl fails)
  rw [run_bind_ok filled]
  simp only [if_true]
  obtain ⟨priv, has⟩ := filledInode_privateData fs.vfs .regular address dataAddress buffer data
  have good := filledInode_filled fs.vfs .regular address dataAddress buffer data
  generalize filledInode (emptyInode fs.vfs .regular address dataAddress) dataAddress buffer data =
    file at has good filled ⊢
  rcases @run_dAlloc_newest _ heap fs.vfs tree parent directory live file later name with
    ⟨last, named, fails⟩ | ⟨id, newAddress, last, named⟩
  · rw [run_bind_ok named]
    obtain ⟨emptied, dropped⟩ := @run_freeBuffer _ heap ⟨fs.vfs.addInode file, last⟩ fs.vfs.nextId
      file (store_same)
    obtain ⟨after, freed, spent⟩ :=
      @run_freeInode _ heap fs.vfs emptied file priv tree.fresh_inode has
    simp only
    rw [run_bind_ok dropped, run_bind_ok freed]
    exact .refused after spent (.inl fails)
  · rw [run_bind_ok named]
    exact .created directory file newAddress _ live isDirectory good rfl

end Runs

end Synx.Ramfs
