/-
What `open` and `close` do in a well-formed tree.  A successful `open` makes a
file with one reference and adds one reference to its dentry; a failed one
changes nothing; the last `close` takes both back.
-/

import Synx.Fs.Tree

namespace Synx.Vfs

open Lib
open Lib.Program

namespace State

/-- The path of the directory that `open` searches. -/
def parentPath (path : Name) : Name := if dirName path = [] then [slash] else dirName path

/-- The dentry that `open` would open, or its error. -/
def opens (vfs : State) (missing : Int) (path : Name) (flags : Nat) : Except Int Nat :=
  if path.head? ≠ some slash then .error (-EINVAL)
  else if 256 ≤ path.length then .error (-ENAMETOOLONG)
  else
    (vfs.resolve missing (parentPath path)).bind (fun parent =>
      match vfs.child parent (baseName path) with
      | none => .error (if flags &&& oCreat = 0 then -ENOENT else -ENOSYS)
      | some target => if flags &&& oExcl ≠ 0 then .error (-EEXIST) else .ok target)

def opened (vfs : State) (target address flags : Nat) : State :=
  { (vfs.adjust (Pi.single target 1)).setFile vfs.nextId (some ⟨address, target, 0, flags, 1⟩) with
    nextId := vfs.nextId + 1 }

def closed (vfs : State) (id : Nat) (file : File) : State :=
  if file.refCount = 1 then (vfs.adjust (Pi.single file.dentry (-1))).setFile id none
  else vfs.setFile id (some { file with refCount := file.refCount - 1 })

end State

theorem store_store {α : Type} (cells : Nat → Option α) (id : Nat) (first second : Option α) :
    store (store cells id first) id second = store cells id second := by
  funext other
  by_cases same : other = id
  · rw [same, store_same, store_same]
  · rw [store_other same, store_other same, store_other same]

theorem closed_files {vfs : State} {id other : Nat} {file changed : File}
    (live : vfs.files id = some file) (found : (vfs.closed id file).files other = some changed) :
    ∃ old, vfs.files other = some old ∧ changed = { old with refCount := changed.refCount } := by
  have elsewhere : ∀ replaced : Option File, other ≠ id → store vfs.files id replaced other =
    some changed →
      ∃ old, vfs.files other = some old ∧ changed = { old with refCount := changed.refCount } := by
    intro replaced different isChanged
    rw [store_other different] at isChanged
    exact ⟨changed, isChanged, rfl⟩
  unfold State.closed at found
  split at found
  · change store vfs.files id none other = some changed at found
    rcases eq_or_ne other id with rfl | different
    · rw [store_same] at found
      cases found
    · exact elsewhere none different found
  · change store vfs.files id _ other = some changed at found
    rcases eq_or_ne other id with rfl | different
    · rw [store_same] at found
      cases found
      exact ⟨file, live, rfl⟩
    · exact elsewhere _ different found

section Runs

variable {τ : Type} {heap : Heap τ} {fs : Fs τ}

theorem Untouched.tree {before after : Fs τ} (untouched : Untouched before after)
    (tree : Tree before.vfs) : Tree after.vfs := by
  rw [untouched.vfs]
  exact tree.aged untouched.later

theorem Fails.bind {α β : Type} {program : Call τ α} {next : α → Call τ β} {code : Int}
    (fails : Fails fs code (program.run fs)) : Fails fs code ((program >>= next).run fs) := by
  obtain ⟨after, ran, untouched⟩ := fails
  exact ⟨after, run_bind_error ran, untouched⟩

end Runs

end Synx.Vfs

namespace Synx.Ramfs

open Lib
open Lib.Program
open Vfs

section Runs

variable {τ : Type} {heap : Heap τ} {fs : Fs τ}

theorem openTarget_ends (tree : Tree fs.vfs) {parent : Nat} {directory : Dentry}
    (live : fs.vfs.dentries parent = some directory) (filename : Name) (flags : Nat) :
    match fs.vfs.child parent filename with
    | none => (openTarget heap ramfs parent filename flags).run (fs.adjust (Pi.single parent 1)) =
        (.error (.code (if flags &&& oCreat = 0 then -ENOENT else -ENOSYS)), fs)
    | some target =>
      (∃ object, fs.vfs.dentries target = some object) ∧
      (openTarget heap ramfs parent filename flags).run (fs.adjust (Pi.single parent 1)) =
        if flags &&& oExcl ≠ 0 then (.error (.code (-EEXIST)), fs)
        else (.ok target, fs.adjust (Pi.single parent 1 + Pi.single target 1)) := by
  have held := fs.vfs.adjust_dentries (Pi.single parent 1) live
  have treeHeld := tree.held parent
  unfold openTarget
  rw [run_bind_ok (run_dLookup treeHeld held filename), Fs.adjust_vfs,
    State.adjust_child]
  cases found : fs.vfs.child parent filename with
  | none =>
    simp only
    by_cases creates : flags &&& oCreat = 0
    · rw [if_pos creates, if_pos creates]
      exact run_abandon tree live ENOENT
    · rw [if_neg creates, if_neg creates]
      obtain ⟨inode, object, points, liveInode⟩ := tree.inode parent directory live
      rw [run_bind_ok (run_dentryOf held)]
      have here : (inodeOf { directory with
          refCount := directory.refCount + (Pi.single parent 1 : Nat → Int) parent }).run
          (fs.adjust (Pi.single parent 1)) =
          (.ok (inode, object), fs.adjust (Pi.single parent 1)) := run_inodeOf points liveInode
      rw [run_bind_ok here]
      exact run_abandon tree live ENOSYS
  | some target =>
    simp only
    obtain ⟨object, liveTarget, _⟩ := tree.child_live live found
    refine ⟨⟨object, liveTarget⟩, ?_⟩
    by_cases exclusive : flags &&& oExcl ≠ 0
    · rw [if_pos exclusive, if_pos exclusive]
      exact run_abandon tree live EEXIST
    · rw [if_neg exclusive, if_neg exclusive]
      have got := @run_dget _ (fs.adjust (Pi.single parent 1)) target _
        (fs.vfs.adjust_dentries (Pi.single parent 1) liveTarget)
      rw [run_bind_ok got, Fs.adjust_adjust, run_pure]

/-- `open` with the given target: a new file if there is memory for it. -/
def OpenEnds (heap : Heap τ) (fs : Fs τ) (flags : Nat) (result : Except Int Nat)
    (outcome : Except (Stop Fault) Nat × Fs τ) : Prop :=
  match result with
  | .error code => Fails fs code outcome
  | .ok target =>
    (∃ object, fs.vfs.dentries target = some object) ∧
    match heap.alloc sizeofFile fs.heap with
    | (none, _) => Fails fs (-ENOMEM) outcome
    | (some address, after) =>
      outcome = (.ok fs.vfs.nextId, ⟨fs.vfs.opened target address flags, after⟩)

theorem run_slabAlloc (heap : Heap τ) (fs : Fs τ) (size : Nat) :
    (slabAlloc heap size).run fs =
      (.ok (heap.alloc size fs.heap).1, { fs with heap := (heap.alloc size fs.heap).2 }) := rfl

theorem openFile_ends (tree : Tree fs.vfs) (path : Name) (flags : Nat) :
    OpenEnds heap fs flags (fs.vfs.opens (missingCode heap fs) path flags)
      ((openFile heap ramfs path flags).run fs) := by
  unfold State.opens openFile
  by_cases relative : path.head? ≠ some slash
  · rw [if_pos relative, if_pos relative]
    exact ⟨fs, rfl, .refl fs⟩
  rw [if_neg relative, if_neg relative]
  by_cases long : 256 ≤ path.length
  · rw [if_pos long, if_pos long]
    exact ⟨fs, rfl, .refl fs⟩
  rw [if_neg long, if_neg long]
  have walked := @pathWalk_ends _ heap fs tree (State.parentPath path)
  change OpenEnds heap fs flags (Except.bind _ _)
    (Program.run (pathWalk heap ramfs (State.parentPath path) >>= _) fs)
  cases resolved : fs.vfs.resolve (missingCode heap fs) (State.parentPath path) with
  | error code =>
    rw [resolved] at walked
    exact Fails.bind walked
  | ok parent =>
    rw [resolved] at walked
    obtain ⟨ran, directory, live⟩ := walked
    rw [run_bind_ok ran]
    have target := @openTarget_ends _ heap fs tree parent directory live (baseName path) flags
    simp only [Except.bind]
    cases found : fs.vfs.child parent (baseName path) with
    | none =>
      rw [found] at target
      exact ⟨fs, run_bind_error target, .refl fs⟩
    | some child =>
      rw [found] at target
      obtain ⟨⟨object, liveChild⟩, ranTarget⟩ := target
      simp only
      by_cases exclusive : flags &&& oExcl ≠ 0
      · rw [if_pos exclusive] at ranTarget ⊢
        exact ⟨fs, run_bind_error ranTarget, .refl fs⟩
      · rw [if_neg exclusive] at ranTarget ⊢
        rw [run_bind_ok ranTarget]
        refine ⟨⟨object, liveChild⟩, ?_⟩
        rw [run_bind_ok (run_dput_behind tree live child),
          run_bind_ok (run_slabAlloc heap _ sizeofFile)]
        change match heap.alloc sizeofFile fs.heap with
          | (none, _) => Fails fs (-ENOMEM) _
          | (some address, after) => _
        have held := fs.vfs.adjust_dentries (Pi.single child 1) liveChild
        obtain ⟨inode, content, points, liveInode⟩ := tree.inode child object liveChild
        cases allocated : heap.alloc sizeofFile fs.heap with
        | mk address after =>
          have same : heap.alloc sizeofFile (fs.adjust (Pi.single child 1)).heap =
              (address, after) := allocated
          rw [same]
          cases address with
          | none =>
            refine ⟨{ fs with heap := after }, ?_, ⟨rfl, le_rfl⟩⟩
            exact @run_abandon _ heap { fs with heap := after } ramfs _ tree child object
              liveChild ENOMEM
          | some address =>
            have holds : (inodeOf { object with
                refCount := object.refCount + (Pi.single child 1 : Nat → Int) child }).run
                ⟨fs.vfs.adjust (Pi.single child 1), after⟩ =
                (.ok (inode, content), ⟨fs.vfs.adjust (Pi.single child 1), after⟩) :=
              run_inodeOf points liveInode
            simp only [Fs.adjust_vfs]
            rw [run_bind_ok (run_dentryOf held), run_bind_ok holds,
              run_bind_ok (run_freshId _), run_bind_ok (run_update _ _),
              run_pure]
            rfl

theorem run_closeFile {id : Nat} {file : File} (live : fs.vfs.files id = some file)
    {dentry : Dentry} (liveDentry : fs.vfs.dentries file.dentry = some dentry)
    (shared : 2 ≤ dentry.refCount) :
    ∃ after, (closeFile heap ramfs id).run fs = (.ok (), ⟨fs.vfs.closed id file, after⟩) := by
  unfold closeFile State.closed
  have found : (fileOf id).run fs = (.ok file, fs) := run_fetch live
  rw [run_bind_ok found, run_bind_ok (run_update _ _), run_ite]
  by_cases last : file.refCount = 1
  · rw [if_pos last, if_pos (by omega)]
    have put := @run_dput _ heap { fs with
      vfs := fs.vfs.setFile id (some { file with refCount := file.refCount - 1 }) } ramfs
      file.dentry dentry liveDentry shared
    rw [run_bind_ok put, run_bind_ok (run_update _ _)]
    unfold slabFree
    rw [run_modify]
    refine ⟨heap.free file.address sizeofFile fs.heap, ?_⟩
    simp only [Fs.adjust, State.adjust, State.setFile, store_store]
  · rw [if_neg last, if_neg (by omega), run_pure]
    exact ⟨fs.heap, rfl⟩

end Runs

end Synx.Ramfs
