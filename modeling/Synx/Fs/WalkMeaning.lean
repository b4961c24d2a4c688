/-
The meaning of `path_walk`: a fold over the components of the path.
-/

import Synx.Fs.OpenWalk

namespace Synx.Ramfs

open Lib Program
open Vfs

/-- The reference counts of the dentries have changed as given, and nothing else
that a dentry, an inode or a file holds. -/
structure CountsOnly (before after : State) (gained : Nat → Int) : Prop where
  dentries : ∀ id, after.dentries id = (before.dentries id).map
    (fun dentry => { dentry with refCount := dentry.refCount + gained id })
  inodes : after.inodes = before.inodes
  files : after.files = before.files
  rootMount : after.rootMount = before.rootMount
  mountList : after.mountList = before.mountList

theorem CountsOnly.adjust (vfs : State) (gained : Nat → Int) :
    CountsOnly vfs (vfs.adjust gained) gained := ⟨fun _ => rfl, rfl, rfl, rfl, rfl⟩

section

variable {τ : Type} {before after : Fs τ}

theorem CountsOnly.untouched (untouched : Untouched before after) :
    CountsOnly before.vfs after.vfs 0 := by
  have same := CountsOnly.adjust before.vfs 0
  rw [State.adjust_zero] at same
  rw [untouched.vfs]
  exact ⟨same.dentries, rfl, rfl, rfl, rfl⟩

/-- A walk ends with this result and these counts. -/
def EndsWith (heap : Heap τ) (fs : Fs τ) (path : Name) (result : Except (Stop Fault) Nat)
    (gained : Nat → Int) : Prop :=
  ∃ after, (pathWalk heap ramfs path).run fs = (result, after) ∧
    CountsOnly fs.vfs after.vfs gained

/-- `path_walk` folds the components of an absolute path from the root, where the
first error wins, and leaves one reference at the dentry it returns. -/
theorem pathWalk_componentwise (heap : Heap τ) (fs : Fs τ) (tree : Tree fs.vfs) (root : Nat)
    (mounted : fs.vfs.rootDentry = some root)
    (allocates : (heap.alloc sizeofDentry fs.heap).1 ≠ none) (path : Name) :
    (path.head? ≠ some slash → EndsWith heap fs path (.error (.code (-EINVAL))) 0) ∧
    (path.head? = some slash →
      match (components path).foldlM (fs.vfs.walkStep (-ENOENT)) root with
      | .ok last => EndsWith heap fs path (.ok last) (Pi.single last 1)
      | .error code => EndsWith heap fs path (.error (.code code)) 0) := by
  have missing : missingCode heap fs = -ENOENT := by
    unfold missingCode
    rw [if_pos (Option.isSome_iff_ne_none.mpr allocates)]
  have ends := @pathWalk_ends _ heap fs tree path
  rw [missing] at ends
  constructor
  · intro relative
    have refused : fs.vfs.resolve (-ENOENT) path = .error (-EINVAL) := if_pos relative
    rw [refused] at ends
    obtain ⟨after, ran, untouched⟩ := ends
    exact ⟨after, ran, CountsOnly.untouched untouched⟩
  · intro absolute
    have meaning : fs.vfs.resolve (-ENOENT) path =
        (components path).foldlM (fs.vfs.walkStep (-ENOENT)) root := by
      unfold State.resolve
      rw [if_neg (not_not.mpr absolute), mounted]
      rfl
    rw [meaning] at ends
    cases folded : (components path).foldlM (fs.vfs.walkStep (-ENOENT)) root with
    | ok last =>
      rw [folded] at ends
      exact ⟨_, ends.1, CountsOnly.adjust fs.vfs (Pi.single last 1)⟩
    | error code =>
      rw [folded] at ends
      obtain ⟨after, ran, untouched⟩ := ends
      exact ⟨after, ran, CountsOnly.untouched untouched⟩

end

/-- `//./a` leads to the file `a`, and `a` is no directory. -/
theorem pathWalk_componentwise_small :
    EndsWith endless smallFs [slash, slash, dot, slash, 97] (.ok 1) (Pi.single 1 1) ∧
      EndsWith endless smallFs [slash, 97, slash, 98] (.error (.code (-ENOTDIR))) 0 := by
  have file := (pathWalk_componentwise endless smallFs smallFs_tree 0 rfl (by decide)
    [slash, slash, dot, slash, 97]).2 rfl
  have below := (pathWalk_componentwise endless smallFs smallFs_tree 0 rfl (by decide)
    [slash, 97, slash, 98]).2 rfl
  have foldedFile : (components [slash, slash, dot, slash, 97]).foldlM
      (smallFs.vfs.walkStep (-ENOENT)) 0 = .ok 1 := rfl
  have foldedBelow : (components [slash, 97, slash, 98]).foldlM
      (smallFs.vfs.walkStep (-ENOENT)) 0 = .error (-ENOTDIR) := rfl
  rw [foldedFile] at file
  rw [foldedBelow] at below
  exact ⟨file, below⟩

end Synx.Ramfs
