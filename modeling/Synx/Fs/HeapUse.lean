/-
How file-system calls use memory for kernel objects: through requests and
returns of small objects only.  What those keep, every call keeps.
-/

import Synx.Fs.Keeping
import Synx.Fs.Ramfs

namespace Synx.Vfs

open Lib
open Lib.Program

/-- A property of the heap that small requests and returns keep. -/
structure SmallUse {τ : Type} (heap : Heap τ) (holds : τ → Prop) : Prop where
  alloc : ∀ size state, 0 < size → size ≤ 4096 → holds state → holds (heap.alloc size state).2
  free : ∀ address size state, 0 < size → size ≤ 4096 → holds state →
    holds (heap.free address size state)

def OnHeap {τ : Type} (holds : τ → Prop) (fs : Fs τ) : Prop := holds fs.heap

theorem keeps_update {τ : Type} {holds : τ → Prop} (change : State → State) :
    Keeps (OnHeap holds) (update change) := .modify (fun _ now => now)

end Synx.Vfs

namespace Synx.Ramfs

open Lib
open Lib.Program
open Vfs

section

variable {τ : Type} {heap : Heap τ} {holds : τ → Prop}

theorem keeps_lookupAmong (dentry : Nat) (name : Name) (children : List Nat) :
    Keeps (OnHeap holds) (lookupAmong dentry name children) := by
  induction children with
  | nil => exact .pure _
  | cons child rest ih =>
    refine .bind (keeps_dentryOf child) (fun object => .ite _ ?_ ih)
    refine .bind ?_ (fun _ => .pure _)
    unfold iget
    cases object.inode with
    | none => exact .pure _
    | some id => exact .bind (keeps_fetch _ id) (fun _ => keeps_update _)

theorem keeps_ramfsLookup (dir dentry : Nat) (name : Name) :
    Keeps (OnHeap holds) (ramfsLookup dir dentry name) := by
  refine .bind (keeps_fetch _ dir) (fun _ => .ite _ (.pure _)
    (.bind (keeps_dentryOf dentry) (fun object => ?_)))
  cases object.parent with
  | none => exact .pure _
  | some parent => exact .bind (keeps_dentryOf parent) (fun _ => keeps_lookupAmong _ _ _)

theorem keeps_ramfsRead (file size offset : Nat) :
    Keeps (OnHeap holds) (ramfsRead file size offset) := by
  refine .bind (keeps_fileOf file) (fun _ => .bind (keeps_dentryOf _) (fun _ =>
    .bind (keeps_inodeOf _) (fun found => .ite _ (.pure _) ?_)))
  cases found.2.privateData.bind InodeData.buffer with
  | none => exact .pure _
  | some buffer =>
    exact .ite _ (.pure _) (.ite _ (.stop _) (.pure _))

theorem indifferent_onHeap (small : SmallUse heap holds) :
    Indifferent heap ramfs (OnHeap holds) where
  dentry _ _ _ now := now
  inode _ _ _ now := now
  fresh _ now := now
  alloc fs size positive bounded now := small.alloc size fs.heap positive bounded now
  free fs address size positive bounded now := small.free address size fs.heap positive bounded now
  lookup := by
    rintro _ ⟨⟩ dir dentry name
    exact keeps_ramfsLookup dir dentry name
  create := nofun
  destroyInode := nofun

theorem keeps_openFile (small : SmallUse heap holds) (path : Name) (flags : Nat) :
    Keeps (OnHeap holds) (openFile heap ramfs path flags) :=
  (indifferent_onHeap small).openFile_triple path flags (fun _ _ _ _ now => now)

theorem keeps_closeFile (small : SmallUse heap holds) (file : Nat) :
    Keeps (OnHeap holds) (closeFile heap ramfs file) :=
  (indifferent_onHeap small).keeps_closeFile file (fun _ _ _ _ now => now) (fun _ now => now)

theorem keeps_readFile (file size : Nat) : Keeps (OnHeap holds) (readFile ramfs file size) := by
  refine readFile_keeps file size ?_ (fun _ _ _ _ now => now)
  rintro _ ⟨⟩ offset
  exact keeps_ramfsRead file size offset

end

end Synx.Ramfs
