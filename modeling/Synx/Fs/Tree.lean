/-
The dentry tree and path resolution in it.
-/

import Mathlib.Data.List.TakeWhile
import Synx.Fs.Ramfs

namespace Synx.Vfs

open Lib List
open Lib.Program

/-! ### Components of a path -/

def components (path : Name) : List Name := (path.splitOn slash).filter (· ≠ [])

theorem components_nil : components [] = [] := rfl

theorem components_append (left right : Name) :
    components (left ++ slash :: right) = components left ++ components right := by
  unfold components
  rw [splitOn_append_cons_self, filter_append]

theorem components_slash (path : Name) : components (slash :: path) = components path := by
  have split_ := components_append [] path
  rwa [nil_append, components_nil, nil_append] at split_

theorem components_skipSlashes (path : Name) : components (skipSlashes path) = components path := by
  induction path with
  | nil => rfl
  | cons byte rest ih =>
    by_cases isSlash : byte = slash
    · subst byte
      rw [components_slash, ← ih]
      rfl
    · have kept : skipSlashes (byte :: rest) = byte :: rest := by
        simp [skipSlashes, isSlash]
      rw [kept]

theorem components_single (name : Name) (nonempty : name ≠ []) (noSlash : slash ∉ name) :
    components name = [name] := by
  unfold components
  rw [splitOn_eq_singleton noSlash]
  simp [nonempty]

theorem slash_not_mem_nextComponent (path : Name) : slash ∉ nextComponent path := by
  intro member
  have passes := mem_takeWhile_imp member
  simp at passes

theorem drop_nextComponent (path : Name) :
    path.drop (nextComponent path).length = path.dropWhile (· != slash) := by
  have whole : nextComponent path ++ path.dropWhile (· != slash) = path :=
    takeWhile_append_dropWhile
  calc path.drop (nextComponent path).length
      = (nextComponent path ++ path.dropWhile (· != slash)).drop (nextComponent path).length := by
        rw [whole]
    _ = path.dropWhile (· != slash) := drop_left

theorem components_next (path : Name) (nonempty : path ≠ []) (start : path.head? ≠ some slash) :
    nextComponent path ≠ [] ∧
      components path = nextComponent path ::
        components (skipSlashes (path.drop (nextComponent path).length)) := by
  have first : nextComponent path ≠ [] := by
    cases path with
    | nil => exact absurd rfl nonempty
    | cons byte rest =>
      have different : byte ≠ slash := fun same => start (by rw [same]; rfl)
      simp [nextComponent, different]
  refine ⟨first, ?_⟩
  have single := components_single _ first (slash_not_mem_nextComponent path)
  have whole : path = nextComponent path ++ path.dropWhile (· != slash) :=
    takeWhile_append_dropWhile.symm
  rw [components_skipSlashes, drop_nextComponent]
  cases rest : path.dropWhile (· != slash) with
  | nil =>
    rw [rest, append_nil] at whole
    rw [components_nil, ← single, ← whole]
  | cons byte later =>
    have isSlash : byte = slash := by
      have head := head?_dropWhile_not (· != slash) path
      rw [rest] at head
      simpa using head
    rw [rest, isSlash] at whole
    rw [isSlash, components_slash]
    conv_lhs => rw [whole]
    rw [components_append, single]
    rfl

/-! ### Walks in the tree -/

namespace State

def child (vfs : State) (parent : Nat) (name : Name) : Option Nat :=
  (vfs.dentries parent).bind (fun directory =>
    directory.children.find? (fun id => (vfs.dentries id).map Dentry.name == some name))

def typeOf (vfs : State) (id : Nat) : Option FileType :=
  (vfs.dentries id).bind (fun dentry =>
    dentry.inode.bind (fun inode => (vfs.inodes inode).map Inode.type))

def parentOf (vfs : State) (id : Nat) : Option Nat := (vfs.dentries id).bind Dentry.parent

/-- The dentry of the root mount, if a file system is mounted. -/
def rootDentry (vfs : State) : Option Nat :=
  vfs.rootMount.bind (fun mount => if mount.sb.root.isNone then none else mount.mountPoint)

/-- One component of a walk.  The code for a missing name is a parameter. -/
def walkStep (vfs : State) (missing : Int) (current : Nat) (component : Name) : Except Int Nat :=
  if 255 < component.length then .error (-ENAMETOOLONG)
  else if component = [dot] then .ok current
  else if component = [dot, dot] then .ok ((vfs.parentOf current).getD current)
  else if vfs.typeOf current ≠ some .directory then .error (-ENOTDIR)
  else
    match vfs.child current component with
    | some next => .ok next
    | none => .error missing

def walk (vfs : State) (missing : Int) (start : Nat) (names : List Name) : Except Int Nat :=
  names.foldlM (vfs.walkStep missing) start

/-- Where `path_walk` ends. -/
def resolve (vfs : State) (missing : Int) (path : Name) : Except Int Nat :=
  if path.head? ≠ some slash then .error (-EINVAL)
  else
    match vfs.rootDentry with
    | none => .error (-ENOENT)
    | some root => vfs.walk missing root (components path)

theorem walk_nil (vfs : State) (missing : Int) (start : Nat) :
    vfs.walk missing start [] = .ok start := rfl

theorem walk_cons (vfs : State) (missing : Int) (start : Nat) (name : Name) (names : List Name) :
    vfs.walk missing start (name :: names) =
      (vfs.walkStep missing start name).bind (fun next => vfs.walk missing next names) := rfl

/-- All reference counts of dentries changed at once. -/
def adjust (vfs : State) (change : Nat → Int) : State :=
  { vfs with
    dentries := fun id => (vfs.dentries id).map (fun dentry =>
      { dentry with refCount := dentry.refCount + change id }) }

theorem adjust_zero (vfs : State) : vfs.adjust 0 = vfs := by
  unfold adjust
  congr 1
  funext id
  cases vfs.dentries id with
  | none => rfl
  | some dentry => simp

theorem adjust_adjust (vfs : State) (first second : Nat → Int) :
    (vfs.adjust first).adjust second = vfs.adjust (first + second) := by
  unfold adjust
  congr 1
  funext id
  cases found : vfs.dentries id with
  | none => simp [found]
  | some dentry => simp [found, Int.add_assoc]

theorem adjust_dentries (vfs : State) (change : Nat → Int) {id : Nat} {dentry : Dentry}
    (live : vfs.dentries id = some dentry) :
    (vfs.adjust change).dentries id =
      some { dentry with refCount := dentry.refCount + change id } := by
  simp only [adjust, live, Option.map_some]

theorem adjust_child (vfs : State) (change : Nat → Int) (parent : Nat) (name : Name) :
    (vfs.adjust change).child parent name = vfs.child parent name := by
  unfold child adjust
  simp only [Option.map_map, Option.bind_map]
  rfl

theorem adjust_typeOf (vfs : State) (change : Nat → Int) (id : Nat) :
    (vfs.adjust change).typeOf id = vfs.typeOf id := by
  unfold typeOf adjust
  simp only [Option.bind_map]
  rfl

end State

/-- The tree is closed, its objects are live, and a parent is older than its
children. -/
structure Tree (vfs : State) : Prop where
  root : ∀ root, vfs.rootDentry = some root →
    ∃ dentry, vfs.dentries root = some dentry ∧ dentry.parent = none
  inode : ∀ id dentry, vfs.dentries id = some dentry →
    ∃ inode object, dentry.inode = some inode ∧ vfs.inodes inode = some object
  parent : ∀ id dentry above, vfs.dentries id = some dentry → dentry.parent = some above →
    above < id ∧ ∃ directory, vfs.dentries above = some directory ∧ id ∈ directory.children
  child : ∀ id dentry below, vfs.dentries id = some dentry → below ∈ dentry.children →
    ∃ object, vfs.dentries below = some object ∧ object.parent = some id
  distinct : ∀ id dentry, vfs.dentries id = some dentry → dentry.children.Nodup
  leaf : ∀ id dentry, vfs.dentries id = some dentry → vfs.typeOf id ≠ some .directory →
    dentry.children = []
  counted : ∀ id dentry, vfs.dentries id = some dentry → 1 ≤ dentry.refCount
  known : ∀ id dentry, vfs.dentries id = some dentry → id < vfs.nextId
  inodeKnown : ∀ id inode, vfs.inodes id = some inode → id < vfs.nextId
  file : ∀ id file, vfs.files id = some file →
    id < vfs.nextId ∧ ∃ dentry, vfs.dentries file.dentry = some dentry

/-- No two children of a directory have the same name. -/
def UniqueNames (vfs : State) : Prop :=
  ∀ id dentry, vfs.dentries id = some dentry →
    (dentry.children.map (fun child => (vfs.dentries child).map Dentry.name)).Nodup

variable {vfs : State} {id : Nat}

theorem State.of_adjust {change : Nat → Int} {dentry : Dentry}
    (live : (vfs.adjust change).dentries id = some dentry) :
    ∃ before, vfs.dentries id = some before ∧
      dentry = { before with refCount := before.refCount + change id } := by
  obtain ⟨before, found, same⟩ := Option.map_eq_some_iff.mp live
  exact ⟨before, found, same.symm⟩

theorem Tree.adjust (tree : Tree vfs) (change : Nat → Int)
    (positive : ∀ id dentry, vfs.dentries id = some dentry → 1 ≤ dentry.refCount + change id) :
    Tree (vfs.adjust change) := by
  refine
    { root := ?_, inode := ?_, parent := ?_, child := ?_, distinct := ?_, leaf := ?_,
      counted := ?_, known := ?_, inodeKnown := tree.inodeKnown, file := ?_ }
  · intro root mounted
    obtain ⟨dentry, live, top⟩ := tree.root root mounted
    exact ⟨_, vfs.adjust_dentries change live, top⟩
  · intro id _ live
    obtain ⟨before, found, rfl⟩ := State.of_adjust live
    exact tree.inode id before found
  · intro id _ above live points
    obtain ⟨before, found, rfl⟩ := State.of_adjust live
    obtain ⟨older, directory, liveAbove, member⟩ := tree.parent id before above found points
    exact ⟨older, _, vfs.adjust_dentries change liveAbove, member⟩
  · intro id _ below live member
    obtain ⟨before, found, rfl⟩ := State.of_adjust live
    obtain ⟨object, liveBelow, points⟩ := tree.child id before below found member
    exact ⟨_, vfs.adjust_dentries change liveBelow, points⟩
  · intro id _ live
    obtain ⟨before, found, rfl⟩ := State.of_adjust live
    exact tree.distinct id before found
  · intro id _ live other
    obtain ⟨before, found, rfl⟩ := State.of_adjust live
    rw [State.adjust_typeOf] at other
    exact tree.leaf id before found other
  · intro id _ live
    obtain ⟨before, found, rfl⟩ := State.of_adjust live
    exact positive id before found
  · intro id _ live
    obtain ⟨before, found, _⟩ := State.of_adjust live
    exact tree.known id before found
  · intro id file live
    obtain ⟨known, dentry, found⟩ := tree.file id file live
    exact ⟨known, _, vfs.adjust_dentries change found⟩

theorem Tree.held (tree : Tree vfs) (id : Nat) : Tree (vfs.adjust (Pi.single id 1)) := by
  apply tree.adjust
  intro other dentry live
  have positive := tree.counted other dentry live
  by_cases same : other = id
  · subst other
    rw [Pi.single_eq_same]
    omega
  · rw [Pi.single_eq_of_ne same]
    omega

theorem Tree.aged (tree : Tree vfs) {nextId : Nat} (later : vfs.nextId ≤ nextId) :
    Tree { vfs with nextId := nextId } :=
  { root := tree.root
    inode := tree.inode
    parent := tree.parent
    child := tree.child
    distinct := tree.distinct
    leaf := tree.leaf
    counted := tree.counted
    known := fun id dentry live => lt_of_lt_of_le (tree.known id dentry live) later
    inodeKnown := fun id inode live => lt_of_lt_of_le (tree.inodeKnown id inode live) later
    file := fun id file live =>
      ⟨lt_of_lt_of_le (tree.file id file live).1 later, (tree.file id file live).2⟩ }

theorem Tree.child_live (tree : Tree vfs) {parent : Nat} {directory : Dentry}
    (live : vfs.dentries parent = some directory) {name : Name}
    (found : vfs.child parent name = some id) :
    ∃ object, vfs.dentries id = some object ∧ object.parent = some parent := by
  unfold State.child at found
  rw [live, Option.bind_some] at found
  exact tree.child parent directory id live (mem_of_find?_eq_some found)

section Runs

variable {τ : Type} {heap : Heap τ} {fs : Fs τ}

def Fs.adjust (fs : Fs τ) (change : Nat → Int) : Fs τ := { fs with vfs := fs.vfs.adjust change }

theorem Fs.adjust_vfs (fs : Fs τ) (change : Nat → Int) :
    (fs.adjust change).vfs = fs.vfs.adjust change := rfl

theorem Fs.adjust_adjust (fs : Fs τ) (first second : Nat → Int) :
    (fs.adjust first).adjust second = fs.adjust (first + second) := by
  unfold Fs.adjust
  rw [State.adjust_adjust]

theorem Fs.adjust_zero (fs : Fs τ) : fs.adjust 0 = fs := by
  unfold Fs.adjust
  rw [State.adjust_zero]

theorem run_update (change : State → State) (fs : Fs τ) :
    (update change).run fs = (.ok (), { fs with vfs := change fs.vfs }) := rfl

theorem run_fetch {α : Type} {cells : State → Nat → Option α} {id : Nat} {cell : α}
    (live : cells fs.vfs id = some cell) : (fetch cells id).run fs = (.ok cell, fs) := by
  unfold run fetch
  rw [live]

variable {id current : Nat} {dentry directory : Dentry} {ops : FileSystem τ}

theorem run_dentryOf (live : fs.vfs.dentries id = some dentry) :
    (dentryOf id).run fs = (.ok dentry, fs) := run_fetch live

variable {inode parent : Nat} {object : Inode} {after : Fs τ} {vfs : State}

theorem run_inodeOf (points : dentry.inode = some inode)
    (live : fs.vfs.inodes inode = some object) :
    (inodeOf dentry).run fs = (.ok (inode, object), fs) := by
  unfold inodeOf
  rw [points]
  exact run_bind_ok (run_fetch live)

theorem run_fileOf {file : File} (live : fs.vfs.files id = some file) :
    (fileOf id).run fs = (.ok file, fs) := run_fetch live

theorem fetch_eq_ok {α : Type} {cells : State → Nat → Option α} {cell : α}
    (ran : (fetch cells id).run fs = (.ok cell, after)) :
    cells fs.vfs id = some cell ∧ after = fs := by
  unfold run fetch at ran
  cases there : cells fs.vfs id with
  | none =>
    rw [there] at ran
    cases ran
  | some other =>
    rw [there] at ran
    cases ran
    exact ⟨rfl, rfl⟩

theorem inodeOf_eq_ok (ran : (inodeOf dentry).run fs = (.ok (inode, object), after)) :
    dentry.inode = some inode ∧ fs.vfs.inodes inode = some object ∧ after = fs := by
  unfold inodeOf at ran
  cases points : dentry.inode with
  | none =>
    rw [points] at ran
    cases ran
  | some other =>
    rw [points] at ran
    obtain ⟨found, middle, first, rest⟩ := run_bind_eq_ok ran
    obtain ⟨there, rfl⟩ := fetch_eq_ok first
    cases rest
    exact ⟨rfl, there, rfl⟩

theorem setDentry_adjust (live : vfs.dentries id = some dentry) (count : Int) :
    vfs.setDentry id (some { dentry with refCount := dentry.refCount + count }) =
      vfs.adjust (Pi.single id count) := by
  unfold State.setDentry State.adjust
  congr 1
  funext other
  by_cases same : other = id
  · subst other
    rw [store_same, live, Option.map_some, Pi.single_eq_same]
  · rw [store_other same, Pi.single_eq_of_ne same]
    cases vfs.dentries other <;> simp

theorem run_dget {id : Nat} {dentry : Dentry} (live : fs.vfs.dentries id = some dentry) :
    (dget id).run fs = (.ok (), fs.adjust (Pi.single id 1)) := by
  unfold dget
  rw [run_bind_ok (run_dentryOf live), Fs.adjust, ← setDentry_adjust live]
  rfl

theorem run_dput {ops : FileSystem τ} {id : Nat} {dentry : Dentry}
    (live : fs.vfs.dentries id = some dentry) (shared : 2 ≤ dentry.refCount) :
    (dput heap ops id).run fs = (.ok (), fs.adjust (Pi.single id (-1))) := by
  unfold dput
  rw [run_bind_ok (run_dentryOf live), run_bind_ok (run_update _ _),
    if_neg (by omega), Fs.adjust, ← setDentry_adjust live]
  rfl

theorem run_searchChildren (name : Name) (children : List Nat)
    (live : ∀ id ∈ children, ∃ dentry, fs.vfs.dentries id = some dentry) :
    (searchChildren name children).run fs =
      (.ok (children.find? (fun id => (fs.vfs.dentries id).map Dentry.name == some name)), fs) := by
  induction children with
  | nil => rfl
  | cons id rest ih =>
    obtain ⟨dentry, found⟩ := live id (.head _)
    unfold searchChildren
    rw [run_bind_ok (run_dentryOf found), run_ite]
    by_cases same : dentry.name = name
    · rw [if_pos same, run_pure, find?_cons_of_pos (by simp [found, same])]
    · rw [if_neg same, ih (fun other member => live other (.tail id member)),
        find?_cons_of_neg (by simp [found, same])]

theorem run_dLookup (tree : Tree fs.vfs) {parent : Nat} {directory : Dentry}
    (live : fs.vfs.dentries parent = some directory) (name : Name) :
    (dLookup parent name).run fs = (.ok (fs.vfs.child parent name), fs) := by
  unfold dLookup
  rw [run_bind_ok (run_dentryOf live), run_searchChildren]
  · unfold State.child
    rw [live, Option.bind_some]
  · intro id member
    obtain ⟨object, found, _⟩ := tree.child parent directory id live member
    exact ⟨object, found⟩

/-- Nothing has changed but the supply of names and the memory for objects. -/
structure Untouched (before after : Fs τ) : Prop where
  vfs : after.vfs = { before.vfs with nextId := after.vfs.nextId }
  later : before.vfs.nextId ≤ after.vfs.nextId

theorem Untouched.refl (fs : Fs τ) : Untouched fs fs := ⟨rfl, le_rfl⟩

/-- A call that ends with the given error and leaves nothing behind. -/
def Fails {α : Type} (fs : Fs τ) (code : Int) (outcome : Except (Stop Fault) α × Fs τ) : Prop :=
  ∃ after, outcome = (.error (.code code), after) ∧ Untouched fs after

theorem run_dput_behind (tree : Tree fs.vfs) (live : fs.vfs.dentries current = some dentry)
    (next : Nat) :
    (dput heap ops current).run (fs.adjust (Pi.single current 1 + Pi.single next 1)) =
      (.ok (), fs.adjust (Pi.single next 1)) := by
  have positive := tree.counted current dentry live
  have nonneg : 0 ≤ (Pi.single next 1 : Nat → Int) current := by
    by_cases same : current = next
    · rw [same, Pi.single_eq_same]
      omega
    · rw [Pi.single_eq_of_ne same]
  have put := @run_dput _ heap (fs.adjust (Pi.single current 1 + Pi.single next 1)) ops current _
    (fs.vfs.adjust_dentries _ live) (by
      simp only [Pi.add_apply, Pi.single_eq_same]
      omega)
  have net : (Pi.single current 1 + Pi.single next 1 + Pi.single current (-1) : Nat → Int) =
      Pi.single next 1 := by
    rw [Pi.single_neg]
    abel
  rw [Fs.adjust_adjust, net] at put
  exact put

theorem run_moveTo (tree : Tree fs.vfs) {next : Nat} {object : Dentry}
    (live : fs.vfs.dentries current = some dentry) (liveNext : fs.vfs.dentries next = some object) :
    (moveTo heap ops current next).run (fs.adjust (Pi.single current 1)) =
      (.ok next, fs.adjust (Pi.single next 1)) := by
  have got := @run_dget _ (fs.adjust (Pi.single current 1)) next _
    (fs.vfs.adjust_dentries (Pi.single current 1) liveNext)
  rw [Fs.adjust_adjust] at got
  unfold moveTo
  rw [run_bind_ok got, run_bind_ok (run_dput_behind tree live next), run_pure]

theorem run_dput_held {ops : FileSystem τ} (tree : Tree fs.vfs) {current : Nat} {dentry : Dentry}
    (live : fs.vfs.dentries current = some dentry) :
    (dput heap ops current).run (fs.adjust (Pi.single current 1)) = (.ok (), fs) := by
  have positive := tree.counted current dentry live
  have put := @run_dput _ heap (fs.adjust (Pi.single current 1)) ops current _
    (fs.vfs.adjust_dentries (Pi.single current 1) live) (by
      simp only [Pi.single_eq_same]
      omega)
  have net : (Pi.single current 1 + Pi.single current (-1) : Nat → Int) = 0 := by
    rw [Pi.single_neg]
    abel
  rw [Fs.adjust_adjust, net, Fs.adjust_zero] at put
  exact put

theorem run_abandon {ops : FileSystem τ} {α : Type} (tree : Tree fs.vfs) {current : Nat}
    {dentry : Dentry} (live : fs.vfs.dentries current = some dentry) (errno : Int) :
    (abandon heap ops current errno : Call τ α).run (fs.adjust (Pi.single current 1)) =
      (.error (.code (-errno)), fs) := by
  unfold abandon
  rw [run_bind_ok (run_dput_held tree live)]
  rfl

/-! ### Missing names -/

/-- The result of a walk that meets a missing name. -/
def missingCode (heap : Heap τ) (fs : Fs τ) : Int :=
  if (heap.alloc sizeofDentry fs.heap).1.isSome then -ENOENT else -ENOMEM

/-- A new dentry as the newest child of a directory. -/
def State.attach (vfs : State) (parent : Nat) (directory dentry : Dentry) : State :=
  { (vfs.setDentry vfs.nextId (some dentry)).setDentry parent
      (some { directory with children := vfs.nextId :: directory.children }) with
    nextId := vfs.nextId + 1 }

theorem run_freshId (fs : Fs τ) :
    freshId.run fs =
      (.ok fs.vfs.nextId, { fs with vfs := { fs.vfs with nextId := fs.vfs.nextId + 1 } }) := rfl

theorem run_linkChild (live : fs.vfs.dentries parent = some directory) :
    (linkChild id (some parent)).run fs =
      (.ok (), { fs with
        vfs := fs.vfs.setDentry parent
          (some { directory with children := id :: directory.children }) }) := by
  unfold linkChild
  rw [run_bind_ok (run_dentryOf live), run_update]

theorem run_unlinkChild (live : fs.vfs.dentries parent = some directory) :
    (unlinkChild id (some parent)).run fs =
      (.ok (), { fs with
        vfs := fs.vfs.setDentry parent
          (some { directory with children := directory.children.erase id }) }) := by
  unfold unlinkChild
  rw [run_bind_ok (run_dentryOf live), run_update]

theorem run_dAlloc {name : Name} {inode : Option Nat} {parent address : Nat} {after : τ}
    {directory : Dentry} (live : fs.vfs.dentries parent = some directory)
    (known : parent < fs.vfs.nextId)
    (allocated : heap.alloc sizeofDentry fs.heap = (some address, after)) :
    (dAlloc heap name inode (some parent)).run fs =
      (.ok (some fs.vfs.nextId),
        ⟨fs.vfs.attach parent directory ⟨address, name.take 255, inode, some parent, [], 1⟩,
          after⟩) := by
  have alloc : (slabAlloc heap sizeofDentry).run fs =
    (.ok (some address), { fs with heap := after }) := by
    unfold run slabAlloc
    rw [allocated]
  have kept : store fs.vfs.dentries fs.vfs.nextId
      (some ⟨address, name.take 255, inode, some parent, [], 1⟩) parent = some directory := by
    rw [store_other (ne_of_lt known), live]
  unfold dAlloc
  rw [run_bind_ok alloc]
  simp only
  rw [run_bind_ok (run_freshId _), run_bind_ok (run_update _ _),
    run_bind_ok (run_linkChild kept), run_pure]
  rfl

theorem run_dAlloc_none {name : Name} {inode parent : Option Nat} {after : τ}
    (allocated : heap.alloc sizeofDentry fs.heap = (none, after)) :
    (dAlloc heap name inode parent).run fs = (.ok none, { fs with heap := after }) := by
  have alloc : (slabAlloc heap sizeofDentry).run fs = (.ok none, { fs with heap := after }) := by
    unfold run slabAlloc
    rw [allocated]
  unfold dAlloc
  rw [run_bind_ok alloc, run_pure]

theorem run_iput_none (fs : Fs τ) :
    (iput heap ops none).run fs = (.ok (), fs) := rfl

theorem run_dput_temp {after : τ} (live : vfs.dentries current = some directory)
    (known : ∀ id dentry, vfs.dentries id = some dentry → id < vfs.nextId) (address : Nat)
    (name : Name) :
    (dput heap ops vfs.nextId).run
        ⟨vfs.attach current directory ⟨address, name, none, some current, [], 1⟩, after⟩ =
      (.ok (), ⟨{ vfs with nextId := vfs.nextId + 1 }, heap.free address sizeofDentry after⟩) := by
  have different : current ≠ vfs.nextId := ne_of_lt (known current directory live)
  have fresh : vfs.dentries vfs.nextId = none := by
    cases found : vfs.dentries vfs.nextId with
    | none => rfl
    | some dentry => exact absurd (known _ dentry found) (lt_irrefl _)
  unfold dput
  rw [run_bind_ok (run_dentryOf (by
      change store _ _ _ _ = _
      rw [store_other different.symm]
      exact store_same)),
    run_bind_ok (run_update _ _), if_pos (Int.sub_self 1)]
  rw [run_bind_ok (run_unlinkChild (by
      change store _ _ _ _ = _
      rw [store_other different]
      exact store_same))]
  rw [run_bind_ok (run_iput_none _), run_bind_ok (run_update _ _)]
  -- the directory and the freed name are as they were
  have restored : ∀ (emptied : Option Dentry),
      store (store (store (store (store vfs.dentries vfs.nextId
        (some ⟨address, name, none, some current, [], 1⟩)) current
        (some { directory with children := vfs.nextId :: directory.children })) vfs.nextId emptied)
        current (some { directory with
          children := (vfs.nextId :: directory.children).erase vfs.nextId })) vfs.nextId none =
      vfs.dentries := by
    intro emptied
    funext id
    by_cases isTemp : id = vfs.nextId
    · rw [isTemp, store_same, fresh]
    · rw [store_other isTemp]
      by_cases isCurrent : id = current
      · rw [isCurrent, store_same, erase_cons_head, live]
      · rw [store_other isCurrent, store_other isTemp, store_other isCurrent,
          store_other isTemp]
  unfold slabFree
  rw [run_modify]
  simp only [State.attach, State.setDentry, restored]

/-- The tree in memory is all there is: the file system finds no name that is not among
the children, and the question changes nothing. -/
def Cached (ops : FileSystem τ) : Prop :=
  ∀ lookup, ops.lookup = some lookup → ∀ (vfs : State) (after : τ) (current inode : Nat)
    (directory temp : Dentry) (object : Inode) (component : Name),
    Tree vfs → vfs.dentries current = some directory → vfs.inodes inode = some object →
    temp.parent = some current → vfs.child current component = none →
    (lookup inode vfs.nextId component).run ⟨vfs.attach current directory temp, after⟩ =
      (.ok none, ⟨vfs.attach current directory temp, after⟩)

/-- The code for a missing name, which needs memory only if the file system is asked. -/
def absentCode (heap : Heap τ) (ops : FileSystem τ) (fs : Fs τ) : Int :=
  match ops.lookup with
  | none => -ENOENT
  | some _ => missingCode heap fs

/-! ### Walks -/

/-- A walk with the given result: one reference more at its end, or nothing
changed. -/
def WalkEnds (fs : Fs τ) (result : Except Int Nat)
    (outcome : Except (Stop Fault) Nat × Fs τ) : Prop :=
  match result with
  | .ok next => outcome = (.ok next, fs.adjust (Pi.single next 1)) ∧
      ∃ dentry, fs.vfs.dentries next = some dentry
  | .error code => Fails fs code outcome

theorem head?_skipSlashes (path : Name) : (skipSlashes path).head? ≠ some slash := by
  intro same
  have head := head?_dropWhile_not (· == slash) path
  unfold skipSlashes at same
  rw [same] at head
  simp at head

section Walks

variable {ops : FileSystem τ} (cached : Cached ops)

include cached

theorem run_lookupMissing (tree : Tree fs.vfs) {current inode : Nat} {directory : Dentry}
    {object : Inode} (live : fs.vfs.dentries current = some directory)
    (liveInode : fs.vfs.inodes inode = some object) {component : Name}
    (absent : fs.vfs.child current component = none) :
    Fails fs (absentCode heap ops fs) ((lookupMissing heap ops current inode component).run
      (fs.adjust (Pi.single current 1))) := by
  unfold lookupMissing absentCode
  cases looks : ops.lookup with
  | none => exact ⟨fs, run_abandon tree live ENOENT, .refl fs⟩
  | some lookup =>
    have held := fs.vfs.adjust_dentries (Pi.single current 1) live
    have treeHeld := tree.held current
    rw [← fs.vfs.adjust_child (Pi.single current 1)] at absent
    cases allocated : heap.alloc sizeofDentry fs.heap with
    | mk address after =>
      cases address with
      | none =>
        rw [run_bind_ok (@run_dAlloc_none _ heap (fs.adjust (Pi.single current 1))
          component none (some current) after allocated)]
        refine ⟨{ fs with heap := after }, ?_, ⟨rfl, le_rfl⟩⟩
        have code : missingCode heap fs = -ENOMEM := by simp [missingCode, allocated]
        rw [code]
        exact @run_abandon _ heap { fs with heap := after } ops _ tree current directory live ENOMEM
      | some address =>
        rw [run_bind_ok (@run_dAlloc _ heap (fs.adjust (Pi.single current 1))
          component none current address after _ held (treeHeld.known current _ held) allocated)]
        simp only [Fs.adjust_vfs]
        rw [run_bind_ok
          (cached lookup looks _ after _ _ _ _ _ _ treeHeld held liveInode rfl absent)]
        simp only
        rw [run_bind_ok (run_dput_temp held treeHeld.known address _)]
        have code : missingCode heap fs = -ENOENT := by simp [missingCode, allocated]
        rw [code]
        refine ⟨⟨{ fs.vfs with nextId := fs.vfs.nextId + 1 },
          heap.free address sizeofDentry after⟩, ?_, ⟨rfl, Nat.le_succ _⟩⟩
        have aged : Tree { fs.vfs with nextId := fs.vfs.nextId + 1 } := tree.aged (Nat.le_succ _)
        exact @run_abandon _ heap ⟨{ fs.vfs with nextId := fs.vfs.nextId + 1 },
          heap.free address sizeofDentry after⟩ ops _ aged current directory live ENOENT

theorem walkComponent_ends (tree : Tree fs.vfs) {current : Nat} {dentry : Dentry}
    (live : fs.vfs.dentries current = some dentry) {component : Name}
    (short : component.length ≤ 255) :
    WalkEnds fs (fs.vfs.walkStep (absentCode heap ops fs) current component)
      ((walkComponent heap ops current component).run (fs.adjust (Pi.single current 1))) := by
  have held := fs.vfs.adjust_dentries (Pi.single current 1) live
  have treeHeld := tree.held current
  unfold State.walkStep walkComponent
  rw [if_neg (not_lt.mpr short)]
  by_cases isDot : component = [dot]
  · rw [if_pos isDot, if_pos isDot]
    exact ⟨rfl, dentry, live⟩
  rw [if_neg isDot, if_neg isDot]
  by_cases isUp : component = [dot, dot]
  · rw [if_pos isUp, if_pos isUp, run_bind_ok (run_dentryOf held)]
    unfold State.parentOf
    rw [live, Option.bind_some]
    simp only
    cases points : dentry.parent with
    | none => exact ⟨rfl, dentry, live⟩
    | some above =>
      obtain ⟨_, directory, liveAbove, _⟩ := tree.parent current dentry above live points
      exact ⟨run_moveTo tree live liveAbove, directory, liveAbove⟩
  rw [if_neg isUp, if_neg isUp, run_bind_ok (run_dentryOf held)]
  obtain ⟨inode, object, points, liveInode⟩ := tree.inode current dentry live
  have found : (inodeOf { dentry with
      refCount := dentry.refCount + (Pi.single current 1 : Nat → Int) current }).run
      (fs.adjust (Pi.single current 1)) = (.ok (inode, object), fs.adjust (Pi.single current 1)) :=
    run_inodeOf points liveInode
  rw [run_bind_ok found]
  have type : fs.vfs.typeOf current = some object.type := by
    simp only [State.typeOf, live, points, liveInode, Option.bind_some, Option.map_some]
  simp only [type, ne_eq, Option.some.injEq]
  by_cases isDirectory : object.type = .directory
  · rw [if_neg (not_not.mpr isDirectory), if_neg (not_not.mpr isDirectory)]
    rw [run_bind_ok (run_dLookup treeHeld held component), Fs.adjust_vfs, State.adjust_child]
    cases next : fs.vfs.child current component with
    | none => exact run_lookupMissing cached tree live liveInode next
    | some child =>
      obtain ⟨below, liveChild, _⟩ := tree.child_live live next
      exact ⟨run_moveTo tree live liveChild, below, liveChild⟩
  · rw [if_pos isDirectory, if_pos isDirectory]
    exact ⟨fs, run_abandon tree live ENOTDIR, .refl fs⟩

theorem walkFrom_ends (tree : Tree fs.vfs) (rounds : Nat) {current : Nat} {dentry : Dentry}
    (live : fs.vfs.dentries current = some dentry) (path : Name) (enough : path.length ≤ rounds)
    (start : path.head? ≠ some slash) :
    WalkEnds fs (fs.vfs.walk (absentCode heap ops fs) current (components path))
      ((walkFrom heap ops rounds current path).run (fs.adjust (Pi.single current 1))) := by
  induction rounds generalizing current dentry path with
  | zero =>
    have empty : path = [] := length_eq_zero_iff.mp (Nat.le_zero.mp enough)
    subst path
    exact ⟨rfl, dentry, live⟩
  | succ rounds ih =>
    cases path with
    | nil => exact ⟨rfl, dentry, live⟩
    | cons byte rest =>
      obtain ⟨nonempty, split_⟩ := components_next (byte :: rest) (cons_ne_nil _ _) start
      rw [split_, State.walk_cons]
      unfold walkFrom
      simp only
      generalize nextComponent (byte :: rest) = component at nonempty ⊢
      by_cases long : 255 < component.length
      · rw [if_pos long]
        have refused : fs.vfs.walkStep (absentCode heap ops fs) current component =
            .error (-ENAMETOOLONG) := if_pos long
        rw [refused]
        exact ⟨fs, run_abandon tree live ENAMETOOLONG, .refl fs⟩
      rw [if_neg long]
      have step := @walkComponent_ends _ heap fs _ cached tree current dentry live component
        (not_lt.mp long)
      cases result : fs.vfs.walkStep (absentCode heap ops fs) current component with
      | error code =>
        rw [result] at step
        obtain ⟨after, ran, untouched⟩ := step
        exact ⟨after, run_bind_error ran, untouched⟩
      | ok next =>
        rw [result] at step
        obtain ⟨ran, object, liveNext⟩ := step
        rw [run_bind_ok ran]
        apply ih liveNext
        · have positive : 0 < component.length := length_pos_iff.mpr nonempty
          have shorter := length_dropWhile_le (· == slash)
            ((byte :: rest).drop component.length)
          rw [length_drop] at shorter
          change (List.dropWhile _ _).length ≤ _
          omega
        · exact head?_skipSlashes _

theorem pathWalk_ends (tree : Tree fs.vfs) (path : Name) :
    WalkEnds fs (fs.vfs.resolve (absentCode heap ops fs) path)
      ((pathWalk heap ops path).run fs) := by
  unfold State.resolve pathWalk
  by_cases relative : path.head? ≠ some slash
  · rw [if_pos relative, if_pos relative]
    exact ⟨fs, rfl, .refl fs⟩
  rw [if_neg relative, if_neg relative, run_bind_ok (run_gets _ _)]
  cases mounted : fs.vfs.rootMount with
  | none =>
    simp only [State.rootDentry, mounted, Option.bind_none]
    exact ⟨fs, rfl, .refl fs⟩
  | some mount =>
    simp only [State.rootDentry, mounted, Option.bind_some]
    by_cases empty : mount.sb.root.isNone
    · rw [if_pos empty, if_pos empty]
      exact ⟨fs, rfl, .refl fs⟩
    rw [if_neg empty, if_neg empty]
    cases place : mount.mountPoint with
    | none => exact ⟨fs, rfl, .refl fs⟩
    | some root =>
      simp only
      have isRoot : fs.vfs.rootDentry = some root := by
        simp only [State.rootDentry, mounted, Option.bind_some, if_neg empty, place]
      obtain ⟨dentry, live, _⟩ := tree.root root isRoot
      rw [run_bind_ok (run_dget live), ← components_skipSlashes]
      apply walkFrom_ends cached tree path.length live
      · exact length_dropWhile_le _ _
      · exact head?_skipSlashes path

end Walks

end Runs

end Synx.Vfs

namespace Synx.Ramfs

open Lib
open Lib.Program
open Vfs

section Runs

variable {τ : Type} {heap : Heap τ} {fs : Fs τ}

theorem run_lookupAmong (temp : Nat) (name : Name) (children : List Nat)
    (others : ∀ id ∈ children, id ≠ temp →
      ∃ dentry, fs.vfs.dentries id = some dentry ∧ dentry.name ≠ name)
    (liveTemp : ∃ dentry, fs.vfs.dentries temp = some dentry) :
    (lookupAmong temp name children).run fs = (.ok none, fs) := by
  induction children with
  | nil => rfl
  | cons id rest ih =>
    have later := ih (fun other member => others other (.tail id member))
    unfold lookupAmong
    by_cases same : id = temp
    · obtain ⟨dentry, live⟩ := liveTemp
      rw [← same] at live
      rw [run_bind_ok (run_dentryOf live), if_neg (fun both => both.1 same), later]
    · obtain ⟨dentry, live, different⟩ := others id (.head _) same
      rw [run_bind_ok (run_dentryOf live), if_neg (fun both => different both.2), later]

theorem run_ramfsLookup_temp {vfs : State} (tree : Tree vfs) (after : τ) {current inode : Nat}
    {directory temp : Dentry} {object : Inode} (live : vfs.dentries current = some directory)
    (liveInode : vfs.inodes inode = some object) (points : temp.parent = some current)
    {component : Name} (absent : vfs.child current component = none) :
    (ramfsLookup inode vfs.nextId component).run ⟨vfs.attach current directory temp, after⟩ =
      (.ok none, ⟨vfs.attach current directory temp, after⟩) := by
  have different : current ≠ vfs.nextId := ne_of_lt (tree.known current directory live)
  have liveTemp : (vfs.attach current directory temp).dentries vfs.nextId = some temp := by
    change store _ _ _ _ = _
    rw [store_other different.symm]
    exact store_same
  have liveCurrent : (vfs.attach current directory temp).dentries current =
      some { directory with children := vfs.nextId :: directory.children } := store_same
  unfold ramfsLookup
  have fetched : (fetch State.inodes inode).run ⟨vfs.attach current directory temp, after⟩ =
      (.ok object, ⟨vfs.attach current directory temp, after⟩) := run_fetch liveInode
  rw [run_bind_ok fetched, run_ite]
  split
  · rfl
  rw [run_bind_ok (run_dentryOf liveTemp), points,
    run_bind_ok (run_dentryOf liveCurrent)]
  apply run_lookupAmong
  · intro id member isChild
    have inDirectory : id ∈ directory.children := (List.mem_cons.mp member).resolve_left isChild
    obtain ⟨dentry, found, above⟩ := tree.child current directory id live inDirectory
    have notCurrent : id ≠ current := by
      have older := (tree.parent id dentry current found above).1
      omega
    refine ⟨dentry, ?_, ?_⟩
    · change store _ _ _ _ = _
      rw [store_other notCurrent]
      change store _ _ _ _ = _
      rw [store_other isChild, found]
    · intro same
      have none := List.find?_eq_none.mp (by
        unfold State.child at absent
        rw [live, Option.bind_some] at absent
        exact absent) id inDirectory
      rw [found, Option.map_some, same] at none
      exact none BEq.rfl
  · exact ⟨temp, liveTemp⟩

theorem ramfs_cached : Cached (ramfs : FileSystem τ) := by
  rintro _ ⟨⟩ vfs after current inode directory temp object component tree live liveInode points
    absent
  exact run_ramfsLookup_temp tree after live liveInode points absent

theorem pathWalk_ends (tree : Tree fs.vfs) (path : Name) :
    WalkEnds fs (fs.vfs.resolve (missingCode heap fs) path) ((pathWalk heap ramfs path).run fs) :=
  Vfs.pathWalk_ends ramfs_cached tree path

end Runs

end Synx.Ramfs
