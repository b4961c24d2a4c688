/-
`mount` and what it leaves behind.
-/

import Synx.Fs.OpenWalk

namespace Synx.Vfs

open Lib Program Option
open Ramfs (ramfs)

def State.blank : State :=
  { dentries := fun _ => none
    inodes := fun _ => none
    files := fun _ => none
    nextId := 0
    nextIno := 1
    rootMount := none
    mountList := [] }

def Mount.Real (vfs : State) (mount : Mount) : Prop :=
  ∃ id dentry, mount.mountPoint = some id ∧ vfs.dentries id = some dentry

section

variable {τ : Type}

/-- `path_walk` finds nothing at the path. -/
def Rejects (heap : Heap τ) (ops : FileSystem τ) (fs : Fs τ) (path : Name) : Prop :=
  ∀ dentry, ((pathWalk heap ops path).run fs).1 ≠ .ok dentry

/-- A mount ends with an error and leaves the file system as it was. -/
def Traceless (heap : Heap τ) (ops : FileSystem τ) (fs : Fs τ) (sb : SuperBlock) (path : Name) :
    Prop :=
  ∃ code after, (mount heap ops sb path).run fs = (.error (.code code), after) ∧ code < 0 ∧
    after.vfs = fs.vfs

/-- The mount is refused before it looks at the mount point. -/
def RefusedEarly (heap : Heap τ) (fs : Fs τ) (sb : SuperBlock) : Prop :=
  sb.root = none ∨ (heap.alloc sizeofMount fs.heap).1 = none

/-- There is a dentry to mount at: for the first mount the new root, later the one
that the path leads to. -/
def Attachable (heap : Heap τ) (fs : Fs τ) (path : Name) : Prop :=
  match fs.vfs.rootMount with
  | none => (heap.alloc sizeofDentry (heap.alloc sizeofMount fs.heap).2).1 ≠ none
  | some _ => ∃ id, fs.vfs.resolve 0 path = .ok id

def SuperBlock.Rooted (vfs : State) (sb : SuperBlock) : Prop :=
  ∀ root, sb.root = some root → ∃ inode, vfs.inodes root = some inode

end

/-! ### The new root dentry -/

/-- A dentry without a parent, as `mount` makes it. -/
def State.addRoot (vfs : State) (address : Nat) (inode : Option Nat) : State :=
  { vfs.setDentry vfs.nextId (some ⟨address, [slash], inode, none, [], 1⟩) with
    nextId := vfs.nextId + 1 }

section AddRoot

variable {vfs : State} {address root : Nat}

variable {id : Nat} {dentry : Dentry}

theorem addRoot_older (tree : Tree vfs) (inode : Option Nat)
    (live : vfs.dentries id = some dentry) : (vfs.addRoot address inode).dentries id =
      some dentry := by
  change store vfs.dentries vfs.nextId _ id = _
  rw [store_other (ne_of_lt (tree.known id dentry live)), live]

theorem addRoot_cases {inode : Option Nat}
    (live : (vfs.addRoot address inode).dentries id = some dentry) :
    (id = vfs.nextId ∧ dentry = ⟨address, [slash], inode, none, [], 1⟩) ∨
      (id ≠ vfs.nextId ∧ vfs.dentries id = some dentry) := by
  change store vfs.dentries vfs.nextId _ id = _ at live
  by_cases new : id = vfs.nextId
  · rw [new, store_same] at live
    exact .inl ⟨new, (some.inj live).symm⟩
  · rw [store_other new] at live
    exact .inr ⟨new, live⟩

theorem typeOf_addRoot (inode : Option Nat) (older : id ≠ vfs.nextId) :
    (vfs.addRoot address inode).typeOf id = vfs.typeOf id := by
  unfold State.typeOf
  change (store vfs.dentries vfs.nextId _ id).bind _ = _
  rw [store_other older]
  rfl

theorem Tree.addRoot (tree : Tree vfs) (address : Nat) {inode : Inode}
    (liveInode : vfs.inodes root = some inode) : Tree (vfs.addRoot address (some root)) := by
  refine
    { root := ?_, inode := ?_, parent := ?_, child := ?_, distinct := ?_, leaf := ?_,
      counted := ?_, known := ?_, inodeKnown := ?_, file := ?_ }
  · intro top isTop
    obtain ⟨dentry, live, parentless⟩ := tree.root top isTop
    exact ⟨dentry, addRoot_older tree _ live, parentless⟩
  · intro id dentry live
    rcases addRoot_cases live with ⟨_, rfl⟩ | ⟨_, older⟩
    · exact ⟨root, inode, rfl, liveInode⟩
    · exact tree.inode id dentry older
  · intro id dentry above live points
    rcases addRoot_cases live with ⟨_, rfl⟩ | ⟨_, older⟩
    · cases points
    · obtain ⟨less, directory, liveAbove, member⟩ := tree.parent id dentry above older points
      exact ⟨less, directory, addRoot_older tree _ liveAbove, member⟩
  · intro id dentry below live member
    rcases addRoot_cases live with ⟨_, rfl⟩ | ⟨_, older⟩
    · cases member
    · obtain ⟨object, liveBelow, points⟩ := tree.child id dentry below older member
      exact ⟨object, addRoot_older tree _ liveBelow, points⟩
  · intro id dentry live
    rcases addRoot_cases live with ⟨_, rfl⟩ | ⟨_, older⟩
    · exact List.nodup_nil
    · exact tree.distinct id dentry older
  · intro id dentry live other
    rcases addRoot_cases live with ⟨_, rfl⟩ | ⟨different, older⟩
    · rfl
    · rw [typeOf_addRoot _ different] at other
      exact tree.leaf id dentry older other
  · intro id dentry live
    rcases addRoot_cases live with ⟨_, rfl⟩ | ⟨_, older⟩
    · exact Int.le_refl 1
    · exact tree.counted id dentry older
  · intro id dentry live
    rcases addRoot_cases live with ⟨new, _⟩ | ⟨_, older⟩
    · rw [new]
      exact Nat.lt_succ_self _
    · exact Nat.lt_succ_of_lt (tree.known id dentry older)
  · intro id object live
    exact Nat.lt_succ_of_lt (tree.inodeKnown id object live)
  · intro id file live
    obtain ⟨known, dentry, liveDentry⟩ := tree.file id file live
    exact ⟨Nat.lt_succ_of_lt known, dentry, addRoot_older tree _ liveDentry⟩

theorem child_addRoot (tree : Tree vfs) (inode : Option Nat) {parent : Nat} {directory : Dentry}
    (live : vfs.dentries parent = some directory) (name : Name) :
    (vfs.addRoot address inode).child parent name = vfs.child parent name := by
  unfold State.child
  rw [addRoot_older tree inode live, live, bind_some, bind_some]
  refine List.find?_congr ?_
  intro below member
  obtain ⟨object, liveBelow, _⟩ := tree.child parent directory below live member
  rw [addRoot_older tree inode liveBelow, liveBelow]

theorem walkStep_live (tree : Tree vfs) {missing : Int} {current next : Nat}
    (live : vfs.dentries current = some dentry) {name : Name}
    (stepped : vfs.walkStep missing current name = .ok next) :
    ∃ object, vfs.dentries next = some object := by
  unfold State.walkStep at stepped
  split at stepped
  · cases stepped
  split at stepped
  · cases stepped
    exact ⟨dentry, live⟩
  split at stepped
  · cases stepped
    unfold State.parentOf
    rw [live, bind_some]
    cases points : dentry.parent with
    | none => exact ⟨dentry, live⟩
    | some above =>
      obtain ⟨_, directory, liveAbove, _⟩ := tree.parent current dentry above live points
      exact ⟨directory, liveAbove⟩
  split at stepped
  · cases stepped
  split at stepped
  · rename_i child found
    cases stepped
    obtain ⟨object, liveChild, _⟩ := tree.child_live live found
    exact ⟨object, liveChild⟩
  · cases stepped

theorem walk_addRoot (tree : Tree vfs) (inode : Option Nat) (missing : Int) (names : List Name)
    {start : Nat} (live : vfs.dentries start = some dentry) :
    (vfs.addRoot address inode).walk missing start names = vfs.walk missing start names := by
  induction names generalizing start dentry with
  | nil => rfl
  | cons name names ih =>
    have older : start ≠ vfs.nextId := ne_of_lt (tree.known start dentry live)
    have parent : (vfs.addRoot address inode).parentOf start = vfs.parentOf start := by
      unfold State.parentOf
      rw [addRoot_older tree inode live, live]
    have step : (vfs.addRoot address inode).walkStep missing start name =
        vfs.walkStep missing start name := by
      unfold State.walkStep
      rw [parent, typeOf_addRoot inode older, child_addRoot tree inode live name]
    rw [State.walk_cons, State.walk_cons, step]
    cases stepped : vfs.walkStep missing start name with
    | error code => rfl
    | ok next =>
      obtain ⟨object, liveNext⟩ := walkStep_live tree live stepped
      exact ih liveNext

theorem resolve_addRoot (tree : Tree vfs) (inode : Option Nat) (missing : Int) (path : Name) :
    (vfs.addRoot address inode).resolve missing path = vfs.resolve missing path := by
  unfold State.resolve
  split
  · rfl
  rw [show (vfs.addRoot address inode).rootDentry = vfs.rootDentry from rfl]
  cases isRoot : vfs.rootDentry with
  | none => rfl
  | some top =>
    obtain ⟨dentry, live, _⟩ := tree.root top isRoot
    exact walk_addRoot tree inode missing (components path) live

end AddRoot

/-! ### Runs of `mount` -/

section Runs

variable {τ : Type} {heap : Heap τ} {fs : Fs τ}

theorem run_dAlloc_root {inode : Option Nat} {address : Nat} {after : τ}
    (allocated : heap.alloc sizeofDentry fs.heap = (some address, after)) :
    (dAlloc heap [slash] inode none).run fs =
      (.ok (some fs.vfs.nextId), ⟨fs.vfs.addRoot address inode, after⟩) := by
  have ran : (slabAlloc heap sizeofDentry).run fs =
    (.ok (some address), { fs with heap := after }) := by
    unfold run slabAlloc
    rw [allocated]
  unfold dAlloc
  rw [run_bind_ok ran]
  rfl

theorem run_mount_early {ops : FileSystem τ} {sb : SuperBlock} {path : Name}
    (early : RefusedEarly heap fs sb) :
    ∃ code memory, (mount heap ops sb path).run fs =
      (.error (.code code), { fs with heap := memory }) ∧
      code < 0 := by
  unfold mount
  by_cases rootless : sb.root = none
  · rw [if_pos (by rw [rootless]; rfl)]
    exact ⟨-EINVAL, fs.heap, rfl, by decide⟩
  · have exhausted := early.resolve_left rootless
    rw [if_neg (by rwa [isNone_iff_eq_none]),
      run_bind_ok (Ramfs.run_slabAlloc heap fs sizeofMount), exhausted]
    exact ⟨-ENOMEM, _, rfl, by decide⟩

/-- `mount` from the point where it has tried to make a root dentry. -/
def linkMount (heap : Heap τ) (ops : FileSystem τ) (sb : SuperBlock) (path : Name)
    (rootDentry : Option Nat) : Call τ Unit := do
  let vfs ← gets Fs.vfs
  match vfs.rootMount with
  | none =>
    let first : Mount := ⟨sb, rootDentry⟩
    update (fun vfs => { vfs with rootMount := some first, mountList := first :: vfs.mountList })
  | some _ => do
      let target ← attempt (pathWalk heap ops path)
      let next : Mount := ⟨sb, target.toOption⟩
      update (fun vfs => { vfs with mountList := next :: vfs.mountList })

theorem run_mount_late (ops : FileSystem τ) {sb : SuperBlock} (path : Name)
    (late : ¬RefusedEarly heap fs sb) :
    (∃ memory, (heap.alloc sizeofDentry (heap.alloc sizeofMount fs.heap).2).1 = none ∧
        (mount heap ops sb path).run fs =
          (linkMount heap ops sb path none).run { fs with heap := memory }) ∨
      ∃ address memory, (heap.alloc sizeofDentry (heap.alloc sizeofMount fs.heap).2).1 =
        some address ∧
        (mount heap ops sb path).run fs =
          (linkMount heap ops sb path (some fs.vfs.nextId)).run
            ⟨fs.vfs.addRoot address sb.root, memory⟩ := by
  unfold RefusedEarly at late
  push Not at late
  obtain ⟨rooted, enough⟩ := late
  obtain ⟨place, isPlace⟩ := ne_none_iff_exists'.mp enough
  have begins : (mount heap ops sb path).run fs =
      (dAlloc heap [slash] sb.root none >>= linkMount heap ops sb path).run
        { fs with heap := (heap.alloc sizeofMount fs.heap).2 } := by
    unfold mount
    rw [if_neg (by rwa [isNone_iff_eq_none]),
      run_bind_ok (Ramfs.run_slabAlloc heap fs sizeofMount), isPlace]
    rfl
  rw [begins]
  cases allocated : heap.alloc sizeofDentry (heap.alloc sizeofMount fs.heap).2 with
  | mk address memory =>
    cases address with
    | none =>
      refine .inl ⟨memory, rfl, ?_⟩
      rw [run_bind_ok (run_dAlloc_none allocated)]
    | some address =>
      refine .inr ⟨address, memory, rfl, ?_⟩
      rw [run_bind_ok (run_dAlloc_root allocated)]

theorem run_linkMount_first (ops : FileSystem τ) (sb : SuperBlock) (path : Name) (top : Option Nat)
    (first : fs.vfs.rootMount = none) :
    (linkMount heap ops sb path top).run fs = (.ok (), { fs with
      vfs := { fs.vfs with
        rootMount := some ⟨sb, top⟩, mountList := ⟨sb, top⟩ :: fs.vfs.mountList } }) := by
  unfold linkMount
  rw [run_bind_ok (run_gets _ _), first]
  rfl

section

variable (ops : FileSystem τ) (sb : SuperBlock) (path : Name)

include ops sb path

theorem run_linkMount_later (top : Option Nat) (mounted : fs.vfs.rootMount ≠ none) :
    (linkMount heap ops sb path top).run fs =
      match (pathWalk heap ops path).run fs with
      | (.error (.fault reason), after) => (.error (.fault reason), after)
      | (.error (.code _), after) => (.ok (), { after with
          vfs := { after.vfs with mountList := ⟨sb, none⟩ :: after.vfs.mountList } })
      | (.ok target, after) => (.ok (), { after with
          vfs := { after.vfs with mountList := ⟨sb, some target⟩ :: after.vfs.mountList } }) := by
  obtain ⟨root, isRoot⟩ := ne_none_iff_exists'.mp mounted
  unfold linkMount
  rw [run_bind_ok (run_gets _ _), isRoot]
  simp only
  cases walked : (pathWalk heap ops path).run fs with
  | mk result after =>
    cases result with
    | ok target =>
      rw [run_bind_ok (run_attempt_ok walked)]
      rfl
    | error reason =>
      cases reason with
      | code value =>
        rw [run_bind_ok (run_attempt_code walked)]
        rfl
      | fault cause =>
        have stopped : (attempt (pathWalk heap ops path)).run fs =
          (.error (.fault cause), after) := by
          unfold run at walked ⊢
          unfold attempt
          rw [walked]
        rw [run_bind_error stopped]

theorem linkMount_no_code (top : Option Nat) (code : Int) (after : Fs τ) :
    (linkMount heap ops sb path top).run fs ≠ (.error (.code code), after) := by
  by_cases first : fs.vfs.rootMount = none
  · rw [run_linkMount_first ops sb path top first]
    nofun
  · rw [run_linkMount_later ops sb path top first]
    split
    · nofun
    · nofun
    · nofun

theorem traceless_iff : Traceless heap ops fs sb path ↔ RefusedEarly heap fs sb := by
  constructor
  · rintro ⟨code, after, ran, _⟩
    by_contra late
    rcases run_mount_late ops path late with ⟨memory, _, same⟩ | ⟨address, memory, _, same⟩
    · rw [same] at ran
      exact linkMount_no_code ops sb path _ code after ran
    · rw [same] at ran
      exact linkMount_no_code ops sb path _ code after ran
  · intro early
    obtain ⟨code, memory, ran, negative⟩ := @run_mount_early _ heap fs ops sb path early
    exact ⟨code, _, ran, negative, rfl⟩

end

end Runs

/-! ### All mounts of a run -/

section Mounted

variable {τ : Type} {heap : Heap τ} {fs : Fs τ}

theorem Mount.Real.kept {before after : State} {mount : Mount} (real : mount.Real before)
    (live : ∀ id dentry, before.dentries id = some dentry → ∃ later, after.dentries id =
      some later) :
    mount.Real after := by
  obtain ⟨id, dentry, points, found⟩ := real
  obtain ⟨later, foundLater⟩ := live id dentry found
  exact ⟨id, later, points, foundLater⟩

theorem not_real_null (vfs : State) (sb : SuperBlock) : ¬Mount.Real vfs ⟨sb, none⟩ := by
  rintro ⟨_, _, ⟨⟩, _⟩

theorem resolve_ok_missing (vfs : State) (one two : Int) (path : Name) (id : Nat) :
    vfs.resolve one path = .ok id ↔ vfs.resolve two path = .ok id := by
  by_cases absolute : path.head? = some slash
  · rw [resolve_eq_ok_iff vfs one absolute, resolve_eq_ok_iff vfs two absolute]
  · unfold State.resolve
    rw [if_pos absolute, if_pos absolute]

theorem Tree.remount {vfs : State} (tree : Tree vfs) (rootMount : Option Mount)
    (mountList : List Mount)
    (root : ∀ root, ({ vfs with rootMount := rootMount } : State).rootDentry = some root →
      ∃ dentry, vfs.dentries root = some dentry ∧ dentry.parent = none) :
    Tree { vfs with rootMount := rootMount, mountList := mountList } :=
  { root := root
    inode := tree.inode
    parent := tree.parent
    child := tree.child
    distinct := tree.distinct
    leaf := tree.leaf
    counted := tree.counted
    known := tree.known
    inodeKnown := tree.inodeKnown
    file := tree.file }

/-- The mount list holds dentries of a well-formed tree. -/
structure MountedTree (vfs : State) : Prop where
  tree : Tree vfs
  real : ∀ mount, mount ∈ vfs.mountList → mount.Real vfs

theorem MountedTree.link {before after : State} (mounted : MountedTree before) {mount : Mount}
    (list : after.mountList = mount :: before.mountList)
    (live : ∀ id dentry, before.dentries id = some dentry → ∃ later, after.dentries id =
      some later) :
    (∀ other ∈ after.mountList, other.Real after) ↔ mount.Real after := by
  rw [list]
  constructor
  · intro all
    exact all mount (.head _)
  · intro real other member
    rcases List.mem_cons.mp member with rfl | older
    · exact real
    · exact (mounted.real other older).kept live

theorem linkMount_later (placed : Fs τ) (tree : Tree placed.vfs)
    (resolves : ∀ missing path, placed.vfs.resolve missing path = fs.vfs.resolve missing path)
    (mounted : placed.vfs.rootMount ≠ none) (sb : SuperBlock) (path : Name) (top : Option Nat) :
    ∃ target, ((linkMount heap ramfs sb path top).run placed).2.vfs.mountList =
        ⟨sb, target⟩ :: placed.vfs.mountList ∧
      Tree ((linkMount heap ramfs sb path top).run placed).2.vfs ∧
      (∀ id dentry, placed.vfs.dentries id = some dentry →
        ∃ later, ((linkMount heap ramfs sb path top).run placed).2.vfs.dentries id = some later) ∧
      (Mount.Real ((linkMount heap ramfs sb path top).run placed).2.vfs ⟨sb, target⟩ ↔
        ∃ id, fs.vfs.resolve 0 path = .ok id) := by
  have walked := @Ramfs.pathWalk_ends _ heap placed tree path
  rw [resolves] at walked
  rw [run_linkMount_later ramfs sb path top mounted]
  cases resolved : fs.vfs.resolve (missingCode heap placed) path with
  | ok id =>
    rw [resolved] at walked
    obtain ⟨ran, dentry, live⟩ := walked
    rw [ran]
    have held := placed.vfs.adjust_dentries (Pi.single id 1) live
    refine ⟨some id, rfl, ?_, ?_, ?_⟩
    · exact (tree.held id).remount placed.vfs.rootMount _ (tree.held id).root
    · intro other object found
      exact ⟨_, placed.vfs.adjust_dentries (Pi.single id 1) found⟩
    · exact iff_of_true ⟨id, _, rfl, held⟩ ⟨id, (resolve_ok_missing _ _ _ _ _).mp resolved⟩
  | error code =>
    rw [resolved] at walked
    obtain ⟨after, ran, untouched⟩ := walked
    rw [ran]
    have list : after.vfs.mountList = placed.vfs.mountList := by rw [untouched.vfs]
    have dentries : after.vfs.dentries = placed.vfs.dentries := by rw [untouched.vfs]
    refine ⟨none, by rw [← list], ?_, ?_, ?_⟩
    · exact (untouched.tree tree).remount after.vfs.rootMount _ (untouched.tree tree).root
    · intro other object found
      rw [← dentries] at found
      exact ⟨object, found⟩
    · refine iff_of_false (not_real_null _ sb) ?_
      rintro ⟨id, accepted⟩
      have same := (resolve_ok_missing _ _ (missingCode heap placed) _ _).mp accepted
      rw [resolved] at same
      cases same

theorem MountedTree.mount (mounted : MountedTree fs.vfs) {sb : SuperBlock}
    (rooted : sb.Rooted fs.vfs) (path : Name) : Tree ((mount heap ramfs sb path).run fs).2.vfs ∧
      ((∀ other ∈ ((mount heap ramfs sb path).run fs).2.vfs.mountList,
          other.Real ((mount heap ramfs sb path).run fs).2.vfs) ↔
        RefusedEarly heap fs sb ∨ Attachable heap fs path) := by
  by_cases early : RefusedEarly heap fs sb
  · obtain ⟨code, memory, ran, _⟩ := @run_mount_early _ heap fs ramfs sb path early
    rw [ran]
    exact ⟨mounted.tree, iff_of_true mounted.real (.inl early)⟩
  have rootSome : sb.root ≠ none := fun rootless => early (.inl rootless)
  obtain ⟨root, isRoot⟩ := ne_none_iff_exists'.mp rootSome
  obtain ⟨inode, liveInode⟩ := rooted root isRoot
  rw [or_iff_right early]
  unfold Attachable
  rcases run_mount_late ramfs path early with
    ⟨memory, exhausted, same⟩ | ⟨address, memory, allocated, same⟩
  · rw [same]
    cases first : fs.vfs.rootMount with
    | none =>
      rw [@run_linkMount_first _ heap { fs with heap := memory } ramfs sb path none first]
      refine ⟨mounted.tree.remount _ _ ?_, ?_⟩
      · intro top isTop
        simp [State.rootDentry, isRoot] at isTop
      · refine (@MountedTree.link fs.vfs _ mounted ⟨sb, none⟩ ?_ ?_).trans
          (iff_of_false (not_real_null _ sb) (fun enough => enough exhausted))
        · rfl
        · exact fun id dentry live => ⟨dentry, live⟩
    | some other =>
      obtain ⟨target, list, tree, live, real⟩ :=
        @linkMount_later _ heap fs { fs with heap := memory }
        mounted.tree (fun _ _ => rfl) (by rw [first]; exact some_ne_none _) sb path none
      exact ⟨tree, (mounted.link list live).trans real⟩
  · have treeRoot := mounted.tree.addRoot address liveInode
    have older : ∀ id dentry, fs.vfs.dentries id = some dentry →
        ∃ later, (fs.vfs.addRoot address sb.root).dentries id = some later :=
      fun id dentry live => ⟨dentry, addRoot_older mounted.tree sb.root live⟩
    rw [← isRoot] at treeRoot
    have newest : (fs.vfs.addRoot address sb.root).dentries fs.vfs.nextId =
        some ⟨address, [slash], sb.root, none, [], 1⟩ := store_same
    rw [same]
    cases first : fs.vfs.rootMount with
    | none =>
      rw [@run_linkMount_first _ heap ⟨fs.vfs.addRoot address sb.root, memory⟩ ramfs sb path _
        first]
      refine ⟨treeRoot.remount _ _ ?_, ?_⟩
      · intro top isTop
        simp [State.rootDentry, isRoot] at isTop
        rw [← isTop]
        exact ⟨_, newest, rfl⟩
      · refine (@MountedTree.link fs.vfs _ mounted ⟨sb, some fs.vfs.nextId⟩ ?_ ?_).trans
          (iff_of_true ?_ ?_)
        · rfl
        · exact older
        · exact ⟨_, _, rfl, newest⟩
        · intro exhausted
          rw [allocated] at exhausted
          cases exhausted
    | some other =>
      obtain ⟨target, list, tree, live, real⟩ := @linkMount_later _ heap fs
        ⟨fs.vfs.addRoot address sb.root, memory⟩ treeRoot
        (fun missing name => resolve_addRoot mounted.tree sb.root missing name)
        (by rw [show (fs.vfs.addRoot address sb.root).rootMount =
          _ from first]; exact some_ne_none _) sb path _
      refine ⟨tree, (mounted.link list ?_).trans real⟩
      intro id dentry found
      obtain ⟨later, foundLater⟩ := older id dentry found
      exact live id later foundLater

/-- What else happens to the file system: dentries of the tree are not freed. -/
structure Meanwhile (before after : State) : Prop where
  tree : Tree after
  rootMount : after.rootMount = before.rootMount
  mountList : after.mountList = before.mountList
  live : ∀ id dentry, before.dentries id = some dentry → ∃ later, after.dentries id = some later

/-- A run whose mounts all had a dentry to mount at. -/
inductive Mounting (heap : Heap τ) : Fs τ → Prop
  | blank (memory : τ) : Mounting heap ⟨State.blank, memory⟩
  | mount {fs : Fs τ} (sb : SuperBlock) (path : Name) (earlier : Mounting heap fs)
      (rooted : sb.Rooted fs.vfs) (attachable : Attachable heap fs path) :
      Mounting heap ((Vfs.mount heap ramfs sb path).run fs).2
  | other {fs after : Fs τ} (earlier : Mounting heap fs) (meanwhile : Meanwhile fs.vfs after.vfs) :
      Mounting heap after

theorem Mounting.mountedTree (run : Mounting heap fs) : MountedTree fs.vfs := by
  induction run with
  | blank memory =>
    refine ⟨?_, nofun⟩
    exact
      { root := nofun
        inode := nofun
        parent := nofun
        child := nofun
        distinct := nofun
        leaf := nofun
        counted := nofun
        known := nofun
        inodeKnown := nofun
        file := nofun }
  | mount sb path _ rooted attachable ih =>
    obtain ⟨tree, real⟩ := ih.mount rooted path
    exact ⟨tree, real.mpr (.inr attachable)⟩
  | other _ meanwhile ih =>
    refine ⟨meanwhile.tree, ?_⟩
    rw [meanwhile.mountList]
    intro mount member
    exact (ih.real mount member).kept meanwhile.live

/-- A mount at a rejected path is traceless exactly if it is refused before the
path is looked at; and in a run the mounts are real as long as each of them has a
dentry to mount at. -/
theorem failed_mount_iff (heap : Heap τ) :
    (∀ (ops : FileSystem τ) (fs : Fs τ) (sb : SuperBlock) (path : Name), fs.vfs.rootMount ≠ none →
      Rejects heap ops fs path → (Traceless heap ops fs sb path ↔ RefusedEarly heap fs sb)) ∧
    ∀ fs : Fs τ, Mounting heap fs →
      (∀ mount, mount ∈ fs.vfs.mountList → mount.Real fs.vfs) ∧
      ∀ (sb : SuperBlock) (path : Name), sb.Rooted fs.vfs →
        ((∀ mount, mount ∈ ((Vfs.mount heap ramfs sb path).run fs).2.vfs.mountList →
            mount.Real ((Vfs.mount heap ramfs sb path).run fs).2.vfs) ↔
          RefusedEarly heap fs sb ∨ Attachable heap fs path) := by
  refine ⟨fun ops fs sb path _ _ => traceless_iff ops sb path, ?_⟩
  intro fs run
  refine ⟨run.mountedTree.real, ?_⟩
  intro sb path rooted
  exact (run.mountedTree.mount rooted path).2

/-- The inode of a root directory, not yet mounted. -/
def unmountedFs : Fs Nat :=
  { vfs := { State.blank with
      inodes := Function.update State.blank.inodes 0
        (some ⟨0, 1, .directory, 0, 1, some ⟨0, none, 0⟩⟩)
      nextId := 1 }
    heap := 0 }

theorem unmountedFs_mounting : Mounting Ramfs.endless unmountedFs := by
  refine .other (.blank 0) ⟨?_, rfl, rfl, nofun⟩
  refine ⟨nofun, nofun, nofun, nofun, nofun, nofun, nofun, nofun, ?_, nofun⟩
  rintro (_ | id) _ ⟨⟩
  exact zero_lt_one

/-- A super block without a root is refused; one with a root is mounted at a real
dentry. -/
theorem failed_mount_rootless :
    Traceless Ramfs.endless ramfs Ramfs.smallFs ⟨0, 0, none⟩ [slash, 98] ∧
      (∀ mount, mount ∈
          ((Vfs.mount Ramfs.endless ramfs ⟨0, 0, some 0⟩ [slash]).run unmountedFs).2.vfs.mountList →
        mount.Real ((Vfs.mount Ramfs.endless ramfs ⟨0, 0, some 0⟩ [slash]).run unmountedFs).2.vfs) ∧
      ((Vfs.mount Ramfs.endless ramfs ⟨0, 0, some 0⟩ [slash]).run unmountedFs).2.vfs.mountList.map
        Mount.mountPoint = [some 1] := by
  obtain ⟨refused, mounted⟩ := failed_mount_iff Ramfs.endless
  refine ⟨(refused ramfs Ramfs.smallFs ⟨0, 0, none⟩ [slash, 98] nofun ?_).mpr (.inl rfl),
    ((mounted unmountedFs unmountedFs_mounting).2 ⟨0, 0, some 0⟩ [slash] ?_).mpr (.inr nofun), rfl⟩
  · intro dentry found
    cases found
  · rintro _ ⟨⟩
    exact ⟨_, rfl⟩

/-- The path `/b` does not exist, and yet the mount succeeds with an error pointer. -/
theorem mount_stores_error :
    Rejects Ramfs.endless ramfs Ramfs.smallFs [slash, 98] ∧
      ((mount Ramfs.endless ramfs ⟨0, 0, some 0⟩ [slash, 98]).run Ramfs.smallFs).1 = .ok () ∧
      ((mount Ramfs.endless ramfs ⟨0, 0, some 0⟩ [slash, 98]).run Ramfs.smallFs).2.vfs.mountList.map
        Mount.mountPoint = [none, some 0] := by
  refine ⟨?_, rfl, rfl⟩
  intro dentry found
  cases found

end Mounted

end Synx.Vfs
