/-
A tree that grows: a new inode with a new dentry as the newest child of a
directory.  Everything that was there stays; what a path leads to stays too when
the directory had no child of the new name.
-/

import Synx.Fs.Naming

namespace Synx.Vfs

open Lib Program Option

namespace State

def addInode (vfs : State) (inode : Inode) : State :=
  { vfs.setInode vfs.nextId (some inode) with
    nextId := vfs.nextId + 1
    nextIno := (vfs.nextIno + 1) % 2 ^ 32 }

def newest (vfs : State) (parent address : Nat) (name : Name) : Dentry :=
  { address := address
    name := name
    inode := some vfs.nextId
    parent := some parent
    children := []
    refCount := 1 }

def grow (vfs : State) (parent : Nat) (directory : Dentry) (inode : Inode) (address : Nat)
    (name : Name) : State :=
  (vfs.addInode inode).attach parent directory (vfs.newest parent address name)

end State

/-- The parent of a new dentry; the others are as before. -/
def adopt (parent child id : Nat) (dentry : Dentry) : Dentry :=
  if id = parent then { dentry with children := child :: dentry.children } else dentry

theorem adopt_name (parent child id : Nat) (dentry : Dentry) :
    (adopt parent child id dentry).name = dentry.name := by
  unfold adopt
  split <;> rfl

theorem adopt_inode (parent child id : Nat) (dentry : Dentry) :
    (adopt parent child id dentry).inode = dentry.inode := by
  unfold adopt
  split <;> rfl

theorem adopt_parent (parent child id : Nat) (dentry : Dentry) :
    (adopt parent child id dentry).parent = dentry.parent := by
  unfold adopt
  split <;> rfl

theorem adopt_refCount (parent child id : Nat) (dentry : Dentry) :
    (adopt parent child id dentry).refCount = dentry.refCount := by
  unfold adopt
  split <;> rfl

theorem mem_adopt_children {parent child id below : Nat} {dentry : Dentry} :
    below ∈ (adopt parent child id dentry).children ↔
      (id = parent ∧ below = child) ∨ below ∈ dentry.children := by
  unfold adopt
  split <;> simp_all

/-- The same tree; only numbers were used up. -/
structure Spent (before after : State) : Prop where
  same : after = { before with nextId := after.nextId, nextIno := after.nextIno }
  later : before.nextId ≤ after.nextId

theorem Spent.refl (vfs : State) : Spent vfs vfs := ⟨rfl, le_rfl⟩

/-- No file is open, and each dentry has the reference of the tree. -/
structure Unopened (vfs : State) : Prop where
  files : ∀ id, vfs.files id = none
  dentry : ∀ id dentry, vfs.dentries id = some dentry → dentry.refCount = 1

/-- Each inode has one dentry and one reference. -/
structure Paired (vfs : State) : Prop where
  inode : ∀ id inode, vfs.inodes id = some inode → inode.refCount = 1
  holder : ∀ id inode, vfs.inodes id = some inode →
    ∃ holder dentry, vfs.dentries holder = some dentry ∧ dentry.inode = some id
  alone : ∀ one two first second, vfs.dentries one = some first → vfs.dentries two = some second →
    first.inode = second.inode → one = two

/-- What was found before is still found. -/
structure Extends (before after : State) : Prop where
  root : ∀ root, before.rootDentry = some root → after.rootDentry = some root
  dentry : ∀ id dentry, before.dentries id = some dentry →
    ∃ later, after.dentries id = some later ∧ later.inode = dentry.inode ∧
      later.parent = dentry.parent
  inode : ∀ id inode, before.inodes id = some inode → after.inodes id = some inode
  child : ∀ parent name id, before.child parent name = some id → after.child parent name = some id

theorem Extends.trans {first second third : State} (one : Extends first second)
    (two : Extends second third) : Extends first third := by
  refine
    { root := fun root found => two.root root (one.root root found), dentry := ?_,
      inode := fun id inode live => two.inode id inode (one.inode id inode live),
      child :=
        fun parent name id found => two.child parent name id (one.child parent name id found) }
  intro id dentry live
  obtain ⟨middle, liveMiddle, sameInode, sameParent⟩ := one.dentry id dentry live
  obtain ⟨last, liveLast, lastInode, lastParent⟩ := two.dentry id middle liveMiddle
  exact ⟨last, liveLast, lastInode.trans sameInode, lastParent.trans sameParent⟩

section Paths

variable {before after : State}

variable {id start last : Nat} {dentry : Dentry} {path : Name}

theorem Extends.typeOf (extended : Extends before after) {type : FileType}
    (found : before.typeOf id = some type) : after.typeOf id = some type := by
  unfold State.typeOf at found ⊢
  obtain ⟨dentry, live, rest⟩ := bind_eq_some_iff.mp found
  obtain ⟨inode, points, typed⟩ := bind_eq_some_iff.mp rest
  obtain ⟨object, liveInode, same⟩ := map_eq_some_iff.mp typed
  obtain ⟨later, liveLater, sameInode, _⟩ := extended.dentry id dentry live
  rw [liveLater, bind_some, sameInode, points, bind_some,
    extended.inode inode object liveInode, map_some, same]

theorem Extends.parentOf (extended : Extends before after)
    (live : before.dentries id = some dentry) : after.parentOf id = before.parentOf id := by
  obtain ⟨later, liveLater, _, sameParent⟩ := extended.dentry id dentry live
  unfold State.parentOf
  rw [live, liveLater, bind_some, bind_some, sameParent]

/-- Paths lead where they led before. -/
structure WalksOn (before after : State) : Prop where
  root : ∀ root, before.rootDentry = some root → after.rootDentry = some root
  typeOf : ∀ id type, before.typeOf id = some type → after.typeOf id = some type
  parentOf : ∀ id dentry, before.dentries id = some dentry → after.parentOf id = before.parentOf id
  child : ∀ parent name id, before.child parent name = some id → after.child parent name = some id

theorem WalksOn.leads (walksOn : WalksOn before after) (tree : Tree before) {names : List Name}
    (leads : Leads before start names last) (live : before.dentries start = some dentry) :
    Leads after start names last := by
  induction leads generalizing dentry with
  | done id => exact Leads.done id
  | stay _ ih => exact Leads.stay (ih live)
  | @up start last names _ ih =>
    apply Leads.up
    rw [walksOn.parentOf start dentry live]
    cases above : before.parentOf start with
    | none =>
      rw [above] at ih
      exact ih live
    | some parent =>
      rw [above] at ih
      unfold State.parentOf at above
      rw [live, bind_some] at above
      obtain ⟨_, directory, liveAbove, _⟩ := tree.parent start dentry parent live above
      exact ih liveAbove
  | down ordinary short directory child _ ih =>
    obtain ⟨object, liveChild, _⟩ := tree.child_live live child
    exact Leads.down ordinary short (walksOn.typeOf _ _ directory) (walksOn.child _ _ _ child)
      (ih liveChild)

theorem WalksOn.names (walksOn : WalksOn before after) (tree : Tree before)
    (named : Names before path id) : Names after path id := by
  obtain ⟨root, isRoot, leads⟩ := named
  obtain ⟨dentry, live, _⟩ := tree.root root isRoot
  exact ⟨root, walksOn.root root isRoot, walksOn.leads tree leads live⟩

theorem Extends.walksOn (extended : Extends before after) : WalksOn before after where
  root := extended.root
  typeOf _ _ found := extended.typeOf found
  parentOf _ _ live := extended.parentOf live
  child := extended.child

theorem Extends.leads (extended : Extends before after) (tree : Tree before) {names : List Name}
    (leads : Leads before start names last) (live : before.dentries start = some dentry) :
    Leads after start names last :=
  extended.walksOn.leads tree leads live

theorem Extends.names (extended : Extends before after) (tree : Tree before)
    (named : Names before path id) : Names after path id := extended.walksOn.names tree named

end Paths

theorem Tree.fresh_inode {vfs : State} (tree : Tree vfs) : vfs.inodes vfs.nextId = none := by
  cases found : vfs.inodes vfs.nextId with
  | none => rfl
  | some inode => exact absurd (tree.inodeKnown _ inode found) (lt_irrefl _)

theorem typeOf_of_live {vfs : State} {id inode : Nat} {dentry : Dentry} {object : Inode}
    (live : vfs.dentries id = some dentry) (points : dentry.inode = some inode)
    (liveInode : vfs.inodes inode = some object) : vfs.typeOf id = some object.type := by
  simp only [State.typeOf, live, points, liveInode, bind_some, map_some]

/-! ### Numbers -/

section Spent

variable {before after : State}

theorem Spent.trans {third : State} (one : Spent before after) (two : Spent after third) :
    Spent before third := by
  refine ⟨?_, le_trans one.later two.later⟩
  rw [two.same, one.same]

section

variable (spent : Spent before after)

include spent

theorem Spent.tree (tree : Tree before) : Tree after := by
  rw [spent.same]
  have aged : Tree { before with nextId := after.nextId } := tree.aged spent.later
  exact
    { root := aged.root
      inode := aged.inode
      parent := aged.parent
      child := aged.child
      distinct := aged.distinct
      leaf := aged.leaf
      counted := aged.counted
      known := aged.known
      inodeKnown := aged.inodeKnown
      file := aged.file }

theorem Spent.unopened (unopened : Unopened before) : Unopened after := by
  rw [spent.same]
  exact ⟨unopened.files, unopened.dentry⟩

theorem Spent.paired (paired : Paired before) : Paired after := by
  rw [spent.same]
  exact ⟨paired.inode, paired.holder, paired.alone⟩

theorem Spent.extends : Extends before after := by
  rw [spent.same]
  exact
    { root := fun _ found => found
      dentry := fun _ dentry live => ⟨dentry, live, rfl, rfl⟩
      inode := fun _ _ live => live
      child := fun _ _ _ found => found }

theorem Spent.unique (unique : UniqueNames before) : UniqueNames after := by
  rw [spent.same]
  exact unique

theorem Spent.child (parent : Nat) (name : Name) :
    after.child parent name = before.child parent name := by
  rw [spent.same]
  rfl

end

end Spent

/-! ### One new dentry -/

/-- A directory got a new child; what was there before is there. -/
structure Adopted (before after : State) (parent id : Nat) (directory new : Dentry) : Prop where
  live : before.dentries parent = some directory
  dentries : after.dentries = store (store before.dentries id (some new)) parent
    (some { directory with children := id :: directory.children })
  unused : before.nextId ≤ id
  known : id < after.nextId
  inodes : ∀ node object, before.inodes node = some object →
    ∃ later, after.inodes node = some later ∧ later.type = object.type
  inodeKnown : ∀ node object, after.inodes node = some object → node < after.nextId
  root : after.rootMount = before.rootMount
  inode : ∃ node object, new.inode = some node ∧ after.inodes node = some object
  parent : new.parent = some parent
  children : new.children = []
  counted : 1 ≤ new.refCount

namespace Adopted

variable {before after : State} {parent id : Nat} {directory new : Dentry}
  (adopted : Adopted before after parent id directory new) (tree : Tree before)

include adopted tree

theorem new_live : after.dentries id = some new := by
  have known := tree.known parent directory adopted.live
  have later := adopted.unused
  rw [adopted.dentries, store_other (by omega), store_same]

variable {other : Nat} {dentry : Dentry}

theorem old_live (found : before.dentries other = some dentry) :
    after.dentries other = some (adopt parent id other dentry) := by
  have known := tree.known other dentry found
  have later := adopted.unused
  rw [adopted.dentries]
  unfold adopt
  by_cases same : other = parent
  · subst other
    rw [store_same, if_pos rfl, some.inj (found.symm.trans adopted.live)]
  · rw [store_other same, if_neg same, store_other (by omega), found]

omit tree in
theorem cases (found : after.dentries other = some dentry) : (other = id ∧ dentry = new) ∨
      ∃ old, before.dentries other = some old ∧ dentry = adopt parent id other old := by
  rw [adopted.dentries] at found
  unfold adopt
  by_cases same : other = parent
  · subst other
    rw [store_same] at found
    exact .inr ⟨directory, adopted.live, by rw [if_pos rfl, ← some.inj found]⟩
  · rw [store_other same] at found
    by_cases isNew : other = id
    · rw [isNew, store_same] at found
      exact .inl ⟨isNew, (some.inj found).symm⟩
    · rw [store_other isNew] at found
      exact .inr ⟨dentry, found, (if_neg same).symm⟩

theorem typeOf (found : before.dentries other = some dentry) :
    after.typeOf other = before.typeOf other := by
  obtain ⟨node, object, points, liveNode⟩ := tree.inode other dentry found
  obtain ⟨later, liveLater, sameType⟩ := adopted.inodes node object liveNode
  unfold State.typeOf
  rw [adopted.old_live tree found, found, bind_some, bind_some, adopt_inode, points,
    bind_some, bind_some, liveLater, liveNode, map_some, map_some,
    sameType]

theorem wellFormed (isDirectory : before.typeOf parent = some .directory)
    (files : ∀ other file, after.files other = some file →
      other < after.nextId ∧ ∃ dentry, after.dentries file.dentry = some dentry) : Tree after := by
  have later := adopted.unused
  have known := adopted.known
  refine
    { root := ?_, inode := ?_, parent := ?_, child := ?_, distinct := ?_, leaf := ?_,
      counted := ?_, known := ?_, inodeKnown := adopted.inodeKnown, file := files }
  · intro root mounted
    have same : after.rootDentry = before.rootDentry := by
      unfold State.rootDentry
      rw [adopted.root]
    rw [same] at mounted
    obtain ⟨dentry, found, top⟩ := tree.root root mounted
    exact ⟨_, adopted.old_live tree found, (adopt_parent _ _ _ _).trans top⟩
  · intro other _ found
    rcases adopted.cases found with ⟨_, rfl⟩ | ⟨old, foundOld, rfl⟩
    · exact adopted.inode
    · obtain ⟨node, object, points, liveNode⟩ := tree.inode other old foundOld
      obtain ⟨now, liveNow, _⟩ := adopted.inodes node object liveNode
      exact ⟨node, now, (adopt_inode _ _ _ _).trans points, liveNow⟩
  · intro other _ above found points
    rcases adopted.cases found with ⟨rfl, rfl⟩ | ⟨old, foundOld, rfl⟩
    · rw [adopted.parent] at points
      cases points
      have older := tree.known parent directory adopted.live
      exact ⟨by omega, _, adopted.old_live tree adopted.live,
        mem_adopt_children.mpr (.inl ⟨rfl, rfl⟩)⟩
    · rw [adopt_parent] at points
      obtain ⟨older, upper, liveAbove, member⟩ := tree.parent other old above foundOld points
      exact ⟨older, _, adopted.old_live tree liveAbove, mem_adopt_children.mpr (.inr member)⟩
  · intro other _ below found member
    rcases adopted.cases found with ⟨_, rfl⟩ | ⟨old, foundOld, rfl⟩
    · rw [adopted.children] at member
      cases member
    · rcases mem_adopt_children.mp member with ⟨rfl, rfl⟩ | inside
      · exact ⟨_, adopted.new_live tree, adopted.parent⟩
      · obtain ⟨object, liveBelow, points⟩ := tree.child other old below foundOld inside
        exact ⟨_, adopted.old_live tree liveBelow, (adopt_parent _ _ _ _).trans points⟩
  · intro other _ found
    rcases adopted.cases found with ⟨_, rfl⟩ | ⟨old, foundOld, rfl⟩
    · rw [adopted.children]
      exact List.nodup_nil
    · unfold adopt
      split
      · refine List.nodup_cons.mpr ⟨?_, tree.distinct other old foundOld⟩
        intro member
        obtain ⟨object, liveBelow, _⟩ := tree.child other old _ foundOld member
        have older := tree.known _ object liveBelow
        omega
      · exact tree.distinct other old foundOld
  · intro other _ found notDirectory
    rcases adopted.cases found with ⟨_, rfl⟩ | ⟨old, foundOld, rfl⟩
    · exact adopted.children
    · rw [adopted.typeOf tree foundOld] at notDirectory
      have notParent : other ≠ parent := fun same => notDirectory (same ▸ isDirectory)
      unfold adopt
      rw [if_neg notParent]
      exact tree.leaf other old foundOld notDirectory
  · intro other _ found
    rcases adopted.cases found with ⟨_, rfl⟩ | ⟨old, foundOld, rfl⟩
    · exact adopted.counted
    · rw [adopt_refCount]
      exact tree.counted other old foundOld
  · intro other _ found
    rcases adopted.cases found with ⟨rfl, _⟩ | ⟨old, foundOld, _⟩
    · exact known
    · have older := tree.known other old foundOld
      omega

theorem name (found : before.dentries other = some dentry) :
    (after.dentries other).map Dentry.name = (before.dentries other).map Dentry.name := by
  rw [adopted.old_live tree found, found, map_some, map_some, adopt_name]

theorem child (found : before.dentries other = some dentry) (wanted : Name) :
    after.child other wanted =
      if other = parent ∧ wanted = new.name then some id else before.child other wanted := by
  have newName : (after.dentries id).map Dentry.name = some new.name := by
    rw [adopted.new_live tree, map_some]
  have older : dentry.children.find? (fun below =>
      (after.dentries below).map Dentry.name == some wanted) = before.child other wanted := by
    unfold State.child
    rw [found, bind_some]
    apply List.find?_congr
    intro below member
    obtain ⟨object, liveBelow, _⟩ := tree.child other dentry below found member
    rw [adopted.name tree liveBelow]
  unfold State.child at older ⊢
  rw [adopted.old_live tree found, bind_some]
  unfold adopt
  by_cases same : other = parent
  · rw [if_pos same]
    by_cases hidden : wanted = new.name
    · rw [if_pos ⟨same, hidden⟩, List.find?_cons_of_pos (by rw [newName, hidden]; exact BEq.rfl)]
    · rw [if_neg (fun both => hidden both.2), List.find?_cons_of_neg (by
        rw [newName]
        simpa using fun same => hidden same.symm), older]
  · rw [if_neg same, if_neg (fun both => same both.1), older]

theorem child_new (wanted : Name) : after.child id wanted = none := by
  unfold State.child
  rw [adopted.new_live tree, bind_some, adopted.children]
  rfl

theorem child_kept (free : before.child parent new.name = none) {below : Nat} {wanted : Name}
    (found : before.child other wanted = some below) : after.child other wanted = some below := by
  have present : ∃ dentry, before.dentries other = some dentry := by
    unfold State.child at found
    obtain ⟨dentry, liveOther, _⟩ := bind_eq_some_iff.mp found
    exact ⟨dentry, liveOther⟩
  obtain ⟨dentry, liveOther⟩ := present
  rw [adopted.child tree liveOther, if_neg]
  · exact found
  · rintro ⟨rfl, rfl⟩
    rw [free] at found
    cases found

theorem walksOn (free : before.child parent new.name = none) : WalksOn before after where
  root := by
    intro root mounted
    unfold State.rootDentry
    rw [adopted.root]
    exact mounted
  typeOf := by
    intro other type typed
    obtain ⟨dentry, found, _⟩ := bind_eq_some_iff.mp typed
    exact (adopted.typeOf tree found).trans typed
  parentOf := by
    intro other dentry found
    unfold State.parentOf
    rw [adopted.old_live tree found, found, bind_some, bind_some, adopt_parent]
  child := fun _ _ _ found => adopted.child_kept tree free found

end Adopted

section Grow

variable {vfs : State} {parent address : Nat} {directory : Dentry} {inode : Inode} {name : Name}

theorem newInode_grow :
    (vfs.grow parent directory inode address name).inodes vfs.nextId = some inode :=
  store_same

theorem liveInode_grow (tree : Tree vfs) {id : Nat} {object : Inode}
    (found : vfs.inodes id = some object) :
    (vfs.grow parent directory inode address name).inodes id = some object := by
  have known := tree.inodeKnown id object found
  change store _ _ _ _ = _
  rw [store_other (by omega), found]

theorem ofInode_grow {id : Nat} {object : Inode}
    (found : (vfs.grow parent directory inode address name).inodes id = some object) :
    (id = vfs.nextId ∧ object = inode) ∨ vfs.inodes id = some object := by
  change store _ _ _ _ = _ at found
  by_cases new : id = vfs.nextId
  · rw [new, store_same] at found
    exact .inl ⟨new, (some.inj found).symm⟩
  · rw [store_other new] at found
    exact .inr found

theorem adopted_grow (tree : Tree vfs) (live : vfs.dentries parent = some directory) :
    Adopted vfs (vfs.grow parent directory inode address name) parent (vfs.nextId + 1) directory
      (vfs.newest parent address name) where
  live := live
  dentries := rfl
  unused := Nat.le_succ _
  known := Nat.lt_succ_self _
  inodes _ object found := ⟨object, liveInode_grow tree found, rfl⟩
  inodeKnown := by
    intro node object found
    have nextId : (vfs.grow parent directory inode address name).nextId = vfs.nextId + 2 := rfl
    rcases ofInode_grow found with ⟨rfl, _⟩ | old
    · omega
    · have known := tree.inodeKnown node object old
      omega
  root := rfl
  inode := ⟨vfs.nextId, inode, rfl, newInode_grow⟩
  parent := rfl
  children := rfl
  counted := Int.le_refl 1

theorem newest_grow (tree : Tree vfs) (live : vfs.dentries parent = some directory) :
    (vfs.grow parent directory inode address name).dentries (vfs.nextId + 1) =
      some (vfs.newest parent address name) := (adopted_grow tree live).new_live tree

theorem live_grow (tree : Tree vfs) (live : vfs.dentries parent = some directory) {id : Nat}
    {dentry : Dentry} (found : vfs.dentries id = some dentry) :
    (vfs.grow parent directory inode address name).dentries id =
      some (adopt parent (vfs.nextId + 1) id dentry) := (adopted_grow tree live).old_live tree found

theorem typeOf_grow (tree : Tree vfs) (live : vfs.dentries parent = some directory) {id : Nat}
    {dentry : Dentry} (found : vfs.dentries id = some dentry) :
    (vfs.grow parent directory inode address name).typeOf id = vfs.typeOf id :=
  (adopted_grow tree live).typeOf tree found

theorem Tree.grow (tree : Tree vfs) (live : vfs.dentries parent = some directory)
    (isDirectory : vfs.typeOf parent = some .directory) :
    Tree (vfs.grow parent directory inode address name) := by
  have adopted := @adopted_grow _ parent address directory inode name tree live
  refine adopted.wellFormed tree isDirectory ?_
  intro id file found
  obtain ⟨known, dentry, liveDentry⟩ := tree.file id file found
  exact ⟨lt_of_lt_of_le known (Nat.le_add_right _ 2), _, adopted.old_live tree liveDentry⟩

theorem Unopened.grow (unopened : Unopened vfs) (tree : Tree vfs)
    (live : vfs.dentries parent = some directory) :
    Unopened (vfs.grow parent directory inode address name) := by
  refine ⟨unopened.files, ?_⟩
  intro id _ found
  rcases (adopted_grow tree live).cases found with ⟨_, rfl⟩ | ⟨old, foundOld, rfl⟩
  · rfl
  · rw [adopt_refCount]
    exact unopened.dentry id old foundOld

theorem Paired.grow (paired : Paired vfs) (tree : Tree vfs)
    (live : vfs.dentries parent = some directory) (counted : inode.refCount = 1) :
    Paired (vfs.grow parent directory inode address name) := by
  -- an inode that an old dentry has is not the new one
  have old : ∀ id dentry, vfs.dentries id = some dentry → dentry.inode ≠ some vfs.nextId := by
    intro id dentry found points
    obtain ⟨node, object, pointsTo, liveNode⟩ := tree.inode id dentry found
    rw [points] at pointsTo
    cases pointsTo
    exact absurd (tree.inodeKnown _ object liveNode) (lt_irrefl _)
  refine { inode := ?_, holder := ?_, alone := ?_ }
  · intro id object found
    rcases ofInode_grow found with ⟨_, rfl⟩ | old
    · exact counted
    · exact paired.inode id object old
  · intro id object found
    rcases ofInode_grow found with ⟨rfl, _⟩ | old
    · exact ⟨_, _, newest_grow tree live, rfl⟩
    · obtain ⟨holder, dentry, liveHolder, points⟩ := paired.holder id object old
      exact ⟨holder, _, live_grow tree live liveHolder, (adopt_inode _ _ _ _).trans points⟩
  · intro one two _ _ foundOne foundTwo same
    rcases (adopted_grow tree live).cases foundOne with ⟨rfl, rfl⟩ | ⟨first, liveOne, rfl⟩
    · rcases (adopted_grow tree live).cases foundTwo with ⟨rfl, rfl⟩ | ⟨second, liveTwo, rfl⟩
      · rfl
      · rw [adopt_inode] at same
        exact absurd same.symm (old two second liveTwo)
    · rcases (adopted_grow tree live).cases foundTwo with ⟨rfl, rfl⟩ | ⟨second, liveTwo, rfl⟩
      · rw [adopt_inode] at same
        exact absurd same (old one first liveOne)
      · rw [adopt_inode, adopt_inode] at same
        exact paired.alone one two first second liveOne liveTwo same

theorem child_grow (tree : Tree vfs) (live : vfs.dentries parent = some directory) {id : Nat}
    {dentry : Dentry} (found : vfs.dentries id = some dentry) (wanted : Name) :
    (vfs.grow parent directory inode address name).child id wanted =
      if id = parent ∧ wanted = name then some (vfs.nextId + 1) else vfs.child id wanted :=
  (adopted_grow tree live).child tree found wanted

theorem child_newest_grow (tree : Tree vfs) (live : vfs.dentries parent = some directory)
    (wanted : Name) :
    (vfs.grow parent directory inode address name).child (vfs.nextId + 1) wanted = none :=
  (adopted_grow tree live).child_new tree wanted

theorem child_none_iff {parent : Nat} {directory : Dentry}
    (live : vfs.dentries parent = some directory) {name : Name} : vfs.child parent name = none ↔
      some name ∉ directory.children.map (fun child => (vfs.dentries child).map Dentry.name) := by
  unfold State.child
  rw [live, bind_some, List.find?_eq_none]
  simp

theorem UniqueNames.grow (unique : UniqueNames vfs) (tree : Tree vfs)
    (live : vfs.dentries parent = some directory) (free : vfs.child parent name = none) :
    UniqueNames (vfs.grow parent directory inode address name) := by
  have kept : ∀ id old, vfs.dentries id = some old →
      old.children.map (fun child =>
        ((vfs.grow parent directory inode address name).dentries child).map Dentry.name) =
      old.children.map (fun child => (vfs.dentries child).map Dentry.name) := by
    intro id old foundOld
    apply List.map_congr_left
    intro below member
    obtain ⟨object, liveBelow, _⟩ := tree.child id old below foundOld member
    exact (adopted_grow tree live).name tree liveBelow
  intro id _ found
  rcases (adopted_grow tree live).cases found with ⟨_, rfl⟩ | ⟨old, foundOld, rfl⟩
  · exact List.nodup_nil
  · unfold adopt
    split
    · rename_i same
      rw [List.map_cons, kept id old foundOld, newest_grow tree live, map_some]
      refine List.nodup_cons.mpr ⟨?_, unique id old foundOld⟩
      subst id
      exact (child_none_iff foundOld).mp free
    · rw [kept id old foundOld]
      exact unique id old foundOld

theorem Extends.grow (tree : Tree vfs) (live : vfs.dentries parent = some directory)
    (free : vfs.child parent name = none) :
    Extends vfs (vfs.grow parent directory inode address name) := by
  refine
    { root := fun _ mounted => mounted, dentry := ?_,
      inode := fun _ _ found => liveInode_grow tree found, child := ?_ }
  · intro id dentry found
    exact ⟨_, live_grow tree live found, adopt_inode _ _ _ _, adopt_parent _ _ _ _⟩
  · intro id wanted below found
    exact (adopted_grow tree live).child_kept tree free found

theorem grow_adjust (change : Nat → Int) (unused : change (vfs.nextId + 1) = 0) :
    (vfs.adjust change).grow parent
        { directory with refCount := directory.refCount + change parent } inode address name =
      (vfs.grow parent directory inode address name).adjust change := by
  have cells : ((vfs.adjust change).grow parent
        { directory with refCount := directory.refCount + change parent } inode address
          name).dentries =
      ((vfs.grow parent directory inode address name).adjust change).dentries := by
    funext id
    change store (store _ _ _) _ _ _ = Option.map _ (store (store _ _ _) _ _ _)
    by_cases same : id = parent
    · rw [same, store_same, store_same]
      rfl
    · rw [store_other same, store_other same]
      by_cases new : id = vfs.nextId + 1
      · rw [new]
        refine store_same.trans ?_
        have stored : store vfs.dentries (vfs.nextId + 1)
          (some (vfs.newest parent address name)) (vfs.nextId + 1) = _ := store_same
        change _ = Option.map _ (store _ _ _ _)
        refine Eq.trans ?_ (congrArg (Option.map _) stored).symm
        rw [map_some, unused]
        rfl
      · refine (store_other new).trans ?_
        exact (congrArg (Option.map _) (store_other new)).symm
  change State.mk _ _ _ _ _ _ _ = State.mk _ _ _ _ _ _ _
  congr 1

end Grow

end Synx.Vfs
