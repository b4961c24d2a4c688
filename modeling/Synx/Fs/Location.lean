/-
Where dentries are: the shape of the tree without its counts, the names on the
way from the root to a dentry, and the text of its path.
-/

import Synx.Fs.Naming
import Synx.Fs.References

namespace Synx.Vfs

open Lib List

/-! ### The shape of the tree -/

namespace State

/-- The tree without reference counts and open files. -/
def shape (vfs : State) : State :=
  { vfs with
    dentries := fun id => (vfs.dentries id).map (fun dentry => { dentry with refCount := 0 })
    files := fun _ => none
    nextId := 0 }

@[simp]
theorem shape_adjust (vfs : State) (change : Nat → Int) :
    (vfs.adjust change).shape = vfs.shape := by
  unfold shape adjust
  simp only [Option.map_map]
  rfl

@[simp]
theorem shape_setFile (vfs : State) (id : Nat) (file : Option File) :
    (vfs.setFile id file).shape = vfs.shape := rfl

theorem shape_opened (vfs : State) (target address flags : Nat) :
    (vfs.opened target address flags).shape = vfs.shape :=
  shape_adjust vfs (Pi.single target 1)

theorem shape_closed (vfs : State) (id : Nat) (file : File) :
    (vfs.closed id file).shape = vfs.shape := by
  unfold closed
  split
  · rw [shape_setFile, shape_adjust]
  · rfl

theorem shape_dentries (vfs : State) {id : Nat} {dentry : Dentry}
    (live : vfs.dentries id = some dentry) :
    vfs.shape.dentries id = some { dentry with refCount := 0 } := by
  simp only [shape, live, Option.map_some]

theorem of_shape {vfs : State} {id : Nat} {dentry : Dentry}
    (live : vfs.shape.dentries id = some dentry) :
    ∃ before, vfs.dentries id = some before ∧ dentry = { before with refCount := 0 } := by
  obtain ⟨before, found, same⟩ := Option.map_eq_some_iff.mp live
  exact ⟨before, found, same.symm⟩

theorem shape_child (vfs : State) (parent : Nat) (name : Name) :
    vfs.shape.child parent name = vfs.child parent name := by
  unfold child shape
  simp only [Option.map_map, Option.bind_map]
  rfl

theorem shape_typeOf (vfs : State) (id : Nat) : vfs.shape.typeOf id = vfs.typeOf id := by
  unfold typeOf shape
  simp only [Option.bind_map]
  rfl

theorem shape_parentOf (vfs : State) (id : Nat) : vfs.shape.parentOf id = vfs.parentOf id := by
  unfold parentOf shape
  simp only [Option.bind_map]
  rfl

theorem shape_dentryInode (vfs : State) : vfs.shape.dentryInode = vfs.dentryInode := by
  funext id
  unfold dentryInode shape
  simp only
  cases vfs.dentries id with
  | none => rfl
  | some dentry => rfl

theorem shape_rootDentry (vfs : State) : vfs.shape.rootDentry = vfs.rootDentry := rfl

theorem shape_walk (vfs : State) (missing : Int) (start : Nat) (names : List Name) :
    vfs.shape.walk missing start names = vfs.walk missing start names := by
  have step : vfs.shape.walkStep missing = vfs.walkStep missing := by
    funext current component
    unfold walkStep
    rw [shape_child, shape_typeOf, shape_parentOf]
  unfold walk
  rw [step]

end State

variable {names : List Name} {path : Name} {id : Nat} {vfs : State}

theorem leads_shape_iff (vfs : State) {start last : Nat} :
    Leads vfs.shape start names last ↔ Leads vfs start names last := by
  rw [← walk_eq_ok_iff vfs.shape 0, ← walk_eq_ok_iff vfs 0, State.shape_walk]

theorem names_shape_iff (vfs : State) : Names vfs.shape path id ↔ Names vfs path id := by
  unfold Names
  simp only [leads_shape_iff, State.shape_rootDentry]

/-! ### The names on the way -/

/-- The names from a dentry without parent down to the given one. -/
inductive Located (vfs : State) : Nat → List Name → Prop
  | top {id : Nat} {dentry : Dentry} (live : vfs.dentries id = some dentry)
      (first : dentry.parent = none) : Located vfs id []
  | inside {id parent : Nat} {dentry : Dentry} {names : List Name}
      (live : vfs.dentries id = some dentry) (points : dentry.parent = some parent)
      (above : Located vfs parent names) : Located vfs id (names ++ [dentry.name])

theorem Located.shape (located : Located vfs id names) : Located vfs.shape id names := by
  induction located with
  | top live first => exact Located.top (vfs.shape_dentries live) first
  | @inside id parent dentry names live points _ ih =>
    exact @Located.inside _ _ _ { dentry with refCount := 0 } _ (vfs.shape_dentries live) points ih

theorem Located.of_shape (located : Located vfs.shape id names) : Located vfs id names := by
  induction located with
  | top live first =>
    obtain ⟨before, found, rfl⟩ := State.of_shape live
    exact Located.top found first
  | inside live points _ ih =>
    obtain ⟨before, found, rfl⟩ := State.of_shape live
    exact @Located.inside _ _ _ before _ found points ih

def weight (names : List Name) : Nat := (names.map (fun name => name.length + 1)).sum

theorem weight_append (first second : List Name) :
    weight (first ++ second) = weight first + weight second := by
  unfold weight
  rw [map_append, sum_append]

theorem weight_cons (name : Name) (names : List Name) :
    weight (name :: names) = name.length + 1 + weight names := by
  unfold weight
  rw [map_cons, sum_cons]

theorem weight_single (name : Name) : weight [name] = name.length + 1 := by
  rw [weight_cons]
  rfl

theorem Leads.located (tree : Tree vfs) {start last : Nat} {before : List Name}
    (leads : Leads vfs start names last) (located : Located vfs start before)
    (nonempty : ∀ name ∈ names, name ≠ []) (nonemptyBefore : ∀ name ∈ before, name ≠ []) :
    ∃ after, Located vfs last after ∧ weight after ≤ weight before + weight names ∧
      ∀ name ∈ after, name ≠ [] := by
  induction leads generalizing before with
  | done id => exact ⟨before, located, Nat.le_add_right _ _, nonemptyBefore⟩
  | stay rest ih =>
    obtain ⟨after, there, bound, proper⟩ := ih located
      (fun name member => nonempty name (.tail _ member)) nonemptyBefore
    exact ⟨after, there, by rw [weight_cons]; omega, proper⟩
  | @up start last names rest ih =>
    have tail : ∀ name ∈ names, name ≠ [] :=
      fun name member => nonempty name (.tail _ member)
    cases located with
    | @top _ dentry live first =>
      have stays : (vfs.parentOf start).getD start = start := by
        rw [State.parentOf, live, Option.bind_some, first, Option.getD_none]
      rw [stays] at ih
      obtain ⟨after, there, bound, proper⟩ := ih (Located.top live first) tail nonemptyBefore
      exact ⟨after, there, by rw [weight_cons]; omega, proper⟩
    | @inside _ parent dentry above live points upper =>
      have moves : (vfs.parentOf start).getD start = parent := by
        rw [State.parentOf, live, Option.bind_some, points, Option.getD_some]
      rw [moves] at ih
      obtain ⟨after, there, bound, proper⟩ := ih upper tail
        (fun name member => nonemptyBefore name (mem_append_left _ member))
      refine ⟨after, there, ?_, proper⟩
      rw [weight_append, weight_cons [dot, dot]]
      omega
  | @down start next last name names ordinary short directory child rest ih =>
    obtain ⟨object, live, points, named⟩ := child_named tree child
    have deeper := Located.inside live points located
    rw [named] at deeper
    obtain ⟨after, there, bound, proper⟩ := ih deeper
      (fun other member => nonempty other (.tail _ member)) (by
        intro other member
        rcases mem_append.mp member with old | new
        · exact nonemptyBefore other old
        · rw [mem_singleton.mp new]
          exact nonempty name (.head _))
    refine ⟨after, there, ?_, proper⟩
    rw [weight_append, weight_single] at bound
    rw [weight_cons]
    omega

theorem components_nonempty (path : Name) : ∀ name ∈ components path, name ≠ [] := by
  intro name member
  simpa using (mem_filter.mp member).2

theorem weight_splitOn (path : Name) : weight (path.splitOn slash) = path.length + 1 := by
  have joined := @intercalate_splitOn _ path _ _ slash
  have nonempty := splitOn_ne_nil slash path
  have length := congrArg List.length joined
  rw [← length]
  generalize path.splitOn slash = parts at nonempty
  clear joined length
  induction parts with
  | nil => exact absurd rfl nonempty
  | cons part rest ih =>
    cases rest with
    | nil => simp [weight_single]
    | cons next later =>
      rw [weight_cons, ih (cons_ne_nil _ _), intercalate_cons_cons]
      simp only [length_append, length_singleton]
      omega

theorem weight_filter (names : List Name) (keep : Name → Bool) :
    weight (names.filter keep) ≤ weight names := by
  induction names with
  | nil => exact le_rfl
  | cons name rest ih =>
    rw [weight_cons]
    by_cases kept : keep name
    · rw [filter_cons_of_pos kept, weight_cons]
      omega
    · rw [filter_cons_of_neg kept]
      omega

theorem weight_components (absolute : path.head? = some slash) :
    weight (components path) ≤ path.length := by
  cases path with
  | nil => cases absolute
  | cons byte rest =>
    cases absolute
    have bound := weight_filter (rest.splitOn slash) (· ≠ [])
    rw [weight_splitOn] at bound
    rw [components_slash]
    exact bound

/-! ### The text of a path -/

/-- The path that `dentry_path` writes for the names. -/
def pathText (names : List Name) : Name :=
  names.foldl (fun text name => text ++ ((if 1 < text.length then [slash] else []) ++ name)) [slash]

theorem pathText_snoc (names : List Name) (name : Name) :
    pathText (names ++ [name]) =
      pathText names ++ ((if 1 < (pathText names).length then [slash] else []) ++ name) := by
  unfold pathText
  rw [foldl_append]
  rfl

theorem pathText_length (names : List Name) :
    1 ≤ (pathText names).length ∧ (pathText names).length ≤ max 1 (weight names) := by
  induction names using List.reverseRecOn with
  | nil => exact ⟨le_rfl, le_max_left _ _⟩
  | append_singleton names name ih =>
    rw [pathText_snoc, weight_append, weight_single, length_append, length_append]
    split
    · simp only [length_singleton]
      omega
    · simp only [length_nil]
      omega

/-- Close enough to the root for its path to fit into the buffers of the kernel. -/
def Near (vfs : State) (id : Nat) : Prop :=
  ∃ names, Located vfs id names ∧ names.length ≤ 128 ∧ (pathText names).length ≤ 255

theorem length_le_weight (nonempty : ∀ name ∈ names, name ≠ []) :
    2 * names.length ≤ weight names := by
  induction names with
  | nil => exact le_rfl
  | cons name rest ih =>
    have later := ih (fun other member => nonempty other (.tail _ member))
    have positive := length_pos_iff.mpr (nonempty name (.head _))
    rw [weight_cons, length_cons]
    omega

theorem located_root (tree : Tree vfs) {root : Nat} (isRoot : vfs.rootDentry = some root) :
    Located vfs root [] := by
  obtain ⟨dentry, live, first⟩ := tree.root root isRoot
  exact Located.top live first

theorem Names.located (tree : Tree vfs) (absolute : path.head? = some slash)
    (named : Names vfs path id) :
    ∃ names, Located vfs id names ∧ weight names ≤ path.length ∧ ∀ name ∈ names, name ≠ [] := by
  obtain ⟨root, isRoot, leads⟩ := named
  obtain ⟨names, there, bound, proper⟩ := leads.located tree (located_root tree isRoot)
    (components_nonempty path) (fun name member => by cases member)
  have total := weight_components absolute
  refine ⟨names, there, ?_, proper⟩
  have zero : weight [] = 0 := rfl
  omega

theorem Names.near (tree : Tree vfs) (absolute : path.head? = some slash)
    (short : path.length ≤ 255) (named : Names vfs path id) : Near vfs id := by
  obtain ⟨names, there, bound, proper⟩ := named.located tree absolute
  have count := length_le_weight proper
  have text := (pathText_length names).2
  exact ⟨names, there, by omega, by omega⟩

theorem opens_near (tree : Tree vfs) {missing : Int} {flags target : Nat}
    (opens : vfs.opens missing path flags = .ok target) : Near vfs target := by
  unfold State.opens at opens
  split at opens
  · cases opens
  · rename_i start
    have absolute := not_not.mp start
    split at opens
    · cases opens
    · rename_i short
      cases resolved : vfs.resolve missing (State.parentPath path) with
      | error code =>
        rw [resolved] at opens
        cases opens
      | ok parent =>
        rw [resolved] at opens
        simp only [Except.bind] at opens
        cases found : vfs.child parent (baseName path) with
        | none =>
          rw [found] at opens
          cases opens
        | some child =>
          rw [found] at opens
          simp only at opens
          split at opens
          · cases opens
          · cases opens
            have absoluteParent := parentPath_absolute absolute
            have named := (resolve_eq_ok_iff vfs missing absoluteParent parent).mp resolved
            obtain ⟨root, isRoot, leads⟩ := named
            rw [components_parentPath] at leads
            obtain ⟨names, there, bound, proper⟩ := leads.located tree
              (located_root tree isRoot) (components_nonempty _)
              (fun name member => by cases member)
            obtain ⟨object, live, points, isName⟩ := child_named tree found
            have deeper := Located.inside live points there
            rw [isName] at deeper
            have cut := congrArg List.length (path_split (mem_of_mem_head? absolute))
            rw [length_append, length_cons] at cut
            have above : weight (components (dirName path)) ≤ (dirName path).length := by
              rw [← components_parentPath]
              by_cases empty : dirName path = []
              · unfold State.parentPath
                rw [if_pos empty]
                exact zero_le
              · have same : State.parentPath path = dirName path := if_neg empty
                rw [same] at absoluteParent ⊢
                exact weight_components absoluteParent
            have count := length_le_weight proper
            have zero : weight [] = 0 := rfl
            have text := (pathText_length (names ++ [baseName path])).2
            rw [weight_append, weight_single] at text
            refine ⟨names ++ [baseName path], deeper, ?_, by omega⟩
            rw [length_append, length_singleton]
            omega

end Synx.Vfs
