/-
Canonical paths in a tree with proper names.
-/

import Synx.Fs.Location

namespace Synx.Vfs

open List

/-- A name that can be a component of a path and is kept whole in the 256 bytes of
a dentry's name. -/
structure Proper (name : Name) : Prop where
  nonempty : name ≠ []
  slashFree : slash ∉ name
  notDot : name ≠ [dot]
  notUp : name ≠ [dot, dot]
  short : name.length ≤ 255
  string : 0 ∉ name

/-- A mounted tree with one root, unique sibling names and proper names below the
root. -/
structure ProperTree (vfs : State) (root : Nat) : Prop where
  tree : Tree vfs
  mounted : vfs.rootDentry = some root
  single : ∀ id dentry, vfs.dentries id = some dentry → dentry.parent = none → id = root
  unique : UniqueNames vfs
  proper : ∀ id dentry parent, vfs.dentries id = some dentry → dentry.parent = some parent →
    Proper dentry.name

def canonicalPath (names : List Name) : Name := slash :: List.intercalate [slash] names

/-! ### The text -/

theorem intercalate_snoc (names : List Name) (name : Name) (nonempty : names ≠ []) :
    List.intercalate [slash] (names ++ [name]) =
      List.intercalate [slash] names ++ slash :: name := by
  induction names with
  | nil => exact absurd rfl nonempty
  | cons first rest ih =>
    cases rest with
    | nil => simp [List.intercalate]
    | cons second later =>
      have longer := ih (cons_ne_nil second later)
      rw [cons_append, cons_append, intercalate_cons_cons, ← cons_append,
        longer, intercalate_cons_cons]
      simp only [append_assoc]

theorem pathText_eq_canonicalPath (names : List Name) (nonempty : ∀ name ∈ names, name ≠ []) :
    pathText names = canonicalPath names := by
  induction names using List.reverseRecOn with
  | nil => rfl
  | append_singleton names name ih =>
    have same := ih (fun other member => nonempty other (mem_append_left _ member))
    rw [pathText_snoc, same]
    unfold canonicalPath
    cases names with
    | nil => simp [List.intercalate]
    | cons first rest =>
      have firstLength := length_pos_iff.mpr
        (nonempty first (mem_append_left _ (.head _)))
      have long : 1 < (slash :: List.intercalate [slash] (first :: rest)).length := by
        cases rest with
        | nil =>
          rw [intercalate_singleton, length_cons]
          omega
        | cons second later =>
          rw [intercalate_cons_cons, length_cons, length_append, length_append]
          omega
      rw [if_pos long, intercalate_snoc _ _ (cons_ne_nil first rest)]
      rfl

theorem components_canonicalPath (names : List Name) (nonempty : ∀ name ∈ names, name ≠ [])
    (slashFree : ∀ name ∈ names, slash ∉ name) : components (canonicalPath names) = names := by
  unfold canonicalPath
  rw [components_slash]
  induction names with
  | nil => rfl
  | cons name rest ih =>
    have single := components_single name (nonempty name (.head _))
      (slashFree name (.head _))
    cases rest with
    | nil =>
      rw [intercalate_singleton]
      exact single
    | cons second later =>
      have more := ih (fun other member => nonempty other (.tail _ member))
        (fun other member => slashFree other (.tail _ member))
      rw [intercalate_cons_cons, append_assoc, singleton_append,
        components_append, single, more]
      rfl

theorem zero_notMem_canonicalPath {names : List Name}
    (strings : ∀ name ∈ names, (0 : UInt8) ∉ name) :
    (0 : UInt8) ∉ canonicalPath names := by
  unfold canonicalPath
  rw [mem_cons]
  rintro (same | member)
  · exact absurd same (by decide)
  · induction names with
    | nil => cases member
    | cons name rest ih =>
      cases rest with
      | nil =>
        rw [intercalate_singleton] at member
        exact strings name (.head _) member
      | cons second later =>
        rw [intercalate_cons_cons, mem_append, mem_append] at member
        rcases member with (inName | inSlash) | inRest
        · exact strings name (.head _) inName
        · exact absurd (mem_singleton.mp inSlash) (by decide)
        · exact ih (fun other later => strings other (.tail _ later)) inRest

/-! ### Where the names lead -/

theorem child_of_unique {vfs : State} (unique : UniqueNames vfs) {parent id : Nat}
    {directory dentry : Dentry} (live : vfs.dentries parent = some directory)
    (member : id ∈ directory.children) (liveChild : vfs.dentries id = some dentry) :
    vfs.child parent dentry.name = some id := by
  have distinct := unique parent directory live
  unfold State.child
  rw [live, Option.bind_some]
  generalize directory.children = children at member distinct
  induction children with
  | nil => cases member
  | cons first rest ih =>
    rw [map_cons, nodup_cons] at distinct
    by_cases same : first = id
    · rw [same, find?_cons_of_pos]
      rw [liveChild]
      exact BEq.rfl
    · have later : id ∈ rest := (mem_cons.mp member).resolve_left (fun equal => same equal.symm)
      rw [find?_cons_of_neg]
      · exact ih later distinct.2
      · intro named
        apply distinct.1
        have equal : (vfs.dentries first).map Dentry.name = some dentry.name := eq_of_beq named
        rw [equal]
        refine mem_map.mpr ⟨id, later, ?_⟩
        rw [liveChild]
        rfl

theorem Tree.located {vfs : State} (tree : Tree vfs) (id : Nat) {dentry : Dentry}
    (live : vfs.dentries id = some dentry) : ∃ names, Located vfs id names := by
  induction id using Nat.strongRecOn generalizing dentry with
  | ind id ih =>
    cases points : dentry.parent with
    | none => exact ⟨[], Located.top live points⟩
    | some parent =>
      obtain ⟨older, directory, liveAbove, _⟩ := tree.parent id dentry parent live points
      obtain ⟨names, above⟩ := ih parent older liveAbove
      exact ⟨names ++ [dentry.name], Located.inside live points above⟩

section Proper

variable {vfs : State} {root id : Nat} {names : List Name}

section

variable (proper : ProperTree vfs root)

include proper

theorem ProperTree.all_proper (located : Located vfs id names) : ∀ name ∈ names, Proper name := by
  induction located with
  | top _ _ =>
    intro name member
    cases member
  | @inside id parent dentry names live points _ ih =>
    intro name member
    rcases mem_append.mp member with old | new
    · exact ih name old
    · rw [mem_singleton.mp new]
      exact proper.proper id dentry parent live points

theorem ProperTree.leads (located : Located vfs id names) : Leads vfs root names id := by
  induction located with
  | @top id dentry live first =>
    rw [proper.single id dentry live first]
    exact Leads.done root
  | @inside id parent dentry names live points _ ih =>
    obtain ⟨_, directory, liveAbove, member⟩ := proper.tree.parent id dentry parent live points
    have isProper := proper.proper id dentry parent live points
    have isDirectory : vfs.typeOf parent = some .directory := by
      by_contra other
      rw [proper.tree.leaf parent directory liveAbove other] at member
      cases member
    refine (Leads.append_iff _ _).mpr ⟨parent, ih, ?_⟩
    exact Leads.down ⟨isProper.notDot, isProper.notUp⟩ isProper.short isDirectory
      (child_of_unique proper.unique liveAbove member live) (Leads.done id)

theorem ProperTree.components (located : Located vfs id names) :
    Vfs.components (canonicalPath names) = names :=
  components_canonicalPath names
    (fun name member => (proper.all_proper located name member).nonempty)
    (fun name member => (proper.all_proper located name member).slashFree)

theorem ProperTree.pathText (located : Located vfs id names) :
    Vfs.pathText names = canonicalPath names :=
  pathText_eq_canonicalPath names
    (fun name member => (proper.all_proper located name member).nonempty)

theorem ProperTree.resolve (located : Located vfs id names) (missing : Int) :
    vfs.resolve missing (canonicalPath names) = .ok id := by
  rw [resolve_eq_ok_iff vfs missing rfl]
  refine ⟨root, proper.mounted, ?_⟩
  rw [proper.components located]
  exact proper.leads located

end

end Proper

end Synx.Vfs
