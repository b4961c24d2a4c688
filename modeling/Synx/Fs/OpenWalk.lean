/-
`open` against `path_walk`.  Both resolve a path, but `open` looks the part after
the last slash up by hand, so the two agree only on paths that end in a name.
-/

import Synx.Fs.Naming

namespace Synx.Ramfs

open Lib Program Option
open Vfs

/-- `open` for reading and `path_walk` succeed together and find the same dentry. -/
def Agrees {τ : Type} (heap : Heap τ) (fs : Fs τ) (path : Name) : Prop :=
  let opened := (openFile heap ramfs path oRdonly).run fs
  let walked := (pathWalk heap ramfs path).run fs
  ((∃ file, opened.1 = .ok file) ↔ ∃ dentry, walked.1 = .ok dentry) ∧
    ∀ file dentry, opened.1 = .ok file → walked.1 = .ok dentry →
      (opened.2.vfs.files file).map File.dentry = some dentry

def Ordinary (name : Name) : Prop := name ≠ [] ∧ name ≠ [dot] ∧ name ≠ [dot, dot]

instance (name : Name) : Decidable (Ordinary name) := inferInstanceAs (Decidable (_ ∧ _))

section Runs

variable {τ : Type} {heap : Heap τ} {fs : Fs τ}

theorem pathWalk_ok_iff (tree : Tree fs.vfs) {path : Name} (absolute : path.head? = some slash)
    (dentry : Nat) : ((pathWalk heap ramfs path).run fs).1 = .ok dentry ↔
      Names fs.vfs path dentry :=
  ramfs_cached.pathWalk_ok_iff tree absolute dentry

/-- The directory part of the path leads to a dentry with a child of the last name. -/
def Opens (vfs : State) (path : Name) (target : Nat) : Prop :=
  ∃ parent, Names vfs (State.parentPath path) parent ∧
    vfs.child parent (baseName path) = some target

theorem opens_iff (vfs : State) (missing : Int) {path : Name} (absolute : path.head? = some slash)
    (short : path.length ≤ 255) (target : Nat) :
    vfs.opens missing path oRdonly = .ok target ↔ Opens vfs path target := by
  unfold State.opens Opens
  rw [if_neg (not_not.mpr absolute), if_neg (by omega)]
  simp only [← resolve_eq_ok_iff vfs missing (parentPath_absolute absolute)]
  cases vfs.resolve missing (State.parentPath path) with
  | error code => simp [Except.bind]
  | ok parent =>
    cases found : vfs.child parent (baseName path) with
    | none => simp [Except.bind, found]
    | some child => simp [Except.bind, found, oRdonly]

theorem openFile_ok (tree : Tree fs.vfs) {path : Name} (absolute : path.head? = some slash)
    (short : path.length ≤ 255) {file : Nat}
    (ok : ((openFile heap ramfs path oRdonly).run fs).1 = .ok file) :
    ∃ target, Opens fs.vfs path target ∧ (heap.alloc sizeofFile fs.heap).1 ≠ none ∧
      (((openFile heap ramfs path oRdonly).run fs).2.vfs.files file).map File.dentry =
        some target := by
  have ended := @openFile_ends _ heap fs tree path oRdonly
  cases opened : fs.vfs.opens (missingCode heap fs) path oRdonly with
  | error code =>
    rw [opened] at ended
    obtain ⟨after, ran, _⟩ := ended
    rw [ran] at ok
    cases ok
  | ok child =>
    have opens := (opens_iff fs.vfs _ absolute short child).mp opened
    rw [opened] at ended
    obtain ⟨_, outcome⟩ := ended
    cases allocated : heap.alloc sizeofFile fs.heap with
    | mk address after =>
      rw [allocated] at outcome
      cases address with
      | none =>
        obtain ⟨failed, ran, _⟩ := outcome
        rw [ran] at ok
        cases ok
      | some address =>
        rw [outcome] at ok ⊢
        cases ok
        refine ⟨child, opens, some_ne_none address, ?_⟩
        simp only [State.opened, State.setFile, store_same, map_some]

theorem openFile_succeeds (tree : Tree fs.vfs) {path : Name} (absolute : path.head? = some slash)
    (short : path.length ≤ 255) {target : Nat} (opens : Opens fs.vfs path target)
    (memory : (heap.alloc sizeofFile fs.heap).1 ≠ none) :
    ∃ file, ((openFile heap ramfs path oRdonly).run fs).1 = .ok file := by
  have ended := @openFile_ends _ heap fs tree path oRdonly
  rw [(opens_iff fs.vfs (missingCode heap fs) absolute short target).mpr opens] at ended
  obtain ⟨_, outcome⟩ := ended
  cases allocated : heap.alloc sizeofFile fs.heap with
  | mk address after =>
    rw [allocated] at outcome memory
    cases address with
    | none => exact absurd rfl memory
    | some address => exact ⟨_, congrArg Prod.fst outcome⟩

end Runs

theorem opens_iff_names {vfs : State} (tree : Tree vfs) {path : Name}
    (absolute : path.head? = some slash) (short : path.length ≤ 255)
    (ordinary : Ordinary (baseName path)) (id : Nat) : Opens vfs path id ↔ Names vfs path id := by
  obtain ⟨nonempty, notDot, notUp⟩ := ordinary
  have bounded : (baseName path).length ≤ 255 := by
    have length := congrArg List.length (path_split (List.mem_of_mem_head? absolute))
    rw [List.length_append, List.length_cons] at length
    omega
  rw [names_split absolute, components_single _ nonempty (slash_not_mem_baseName path)]
  unfold Opens
  constructor
  · rintro ⟨parent, named, child⟩
    refine ⟨parent, named, Leads.down ⟨notDot, notUp⟩ bounded ?_ child (Leads.done id)⟩
    -- only directories have children
    by_contra other
    obtain ⟨dentry, live⟩ := Names.live tree named
    have empty := tree.leaf parent dentry live other
    rw [State.child, live, bind_some, empty] at child
    cases child
  · rintro ⟨parent, named, leads⟩
    generalize baseName path = name at *
    cases leads with
    | stay _ => exact absurd rfl notDot
    | up _ => exact absurd rfl notUp
    | down _ _ _ child rest =>
      cases rest
      exact ⟨parent, named, child⟩

theorem not_opens_names {vfs : State} (tree : Tree vfs) {path : Name}
    (absolute : path.head? = some slash) (special : ¬Ordinary (baseName path)) :
    (∀ target, Opens vfs path target → ∃ id, Names vfs path id) ∧
      ∀ id, Names vfs path id → ¬Opens vfs path id := by
  have last : ∀ parent, ∃ id, Leads vfs parent (components (baseName path)) id ∧
      (id = parent ∨ vfs.parentOf parent = some id) := by
    intro parent
    by_cases empty : baseName path = []
    · rw [empty]
      exact ⟨parent, Leads.done parent, .inl rfl⟩
    rw [components_single _ empty (slash_not_mem_baseName path)]
    by_cases isDot : baseName path = [dot]
    · rw [isDot]
      exact ⟨parent, Leads.stay (Leads.done parent), .inl rfl⟩
    have isUp : baseName path = [dot, dot] := by
      by_contra notUp
      exact special ⟨empty, isDot, notUp⟩
    rw [isUp]
    refine ⟨(vfs.parentOf parent).getD parent, Leads.up (Leads.done _), ?_⟩
    cases vfs.parentOf parent with
    | none => exact .inl rfl
    | some above => exact .inr rfl
  constructor
  · rintro target ⟨parent, named, _⟩
    obtain ⟨id, leads, _⟩ := last parent
    exact ⟨id, (names_split absolute id).mpr ⟨parent, named, leads⟩⟩
  · rintro id named ⟨parent, namedParent, child⟩
    obtain ⟨other, leads, near⟩ := last parent
    have same : id = other :=
      Names.unique named ((names_split absolute other).mpr ⟨parent, namedParent, leads⟩)
    subst other
    obtain ⟨directory, live⟩ := Names.live tree namedParent
    obtain ⟨object, liveChild, points⟩ := tree.child_live live child
    have younger := (tree.parent id object parent liveChild points).1
    rcases near with atParent | above
    · omega
    · rw [State.parentOf, live, bind_some] at above
      have older := (tree.parent parent directory id live above).1
      omega

/-- `open` agrees with `path_walk` exactly when the path names nothing, or ends in
a name and there is memory for the file. -/
theorem open_agrees_iff {τ : Type} (heap : Heap τ) (fs : Fs τ) (tree : Tree fs.vfs) (path : Name)
    (absolute : path.head? = some slash) (short : path.length ≤ 255) :
    Agrees heap fs path ↔ ∀ dentry, Names fs.vfs path dentry →
      Ordinary (baseName path) ∧ (heap.alloc sizeofFile fs.heap).1 ≠ none := by
  have walks := fun dentry => @pathWalk_ok_iff _ heap fs tree path absolute dentry
  constructor
  · rintro ⟨together, same⟩ dentry named
    have walked := (walks dentry).mpr named
    obtain ⟨file, opened⟩ := together.mpr ⟨dentry, walked⟩
    obtain ⟨target, opens, memory, at_⟩ := openFile_ok tree absolute short opened
    have isDentry : target = dentry := by
      rw [same file dentry opened walked] at at_
      exact (some.inj at_).symm
    rw [isDentry] at opens
    refine ⟨?_, memory⟩
    by_contra special
    exact (not_opens_names tree absolute special).2 dentry named opens
  · intro condition
    refine ⟨⟨?_, ?_⟩, ?_⟩
    · rintro ⟨file, opened⟩
      obtain ⟨target, opens, _, _⟩ := openFile_ok tree absolute short opened
      by_cases ordinary : Ordinary (baseName path)
      · exact ⟨target, (walks target).mpr
          ((opens_iff_names tree absolute short ordinary target).mp opens)⟩
      · obtain ⟨id, named⟩ := (not_opens_names tree absolute ordinary).1 target opens
        exact ⟨id, (walks id).mpr named⟩
    · rintro ⟨dentry, walked⟩
      have named := (walks dentry).mp walked
      obtain ⟨ordinary, memory⟩ := condition dentry named
      exact openFile_succeeds tree absolute short
        ((opens_iff_names tree absolute short ordinary dentry).mpr named) memory
    · intro file dentry opened walked
      have named := (walks dentry).mp walked
      obtain ⟨ordinary, _⟩ := condition dentry named
      obtain ⟨target, opens, _, at_⟩ := openFile_ok tree absolute short opened
      have namedTarget := (opens_iff_names tree absolute short ordinary target).mp opens
      rw [Names.unique named namedTarget]
      exact at_

/-! ### A small tree -/

def endless : Heap Nat := ⟨fun _ next => (some next, next + 1), fun _ _ next => next⟩

/-- A root directory with one empty file `a`. -/
def smallFs : Fs Nat :=
  { vfs :=
      { dentries := fun
          | 0 => some ⟨0, [slash], some 0, none, [1], 1⟩
          | 1 => some ⟨0, [97], some 1, some 0, [], 1⟩
          | _ => none
        inodes := fun
          | 0 => some ⟨0, 1, .directory, 0, 1, some ⟨0, none, 0⟩⟩
          | 1 => some ⟨0, 2, .regular, 0, 1, some ⟨0, none, 0⟩⟩
          | _ => none
        files := fun _ => none
        nextId := 2
        nextIno := 3
        rootMount := some ⟨⟨0, 0x52414D46, some 0⟩, some 0⟩
        mountList := [⟨⟨0, 0x52414D46, some 0⟩, some 0⟩] }
    heap := 0 }

theorem smallFs_tree : Tree smallFs.vfs := by
  refine ⟨?_, ?_, ?_, ?_, ?_, ?_, ?_, ?_, ?_, nofun⟩
  · rintro _ ⟨⟩
    exact ⟨_, rfl, rfl⟩
  · rintro (_ | _ | _) _ ⟨⟩ <;> exact ⟨_, _, rfl, rfl⟩
  · rintro (_ | _ | _) _ _ ⟨⟩ ⟨⟩
    exact ⟨zero_lt_one, _, rfl, by decide⟩
  · rintro (_ | _ | _) _ below ⟨⟩ member
    · exact ⟨_, by rw [List.mem_singleton.mp member]; rfl, rfl⟩
    · cases member
  · rintro (_ | _ | _) _ ⟨⟩ <;> decide
  · rintro (_ | _ | _) _ ⟨⟩ other
    · exact absurd rfl other
    · rfl
  · rintro (_ | _ | _) _ ⟨⟩ <;> decide
  · rintro (_ | _ | _) _ ⟨⟩ <;> decide
  · rintro (_ | _ | _) _ ⟨⟩ <;> decide

theorem open_agrees_file : Agrees endless smallFs [slash, 97] := by
  apply (open_agrees_iff endless smallFs smallFs_tree [slash, 97] rfl (by decide)).mpr
  intro _ _
  exact ⟨by decide, by decide⟩

/-- The root directory can be walked to but not opened. -/
theorem open_refuses_root :
    Tree smallFs.vfs ∧ UniqueNames smallFs.vfs ∧ ¬Agrees endless smallFs [slash] := by
  refine ⟨smallFs_tree, ?_, ?_⟩
  · rintro (_ | _ | _) _ ⟨⟩ <;> decide
  · rintro ⟨together, _⟩
    have walked : ((pathWalk endless ramfs [slash]).run smallFs).1 = .ok 0 := rfl
    have refused : ((openFile endless ramfs [slash] oRdonly).run smallFs).1 =
        .error (.code (-ENOENT)) := rfl
    obtain ⟨file, opened⟩ := together.mpr ⟨0, walked⟩
    rw [refused] at opened
    cases opened

end Synx.Ramfs
