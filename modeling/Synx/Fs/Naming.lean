/-
What a path names.  The relation says it without the order of the walk's checks
and without its errors; it is the meaning of paths that `path_walk` and `open`
are compared with.
-/

import Synx.Fs.OpenFiles

namespace Synx.Vfs

open Lib Program List

/-- The components lead from one dentry to another. -/
inductive Leads (vfs : State) : Nat → List Name → Nat → Prop
  | done (id : Nat) : Leads vfs id [] id
  | stay {start last : Nat} {names : List Name} (rest : Leads vfs start names last) :
      Leads vfs start ([dot] :: names) last
  | up {start last : Nat} {names : List Name}
      (rest : Leads vfs ((vfs.parentOf start).getD start) names last) :
      Leads vfs start ([dot, dot] :: names) last
  | down {start next last : Nat} {name : Name} {names : List Name}
      (ordinary : name ≠ [dot] ∧ name ≠ [dot, dot]) (short : name.length ≤ 255)
      (directory : vfs.typeOf start = some .directory) (child : vfs.child start name = some next)
      (rest : Leads vfs next names last) : Leads vfs start (name :: names) last

def Names (vfs : State) (path : Name) (id : Nat) : Prop :=
  ∃ root, vfs.rootDentry = some root ∧ Leads vfs root (components path) id

theorem walk_eq_ok_iff (vfs : State) (missing : Int) (start last : Nat) (names : List Name) :
    vfs.walk missing start names = .ok last ↔ Leads vfs start names last := by
  induction names generalizing start with
  | nil =>
    rw [State.walk_nil]
    constructor
    · intro same
      cases same
      exact Leads.done _
    · intro leads
      cases leads
      rfl
  | cons name names ih =>
    rw [State.walk_cons]
    constructor
    · intro walked
      unfold State.walkStep at walked
      split at walked
      · cases walked
      · rename_i short
        split at walked
        · rename_i isDot
          rw [isDot]
          exact Leads.stay ((ih start).mp walked)
        · rename_i notDot
          split at walked
          · rename_i isUp
            rw [isUp]
            exact Leads.up ((ih _).mp walked)
          · rename_i notUp
            split at walked
            · cases walked
            · rename_i directory
              split at walked
              · rename_i next found
                exact Leads.down ⟨notDot, notUp⟩ (not_lt.mp short) (not_not.mp directory) found
                  ((ih next).mp walked)
              · cases walked
    · intro leads
      cases leads with
      | stay rest => exact (ih start).mpr rest
      | up rest => exact (ih _).mpr rest
      | @down _ next _ _ _ ordinary short directory child rest =>
        have step : vfs.walkStep missing start name = .ok next := by
          unfold State.walkStep
          rw [if_neg (not_lt.mpr short), if_neg ordinary.1, if_neg ordinary.2,
            if_neg (not_not.mpr directory), child]
        rw [step]
        exact (ih next).mpr rest

theorem resolve_eq_ok_iff (vfs : State) (missing : Int) {path : Name}
    (absolute : path.head? = some slash) (id : Nat) :
    vfs.resolve missing path = .ok id ↔ Names vfs path id := by
  unfold State.resolve Names
  rw [if_neg (not_not.mpr absolute)]
  cases vfs.rootDentry with
  | none => simp
  | some root => simp [walk_eq_ok_iff]

theorem walk_append (vfs : State) (missing : Int) (start : Nat) (first second : List Name) :
    vfs.walk missing start (first ++ second) =
      (vfs.walk missing start first).bind (fun middle => vfs.walk missing middle second) := by
  unfold State.walk
  rw [foldlM_append]
  rfl

variable {vfs : State} {start : Nat} {path : Name}

variable {last one two id : Nat} {names : List Name}

theorem Leads.append_iff (first second : List Name) : Leads vfs start (first ++ second) last ↔
      ∃ middle, Leads vfs start first middle ∧ Leads vfs middle second last := by
  rw [← walk_eq_ok_iff vfs 0, walk_append]
  simp only [← walk_eq_ok_iff vfs 0]
  cases vfs.walk 0 start first with
  | error code => simp [Except.bind]
  | ok middle => simp [Except.bind]

/-! ### The last slash -/

theorem slash_not_mem_baseName (path : Name) : slash ∉ baseName path := by
  intro member
  unfold baseName at member
  rw [mem_reverse] at member
  have passes := mem_takeWhile_imp member
  simp at passes

theorem path_split (hasSlash : slash ∈ path) : path = dirName path ++ slash :: baseName path := by
  have whole : path.reverse.takeWhile (· != slash) ++ path.reverse.dropWhile (· != slash) =
      path.reverse := takeWhile_append_dropWhile
  cases rest : path.reverse.dropWhile (· != slash) with
  | nil =>
    rw [rest, append_nil] at whole
    have member : slash ∈ path.reverse.takeWhile (· != slash) := by
      rw [whole, mem_reverse]
      exact hasSlash
    have passes := mem_takeWhile_imp member
    simp at passes
  | cons byte before =>
    have isSlash : byte = slash := by
      have head := head?_dropWhile_not (· != slash) path.reverse
      rw [rest] at head
      simpa using head
    rw [rest, isSlash] at whole
    have cut : path = before.reverse ++ slash :: baseName path := by
      have turned := congrArg List.reverse whole
      rw [reverse_reverse, reverse_append, reverse_cons] at turned
      calc path = before.reverse ++ [slash] ++ baseName path := turned.symm
        _ = before.reverse ++ slash :: baseName path := by rw [append_assoc]; rfl
    have above : dirName path = before.reverse := by
      have length := congrArg List.length cut
      rw [length_append, length_cons] at length
      have count : path.length - (baseName path).length - 1 = before.reverse.length := by omega
      unfold dirName
      rw [count]
      conv_lhs => rw [cut]
      exact take_left
    rw [above]
    exact cut

theorem components_split (hasSlash : slash ∈ path) :
    components path = components (dirName path) ++ components (baseName path) := by
  conv_lhs => rw [path_split hasSlash]
  exact components_append _ _

theorem components_parentPath (path : Name) :
    components (State.parentPath path) = components (dirName path) := by
  unfold State.parentPath
  split
  · rename_i empty
    rw [empty]
    rfl
  · rfl

theorem parentPath_absolute (absolute : path.head? = some slash) :
    (State.parentPath path).head? = some slash := by
  unfold State.parentPath
  split
  · rfl
  · rename_i nonempty
    have hasSlash : slash ∈ path := mem_of_mem_head? absolute
    rw [path_split hasSlash] at absolute
    cases above : dirName path with
    | nil => exact absurd above nonempty
    | cons byte rest =>
      rw [above] at absolute
      exact absolute

theorem Leads.unique (first : Leads vfs start names one) (second : Leads vfs start names two) :
    one = two := by
  rw [← walk_eq_ok_iff vfs 0] at first second
  rw [first] at second
  exact Except.ok.inj second

theorem Names.unique (first : Names vfs path one) (second : Names vfs path two) : one = two := by
  obtain ⟨root, isRoot, leads⟩ := first
  obtain ⟨other, isOther, leadsOther⟩ := second
  rw [isRoot] at isOther
  cases isOther
  exact Leads.unique leads leadsOther

theorem names_split (absolute : path.head? = some slash) (id : Nat) :
    Names vfs path id ↔ ∃ parent, Names vfs (State.parentPath path) parent ∧
      Leads vfs parent (components (baseName path)) id := by
  unfold Names
  rw [components_split (mem_of_mem_head? absolute), components_parentPath]
  constructor
  · rintro ⟨root, isRoot, leads⟩
    obtain ⟨parent, before, last⟩ := (Leads.append_iff _ _).mp leads
    exact ⟨parent, ⟨root, isRoot, before⟩, last⟩
  · rintro ⟨parent, ⟨root, isRoot, before⟩, last⟩
    exact ⟨root, isRoot, (Leads.append_iff _ _).mpr ⟨parent, before, last⟩⟩

theorem child_named (tree : Tree vfs) {parent : Nat} {name : Name}
    (found : vfs.child parent name = some id) :
    ∃ object, vfs.dentries id = some object ∧ object.parent = some parent ∧ object.name = name := by
  unfold State.child at found
  obtain ⟨directory, live, search⟩ := Option.bind_eq_some_iff.mp found
  obtain ⟨object, liveChild, above⟩ := tree.child parent directory id live
    (mem_of_find?_eq_some search)
  refine ⟨object, liveChild, above, ?_⟩
  have same := find?_some search
  rw [liveChild, Option.map_some] at same
  simpa using same

theorem Leads.live (tree : Tree vfs) (leads : Leads vfs start names last) {dentry : Dentry}
    (live : vfs.dentries start = some dentry) : ∃ object, vfs.dentries last = some object := by
  induction leads generalizing dentry with
  | done id => exact ⟨dentry, live⟩
  | stay _ ih => exact ih live
  | @up start _ _ _ ih =>
    cases above : vfs.parentOf start with
    | none =>
      rw [above] at ih
      exact ih live
    | some parent =>
      rw [above] at ih
      have points : dentry.parent = some parent := by
        rw [← above, State.parentOf, live, Option.bind_some]
      obtain ⟨_, directory, liveAbove, _⟩ := tree.parent start dentry parent live points
      exact ih liveAbove
  | down _ _ _ child _ ih =>
    obtain ⟨object, liveNext, _⟩ := tree.child_live live child
    exact ih liveNext

theorem Names.live (tree : Tree vfs) (named : Names vfs path id) :
    ∃ dentry, vfs.dentries id = some dentry := by
  obtain ⟨root, isRoot, leads⟩ := named
  obtain ⟨dentry, live, _⟩ := tree.root root isRoot
  exact Leads.live tree leads live

theorem Cached.pathWalk_ok_iff {τ : Type} {heap : Heap τ} {ops : FileSystem τ} {fs : Fs τ}
    (cached : Cached ops) (tree : Tree fs.vfs) {path : Name} (absolute : path.head? = some slash)
    (dentry : Nat) : ((pathWalk heap ops path).run fs).1 = .ok dentry ↔
      Names fs.vfs path dentry := by
  rw [← resolve_eq_ok_iff fs.vfs (absentCode heap ops fs) absolute]
  have ended := @pathWalk_ends _ heap fs ops cached tree path
  cases resolved : fs.vfs.resolve (absentCode heap ops fs) path with
  | error code =>
    rw [resolved] at ended
    obtain ⟨after, ran, _⟩ := ended
    rw [ran]
    constructor <;> intro impossible <;> cases impossible
  | ok next =>
    rw [resolved] at ended
    rw [ended.1]
    constructor <;> intro same <;> cases same <;> rfl

end Synx.Vfs
