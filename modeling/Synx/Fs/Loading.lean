/-
What loading an archive does to the tree.  Every entry leaves a well-formed tree
in which nothing is open.  It keeps what was there when the directory that the
entry goes to has no child of its name; nothing in the loader checks that.
-/

import Synx.Fs.Archive
import Synx.Fs.Creation

namespace Synx.Vfs

open Lib Option
open Lib.Program

/-- Where a literal descent by child names ends, if all of them exist. -/
def State.descend (vfs : State) : Nat → Nat → Name → Option Nat
  | _, current, [] => some current
  | 0, current, _ :: _ => some current
  | rounds + 1, current, byte :: rest =>
    let token := byte :: rest
    let name := nextComponent token
    match vfs.child current name with
    | none => none
    | some child => descend vfs rounds child (token.drop (name.length + 1))

/-- The existing directory that an entry of the archive goes to. -/
def State.entryParent (vfs : State) (path : Name) : Option Nat :=
  if slash ∈ path then
    match vfs.resolve (-ENOENT) (slash :: dirName path) with
    | .ok parent => some parent
    | .error _ =>
      vfs.rootDentry.bind (fun root => vfs.descend (dirName path).length root (dirName path))
  else vfs.rootDentry

/-- The sizes of the files are those of their buffers. -/
def Fits (limit : Nat) (vfs : State) : Prop :=
  ∀ id inode, vfs.inodes id = some inode →
    inode.size = (Ramfs.contents inode).length ∧ inode.size ≤ limit

theorem Fits.grow {limit : Nat} {vfs : State} (fits : Fits limit vfs) {parent address : Nat}
    {directory : Dentry} {inode : Inode} {name : Name} {type : FileType} {data : List UInt8}
    (filled : Ramfs.Filled type data inode) (enough : data.length ≤ limit) :
    Fits limit (vfs.grow parent directory inode address name) := by
  intro id object found
  rcases ofInode_grow found with ⟨_, rfl⟩ | old
  · rw [filled.size, filled.contents]
    exact ⟨rfl, enough⟩
  · exact fits id object old

/-- A step of a load that creates files of at most the given size.  The condition
is the one under which it hides nothing. -/
structure Grown (free : Prop) (size : Nat) (before after : State) : Prop where
  tree : Tree after
  unopened : Unopened before → Unopened after
  paired : Paired before → Paired after
  fits : ∀ limit, size ≤ limit → Fits limit before → Fits limit after
  kept : free → Extends before after
  unique : free → UniqueNames before → UniqueNames after

theorem Grown.of_spent {free : Prop} {size : Nat} {before after : State} (tree : Tree before)
    (spent : Spent before after) : Grown free size before after :=
  { tree := spent.tree tree
    unopened := spent.unopened
    paired := spent.paired
    fits := fun _ _ fits => by
      rw [spent.same]
      exact fits
    kept := fun _ => spent.extends
    unique := fun _ => spent.unique }

variable {one two : Prop} {size more : Nat} {before after vfs : State}

theorem Grown.trans {first second third : State} (step : Grown one size first second)
    (next : Grown two more second third) : Grown (one ∧ two) (max size more) first third :=
  { tree := next.tree
    fits := fun limit enough fits => next.fits limit (le_trans (le_max_right _ _) enough)
      (step.fits limit (le_trans (le_max_left _ _) enough) fits)
    unopened := fun unopened => next.unopened (step.unopened unopened)
    paired := fun paired => next.paired (step.paired paired)
    kept := fun both => (step.kept both.1).trans (next.kept both.2)
    unique := fun both unique => next.unique both.2 (step.unique both.1 unique) }

theorem Grown.weaken (step : Grown one size before after) (enough : two → one)
    (larger : size ≤ more) :
    Grown two more before after :=
  { tree := step.tree
    unopened := step.unopened
    paired := step.paired
    fits := fun limit bound => step.fits limit (le_trans larger bound)
    kept := fun free => step.kept (enough free)
    unique := fun free => step.unique (enough free) }

theorem Spent.of_adjust {change : Nat → Int} (spent : Spent (vfs.adjust change) after) :
    ∃ plain, Spent vfs plain ∧ after = plain.adjust change :=
  ⟨{ vfs with nextId := after.nextId, nextIno := after.nextIno }, ⟨rfl, spent.later⟩, spent.same⟩

theorem Untouched.spent {τ : Type} {before after : Fs τ} (untouched : Untouched before after) :
    Spent before.vfs after.vfs := by
  refine ⟨?_, untouched.later⟩
  rw [untouched.vfs]

theorem State.descend_empty {rounds current parent : Nat} {path : Name}
    (empty : ∀ name, vfs.child current name = none)
    (found : vfs.descend rounds current path = some parent) : parent = current := by
  unfold State.descend at found
  split at found
  · exact (some.inj found).symm
  · exact (some.inj found).symm
  · simp only [empty] at found
    cases found

theorem Spent.descend (spent : Spent before after) (rounds current : Nat) (path : Name) :
    after.descend rounds current path = before.descend rounds current path := by
  induction rounds generalizing current path with
  | zero => cases path <;> rfl
  | succ rounds ih =>
    cases path with
    | nil => rfl
    | cons byte rest =>
      unfold State.descend
      simp only [spent.child, ih]

end Synx.Vfs

namespace Synx.Ramfs

open Lib
open Lib.Program
open Vfs

section Runs

variable {τ : Type} {heap : Heap τ} {fs : Fs τ}

variable {parent : Nat} {name : Name} {type : FileType} {data : List UInt8}

theorem Creates.grown {outcome : Except (Stop Fault) (Option Nat) × Fs τ} (tree : Tree fs.vfs)
    (creates : Creates heap fs parent name type data outcome) :
    Grown (fs.vfs.child parent (name.take 255) = none) data.length fs.vfs outcome.2.vfs := by
  cases creates with
  | refused after spent _ => exact .of_spent tree spent
  | created directory inode address after live isDirectory filled grown =>
    change Grown _ _ _ after.vfs
    rw [grown]
    exact
      { tree := tree.grow live isDirectory
        unopened := fun unopened => unopened.grow tree live
        paired := fun paired => paired.grow tree live filled.refCount
        fits := fun limit enough fits => fits.grow filled enough
        kept := fun free => Extends.grow tree live free
        unique := fun free unique => unique.grow tree live free }

theorem Creates.of_held {result : Except (Stop Fault) (Option Nat)} {after : Fs τ}
    (tree : Tree fs.vfs) {dentry : Dentry} (live : fs.vfs.dentries parent = some dentry)
    (creates : Creates heap (fs.adjust (Pi.single parent 1)) parent name type data
      (result, after)) :
    ∃ plain : Fs τ, after = plain.adjust (Pi.single parent 1) ∧
      Creates heap fs parent name type data (result, plain) := by
  cases creates with
  | refused _ spent reason =>
    obtain ⟨vfs, spentPlain, same⟩ := Spent.of_adjust spent
    refine ⟨⟨vfs, after.heap⟩, ?_, .refused _ spentPlain ?_⟩
    · unfold Fs.adjust
      rw [← same]
    · rw [Fs.adjust_vfs, State.adjust_typeOf] at reason
      exact reason
  | created directory inode address _ liveHeld isDirectory filled grown =>
    rw [Fs.adjust_vfs, State.adjust_typeOf] at isDirectory
    have held := fs.vfs.adjust_dentries (Pi.single parent 1) live
    have same := Option.some.inj (held.symm.trans liveHeld)
    have known := tree.known parent dentry live
    have unused : (Pi.single parent 1 : Nat → Int) (fs.vfs.nextId + 1) = 0 :=
      Pi.single_eq_of_ne (by omega) _
    rw [← same, Fs.adjust_vfs, grow_adjust _ unused] at grown
    refine ⟨⟨fs.vfs.grow parent dentry inode address (name.take 255), after.heap⟩, ?_,
      .created dentry inode address _ live isDirectory filled rfl⟩
    unfold Fs.adjust
    rw [← grown]

theorem createDir_held (tree : Tree fs.vfs) {parent : Nat} {directory : Dentry}
    (live : fs.vfs.dentries parent = some directory) (name : Name) :
    ∃ result plain, (createDir heap parent name).run (fs.adjust (Pi.single parent 1)) =
        (result, plain.adjust (Pi.single parent 1)) ∧
      Creates heap fs parent name .directory [] (result, plain) := by
  obtain ⟨plain, same, plainly⟩ := Creates.of_held tree live (createDir_creates (tree.held parent)
    (fs.vfs.adjust_dentries (Pi.single parent 1) live) name)
  exact ⟨_, plain, Prod.ext rfl same, plainly⟩

theorem createFile_held (tree : Tree fs.vfs) {parent : Nat} {directory : Dentry}
    (live : fs.vfs.dentries parent = some directory) (name : Name) (data : List UInt8) :
    ∃ result plain, (createFile heap parent name data).run (fs.adjust (Pi.single parent 1)) =
        (result, plain.adjust (Pi.single parent 1)) ∧
      Creates heap fs parent name .regular data (result, plain) := by
  obtain ⟨plain, same, plainly⟩ := Creates.of_held tree live (createFile_creates (tree.held parent)
    (fs.vfs.adjust_dentries (Pi.single parent 1) live) name data)
  exact ⟨_, plain, Prod.ext rfl same, plainly⟩

end Runs

end Synx.Ramfs

namespace Synx.Initramfs

open Lib List
open Lib.Program
open Vfs
open Ramfs

section Runs

variable {τ : Type} {heap : Heap τ} {fs : Fs τ}

/-- How a search for the parent directory ends: it may fail, or fault on the
error pointer of an unmounted root, or return a directory that it holds.  A name
that is free in the directory found beforehand is free in the one returned. -/
inductive ParentEnds (fs : Fs τ) (found : Option Nat) :
    Except (Stop Fault) (Option Nat) × Fs τ → Prop
  | missing (after : Fs τ) (grown : Grown True 0 fs.vfs after.vfs) :
      ParentEnds fs found (.ok none, after)
  | unmounted (after : Fs τ) (reason : Stop Fault) (grown : Grown True 0 fs.vfs after.vfs)
      (rootless : fs.vfs.rootDentry = none) : ParentEnds fs found (.error reason, after)
  | found (parent : Nat) (dentry : Dentry) (after : Fs τ) (grown : Grown True 0 fs.vfs after.vfs)
      (live : after.vfs.dentries parent = some dentry)
      (free : ∀ name, (∀ old, found = some old → fs.vfs.child old name = none) →
        after.vfs.child parent name = none) :
      ParentEnds fs found (.ok (some parent), after.adjust (Pi.single parent 1))

theorem ParentEnds.after_step {before : Fs τ} {earlier later : Option Nat}
    {outcome : Except (Stop Fault) (Option Nat) × Fs τ} (step : Grown True 0 before.vfs fs.vfs)
    (mounted : fs.vfs.rootDentry = before.vfs.rootDentry)
    (frees : ∀ name, (∀ old, earlier = some old → before.vfs.child old name = none) →
      ∀ old, later = some old → fs.vfs.child old name = none)
    (ends : ParentEnds fs later outcome) : ParentEnds before earlier outcome := by
  have always : ∀ {last : State}, Grown True 0 fs.vfs last → Grown True 0 before.vfs last :=
    fun rest => (step.trans rest).weaken (fun _ => ⟨trivial, trivial⟩) (Nat.le_refl 0)
  cases ends with
  | missing after grown => exact ParentEnds.missing after (always grown)
  | unmounted after reason grown rootless =>
    exact ParentEnds.unmounted after reason (always grown) (mounted.symm.trans rootless)
  | found parent dentry after grown live free =>
    exact ParentEnds.found parent dentry after (always grown) live
      (fun name unused => free name (frees name unused))

theorem makeParents_ends (rounds : Nat) (tree : Tree fs.vfs) {current : Nat} {dentry : Dentry}
    (live : fs.vfs.dentries current = some dentry) (path : Name) (short : path.length ≤ 255) :
    ParentEnds fs (fs.vfs.descend rounds current path)
      ((makeParents heap rounds current path).run (fs.adjust (Pi.single current 1))) := by
  have here : ParentEnds fs (some current)
      (.ok (some current), fs.adjust (Pi.single current 1)) :=
    ParentEnds.found current dentry fs (.of_spent tree (.refl _)) live
      (fun name unused => unused current rfl)
  induction rounds generalizing fs current dentry path with
  | zero =>
    cases path with
    | nil => exact here
    | cons byte rest => exact here
  | succ rounds ih =>
    cases path with
    | nil => exact here
    | cons byte rest =>
      have shorter : ((byte :: rest).drop ((nextComponent (byte :: rest)).length + 1)).length ≤
          255 := by
        rw [length_drop]
        omega
      have shortName : (nextComponent (byte :: rest)).length ≤ 255 :=
        le_trans (takeWhile_sublist _).length_le short
      unfold makeParents State.descend
      simp only
      generalize nextComponent (byte :: rest) = name at shorter shortName ⊢
      generalize (byte :: rest).drop (name.length + 1) = later at shorter ⊢
      have held := fs.vfs.adjust_dentries (Pi.single current 1) live
      have lookup := @run_dLookup _ (fs.adjust (Pi.single current 1)) (tree.held current) current _
        held name
      rw [Fs.adjust_vfs, State.adjust_child] at lookup
      have moves : ∀ {now : Fs τ} {child : Nat} {above object : Dentry}, Tree now.vfs →
          now.vfs.dentries current = some above → now.vfs.dentries child = some object →
          ((do
            dget child
            dput heap ramfs current
            makeParents heap rounds child later) : Call τ (Option Nat)).run
              (now.adjust (Pi.single current 1)) =
            (makeParents heap rounds child later).run (now.adjust (Pi.single child 1)) := by
        intro now child above object treeNow liveAbove liveChild
        have got := @run_dget _ (now.adjust (Pi.single current 1)) child _
          (now.vfs.adjust_dentries (Pi.single current 1) liveChild)
        rw [Fs.adjust_adjust] at got
        rw [run_bind_ok got, run_bind_ok (run_dput_behind treeNow liveAbove child)]
      have ended : ∀ {now : Fs τ} {child : Nat} {object : Dentry},
          now.vfs.dentries child = some object → Tree now.vfs →
          ParentEnds now (some child) (.ok (some child), now.adjust (Pi.single child 1)) :=
        fun liveChild treeNow => ParentEnds.found _ _ _ (.of_spent treeNow (.refl _))
          liveChild (fun name unused => unused _ rfl)
      rw [run_bind_ok lookup]
      cases next : fs.vfs.child current name with
      | some child =>
        obtain ⟨object, liveChild, _⟩ := tree.child_live live next
        simp only
        rw [run_bind_ok (run_pure _ _)]
        simp only
        rw [moves tree live liveChild]
        exact ih tree liveChild later shorter (ended liveChild tree)
      | none =>
        simp only
        obtain ⟨result, plain, ran, creates⟩ := @createDir_held _ heap _ tree current _ live name
        have grown := creates.grown tree
        rw [take_of_length_le shortName] at grown
        have grows := grown.weaken (fun _ : True => next) (Nat.le_refl 0)
        cases creates with
        | refused _ spent _ =>
          rw [run_bind_ok ran]
          simp only
          rw [run_bind_ok (run_pure _ _)]
          simp only
          have livePlain : plain.vfs.dentries current = some dentry := by
            rw [spent.same]
            exact live
          rw [run_bind_ok (run_dput_held grows.tree livePlain), run_pure]
          exact ParentEnds.missing plain grows
        | created directory inode address _ liveNow isDirectory filled same =>
          rw [run_bind_ok ran]
          simp only
          rw [take_of_length_le shortName] at same
          have livePlain := @live_grow _ current address directory inode name tree liveNow
            current dentry live
          have liveNew := @newest_grow _ current address directory inode name tree liveNow
          have entered := @child_grow _ current address directory inode name tree liveNow
            current dentry live name
          have vacant := @child_newest_grow _ current address directory inode name tree liveNow
          rw [← same] at livePlain liveNew entered vacant
          rw [if_pos ⟨rfl, rfl⟩] at entered
          have lookupNew := @run_dLookup _ (plain.adjust (Pi.single current 1))
            (grows.tree.held current) current _
            (plain.vfs.adjust_dentries (Pi.single current 1) livePlain) name
          rw [Fs.adjust_vfs, State.adjust_child, entered] at lookupNew
          rw [run_bind_ok lookupNew]
          simp only
          rw [moves grows.tree livePlain liveNew]
          refine ParentEnds.after_step grows ?_ ?_
            (ih grows.tree liveNew later shorter (ended liveNew grows.tree))
          · rw [same]
            rfl
          · intro wanted _ old descended
            rw [State.descend_empty vacant descended]
            exact vacant wanted

theorem run_mustWalk (tree : Tree fs.vfs) {root : Nat} (isRoot : fs.vfs.rootDentry = some root) :
    (mustWalk heap [slash]).run fs = (.ok root, fs.adjust (Pi.single root 1)) := by
  have walked : fs.vfs.resolve (missingCode heap fs) [slash] = .ok root := by
    unfold State.resolve
    rw [if_neg (fun differs => differs rfl), isRoot]
    rfl
  have ends := @pathWalk_ends _ heap _ tree [slash]
  rw [walked] at ends
  unfold mustWalk
  rw [run_bind_ok (run_attempt_ok ends.1), run_pure]

theorem run_mustWalk_unmounted (tree : Tree fs.vfs) (rootless : fs.vfs.rootDentry = none) :
    ∃ after, (mustWalk heap [slash]).run fs = (.error (.fault .badPointer), after) ∧
      Spent fs.vfs after.vfs := by
  have walked : fs.vfs.resolve (missingCode heap fs) [slash] = .error (-ENOENT) := by
    unfold State.resolve
    rw [if_neg (fun differs => differs rfl), rootless]
  have ends := @pathWalk_ends _ heap _ tree [slash]
  rw [walked] at ends
  obtain ⟨after, ran, untouched⟩ := ends
  refine ⟨after, ?_, untouched.spent⟩
  unfold mustWalk
  rw [run_bind_ok (run_attempt_code ran)]
  rfl

theorem length_dirName_le (path : Name) : (dirName path).length ≤ path.length :=
  length_take_le' _ _

theorem ensureParentDir_ends (tree : Tree fs.vfs) (path : Name) :
    ParentEnds fs (fs.vfs.entryParent path) ((ensureParentDir heap path).run fs) := by
  unfold ensureParentDir
  by_cases refused : path.length = 0 ∨ 256 ≤ path.length
  · rw [if_pos refused]
    exact ParentEnds.missing fs (.of_spent tree (.refl _))
  rw [if_neg refused]
  have short : (dirName path).length ≤ 255 := by
    have bound := length_dirName_le path
    omega
  unfold State.entryParent
  by_cases nested : slash ∈ path
  · rw [if_pos nested, if_pos nested]
    have walked := @pathWalk_ends _ heap _ tree (slash :: dirName path)
    have named := @resolve_eq_ok_iff fs.vfs
    cases resolved : fs.vfs.resolve (missingCode heap fs) (slash :: dirName path) with
    | ok parent =>
      rw [resolved] at walked
      obtain ⟨ran, dentry, live⟩ := walked
      have same := (named (-ENOENT) rfl parent).mpr ((named _ rfl parent).mp resolved)
      simp only
      rw [run_bind_ok (run_attempt_ok ran), same]
      exact ParentEnds.found parent dentry fs (.of_spent tree (.refl _)) live
        (fun name unused => unused parent rfl)
    | error code =>
      rw [resolved] at walked
      obtain ⟨after, ran, untouched⟩ := walked
      have failed : ∃ other, fs.vfs.resolve (-ENOENT) (slash :: dirName path) = .error other := by
        cases again : fs.vfs.resolve (-ENOENT) (slash :: dirName path) with
        | error other => exact ⟨other, rfl⟩
        | ok parent =>
          have same := (named (missingCode heap fs) rfl parent).mpr ((named _ rfl parent).mp again)
          rw [resolved] at same
          cases same
      obtain ⟨other, failed⟩ := failed
      have spent := untouched.spent
      have treeAfter := spent.tree tree
      simp only
      rw [run_bind_ok (run_attempt_code ran), failed]
      simp only
      have sameRoot : after.vfs.rootDentry = fs.vfs.rootDentry := by
        rw [spent.same]
        rfl
      cases isRoot : fs.vfs.rootDentry with
      | none =>
        obtain ⟨last, faulted, spentLast⟩ := @run_mustWalk_unmounted _ heap _ treeAfter
          (sameRoot.trans isRoot)
        rw [run_bind_error faulted]
        exact ParentEnds.unmounted last _ (.of_spent tree (spent.trans spentLast)) isRoot
      | some root =>
        rw [run_bind_ok (run_mustWalk treeAfter (sameRoot.trans isRoot)), Option.bind_some]
        obtain ⟨dentry, live, _⟩ := treeAfter.root root (sameRoot.trans isRoot)
        refine ParentEnds.after_step (.of_spent tree spent) sameRoot ?_
          (makeParents_ends _ treeAfter live _ short)
        intro name unused old found
        rw [spent.descend] at found
        rw [spent.child]
        exact unused old found
  · rw [if_neg nested, if_neg nested]
    cases isRoot : fs.vfs.rootDentry with
    | none =>
      obtain ⟨last, faulted, spentLast⟩ := @run_mustWalk_unmounted _ heap _ tree isRoot
      rw [run_bind_error faulted]
      exact ParentEnds.unmounted last _ (.of_spent tree spentLast) isRoot
    | some root =>
      rw [run_bind_ok (run_mustWalk tree isRoot), run_pure]
      obtain ⟨dentry, live, _⟩ := tree.root root isRoot
      exact ParentEnds.found root dentry fs (.of_spent tree (.refl _)) live
        (fun name unused => unused root rfl)

/-- The directory that the entry goes to has no child of its name. -/
def Free (vfs : State) (entry : Entry) : Prop :=
  (entry.mode % 2 ^ 32 &&& cpioSIfmt = cpioSIfdir ∨ entry.mode % 2 ^ 32 &&& cpioSIfmt =
    cpioSIfreg) →
    (vfs.entryParent entry.path).bind (fun parent => vfs.child parent (baseName entry.path)) = none

instance (vfs : State) (entry : Entry) : Decidable (Free vfs entry) := by
  unfold Free
  infer_instance

theorem length_baseName_le (path : Name) : (baseName path).length ≤ path.length := by
  unfold baseName
  rw [length_reverse]
  exact le_trans (takeWhile_sublist _).length_le (le_of_eq path.length_reverse)

theorem run_createIn (tree : Tree fs.vfs) {parent : Nat} {dentry : Dentry}
    (live : fs.vfs.dentries parent = some dentry) {name : Name} (short : name.length ≤ 255)
    {type : FileType} {data : List UInt8}
    {create : Call τ (Option Nat)} {result : Except (Stop Fault) (Option Nat)} {plain : Fs τ}
    (ran : create.run (fs.adjust (Pi.single parent 1)) =
      (result, plain.adjust (Pi.single parent 1)))
    (creates : Creates heap fs parent name type data (result, plain)) :
    Grown (fs.vfs.child parent name = none) data.length fs.vfs plain.vfs ∧
      ∃ value, result = .ok value ∧ (do
          let inode ← create
          dput heap ramfs parent
          pure inode.isSome : Call τ Bool).run (fs.adjust (Pi.single parent 1)) =
        (.ok value.isSome, plain) := by
  have grown := creates.grown tree
  rw [take_of_length_le short] at grown
  refine ⟨grown, ?_⟩
  cases creates with
  | refused _ spent _ =>
    have kept : plain.vfs.dentries parent = some dentry := by
      rw [spent.same]
      exact live
    rw [run_bind_ok ran, run_bind_ok (run_dput_held grown.tree kept)]
    exact ⟨none, rfl, rfl⟩
  | created directory inode address _ liveNow _ _ same =>
    have kept := @live_grow _ parent address directory inode (name.take 255) tree liveNow parent
      dentry live
    rw [← same] at kept
    rw [run_bind_ok ran, run_bind_ok (run_dput_held grown.tree kept)]
    exact ⟨_, rfl, rfl⟩

theorem ensureParentDir_short {path : Name} {parent : Nat} {after : Fs τ}
    (ran : (ensureParentDir heap path).run fs = (.ok (some parent), after)) :
    path.length ≤ 255 := by
  unfold ensureParentDir at ran
  by_cases refused : path.length = 0 ∨ 256 ≤ path.length
  · rw [if_pos refused] at ran
    cases ran
  · omega

theorem createEntry_grown (tree : Tree fs.vfs) (entry : Entry) :
    Grown (Free fs.vfs entry) entry.data.length fs.vfs ((createEntry heap entry).run fs).2.vfs ∧
      ∀ root, fs.vfs.rootDentry = some root →
        ∃ counted, ((createEntry heap entry).run fs).1 = .ok counted := by
  have ends := @ensureParentDir_ends _ heap _ tree entry.path
  unfold createEntry
  cases ran : (ensureParentDir heap entry.path).run fs with
  | mk result middle =>
    rw [ran] at ends
    cases ends with
    | missing _ grown =>
      rw [run_bind_ok ran]
      exact ⟨grown.weaken (fun _ => trivial) zero_le, fun _ _ => ⟨false, rfl⟩⟩
    | unmounted _ reason grown rootless =>
      rw [run_bind_error ran]
      refine ⟨grown.weaken (fun _ => trivial) zero_le, fun root isRoot => ?_⟩
      rw [rootless] at isRoot
      cases isRoot
    | found parent dentry after grown live free =>
      have short := ensureParentDir_short ran
      rw [run_bind_ok ran]
      have shortName : (baseName entry.path).length ≤ 255 :=
        le_trans (length_baseName_le _) short
      have vacant : ((fs.vfs.entryParent entry.path).bind
          (fun parent => fs.vfs.child parent (baseName entry.path))) = none →
          ∀ old, fs.vfs.entryParent entry.path = some old →
            fs.vfs.child old (baseName entry.path) = none := by
        intro unused old same
        rw [same, Option.bind_some] at unused
        exact unused
      have ends :
        ∀ {kind : Prop} {size : Nat} {last : Fs τ} {outcome : Except (Stop Fault) Bool × Fs τ},
          (Free fs.vfs entry → kind) → Grown kind size after.vfs last.vfs →
            size ≤ entry.data.length →
          (∃ made, outcome = (.ok made, last)) →
          Grown (Free fs.vfs entry) entry.data.length fs.vfs outcome.2.vfs ∧
            ∀ root, fs.vfs.rootDentry = some root → ∃ counted, outcome.1 = .ok counted := by
        rintro kind size last _ enough grows small ⟨made, rfl⟩
        exact ⟨(grown.trans grows).weaken (fun unused => ⟨trivial, enough unused⟩)
          (Nat.max_le.mpr ⟨zero_le, small⟩),
          fun _ _ => ⟨made, rfl⟩⟩
      simp only
      by_cases isDirectory : entry.mode % 2 ^ 32 &&& cpioSIfmt = cpioSIfdir
      · rw [if_pos isDirectory]
        obtain ⟨result, plain, ranDir, creates⟩ :=
          @createDir_held _ heap _ grown.tree parent _ live (baseName entry.path)
        obtain ⟨grows, value, _, made⟩ := run_createIn grown.tree live shortName ranDir creates
        exact ends (fun unused => free _ (vacant (unused (.inl isDirectory)))) grows
          zero_le ⟨_, made⟩
      rw [if_neg isDirectory]
      by_cases isRegular : entry.mode % 2 ^ 32 &&& cpioSIfmt = cpioSIfreg
      · rw [if_pos isRegular]
        obtain ⟨result, plain, ranFile, creates⟩ :=
          @createFile_held _ heap _ grown.tree parent _ live (baseName entry.path) entry.data
        obtain ⟨grows, value, _, made⟩ := run_createIn grown.tree live shortName ranFile creates
        exact ends (fun unused => free _ (vacant (unused (.inr isRegular)))) grows
          le_rfl ⟨_, made⟩
      rw [if_neg isRegular, run_bind_ok (run_pure _ _), run_bind_ok (run_dput_held grown.tree live)]
      exact ends (fun _ => trivial) (@Grown.of_spent True 0 _ _ grown.tree (.refl _))
        zero_le ⟨false, rfl⟩

end Runs

end Synx.Initramfs
