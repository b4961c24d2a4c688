/-
The root file system at boot, `init_fs` of `src/kernel_main.cpp`: ramfs is
mounted and every boot module is loaded into it, one entry after another.
-/

import Synx.Fs.Loading
import Synx.Fs.Mounting
import Synx.Fs.Newc

namespace Synx.Initramfs

open Lib Program List Option
open Vfs
open Ramfs

section

variable {τ : Type} (heap : Heap τ)

/-- The first half of `init_fs`; `false` stands for `kernel_panic`. -/
def mountRoot : Call τ Bool := do
  match ← Ramfs.init heap with
  | none => pure false
  | some rootSb => do
      match ← Program.attempt (mount heap ramfs rootSb [slash]) with
      | .ok _ => pure true
      | .error _ => pure false

/-- The loop over the boot modules, which may be null. -/
def loadModules : List (Option (List UInt8)) → Call τ Bool
  | [] => pure true
  | none :: rest => loadModules rest
  | some archive :: rest => do
      let loaded ← initramfsLoad heap archive
      if loaded < 0 then pure false else loadModules rest

def initFs (modules : List (Option (List UInt8))) : Call τ Bool := do
  if ← mountRoot heap then loadModules heap modules else pure false

end

/-! ### The mounted root -/

section Mounted

variable {τ : Type} {heap : Heap τ}

/-- The root directory alone. -/
structure RootOnly (vfs : State) : Prop where
  tree : Tree vfs
  unopened : Unopened vfs
  unique : UniqueNames vfs
  paired : ∀ root, vfs.rootDentry = some root → Paired vfs
  fits : ∀ limit, Fits limit vfs
  directory : ∀ root, vfs.rootDentry = some root → vfs.typeOf root = some .directory
  childless : ∀ parent name, vfs.child parent name = none

theorem RootOnly.of_cells {vfs : State} {inode : Inode}
    (dentries : ∀ id dentry, vfs.dentries id = some dentry →
      id = 1 ∧ 1 < vfs.nextId ∧ ∃ address, dentry = ⟨address, [slash], some 0, none, [], 1⟩)
    (inodes : vfs.inodes = store (fun _ => none) 0 (some inode))
    (filled : Filled .directory [] inode) (known : 0 < vfs.nextId)
    (files : ∀ id, vfs.files id = none)
    (mounted : ∀ root, vfs.rootDentry = some root → ∃ dentry, vfs.dentries root = some dentry) :
    RootOnly vfs := by
  have inode_zero : vfs.inodes 0 = some inode := by
    rw [inodes]
    exact store_same
  have only_zero : ∀ id object, vfs.inodes id = some object → id = 0 ∧ object = inode := by
    intro id object found
    rw [inodes] at found
    by_cases zero : id = 0
    · rw [zero, store_same] at found
      exact ⟨zero, (some.inj found).symm⟩
    · rw [store_other zero] at found
      cases found
  refine
    { tree := ?_, unopened := ?_, unique := ?_, paired := ?_, fits := ?_, directory := ?_,
      childless := ?_ }
  · refine
      { root := ?_, inode := ?_, parent := ?_, child := ?_, distinct := ?_, leaf := ?_,
        counted := ?_, known := ?_, inodeKnown := ?_, file := ?_ }
    · intro root isRoot
      obtain ⟨dentry, live⟩ := mounted root isRoot
      obtain ⟨_, _, address, rfl⟩ := dentries root dentry live
      exact ⟨_, live, rfl⟩
    · intro id dentry live
      obtain ⟨_, _, address, rfl⟩ := dentries id dentry live
      exact ⟨0, inode, rfl, inode_zero⟩
    · intro id dentry above live points
      obtain ⟨_, _, address, rfl⟩ := dentries id dentry live
      cases points
    · intro id dentry below live member
      obtain ⟨_, _, address, rfl⟩ := dentries id dentry live
      cases member
    · intro id dentry live
      obtain ⟨_, _, address, rfl⟩ := dentries id dentry live
      exact nodup_nil
    · intro id dentry live _
      obtain ⟨_, _, address, rfl⟩ := dentries id dentry live
      rfl
    · intro id dentry live
      obtain ⟨_, _, address, rfl⟩ := dentries id dentry live
      exact Int.le_refl 1
    · intro id dentry live
      obtain ⟨rfl, later, _⟩ := dentries id dentry live
      exact later
    · intro id object live
      obtain ⟨rfl, _⟩ := only_zero id object live
      exact known
    · intro id file live
      rw [files] at live
      cases live
  · refine ⟨files, ?_⟩
    intro id dentry live
    obtain ⟨_, _, address, rfl⟩ := dentries id dentry live
    rfl
  · intro id dentry live
    obtain ⟨_, _, address, rfl⟩ := dentries id dentry live
    exact nodup_nil
  · intro root isRoot
    obtain ⟨dentry, liveRoot⟩ := mounted root isRoot
    refine { inode := ?_, holder := ?_, alone := ?_ }
    · intro id object live
      obtain ⟨_, rfl⟩ := only_zero id object live
      exact filled.refCount
    · intro id object live
      obtain ⟨rfl, _⟩ := only_zero id object live
      obtain ⟨_, _, address, rfl⟩ := dentries root dentry liveRoot
      exact ⟨root, _, liveRoot, rfl⟩
    · intro one two first second liveOne liveTwo _
      obtain ⟨rfl, _⟩ := dentries one first liveOne
      obtain ⟨rfl, _⟩ := dentries two second liveTwo
      rfl
  · intro limit id object live
    obtain ⟨_, rfl⟩ := only_zero id object live
    rw [filled.size, filled.contents]
    exact ⟨rfl, Nat.zero_le limit⟩
  · intro root isRoot
    obtain ⟨dentry, liveRoot⟩ := mounted root isRoot
    obtain ⟨_, _, address, rfl⟩ := dentries root dentry liveRoot
    rw [typeOf_of_live liveRoot rfl inode_zero, filled.type]
  · intro parent name
    unfold State.child
    cases live : vfs.dentries parent with
    | none => rfl
    | some dentry =>
      obtain ⟨_, _, address, rfl⟩ := dentries parent dentry live
      rfl

theorem run_init (fs : Fs τ) : (∃ after, (Ramfs.init heap).run fs = (.ok none, after)) ∨
      ∃ address inode after, Filled .directory [] inode ∧ (Ramfs.init heap).run fs =
        (.ok (some ⟨address, 0x52414D46, some fs.vfs.nextId⟩), ⟨fs.vfs.addInode inode, after⟩) := by
  unfold Ramfs.init
  have ran := run_slabAlloc heap fs sizeofSuperBlock
  cases allocated : heap.alloc sizeofSuperBlock fs.heap with
  | mk address memory =>
    rw [allocated] at ran
    rw [run_bind_ok ran]
    cases address with
    | none => exact .inl ⟨_, rfl⟩
    | some address =>
      simp only
      rcases run_allocInode heap ⟨fs.vfs, memory⟩ .directory with
        ⟨after, ranInode, _⟩ | ⟨inodeAddress, dataAddress, after, ranInode⟩
      · rw [run_bind_ok ranInode]
        exact .inl ⟨_, rfl⟩
      · rw [run_bind_ok ranInode]
        exact .inr ⟨address, _, after, ⟨rfl, rfl, rfl, rfl⟩, rfl⟩

theorem run_mount {fs : Fs τ} {sb : SuperBlock} {root : Nat} (has : sb.root = some root)
    (first : fs.vfs.rootMount = none) :
    (∃ code after, (mount heap ramfs sb [slash]).run fs = (.error (.code code), after)) ∨
      (∃ after, (mount heap ramfs sb [slash]).run fs =
        (.ok (), ⟨{ fs.vfs with
          rootMount := some ⟨sb, none⟩, mountList := ⟨sb, none⟩ :: fs.vfs.mountList }, after⟩) ∧
        MayFail heap) ∨
      ∃ address after, (mount heap ramfs sb [slash]).run fs =
        (.ok (), ⟨{ fs.vfs.setDentry fs.vfs.nextId
            (some ⟨address, [slash], some root, none, [], 1⟩) with
          nextId := fs.vfs.nextId + 1
          rootMount := some ⟨sb, some fs.vfs.nextId⟩
          mountList := ⟨sb, some fs.vfs.nextId⟩ :: fs.vfs.mountList }, after⟩) := by
  unfold mount
  rw [has]
  rw [if_neg (by simp)]
  have ran := run_slabAlloc heap fs sizeofMount
  cases allocated : heap.alloc sizeofMount fs.heap with
  | mk address memory =>
    rw [allocated] at ran
    rw [run_bind_ok ran]
    cases address with
    | none => exact .inl ⟨_, _, rfl⟩
    | some address =>
      simp only
      cases again : heap.alloc sizeofDentry memory with
      | mk place after =>
        cases place with
        | none =>
          rw [run_bind_ok (@run_dAlloc_none _ heap ⟨fs.vfs, memory⟩ _ _ _ _ again),
            run_bind_ok (run_gets _ _)]
          simp only [first]
          exact .inr (.inl ⟨after, rfl, sizeofDentry, memory, by rw [again]⟩)
        | some place =>
          rw [run_bind_ok (@run_dAlloc_root _ heap ⟨fs.vfs, memory⟩ _ _ _ again),
            run_bind_ok (run_gets _ _)]
          simp only [State.addRoot, State.setDentry, first]
          exact .inr (.inr ⟨place, after, rfl⟩)

theorem run_mountRoot {memory : τ} {start : Fs τ}
    (mounted : (mountRoot heap).run ⟨State.blank, memory⟩ = (.ok true, start)) :
    RootOnly start.vfs ∧ (MayFail heap ∨ ∃ root, start.vfs.rootDentry = some root) := by
  unfold mountRoot at mounted
  rcases @run_init _ heap ⟨State.blank, memory⟩ with
    ⟨after, ran⟩ | ⟨address, inode, after, filled, ran⟩
  · rw [run_bind_ok ran] at mounted
    cases mounted
  rw [run_bind_ok ran] at mounted
  simp only at mounted
  have inodes : (State.blank.addInode inode).inodes = store (fun _ => none) 0 (some inode) := rfl
  rcases @run_mount _ heap ⟨State.blank.addInode inode, after⟩
      ⟨address, 0x52414D46, some State.blank.nextId⟩ State.blank.nextId rfl rfl with
    ⟨code, last, failed⟩ | ⟨last, bare, fails⟩ | ⟨place, last, made⟩
  · rw [run_bind_ok (run_attempt_code failed)] at mounted
    cases mounted
  · rw [run_bind_ok (run_attempt_ok bare)] at mounted
    cases mounted
    refine ⟨.of_cells ?_ inodes filled zero_lt_one (fun _ => rfl) ?_, .inl fails⟩
    · intro id dentry live
      cases live
    · intro root isRoot
      cases isRoot
  · rw [run_bind_ok (run_attempt_ok made)] at mounted
    cases mounted
    refine ⟨.of_cells ?_ inodes filled (Nat.succ_pos _) (fun _ => rfl) ?_, .inr ⟨1, rfl⟩⟩
    · intro id dentry live
      change store (fun _ => none) 1 _ id = _ at live
      by_cases one : id = 1
      · rw [one, store_same] at live
        exact ⟨one, Nat.lt_succ_self 1, place, (some.inj live).symm⟩
      · rw [store_other one] at live
        cases live
    · intro root isRoot
      cases isRoot
      exact ⟨⟨place, [slash], some 0, none, [], 1⟩, rfl⟩

end Mounted

/-! ### Loading -/

/-- The entries of the boot modules in the order of loading. -/
def entriesOf (modules : List (Option (List UInt8))) : List Entry :=
  modules.flatMap (fun archive => (decode (archive.getD [])).1)

section States

variable {τ : Type} (heap : Heap τ)

def loaded (fs : Fs τ) (entries : List Entry) : Fs τ :=
  entries.foldl (fun now entry => ((createEntry heap entry).run now).2) fs

/-- The states that loading the modules goes through. -/
def stateAfter (start : Fs τ) (modules : List (Option (List UInt8))) (count : Nat) : Fs τ :=
  loaded heap start ((entriesOf modules).take count)

/-- `path_walk` finds a regular file with the given inode. -/
def FileAt (fs : Fs τ) (path : Name) (inode : Nat) : Prop :=
  ∃ id, ((pathWalk heap ramfs path).run fs).1 = .ok id ∧ fs.vfs.typeOf id = some .regular ∧
    (fs.vfs.dentries id).bind Dentry.inode = some inode

variable {heap}

theorem stateAfter_succ (start : Fs τ) (modules : List (Option (List UInt8))) {count : Nat}
    {entry : Entry} (next : (entriesOf modules)[count]? = some entry) :
    stateAfter heap start modules (count + 1) =
      ((createEntry heap entry).run (stateAfter heap start modules count)).2 := by
  unfold stateAfter loaded
  rw [take_add_one, next, toList_some, foldl_append]
  rfl

theorem stateAfter_end (start : Fs τ) (modules : List (Option (List UInt8))) {count : Nat}
    (ended : (entriesOf modules)[count]? = none) :
    stateAfter heap start modules (count + 1) = stateAfter heap start modules count := by
  unfold stateAfter
  rw [take_add_one, ended, toList_none, append_nil]

theorem loadEntries_state (entries : List Entry) (ending : Ending) (count : Int) (fs : Fs τ) :
    ∃ done, ((loadEntries heap entries ending count).run fs).2 =
      loaded heap fs (entries.take done) ∧
      ∀ value, ((loadEntries heap entries ending count).run fs).1 = .ok value →
        entries.take done = entries := by
  induction entries generalizing count fs with
  | nil =>
    refine ⟨0, ?_, fun _ _ => rfl⟩
    cases ending <;> rfl
  | cons entry rest ih =>
    unfold loadEntries
    rw [run_bind]
    cases ran : (createEntry heap entry).run fs with
    | mk result after =>
      have step : ((createEntry heap entry).run fs).2 = after := by rw [ran]
      cases result with
      | error reason =>
        refine ⟨1, ?_, fun _ same => ?_⟩
        · rw [take_succ_cons, take_zero]
          exact step.symm
        · cases same
      | ok counted =>
        obtain ⟨done, state, all⟩ := ih (if counted then count + 1 else count) after
        refine ⟨done + 1, ?_, fun value same => ?_⟩
        · rw [take_succ_cons]
          unfold loaded
          rw [foldl_cons, step]
          exact state
        · rw [take_succ_cons, all value same]

theorem loaded_append (fs : Fs τ) (first second : List Entry) :
    loaded heap fs (first ++ second) = loaded heap (loaded heap fs first) second :=
  foldl_append

theorem loadModules_state (modules : List (Option (List UInt8))) (start : Fs τ) :
    ∃ done, ((loadModules heap modules).run start).2 =
      loaded heap start ((entriesOf modules).take done) := by
  induction modules generalizing start with
  | nil => exact ⟨0, rfl⟩
  | cons archive rest ih =>
    cases archive with
    | none =>
      -- a null module has no entries
      have skipped : entriesOf (none :: rest) = entriesOf rest := rfl
      rw [skipped]
      exact ih start
    | some archive =>
      have split_ : entriesOf (some archive :: rest) = (decode archive).1 ++ entriesOf rest := rfl
      obtain ⟨done, state, all⟩ :=
        @loadEntries_state _ heap (decode archive).1 (decode archive).2 0 start
      rw [← run_initramfsLoad] at state all
      unfold loadModules
      rw [run_bind, split_]
      cases ran : (initramfsLoad heap archive).run start with
      | mk result after =>
        rw [ran] at state all
        have stops : ∃ total, after =
            loaded heap start (((decode archive).1 ++ entriesOf rest).take total) := by
          refine ⟨min done (decode archive).1.length, ?_⟩
          rw [take_append_of_le_length (min_le_right _ _)]
          rw [← take_eq_take_min]
          exact state
        cases result with
        | error reason => exact stops
        | ok value =>
          simp only
          split
          · exact stops
          · obtain ⟨more, later⟩ := ih after
            refine ⟨(decode archive).1.length + more, ?_⟩
            rw [take_length_add_append, loaded_append, later]
            rw [all value rfl] at state
            rw [← state]

end States

section Safety

variable {τ : Type} {heap : Heap τ}

theorem stateAfter_grown (start : Fs τ) (tree : Tree start.vfs) (unique : UniqueNames start.vfs)
    (modules : List (Option (List UInt8)))
    (free : ∀ count entry, (entriesOf modules)[count]? = some entry →
      Free (stateAfter heap start modules count).vfs entry) (count : Nat) :
    Tree (stateAfter heap start modules count).vfs ∧
      UniqueNames (stateAfter heap start modules count).vfs := by
  induction count with
  | zero => exact ⟨tree, unique⟩
  | succ count ih =>
    cases next : (entriesOf modules)[count]? with
    | none =>
      rw [stateAfter_end start modules next]
      exact ih
    | some entry =>
      rw [stateAfter_succ start modules next]
      have grown := (@createEntry_grown _ heap _ ih.1 entry).1
      exact ⟨grown.tree, grown.unique (free count entry next) ih.2⟩

/-! ### The tree after the boot -/

/-- The file system after `init_fs`: a mounted root and the entries of the boot
modules. -/
structure TreeBuilt (heap : Heap τ) (memory : τ) (modules : List (Option (List UInt8)))
    (start fs : Fs τ) :
    Prop where
  mounted : (mountRoot heap).run ⟨State.blank, memory⟩ = (.ok true, start)
  loaded : (loadModules heap modules).run start = (.ok true, fs)

variable {memory : τ} {modules : List (Option (List UInt8))} {fs start : Fs τ}

theorem initFs_treeBuilt (ran : (initFs heap modules).run ⟨State.blank, memory⟩ = (.ok true, fs)) :
    ∃ start, TreeBuilt heap memory modules start fs := by
  obtain ⟨done, start, mounted, rest⟩ := run_bind_eq_ok ran
  cases done with
  | false => cases rest
  | true => exact ⟨start, mounted, rest⟩

theorem entriesOf_sizes (modules : List (Option (List UInt8))) :
    ∀ entry ∈ entriesOf modules, entry.data.length ≤ 2 ^ 32 := by
  intro entry member
  obtain ⟨archive, _, isEntry⟩ := mem_flatMap.mp member
  exact decode_sizes _ entry isEntry

theorem loaded_grown {start : Fs τ} (tree : Tree start.vfs) {entries : List Entry}
    (sizes : ∀ entry ∈ entries, entry.data.length ≤ 2 ^ 32) :
    Grown False (2 ^ 32) start.vfs (Initramfs.loaded heap start entries).vfs := by
  induction entries generalizing start with
  | nil => exact .of_spent tree (.refl start.vfs)
  | cons entry rest ih =>
    have first := (@createEntry_grown _ heap _ tree entry).1
    have later := ih first.tree (fun other member => sizes other (.tail _ member))
    refine (first.trans later).weaken (fun impossible => impossible.elim) ?_
    exact max_le (sizes entry (.head _)) le_rfl

/-- Nothing is open, and no file is larger than an archive can say. -/
structure FreshTree (vfs : State) : Prop where
  tree : Tree vfs
  unopened : Unopened vfs
  fits : Fits (2 ^ 32) vfs

section

variable (built : TreeBuilt heap memory modules start fs)

include built

theorem TreeBuilt.grown : Grown False (2 ^ 32) start.vfs fs.vfs := by
  obtain ⟨done, isState⟩ := @loadModules_state _ heap modules start
  rw [built.loaded] at isState
  have root := (run_mountRoot built.mounted).1
  have grown := @loaded_grown _ heap start root.tree ((entriesOf modules).take done)
    (fun entry member => entriesOf_sizes modules entry (mem_of_mem_take member))
  rw [← isState] at grown
  exact grown

theorem TreeBuilt.fresh : FreshTree fs.vfs := by
  have root := (run_mountRoot built.mounted).1
  have grown := built.grown
  exact ⟨grown.tree, grown.unopened root.unopened, grown.fits _ le_rfl (root.fits _)⟩

theorem TreeBuilt.paired {root : Nat} (isRoot : start.vfs.rootDentry = some root) : Paired fs.vfs :=
  built.grown.paired ((run_mountRoot built.mounted).1.paired root isRoot)

end

theorem FileAt.absolute {path : Name} {inode : Nat} (found : FileAt heap fs path inode) :
    path.head? = some slash := by
  by_contra relative
  obtain ⟨id, walked, _⟩ := found
  unfold pathWalk at walked
  rw [if_pos relative] at walked
  cases walked

theorem FileAt.kept {before after : Fs τ} (tree : Tree before.vfs) (treeAfter : Tree after.vfs)
    (extended : Extends before.vfs after.vfs) {path : Name} {inode : Nat}
    (found : FileAt heap before path inode) : FileAt heap after path inode := by
  have absolute := found.absolute
  obtain ⟨id, walked, regular, points⟩ := found
  have named := (pathWalk_ok_iff tree absolute id).mp walked
  refine ⟨id, (pathWalk_ok_iff treeAfter absolute id).mpr (extended.names tree named),
    extended.typeOf regular, ?_⟩
  obtain ⟨dentry, live, has⟩ := bind_eq_some_iff.mp points
  obtain ⟨later, liveLater, same, _⟩ := extended.dentry id dentry live
  rw [liveLater, bind_some, same, has]

/-- Loading the boot modules into a mounted root, when no entry takes a name that
its directory already has: at every entry the names in each directory differ,
and every path to a regular file still leads to its inode. -/
theorem loading_keeps_files (memory : τ) (start : Fs τ)
    (mounted : (mountRoot heap).run ⟨State.blank, memory⟩ = (.ok true, start))
    (modules : List (Option (List UInt8)))
    (free : ∀ count entry, (entriesOf modules)[count]? = some entry →
      Free (stateAfter heap start modules count).vfs entry) :
    (∀ count, UniqueNames (stateAfter heap start modules count).vfs) ∧
      (∀ count path inode, FileAt heap (stateAfter heap start modules count) path inode →
        FileAt heap (stateAfter heap start modules (count + 1)) path inode) ∧
      ∃ count, ((loadModules heap modules).run start).2 = stateAfter heap start modules count := by
  have root := (run_mountRoot mounted).1
  have states := stateAfter_grown start root.tree root.unique modules free
  refine ⟨fun count => (states count).2, ?_, loadModules_state modules start⟩
  intro count path inode found
  cases next : (entriesOf modules)[count]? with
  | none =>
    rw [stateAfter_end start modules next]
    exact found
  | some entry =>
    have grown := (@createEntry_grown _ heap _ (states count).1 entry).1
    rw [stateAfter_succ start modules next]
    exact FileAt.kept (states count).1 grown.tree (grown.kept (free count entry next)) found

end Safety

/-! ### A directory after its file -/

/-- The root of a kernel whose memory never runs out. -/
def mountedRoot : Fs Nat := ((mountRoot endless).run ⟨State.blank, 0⟩).2

/-- The empty file `a/b`. -/
def fileInside : Member := { path := [97, slash, 98], body := some [] }

/-- The directory `a`. -/
def directoryAbove : Member := { path := [97], body := none }

theorem loading_keeps_ordered :
    (∀ count, UniqueNames (stateAfter endless mountedRoot
        [some (newcArchive [directoryAbove, fileInside] [])] count).vfs) ∧
      (∀ count path inode,
        FileAt endless (stateAfter endless mountedRoot
          [some (newcArchive [directoryAbove, fileInside] [])] count) path inode →
        FileAt endless (stateAfter endless mountedRoot
          [some (newcArchive [directoryAbove, fileInside] [])] (count + 1)) path inode) ∧
      ∃ count, ((loadModules endless
          [some (newcArchive [directoryAbove, fileInside] [])]).run mountedRoot).2 =
        stateAfter endless mountedRoot [some (newcArchive [directoryAbove, fileInside] [])]
          count := by
  refine loading_keeps_files 0 mountedRoot rfl _ ?_
  have length : (entriesOf [some (newcArchive [directoryAbove, fileInside] [])]).length = 2 := by
    decide +kernel
  intro count entry next
  have small : count < 2 := by
    rw [← length]
    exact (List.getElem?_eq_some_iff.mp next).1
  have checked : ∀ n, n < 2 → ∀ entry ∈ (entriesOf
      [some (newcArchive [directoryAbove, fileInside] [])])[n]?,
      Free (stateAfter endless mountedRoot
        [some (newcArchive [directoryAbove, fileInside] [])] n).vfs entry := by
    decide +kernel
  exact checked count small entry next

/-- The entry `a` after the entry `a/b`: a second directory `a` hides the first
one, and the file is gone. -/
theorem loading_hides_file :
    (mountRoot endless).run ⟨State.blank, 0⟩ = (.ok true, mountedRoot) ∧
      (entriesOf [some (newcArchive [fileInside, directoryAbove] [])]).map Entry.path =
        [[97, slash, 98], [97]] ∧
      FileAt endless (stateAfter endless mountedRoot
        [some (newcArchive [fileInside, directoryAbove] [])] 1) [slash, 97, slash, 98] 5 ∧
      ((pathWalk endless ramfs [slash, 97, slash, 98]).run (stateAfter endless mountedRoot
        [some (newcArchive [fileInside, directoryAbove] [])] 2)).1 = .error (.code (-ENOENT)) ∧
      ¬UniqueNames (stateAfter endless mountedRoot
        [some (newcArchive [fileInside, directoryAbove] [])] 2).vfs := by
  refine ⟨rfl, by decide +kernel, ⟨6, by decide +kernel, by decide +kernel, by decide +kernel⟩,
    by decide +kernel, ?_⟩
  intro unique
  have root : ((stateAfter endless mountedRoot
      [some (newcArchive [fileInside, directoryAbove] [])] 2).vfs.dentries 1).map (fun dentry =>
        dentry.children.map (fun child => ((stateAfter endless mountedRoot
          [some (newcArchive [fileInside, directoryAbove] [])] 2).vfs.dentries child).map
            Dentry.name)) = some [some [97], some [97]] := by
    decide +kernel
  obtain ⟨dentry, live, names⟩ := map_eq_some_iff.mp root
  have nodup := unique 1 dentry live
  rw [names] at nodup
  exact absurd nodup (by decide)

end Synx.Initramfs
