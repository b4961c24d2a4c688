/-
The reference counts of the tree and of the open files.
-/

import Synx.Fs.OpenFiles
import Synx.Lib.Counting

namespace Synx.Vfs

open Lib Option

namespace State

def fileDentry (vfs : State) (id : Nat) : Option Nat := (vfs.files id).map File.dentry

def dentryInode (vfs : State) (id : Nat) : Option Nat := (vfs.dentries id).bind Dentry.inode

end State

theorem store_eq_update {α : Type} (cells : Nat → Option α) (id : Nat) (cell : Option α) :
    store cells id cell = Function.update cells id cell := by
  funext other
  by_cases same : other = id
  · rw [same, store_same, Function.update_self]
  · rw [store_other same, Function.update_of_ne same]

theorem fileDentry_setFile (vfs : State) (id : Nat) (file : Option File) :
    (vfs.setFile id file).fileDentry =
      Function.update vfs.fileDentry id (file.map File.dentry) := by
  funext other
  unfold State.fileDentry State.setFile
  by_cases same : other = id
  · rw [same, Function.update_self]
    simp only [store_same]
  · rw [Function.update_of_ne same]
    simp only [store_other same]

theorem fileDentry_changed {vfs : State} {id : Nat} {file changed : File}
    (live : vfs.files id = some file) (sameDentry : changed.dentry = file.dentry) :
    (vfs.setFile id (some changed)).fileDentry = vfs.fileDentry := by
  have here : some file.dentry = vfs.fileDentry id := by
    rw [State.fileDentry, live, map_some]
  rw [fileDentry_setFile, map_some, sameDentry, here, Function.update_eq_self]

theorem Tree.setFile {vfs : State} (tree : Tree vfs) {id : Nat} {file : Option File}
    (good : ∀ object, file = some object →
      id < vfs.nextId ∧ ∃ dentry, vfs.dentries object.dentry = some dentry) :
    Tree (vfs.setFile id file) :=
  { root := tree.root
    inode := tree.inode
    parent := tree.parent
    child := tree.child
    distinct := tree.distinct
    leaf := tree.leaf
    counted := tree.counted
    known := tree.known
    inodeKnown := tree.inodeKnown
    file := by
      intro other object live
      change store vfs.files id file other = some object at live
      by_cases same : other = id
      · rw [same, store_same] at live
        rw [same]
        exact good object live
      · rw [store_other same] at live
        exact tree.file other object live }

theorem Tree.opened {vfs : State} (tree : Tree vfs) {target : Nat} {object : Dentry}
    (live : vfs.dentries target = some object) (address flags : Nat) :
    Tree (vfs.opened target address flags) := by
  have older := (tree.held target).aged (Nat.le_succ vfs.nextId)
  refine older.setFile ?_
  rintro _ ⟨⟩
  exact ⟨Nat.lt_succ_self _, _, vfs.adjust_dentries _ live⟩

/-- Every reference is counted, and the slots below the size of the table are the
only ones. -/
structure Accounts (size : Nat) (slots : Nat → Option Nat) (vfs : State) : Prop where
  tree : Tree vfs
  slot : ∀ fd id, slots fd = some id → fd < size ∧ ∃ file, vfs.files id = some file
  held : ∀ id file, vfs.files id = some file → ∃ fd, slots fd = some id
  file : ∀ id file, vfs.files id = some file → file.refCount = (fibre slots id).ncard
  dentry : ∀ id dentry, vfs.dentries id = some dentry →
    dentry.refCount = 1 + (fibre vfs.fileDentry id).ncard

namespace Accounts

variable {size : Nat} {slots : Nat → Option Nat} {vfs : State}

section

variable (accounts : Accounts size slots vfs)

include accounts

theorem slots_finite (id : Nat) : (fibre slots id).Finite :=
  fibre_finite (fun fd other points => (accounts.slot fd other points).1) id

theorem files_finite (id : Nat) : (fibre vfs.fileDentry id).Finite := by
  refine @fibre_finite _ _ vfs.nextId ?_ id
  intro other dentry points
  obtain ⟨file, live, _⟩ := map_eq_some_iff.mp points
  exact (accounts.tree.file other file live).1

theorem live {fd id : Nat} (points : slots fd = some id) :
    ∃ file dentry, vfs.files id = some file ∧ vfs.dentries file.dentry = some dentry ∧
      1 ≤ file.refCount ∧ 2 ≤ dentry.refCount := by
  obtain ⟨_, file, liveFile⟩ := accounts.slot fd id points
  obtain ⟨_, dentry, liveDentry⟩ := accounts.tree.file id file liveFile
  have someSlot : 0 < (fibre slots id).ncard :=
    (Set.ncard_pos (accounts.slots_finite id)).mpr ⟨fd, points⟩
  have someFile : 0 < (fibre vfs.fileDentry file.dentry).ncard := by
    refine (Set.ncard_pos (accounts.files_finite _)).mpr ⟨id, ?_⟩
    rw [mem_fibre, State.fileDentry, liveFile, map_some]
  have fileCount := accounts.file id file liveFile
  have dentryCount := accounts.dentry file.dentry dentry liveDentry
  exact ⟨file, dentry, liveFile, liveDentry, by omega, by omega⟩

theorem aged {nextId : Nat} (later : vfs.nextId ≤ nextId) :
    Accounts size slots { vfs with nextId := nextId } :=
  { tree := accounts.tree.aged later
    slot := accounts.slot
    held := accounts.held
    file := accounts.file
    dentry := accounts.dentry }

end

theorem edited (accounts : Accounts size slots vfs) {id : Nat} {file changed : File}
    (live : vfs.files id = some file) (sameDentry : changed.dentry = file.dentry)
    (sameCount : changed.refCount = file.refCount) :
    Accounts size slots (vfs.setFile id (some changed)) := by
  refine
    { tree := accounts.tree.setFile ?_, slot := ?_, held := ?_, file := ?_, dentry := ?_ }
  · rintro _ ⟨⟩
    rw [sameDentry]
    exact accounts.tree.file id file live
  · intro fd other points
    obtain ⟨inside, object, found⟩ := accounts.slot fd other points
    refine ⟨inside, ?_⟩
    by_cases same : other = id
    · exact ⟨changed, by rw [same]; exact store_same⟩
    · exact ⟨object, (store_other same).trans found⟩
  · intro other object found
    change store vfs.files id _ other = some object at found
    by_cases same : other = id
    · rw [same]
      exact accounts.held id file live
    · rw [store_other same] at found
      exact accounts.held other object found
  · intro other object found
    change store vfs.files id _ other = some object at found
    by_cases same : other = id
    · rw [same, store_same] at found
      cases found
      rw [same, sameCount]
      exact accounts.file id file live
    · rw [store_other same] at found
      exact accounts.file other object found
  · intro other dentry found
    rw [fileDentry_changed live sameDentry]
    exact accounts.dentry other dentry found

theorem opened (accounts : Accounts size slots vfs) {fd target address flags : Nat}
    {object : Dentry} (inside : fd < size) (free : slots fd = none)
    (live : vfs.dentries target = some object) :
    Accounts size (Function.update slots fd (some vfs.nextId))
      (vfs.opened target address flags) := by
  have unused : vfs.files vfs.nextId = none := by
    cases found : vfs.files vfs.nextId with
    | none => rfl
    | some file => exact absurd (accounts.tree.file _ file found).1 (lt_irrefl _)
  have unpointed : ∀ other, slots other ≠ some vfs.nextId := by
    intro other points
    obtain ⟨_, file, found⟩ := accounts.slot other _ points
    rw [unused] at found
    cases found
  have fileDentry : (vfs.opened target address flags).fileDentry =
      Function.update vfs.fileDentry vfs.nextId (some target) :=
    fileDentry_setFile (vfs.adjust (Pi.single target 1)) vfs.nextId _
  refine { tree := ?_, slot := ?_, held := ?_, file := ?_, dentry := ?_ }
  · exact accounts.tree.opened live address flags
  · intro other id points
    by_cases same : other = fd
    · rw [same, Function.update_self] at points
      cases points
      exact ⟨same ▸ inside, _, store_same⟩
    · rw [Function.update_of_ne same] at points
      obtain ⟨bounded, file, found⟩ := accounts.slot other id points
      refine ⟨bounded, file, (store_other ?_).trans found⟩
      rintro rfl
      exact unpointed other points
  · intro id file found
    change store vfs.files vfs.nextId _ id = some file at found
    by_cases same : id = vfs.nextId
    · exact ⟨fd, by rw [Function.update_self, same]⟩
    · rw [store_other same] at found
      obtain ⟨other, points⟩ := accounts.held id file found
      refine ⟨other, ?_⟩
      rw [Function.update_of_ne, points]
      rintro rfl
      rw [free] at points
      cases points
  · intro id file found
    change store vfs.files vfs.nextId _ id = some file at found
    rw [ncard_fibre_update _ _ _ _ (accounts.slots_finite id), free, if_neg (by simp)]
    by_cases same : id = vfs.nextId
    · rw [same, store_same] at found
      cases found
      have empty : fibre slots id = ∅ := by
        rw [Set.eq_empty_iff_forall_notMem, same]
        exact unpointed
      rw [empty, Set.ncard_empty, if_pos (by rw [same])]
      rfl
    · rw [store_other same] at found
      rw [accounts.file id file found, if_neg (by simpa using fun eq => same eq.symm)]
      omega
  · intro id dentry found
    obtain ⟨before, foundBefore, rfl⟩ := State.of_adjust found
    have count := accounts.dentry id before foundBefore
    have old : vfs.fileDentry vfs.nextId = none := by rw [State.fileDentry, unused, map_none]
    rw [fileDentry, ncard_fibre_update _ _ _ _ (accounts.files_finite id), old,
      if_neg (by simp), Pi.single_apply]
    simp only [some.injEq, eq_comm]
    omega

theorem shared (accounts : Accounts size slots vfs) {fd id : Nat} {file : File} (inside : fd < size)
    (free : slots fd = none) (live : vfs.files id = some file) :
    Accounts size (Function.update slots fd (some id))
      (vfs.setFile id (some { file with refCount := file.refCount + 1 })) := by
  refine
    { tree := accounts.tree.setFile ?_, slot := ?_, held := ?_, file := ?_, dentry := ?_ }
  · rintro _ ⟨⟩
    exact accounts.tree.file id file live
  · intro other target points
    have liveTarget : other < size ∧ ∃ object, vfs.files target = some object := by
      by_cases same : other = fd
      · rw [same, Function.update_self] at points
        cases points
        exact ⟨same ▸ inside, file, live⟩
      · rw [Function.update_of_ne same] at points
        exact accounts.slot other target points
    obtain ⟨bounded, object, found⟩ := liveTarget
    refine ⟨bounded, ?_⟩
    by_cases same : target = id
    · exact ⟨_, by rw [same]; exact store_same⟩
    · exact ⟨object, (store_other same).trans found⟩
  · intro other object found
    change store vfs.files id _ other = some object at found
    by_cases same : other = id
    · exact ⟨fd, by rw [Function.update_self, same]⟩
    · rw [store_other same] at found
      obtain ⟨place, points⟩ := accounts.held other object found
      refine ⟨place, ?_⟩
      rw [Function.update_of_ne, points]
      rintro rfl
      rw [free] at points
      cases points
  · intro other object found
    change store vfs.files id _ other = some object at found
    rw [ncard_fibre_update _ _ _ _ (accounts.slots_finite other), free, if_neg (by simp)]
    by_cases same : other = id
    · rw [same, store_same] at found
      cases found
      have count := accounts.file id file live
      rw [same, if_pos rfl]
      simp only
      omega
    · rw [store_other same] at found
      rw [accounts.file other object found, if_neg (by simpa using fun eq => same eq.symm)]
      omega
  · intro other dentry found
    rw [@fileDentry_changed vfs id file { file with refCount := file.refCount + 1 } live rfl]
    exact accounts.dentry other dentry found

theorem closed (accounts : Accounts size slots vfs) {fd id : Nat} {file : File}
    (points : slots fd = some id) (live : vfs.files id = some file) :
    Accounts size (Function.update slots fd none) (vfs.closed id file) := by
  have count := accounts.file id file live
  have slotCount : ∀ other, ((fibre (Function.update slots fd none) other).ncard : Int) =
      (fibre slots other).ncard - if id = other then 1 else 0 := by
    intro other
    rw [ncard_fibre_update _ _ _ _ (accounts.slots_finite other), points]
    simp
  by_cases last : file.refCount = 1
  · have onlyOne : ∀ other, slots other = some id → other = fd := by
      intro other also
      have single : (fibre slots id).ncard = 1 := by omega
      obtain ⟨place, isSingle⟩ := Set.ncard_eq_one.mp single
      have first : fd ∈ fibre slots id := points
      have second : other ∈ fibre slots id := also
      rw [isSingle, Set.mem_singleton_iff] at first second
      rw [first, second]
    have state : vfs.closed id file =
        (vfs.adjust (Pi.single file.dentry (-1))).setFile id none := if_pos last
    have dentryCount : ∀ other dentry, vfs.dentries other = some dentry →
        dentry.refCount + (Pi.single file.dentry (-1) : Nat → Int) other =
          1 + (fibre (Function.update vfs.fileDentry id none) other).ncard := by
      intro other dentry found
      have here : vfs.fileDentry id = some file.dentry := by
        rw [State.fileDentry, live, map_some]
      rw [accounts.dentry other dentry found,
        ncard_fibre_update _ _ _ _ (accounts.files_finite other), here, Pi.single_apply]
      simp only [some.injEq, reduceCtorEq, if_false, eq_comm]
      split <;> omega
    rw [state]
    refine { tree := ?_, slot := ?_, held := ?_, file := ?_, dentry := ?_ }
    · refine Tree.setFile (accounts.tree.adjust _ ?_) (by rintro _ ⟨⟩)
      intro other dentry found
      rw [dentryCount other dentry found]
      omega
    · intro other target also
      by_cases same : other = fd
      · rw [same, Function.update_self] at also
        cases also
      · rw [Function.update_of_ne same] at also
        obtain ⟨bounded, object, found⟩ := accounts.slot other target also
        refine ⟨bounded, object, (store_other ?_).trans found⟩
        rintro rfl
        exact same (onlyOne other also)
    · intro other object found
      change store vfs.files id none other = some object at found
      by_cases same : other = id
      · rw [same, store_same] at found
        cases found
      · rw [store_other same] at found
        obtain ⟨place, also⟩ := accounts.held other object found
        refine ⟨place, ?_⟩
        rw [Function.update_of_ne, also]
        rintro rfl
        rw [points] at also
        exact same (some.inj also).symm
    · intro other object found
      change store vfs.files id none other = some object at found
      by_cases same : other = id
      · rw [same, store_same] at found
        cases found
      · rw [store_other same] at found
        rw [slotCount, if_neg (fun eq => same eq.symm), accounts.file other object found]
        omega
    · intro other dentry found
      obtain ⟨before, foundBefore, rfl⟩ := State.of_adjust found
      rw [fileDentry_setFile]
      exact dentryCount other before foundBefore
  · have state : vfs.closed id file =
        vfs.setFile id (some { file with refCount := file.refCount - 1 }) := if_neg last
    rw [state]
    refine
      { tree := accounts.tree.setFile ?_, slot := ?_, held := ?_, file := ?_, dentry := ?_ }
    · rintro _ ⟨⟩
      exact accounts.tree.file id file live
    · intro other target also
      by_cases same : other = fd
      · rw [same, Function.update_self] at also
        cases also
      · rw [Function.update_of_ne same] at also
        obtain ⟨bounded, object, found⟩ := accounts.slot other target also
        refine ⟨bounded, ?_⟩
        by_cases isFile : target = id
        · exact ⟨_, by rw [isFile]; exact store_same⟩
        · exact ⟨object, (store_other isFile).trans found⟩
    · intro other object found
      change store vfs.files id _ other = some object at found
      by_cases same : other = id
      · have some_ : 0 < (fibre (Function.update slots fd none) id).ncard := by
          have left := slotCount id
          have positive := (accounts.live points)
          obtain ⟨_, _, sameLive, _, atLeast, _⟩ := positive
          rw [live] at sameLive
          cases sameLive
          rw [if_pos rfl] at left
          omega
        obtain ⟨place, member⟩ := Set.nonempty_of_ncard_ne_zero (Nat.pos_iff_ne_zero.mp some_)
        exact ⟨place, by rw [same]; exact member⟩
      · rw [store_other same] at found
        obtain ⟨place, also⟩ := accounts.held other object found
        refine ⟨place, ?_⟩
        rw [Function.update_of_ne, also]
        rintro rfl
        rw [points] at also
        exact same (some.inj also).symm
    · intro other object found
      change store vfs.files id _ other = some object at found
      rw [slotCount]
      by_cases same : other = id
      · rw [same, store_same] at found
        cases found
        rw [same, if_pos rfl]
        simp only
        omega
      · rw [store_other same] at found
        rw [if_neg (fun eq => same eq.symm), accounts.file other object found]
        omega
    · intro other dentry found
      rw [@fileDentry_changed vfs id file { file with refCount := file.refCount - 1 } live rfl]
      exact accounts.dentry other dentry found

end Accounts

end Synx.Vfs
