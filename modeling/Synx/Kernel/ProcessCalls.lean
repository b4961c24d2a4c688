/-
`execve` and `exit` in a sound state.  Loading an image opens and closes a file
and leaves the tree as it was; the cleanup loops close the descriptors they look
at.
-/

import Synx.Kernel.FileCalls
import Synx.Kernel.Process
import Synx.Kernel.VectorBuffers

namespace Synx.Kernel

open Lib Program List Function
open Exec
open Ramfs (ramfs)
open Vfs (Fault Fs)

/-! ### The file of an image -/

theorem closed_opened {vfs : Vfs.State} (unused : vfs.files vfs.nextId = none)
    (target address flags offset : Nat) :
    ((vfs.opened target address flags).setFile vfs.nextId
        (some ⟨address, target, offset, flags, 1⟩)).closed vfs.nextId
        ⟨address, target, offset, flags, 1⟩ =
      { vfs with nextId := vfs.nextId + 1 } := by
  have net : (Pi.single target 1 + Pi.single target (-1) : Nat → Int) = 0 := by
    rw [Pi.single_neg]
    abel
  have dentries := congrArg Vfs.State.dentries (vfs.adjust_adjust (Pi.single target 1)
    (Pi.single target (-1)))
  rw [net, Vfs.State.adjust_zero] at dentries
  have files : Vfs.store vfs.files vfs.nextId none = vfs.files := by
    rw [← unused, Vfs.store_eq_update, update_eq_self]
  simp only [Vfs.State.adjust] at dentries
  simp only [Vfs.State.closed, Vfs.State.opened, Vfs.State.setFile, Vfs.State.adjust, if_true,
    Vfs.store_store, files, dentries]

/-- The state while the file of an image is open. -/
def State.reading (kernel : State) (target address offset : Nat) (pages : Pages) : State :=
  { kernel with
    vfs := (kernel.vfs.opened target address Vfs.oRdonly).setFile kernel.vfs.nextId
      (some ⟨address, target, offset, Vfs.oRdonly, 1⟩)
    pages := pages }

theorem Same.ofPages {before now : State} (same : Same before now) {later : State}
    (vfs : later.vfs = now.vfs) (openFiles : later.openFiles = now.openFiles)
    (fdFlags : later.fdFlags = now.fdFlags)
    (directory : later.currentDirectory = now.currentDirectory)
    (active : later.activeRootPhys = now.activeRootPhys) (cr3 : later.cr3 = now.cr3) :
    Same before later :=
  same.trans
    { vfs := by rw [vfs]
      later := le_of_eq (congrArg Vfs.State.nextId vfs.symm)
      openFiles := openFiles
      fdFlags := fdFlags
      currentDirectory := directory
      activeRootPhys := active
      cr3 := cr3 }

section Loading

variable {tree : Vfs.State} {before now : State}

theorem answers_slabFree (address size : Nat) (same : Same before now) :
    Answers before now (slabFree address size) (fun _ later => Same before later) :=
  answers_run rfl (same.ofPages rfl rfl rfl rfl rfl rfl)

theorem answers_giveUp {α : Type} {after : α → State → Prop} (address size : Nat) {code : Int}
    (negative : code < 0) (same : Same before now) :
    Answers before now (giveUp address size code) after := by
  unfold giveUp
  refine .bind (answers_slabFree address size same) ?_
  intro _ later sameLater
  exact answers_fail negative sameLater

theorem answers_onMachine {α : Type} (loader : Loader α) (same : Same before now) :
    Answers before now (onMachine loader) (fun _ later => Same before later) := by
  intro state isState
  rw [isState]
  unfold run onMachine
  split
  · rename_i ran
    split at ran
    · cases ran
      exact same.ofPages rfl rfl rfl rfl rfl rfl
    · cases ran
      exact same.ofPages rfl rfl rfl rfl rfl rfl
  · rename_i ran
    split at ran <;> cases ran

theorem loadFile_answers (path : List UInt8) {argv envp : List (List UInt8)}
    (few : argv.length ≤ maxAddresses) (fewEnvp : envp.length ≤ maxAddresses) (buffer size : Nat)
    (file : List UInt8) (same : Same before now) :
    Answers before now (loadFile path argv envp buffer size file)
      (fun _ later => Same before later) := by
  unfold loadFile
  split
  · exact answers_giveUp buffer size (by decide) same
  · refine .gets ?_
    refine .bind (answers_onMachine _ same) ?_
    intro root later sameLater
    cases root with
    | none => exact answers_giveUp buffer size (by decide) sameLater
    | some root =>
      refine .step (run_fitAddresses few fewEnvp _) ?_
      refine .bind (answers_onMachine _ sameLater) ?_
      intro image built sameBuilt
      refine .bind (answers_slabFree buffer size sameBuilt) ?_
      intro _ freed sameFreed
      cases image with
      | none =>
        refine .step (run_changeMachine _ _) ?_
        exact answers_fail (by decide) (sameFreed.ofPages rfl rfl rfl rfl rfl rfl)
      | some image => exact answers_pure image sameFreed

/-- What is known about the file that an image is read from. -/
structure Opened (now : State) (target : Nat) (object : Vfs.Dentry) (content : Vfs.Inode) :
    Prop where
  unused : now.vfs.files now.vfs.nextId = none
  live : now.vfs.dentries target = some object
  counted : 1 ≤ object.refCount
  inode : ∃ inode, object.inode = some inode ∧ now.vfs.inodes inode = some content

variable {target : Nat} {object : Vfs.Dentry} {content : Vfs.Inode}

theorem Sound.opens (sound : Sound tree now) (live : now.vfs.dentries target = some object) :
    ∃ content, Opened now target object content := by
  obtain ⟨inode, content, points, liveInode⟩ := sound.accounts.tree.inode target object live
  refine ⟨content, ?_, live, sound.accounts.tree.counted target object live, inode, points,
    liveInode⟩
  cases found : now.vfs.files now.vfs.nextId with
  | none => rfl
  | some file => exact absurd (sound.accounts.tree.file _ file found).1 (lt_irrefl _)

theorem Opened.dentry (opened : Opened now target object content) (address offset : Nat)
    (pages : Pages) :
    (now.reading target address offset pages).vfs.dentries target =
      some { object with refCount := object.refCount + 1 } := by
  have held := now.vfs.adjust_dentries (Pi.single target 1) opened.live
  rw [Pi.single_eq_same] at held
  exact held

theorem Opened.file (target address offset : Nat) (pages : Pages) :
    (now.reading target address offset pages).vfs.files now.vfs.nextId =
      some ⟨address, target, offset, Vfs.oRdonly, 1⟩ := Vfs.store_same

theorem Opened.close (opened : Opened now target object content) (address offset : Nat)
    (pages : Pages) :
    ∃ last, (onFs (Vfs.closeFile Pages.heap ramfs now.vfs.nextId)).run
        (now.reading target address offset pages) = (.ok (), last) ∧ Same now last := by
  obtain ⟨after, ran⟩ := @Ramfs.run_closeFile _ Pages.heap
    (now.reading target address offset pages).fs now.vfs.nextId _
    (Opened.file target address offset pages) _ (opened.dentry address offset pages)
    (by have := opened.counted; simp only; omega)
  refine ⟨_, run_onFs ran, ?_⟩
  have restored := closed_opened opened.unused target address Vfs.oRdonly offset
  change Same now { now with
    vfs := ((now.vfs.opened target address Vfs.oRdonly).setFile now.vfs.nextId
      (some ⟨address, target, offset, Vfs.oRdonly, 1⟩)).closed now.vfs.nextId
      ⟨address, target, offset, Vfs.oRdonly, 1⟩
    pages := after }
  rw [restored]
  exact ⟨⟨rfl, Nat.le_succ _, rfl, rfl, rfl⟩, rfl, rfl⟩

theorem Opened.size_run (opened : Opened now target object content) (address offset : Nat)
    (pages : Pages) : (fileSize now.vfs.nextId).run (now.reading target address offset pages) =
      (.ok content.size, now.reading target address offset pages) := by
  obtain ⟨inode, points, liveInode⟩ := opened.inode
  have file : (Vfs.fileOf now.vfs.nextId).run (now.reading target address offset pages).fs =
      (.ok ⟨address, target, offset, Vfs.oRdonly, 1⟩,
        (now.reading target address offset pages).fs) :=
    Vfs.run_fetch (Opened.file target address offset pages)
  have dentry : (Vfs.dentryOf target).run (now.reading target address offset pages).fs =
      (.ok { object with refCount := object.refCount + 1 },
        (now.reading target address offset pages).fs) :=
    Vfs.run_dentryOf (opened.dentry address offset pages)
  have found : (Vfs.inodeOf { object with refCount := object.refCount + 1 }).run
      (now.reading target address offset pages).fs =
      (.ok (inode, content), (now.reading target address offset pages).fs) :=
    Vfs.run_inodeOf points liveInode
  unfold fileSize
  refine @run_onFs _ (now.reading target address offset pages) _ _
    (now.reading target address offset pages).fs ?_
  rw [run_bind_ok file, run_bind_ok dentry, run_bind_ok found, run_pure]

theorem opened_reading {address : Nat} (pages : Pages) :
    { now with vfs := now.vfs.opened target address Vfs.oRdonly, pages := pages } =
      now.reading target address 0 pages := by
  have file : (now.vfs.opened target address Vfs.oRdonly).files now.vfs.nextId =
      some ⟨address, target, 0, Vfs.oRdonly, 1⟩ := Vfs.store_same
  unfold State.reading
  rw [Ramfs.setFile_self file]

theorem Opened.read (sound : Sound tree now) (opened : Opened now target object content)
    (address : Nat) (pages : Pages) {size : Nat} (bounded : size ≤ maxExecFileSize) :
    ∃ outcome offset, (onFs (Vfs.readFile ramfs now.vfs.nextId size)).run
        (now.reading target address 0 pages) =
      (.ok outcome, now.reading target address offset pages) := by
  have small : 2 ^ 32 + size < 2 ^ 64 := by
    unfold maxExecFileSize at bounded
    omega
  have wellFormed : Vfs.Tree (now.reading target address 0 pages).vfs := by
    rw [← opened_reading]
    exact sound.accounts.tree.opened opened.live address Vfs.oRdonly
  obtain ⟨result, bytes, offset, ran, _⟩ := @Ramfs.readFile_ends _
    (now.reading target address 0 pages).fs now.vfs.nextId _ _ wellFormed (2 ^ 32) sound.fits
    (Opened.file target address 0 pages) (opened.dentry address 0 pages) size small
  refine ⟨(result, bytes), offset, ?_⟩
  rw [run_onFs ran]
  unfold State.reading State.setFs State.fs Vfs.State.setFile
  simp only [Vfs.store_store]

theorem loadImage_answers (sound : Sound tree now) (same : Same before now) (path : List UInt8)
    (argv envp : List (List UInt8)) :
    Answers before now (loadImage path argv envp) (fun _ later => Same before later) := by
  unfold loadImage
  refine answers_ite _ (fun _ => answers_fail (by decide) same) ?_
  intro few
  rw [not_or, not_lt, not_lt] at few
  refine .bind (answers_openFile sound same path Vfs.oRdonly) ?_
  rintro _ _ ⟨target, address, object, pages, rfl, rfl, live, _⟩
  obtain ⟨content, opened⟩ := sound.opens live
  rw [opened_reading]
  refine .step (opened.size_run address 0 pages) ?_
  have gives : ∀ offset pages code, code < 0 →
      Answers before (now.reading target address offset pages) (do
        onFs (Vfs.closeFile Pages.heap ramfs now.vfs.nextId)
        fail code) (fun (_ : ExecImage) later => Same before later) := by
    intro offset pages code negative
    obtain ⟨last, closed, sameLast⟩ := opened.close address offset pages
    exact .step closed (answers_fail negative (same.trans sameLast))
  refine answers_ite _ (fun _ => gives 0 pages (-8) (by decide)) ?_
  intro bounded
  rw [not_or, not_lt, not_lt] at bounded
  have allocated : (slabAlloc content.size).run (now.reading target address 0 pages) =
      (.ok (Pages.heap.alloc content.size pages).1,
        now.reading target address 0 (Pages.heap.alloc content.size pages).2) := rfl
  refine .step allocated ?_
  cases (Pages.heap.alloc content.size pages).1 with
  | none => exact gives 0 _ (-12) (by decide)
  | some buffer =>
    obtain ⟨⟨count, bytes⟩, offset, ran⟩ := opened.read sound address
      (Pages.heap.alloc content.size pages).2 bounded.2
    refine .step ran ?_
    obtain ⟨last, closed, sameLast⟩ := opened.close address offset
      (Pages.heap.alloc content.size pages).2
    refine .step closed ?_
    refine answers_ite _ (fun _ => answers_giveUp buffer _ (by decide) (same.trans sameLast)) ?_
    intro _
    exact loadFile_answers path few.1 few.2 buffer _ bytes (same.trans sameLast)

end Loading

/-! ### The cleanup loops -/

/-- The descriptors of a list whose flags meet the condition have been closed.
Other slots, and what is left of their files, are as before. -/
structure Swept (tree : Vfs.State) (closes : Nat → Bool) (fds : List Nat) (before after : State) :
    Prop where
  sound : Sound tree after
  openFiles : ∀ fd, after.openFiles fd =
    if fd ∈ fds ∧ closes (before.fdFlags fd) = true then none else before.openFiles fd
  fdFlags : ∀ fd, after.openFiles fd ≠ none → after.fdFlags fd = before.fdFlags fd
  files : ∀ id file, after.vfs.files id = some file →
    ∃ old, before.vfs.files id = some old ∧ file = { old with refCount := file.refCount }
  rest : after = { before with
    vfs := after.vfs, pages := after.pages, openFiles := after.openFiles, fdFlags := after.fdFlags }

section Cleanup

variable {tree : Vfs.State} {kernel : State}

theorem Swept.untouched (sound : Sound tree kernel) (closes : Nat → Bool) :
    Swept tree closes [] kernel kernel :=
  { sound := sound
    openFiles := fun _ => (if_neg (fun both => not_mem_nil both.1)).symm
    fdFlags := fun _ _ => rfl
    files := fun _ file found => ⟨file, found, rfl⟩
    rest := rfl }

theorem closeIf_swept (sound : Sound tree kernel) (closes : Nat → Bool) {fd : Nat}
    (inside : fd < maxOpenFiles) :
    ∃ after, (closeIf closes fd).run kernel = (.ok (), after) ∧
      Swept tree closes [fd] kernel after := by
  have skipped : kernel.openFiles fd = none ∨ closes (kernel.fdFlags fd) = false →
      Swept tree closes [fd] kernel kernel := by
    intro skips
    refine { Swept.untouched sound closes with openFiles := ?_ }
    intro other
    split
    · rename_i both
      obtain ⟨isFd, closed⟩ := both
      rw [mem_singleton.mp isFd] at closed ⊢
      exact skips.elim id (fun kept => absurd (kept.symm.trans closed) (by decide))
    · rfl
  unfold closeIf
  rw [run_bind_ok (run_gets _ _), slotOf_inside inside, run_bind_ok (run_lift _ _)]
  simp only [id]
  cases points : kernel.openFiles fd with
  | none => exact ⟨kernel, rfl, skipped (.inl points)⟩
  | some file =>
    simp only
    rw [run_ite]
    split
    · rename_i closed
      obtain ⟨object, pages, live, ran⟩ := closeSlot_run sound points
      refine ⟨_, ran, ?_⟩
      refine
        { sound := sound.closed points live 0
          openFiles := ?_
          fdFlags := ?_
          files := ?_
          rest := rfl }
      · intro other
        change update kernel.openFiles fd none other = _
        rcases eq_or_ne other fd with rfl | different
        · rw [update_self, if_pos ⟨mem_singleton_self _, closed⟩]
        · rw [update_of_ne different,
            if_neg (fun both => different (mem_singleton.mp both.1))]
      · intro other isOpen
        change update kernel.openFiles fd none other ≠ none at isOpen
        have different : other ≠ fd := by
          rintro rfl
          exact isOpen (update_self _ _ _)
        exact update_of_ne different _ _
      · intro id changed found
        exact Vfs.closed_files live found
    · rename_i kept
      exact ⟨kernel, rfl, skipped (.inr (Bool.eq_false_iff.mpr kept))⟩

theorem Swept.append {closes : Nat → Bool} {fds more : List Nat} {before middle after : State}
    (first : Swept tree closes fds before middle) (second : Swept tree closes more middle after) :
    Swept tree closes (fds ++ more) before after := by
  have isOpen : ∀ fd, after.openFiles fd ≠ none →
      middle.openFiles fd ≠ none ∧ after.openFiles fd = middle.openFiles fd := by
    intro fd stays
    rw [second.openFiles fd] at stays ⊢
    split at stays
    · exact absurd rfl stays
    · rename_i kept
      rw [if_neg kept]
      exact ⟨stays, rfl⟩
  refine
    { sound := second.sound
      openFiles := ?_
      fdFlags := fun fd stays =>
        (second.fdFlags fd stays).trans (first.fdFlags fd (isOpen fd stays).1)
      files := ?_
      rest := ?_ }
  · intro fd
    simp only [second.openFiles fd, mem_append]
    by_cases gone : middle.openFiles fd = none
    · rw [gone, ite_self]
      have wasGone := first.openFiles fd
      rw [gone] at wasGone
      split
      · rfl
      · rename_i kept
        rw [if_neg (fun both => kept ⟨.inl both.1, both.2⟩)] at wasGone
        exact wasGone
    · have kept := first.openFiles fd
      rw [first.fdFlags fd gone]
      split at kept
      · exact absurd kept gone
      · rename_i notFirst
        rw [kept]
        refine if_congr ?_ rfl rfl
        constructor
        · exact fun both => ⟨.inr both.1, both.2⟩
        · exact fun both =>
            ⟨both.1.resolve_left (fun isFirst => notFirst ⟨isFirst, both.2⟩), both.2⟩
  · intro id file found
    obtain ⟨middleFile, foundMiddle, same⟩ := second.files id file found
    obtain ⟨old, foundOld, sameOld⟩ := first.files id middleFile foundMiddle
    refine ⟨old, foundOld, ?_⟩
    rw [same, sameOld]
  · rw [second.rest, first.rest]

theorem each_closeIf_swept (sound : Sound tree kernel) (closes : Nat → Bool) {fds : List Nat}
    (inside : ∀ fd ∈ fds, fd < maxOpenFiles) :
    ∃ after, (each (closeIf closes) fds).run kernel = (.ok (), after) ∧
      Swept tree closes fds kernel after := by
  induction fds generalizing kernel with
  | nil => exact ⟨kernel, rfl, Swept.untouched sound closes⟩
  | cons fd rest ih =>
    obtain ⟨middle, first, sweptFirst⟩ := closeIf_swept sound closes (inside fd (.head _))
    obtain ⟨after, second, sweptRest⟩ := ih sweptFirst.sound
      (fun other member => inside other (.tail _ member))
    refine ⟨after, ?_, sweptFirst.append sweptRest⟩
    unfold each
    rw [run_bind_ok first]
    exact second

theorem userDescriptors_inside (fd : Nat) (member : fd ∈ userDescriptors) : fd < maxOpenFiles :=
  ((mem_userDescriptors fd).mp member).2

end Cleanup

/-! ### Execution -/

theorem Answers.attempt {α β : Type} {before now : State} {action : Action α}
    {next : Except Int α → Action β} {between : α → State → Prop} {after : β → State → Prop}
    (first : Answers before now action between)
    (succeeds : ∀ value later, between value later → Answers before later (next (.ok value)) after)
    (fails : ∀ code later, code < 0 → Same before later →
      Answers before later (next (.error code)) after) :
    Answers before now (Program.attempt action >>= next) after := by
  intro state isState
  have ended := first state isState
  cases ran : action.run state with
  | mk result later =>
    rw [ran] at ended
    cases result with
    | ok value =>
      rw [run_bind_ok (run_attempt_ok ran)]
      exact succeeds value later ended later rfl
    | error reason =>
      obtain ⟨code, rfl, negative, same⟩ := ended
      rw [run_bind_ok (run_attempt_code ran)]
      exact fails code later negative same later rfl

/-- Pointers to strings that lie one after another lead to these strings. -/
theorem Buffers.texts_packed {now : Buffers} {texts : List (List UInt8)}
    {storageCapacity base index : Nat} (nonzero : ∀ text ∈ texts, 0 ∉ text)
    (room : base + (packed texts).length ≤ storageCapacity)
    (holds : now.storage.readBytes base (packed texts).length = packed texts)
    (points : ∀ place, place < texts.length →
      now.strings (index + place) = base + (packed (texts.take place)).length) :
    now.texts storageCapacity texts.length index = .ok texts := by
  induction texts generalizing base index with
  | nil => rfl
  | cons text rest ih =>
    have size : (packed (text :: rest)).length = text.length + 1 + (packed rest).length := by
      rw [packed_cons, length_append, length_cons]
      omega
    rw [size, packed_cons, ← singleton_append, ← append_assoc, Memory.readBytes_add] at holds
    obtain ⟨here, behind⟩ := append_inj holds (by rw [Memory.readBytes_length, length_append]; rfl)
    have later := @ih (base + (text.length + 1)) (index + 1)
      (fun other member => nonzero other (.tail _ member)) (by omega) behind (by
        intro place inside
        rw [add_assoc, add_comm 1, points (place + 1) (Nat.succ_lt_succ inside),
          take_succ_cons, packed_cons, length_append, length_cons]
        omega)
    obtain ⟨more, split_⟩ : ∃ more, storageCapacity - base = text.length + 1 + more :=
      ⟨storageCapacity - base - (text.length + 1), by omega⟩
    rw [length_cons, texts, show now.strings index = base from points 0 (Nat.succ_pos _), split_,
      Memory.readBytes_add, here, append_assoc, singleton_append,
      cString_append (nonzero text (.head _)), later]
    rfl

/-- Both vectors are taken whole, and refused only if they do not fit together. -/
theorem execStrings_cases (kernel : State) (userArgv userEnvp : Nat) :
    (∃ argv envp, execStrings kernel userArgv userEnvp = .ok (argv, envp) ∧
      argv.length ≤ maxExecStrings ∧ envp.length ≤ maxExecStrings ∧
      UserVector kernel.mem kernel.cr3 userArgv argv ∧
      UserVector kernel.mem kernel.cr3 userEnvp envp) ∨
    ∃ code, code < 0 ∧ execStrings kernel userArgv userEnvp = refuse code ∧
      (Space kernel.mem kernel.cr3 → ∀ argv envp, UserVector kernel.mem kernel.cr3 userArgv argv →
        UserVector kernel.mem kernel.cr3 userEnvp envp → argv.length ≤ maxExecStrings →
        envp.length ≤ maxExecStrings →
        maxExecStringBytes < (packed argv).length + (packed envp).length) := by
  unfold execStrings
  rcases @copyUserVector_ends kernel.mem kernel.cr3 maxExecStrings maxExecStringBytes .fresh
      userArgv zero_le with
    ⟨argv, _, ran, isArgv, few, room, strings, rfl, _, points⟩ | ⟨code, _, ran, broke, none⟩
  · rw [ran]
    dsimp only
    rcases @copyUserVector_ends kernel.mem kernel.cr3 maxExecStrings maxExecStringBytes
        { Buffers.fresh.stored (packed argv) with strings := strings } userEnvp room with
      ⟨envp, _, ran, isEnvp, fewEnvp, roomEnvp, stringsEnvp, rfl, _, pointsEnvp⟩ |
        ⟨code, _, ran, broke, none⟩
    · rw [ran]
      dsimp only
      have both := Memory.readBytes_writeBytes Buffers.fresh.storage 0 (packed argv ++ packed envp)
      rw [← Memory.writeBytes_append, length_append, Memory.readBytes_add] at both
      obtain ⟨first, second⟩ := append_inj both (Memory.readBytes_length _ _ _)
      rw [Buffers.texts_packed isArgv.nonzero room first points,
        Buffers.texts_packed isEnvp.nonzero roomEnvp second pointsEnvp]
      exact .inl ⟨argv, envp, rfl, few, fewEnvp, isArgv, isEnvp⟩
    · rw [ran]
      refine .inr ⟨code, broke.1, rfl, fun space others envp isOthers isEnvp _ fewEnvp => ?_⟩
      cases isArgv.unique space isOthers
      have long := none space envp isEnvp fewEnvp
      rwa [show Buffers.storageUsed _ = 0 + (packed argv).length from rfl, zero_add] at long
  · rw [ran]
    refine .inr ⟨code, broke.1, rfl, fun space argv envp isArgv _ few _ => ?_⟩
    have long := none space argv isArgv few
    rw [show Buffers.storageUsed _ = 0 from rfl] at long
    omega

theorem execStrings_graceful (kernel : State) (userArgv userEnvp : Nat) :
    Graceful (fun strings => strings.1.length ≤ maxExecStrings ∧ strings.2.length ≤ maxExecStrings ∧
        UserVector kernel.mem kernel.cr3 userArgv strings.1 ∧
        UserVector kernel.mem kernel.cr3 userEnvp strings.2)
      (execStrings kernel userArgv userEnvp) := by
  rcases execStrings_cases kernel userArgv userEnvp with
    ⟨argv, envp, ran, accepted⟩ | ⟨code, negative, refused, _⟩
  · rw [ran]
    exact accepted
  · rw [refused]
    exact negative

section Execution

variable {tree : Vfs.State} {before now kernel : State}

theorem execImage_answers (sound : Sound tree now) (same : Same before now) (storage : Nat)
    (path : List UInt8) (userArgv userEnvp : Nat) :
    Answers before now (execImage storage path userArgv userEnvp)
      (fun _ later => Same before later) := by
  unfold execImage
  refine .gets ?_
  refine .attempt (answers_lift (execStrings_graceful now userArgv userEnvp) same) ?_ ?_
  · rintro ⟨argv, envp⟩ _ ⟨_, rfl⟩
    refine .attempt (loadImage_answers sound same path argv envp) ?_ ?_
    · intro image built sameBuilt
      refine .bind (answers_slabFree storage maxExecStringBytes sameBuilt) ?_
      intro _ freed sameFreed
      exact answers_pure image sameFreed
    · intro code failed negative sameFailed
      exact answers_giveUp storage maxExecStringBytes negative sameFailed
  · intro code failed negative sameFailed
    exact answers_giveUp storage maxExecStringBytes negative sameFailed

theorem Same.sameFiles (same : Same before now) {later : State} (vfs : later.vfs = now.vfs)
    (openFiles : later.openFiles = now.openFiles) (fdFlags : later.fdFlags = now.fdFlags)
    (directory : later.currentDirectory = now.currentDirectory) : SameFiles before later :=
  { vfs := by rw [vfs, ← same.vfs]
    later := by rw [vfs]; exact same.later
    openFiles := openFiles.trans same.openFiles
    fdFlags := fdFlags.trans same.fdFlags
    currentDirectory := directory.trans same.currentDirectory }

theorem activate_run (same : Same before now) (image : ExecImage) (frame : RegisterFrame) :
    ∃ started later, (activate image frame).run now = (.ok started, later) ∧
      SameFiles before later := by
  unfold activate
  rw [run_ite]
  split
  · exact ⟨frame, now, rfl, same.sameFiles rfl rfl rfl rfl⟩
  · rw [run_bind_ok (run_gets _ _), run_bind_ok (run_modify _ _), run_ite]
    split
    · exact ⟨_, _, rfl, same.sameFiles rfl rfl rfl rfl⟩
    · exact ⟨_, _, rfl, same.sameFiles rfl rfl rfl rfl⟩

/-- The descriptors that a new program does not keep. -/
def closesOnExec (flags : Nat) : Bool := flags &&& fdCloexec != 0

theorem sysExecve_answers (sound : Sound tree kernel) (userPath userArgv userEnvp : Nat)
    (frame : RegisterFrame) :
    Answers kernel kernel (sysExecve userPath userArgv userEnvp frame) (fun _ after =>
      ∃ middle, SameFiles kernel middle ∧
        Swept tree closesOnExec userDescriptors middle after) := by
  unfold sysExecve
  refine .gets ?_
  refine .lift (copyUserPath_graceful (length_freshBuffer pathCapacity)) (.refl _) ?_
  rintro path ⟨_, text, found, _, _⟩
  rw [found]
  refine .step (run_lift _ _) ?_
  have allocated : (slabAlloc maxExecStringBytes).run kernel =
      (.ok (Pages.heap.alloc maxExecStringBytes kernel.pages).1,
        { kernel with pages := (Pages.heap.alloc maxExecStringBytes kernel.pages).2 }) := rfl
  refine .step allocated ?_
  have same : Same kernel
      { kernel with pages := (Pages.heap.alloc maxExecStringBytes kernel.pages).2 } :=
    (Same.refl kernel).ofPages rfl rfl rfl rfl rfl rfl
  cases (Pages.heap.alloc maxExecStringBytes kernel.pages).1 with
  | none => exact answers_fail (by decide) same
  | some storage =>
    refine .bind (execImage_answers (sound.same same) same storage text userArgv userEnvp) ?_
    intro image later sameLater
    obtain ⟨started, middle, ran, sameFiles⟩ := activate_run sameLater image frame
    refine .step ran ?_
    obtain ⟨after, swept, isSwept⟩ := each_closeIf_swept (sound.sameFiles sameFiles) closesOnExec
      userDescriptors_inside
    exact .step swept (answers_pure started ⟨middle, sameFiles, isSwept⟩)

theorem sysExit_run (sound : Sound tree kernel) :
    ∃ middle after, sysExit.run kernel = (.ok (), after) ∧
      Swept tree (fun _ => true) userDescriptors kernel middle ∧ SameFiles middle after := by
  obtain ⟨middle, swept, isSwept⟩ := each_closeIf_swept sound (fun _ => true) userDescriptors_inside
  unfold sysExit closeAll
  rw [run_bind_ok swept]
  unfold terminateCurrent
  rw [run_bind_ok (run_gets _ _), run_ite]
  split
  · exact ⟨middle, middle, rfl, isSwept, (Same.refl middle).sameFiles rfl rfl rfl rfl⟩
  · exact ⟨middle, _, rfl, isSwept, (Same.refl middle).sameFiles rfl rfl rfl rfl⟩

end Execution

end Synx.Kernel
