/-
The system calls on descriptors and paths in a sound state: what they do to the
table of descriptors, to the files and to the current directory.  Each of them
either succeeds and keeps the state sound, or is refused and changes nothing.
-/

import Synx.Kernel.Sound

namespace Synx.Kernel

open Lib Program Function
open Ramfs (ramfs)
open Vfs (Fault Fs Near Accounts slash)

/-- A call that returned a value and did not touch the current directory. -/
structure Kept (tree : Vfs.State) (before : State) (value : Nat) (after : State) : Prop where
  small : value < 2 ^ 63
  sound : Sound tree after
  currentDirectory : after.currentDirectory = before.currentDirectory

/-! ### Steps on the table and on files -/

section Steps

variable {tree : Vfs.State} {before now : State}

def State.withSlot (kernel : State) (fd : Nat) (file : Option Nat) (flags : Nat) : State :=
  { kernel with
    openFiles := update kernel.openFiles fd file
    fdFlags := update kernel.fdFlags fd flags }

variable {fd file : Nat} {object : Vfs.File} {pages : Pages}

theorem setSlot_run (inside : fd < maxOpenFiles) (file : Option Nat) (flags : Nat) :
    (setSlot fd file flags).run now = (.ok (), now.withSlot fd file flags) := by
  unfold setSlot
  rw [if_pos inside]
  rfl

theorem changeFile_run (live : now.vfs.files file = some object) (change : Vfs.File → Vfs.File) :
    (changeFile file change).run now =
      (.ok (), { now with vfs := now.vfs.setFile file (some (change object)) }) := by
  have found : (Vfs.fileOf file).run now.fs = (.ok object, now.fs) := Vfs.run_fetch live
  have changed : (do
      let object ← Vfs.fileOf file
      Vfs.update (·.setFile file (some (change object))) : Vfs.Call Pages Unit).run now.fs =
      (.ok (), { now.fs with vfs := now.vfs.setFile file (some (change object)) }) := by
    rw [run_bind_ok found]
    rfl
  exact run_onFs changed

section

variable (sound : Sound tree now)

include sound

theorem closeFile_run (points : now.openFiles fd = some file) :
    ∃ object pages, now.vfs.files file = some object ∧
      (closeFile file).run now =
        (.ok (), { now with vfs := now.vfs.closed file object, pages := pages }) := by
  obtain ⟨object, dentry, live, liveDentry, _, shared⟩ := sound.accounts.live points
  obtain ⟨pages, ran⟩ := @Ramfs.run_closeFile _ Pages.heap now.fs file object live dentry
    liveDentry shared
  exact ⟨object, pages, live, run_onFs ran⟩

theorem Sound.refiled {vfs : Vfs.State} {slots : Nat → Option Nat} {flags : Nat → Nat}
    (shape : vfs.shape = now.vfs.shape) (accounts : Accounts maxOpenFiles slots vfs)
    (inodes : vfs.inodes = now.vfs.inodes) (files : ∀ id file, vfs.files id = some file →
      Near tree file.dentry ∧ InRange tree file.offset) :
    Sound tree { now with vfs := vfs, openFiles := slots, fdFlags := flags, pages := pages } :=
  { shape := shape.trans sound.shape
    accounts := accounts
    fits := fun id inode found => sound.fits id inode (by rw [← inodes]; exact found)
    near := fun id file found => (files id file found).1
    offset := fun id file found => (files id file found).2
    capacity := sound.capacity
    text := sound.text }

theorem Sound.files_setFile {id : Nat} {changed : Option Vfs.File}
    (good : ∀ file, changed = some file → Near tree file.dentry ∧ InRange tree file.offset) :
    ∀ other file, (now.vfs.setFile id changed).files other = some file →
      Near tree file.dentry ∧ InRange tree file.offset := by
  intro other file found
  change Vfs.store now.vfs.files id changed other = some file at found
  by_cases same : other = id
  · rw [same, Vfs.store_same] at found
    exact good file found
  · rw [Vfs.store_other same] at found
    exact ⟨sound.near other file found, sound.offset other file found⟩

theorem Sound.opened {target address flags slotFlags : Nat} {object : Vfs.Dentry}
    (inside : fd < maxOpenFiles) (free : now.openFiles fd = none)
    (live : now.vfs.dentries target = some object) (near : Near tree target) :
    Sound tree (State.withSlot
      { now with vfs := now.vfs.opened target address flags, pages := pages }
      fd (some now.vfs.nextId) slotFlags) :=
  sound.refiled (now.vfs.shape_opened target address flags)
    (sound.accounts.opened inside free live) rfl
    (sound.files_setFile (by
      rintro _ ⟨⟩
      exact ⟨near, InRange.small tree (Nat.two_pow_pos 63)⟩))

theorem Sound.closed (points : now.openFiles fd = some file)
    (live : now.vfs.files file = some object) (slotFlags : Nat) :
    Sound tree (State.withSlot
      { now with vfs := now.vfs.closed file object, pages := pages } fd none slotFlags) := by
  refine sound.refiled (now.vfs.shape_closed file object) (sound.accounts.closed points live) ?_ ?_
  · unfold Vfs.State.closed
    split <;> rfl
  · unfold Vfs.State.closed
    split
    · exact sound.files_setFile (by rintro _ ⟨⟩)
    · exact sound.files_setFile (by
        rintro _ ⟨⟩
        exact ⟨sound.near file object live, sound.offset file object live⟩)

theorem Sound.shared (inside : fd < maxOpenFiles) (free : now.openFiles fd = none)
    (live : now.vfs.files file = some object) (slotFlags : Nat) :
    Sound tree (State.withSlot
      { now with
        vfs := now.vfs.setFile file (some { object with refCount := object.refCount + 1 }) }
      fd (some file) slotFlags) :=
  sound.refiled rfl (sound.accounts.shared inside free live) rfl
    (sound.files_setFile (by
      rintro _ ⟨⟩
      exact ⟨sound.near file object live, sound.offset file object live⟩))

end

theorem Sound.edited (sound : Sound tree now) {file : Nat} {object changed : Vfs.File}
    (live : now.vfs.files file = some object) (sameDentry : changed.dentry = object.dentry)
    (sameCount : changed.refCount = object.refCount) (offset : InRange tree changed.offset) :
    Sound tree { now with vfs := now.vfs.setFile file (some changed) } :=
  sound.refiled (now.vfs.shape_setFile file _) (sound.accounts.edited live sameDentry sameCount) rfl
    (sound.files_setFile (by
      rintro _ ⟨⟩
      rw [sameDentry]
      exact ⟨sound.near file object live, offset⟩))

/-- The state with a file at another position, and other contents of memory. -/
def State.moved (kernel : State) (file : Nat) (object : Vfs.File) (offset : Nat) (mem : Memory) :
    State :=
  { kernel with
    mem := mem
    vfs := kernel.vfs.setFile file (some { object with offset := offset }) }

theorem State.moved_moved (kernel : State) (file : Nat) (object : Vfs.File) (first second : Nat)
    (memFirst mem : Memory) :
    (kernel.moved file object first memFirst).moved file { object with offset := first }
      second mem =
      kernel.moved file object second mem := by
  unfold State.moved Vfs.State.setFile
  simp only [Vfs.store_store]

theorem State.moved_file (kernel : State) (file : Nat) (object : Vfs.File) (offset : Nat)
    (mem : Memory) : (kernel.moved file object offset mem).vfs.files file =
      some { object with offset := offset } := Vfs.store_same

theorem State.moved_back {kernel : State} (live : kernel.vfs.files file = some object)
    (mem : Memory) :
    kernel.moved file object object.offset mem = { kernel with mem := mem } :=
  congrArg (fun vfs => { kernel with mem := mem, vfs := vfs }) (Ramfs.setFile_self live)

theorem Sound.moved {tree : Vfs.State} {kernel : State} (sound : Sound tree kernel) {file : Nat}
    {object : Vfs.File} (live : kernel.vfs.files file = some object) {offset : Nat}
    (inRange : InRange tree offset) (mem : Memory) :
    Sound tree (kernel.moved file object offset mem) :=
  (@Sound.edited tree kernel sound file object { object with offset := offset } live rfl rfl
    inRange).setMem mem

theorem Sound.reflagged (sound : Sound tree now) (points : now.openFiles fd = some file)
    (slotFlags : Nat) : Sound tree (now.withSlot fd (some file) slotFlags) := by
  refine sound.of_parts rfl ?_ rfl
  change update now.openFiles fd (some file) = now.openFiles
  rw [← points, update_eq_self]

theorem firstFree_graceful (kernel : State) (fds : List Nat)
    (inside : ∀ fd ∈ fds, fd < maxOpenFiles) :
    Graceful (fun found => ∀ fd, found = some fd → fd ∈ fds ∧ kernel.openFiles fd = none)
      (firstFree kernel fds) := by
  induction fds with
  | nil =>
    intro fd impossible
    cases impossible
  | cons fd rest ih =>
    unfold firstFree
    rw [slotOf_inside (inside fd (.head _))]
    simp only [bind, Except.bind]
    cases found : kernel.openFiles fd with
    | none =>
      rintro other ⟨⟩
      exact ⟨.head _, found⟩
    | some file =>
      refine (ih (fun other member => inside other (.tail _ member))).imp ?_
      intro result good other isResult
      obtain ⟨member, free⟩ := good other isResult
      exact ⟨.tail _ member, free⟩

theorem answers_openFile (sound : Sound tree now) (same : Same before now) (text : List UInt8)
    (flags : Nat) :
    Answers before now (onFs (Vfs.openFile Pages.heap ramfs text flags)) (fun file later =>
      ∃ target address object pages, file = now.vfs.nextId ∧
        later = { now with vfs := now.vfs.opened target address flags, pages := pages } ∧
        now.vfs.dentries target = some object ∧ Near tree target) := by
  have ended := @Ramfs.openFile_ends _ Pages.heap now.fs sound.accounts.tree text flags
  cases opened : now.fs.vfs.opens (Vfs.missingCode Pages.heap now.fs) text flags with
  | error code =>
    rw [opened] at ended
    exact answers_fails ended (opens_code_negative (missingCode_negative now.fs) opened) same
  | ok target =>
    rw [opened] at ended
    obtain ⟨⟨object, live⟩, outcome⟩ := ended
    have near : Near tree target := by
      obtain ⟨names, located, bounds⟩ := Vfs.opens_near sound.accounts.tree opened
      refine ⟨names, ?_, bounds⟩
      rw [← sound.shape]
      exact located.shape
    cases allocated : Pages.heap.alloc Vfs.sizeofFile now.fs.heap with
    | mk address pages =>
      rw [allocated] at outcome
      cases address with
      | none => exact answers_fails outcome (by decide) same
      | some address =>
        exact answers_run (run_onFs outcome)
          ⟨target, address, object, pages, rfl, rfl, live, near⟩

end Steps

/-! ### The calls -/

section Calls

variable {tree : Vfs.State} {kernel : State}

theorem sysOpenat_answers (sound : Sound tree kernel) (dirfd userPath flags : Nat) :
    Answers kernel kernel (sysOpenat dirfd userPath flags) (Kept tree kernel) := by
  unfold sysOpenat
  refine .gets ?_
  refine .lift (firstFree_graceful _ userDescriptors
    (fun fd member => ((mem_userDescriptors fd).mp member).2)) (.refl _) ?_
  intro found free
  cases found with
  | none => exact answers_fail (by decide) (.refl _)
  | some fd =>
    obtain ⟨member, isFree⟩ := free fd rfl
    have inside := ((mem_userDescriptors fd).mp member).2
    refine answers_resolve sound (.refl _) ?_
    intro text _
    refine .bind (answers_openFile sound (.refl _) text _) ?_
    rintro _ _ ⟨target, address, object, pages, rfl, rfl, live, near⟩
    refine .step (setSlot_run inside _ _) ?_
    refine answers_pure _ ⟨?_, sound.opened inside isFree live near, rfl⟩
    exact lt_trans inside (by decide)

variable {fd file dentry : Nat}

theorem closeSlot_run (sound : Sound tree kernel) (points : kernel.openFiles fd = some file) :
    ∃ object pages, kernel.vfs.files file = some object ∧
      (closeSlot fd file).run kernel = (.ok (), State.withSlot
        { kernel with vfs := kernel.vfs.closed file object, pages := pages } fd none 0) := by
  obtain ⟨object, pages, live, ran⟩ := closeFile_run sound points
  refine ⟨object, pages, live, ?_⟩
  unfold closeSlot
  rw [run_bind_ok ran]
  exact setSlot_run (sound.accounts.slot fd file points).1 none 0

theorem sysClose_answers (sound : Sound tree kernel) (fd : Nat) :
    Answers kernel kernel (sysClose fd) (Kept tree kernel) := by
  unfold sysClose
  refine answers_ite _ (fun _ => answers_fail (by decide) (.refl _)) ?_
  intro _
  refine .gets ?_
  refine .lift (openSlot_graceful _ fd) (.refl _) ?_
  rintro file ⟨_, points⟩
  obtain ⟨object, pages, live, ran⟩ := closeSlot_run sound points
  refine .step ran ?_
  exact answers_pure _ ⟨by decide, sound.closed points live 0, rfl⟩

theorem findFreeFd_graceful (kernel : State) (minimum : Nat) :
    Graceful (fun fd => fd < maxOpenFiles ∧ kernel.openFiles fd = none)
      (findFreeFd kernel minimum) := by
  unfold findFreeFd
  split
  · exact (by decide : errBadf < 0)
  · rename_i low
    have inside : ∀ fd ∈ List.range' minimum (maxOpenFiles - minimum), fd < maxOpenFiles := by
      intro fd member
      rw [List.mem_range'_1] at member
      omega
    refine Graceful.bind (firstFree_graceful kernel _ inside) ?_
    intro found free
    cases found with
    | none => exact (by decide : errNfile < 0)
    | some fd =>
      obtain ⟨member, isFree⟩ := free fd rfl
      exact ⟨inside fd member, isFree⟩

theorem duplicateTarget_graceful (kernel : State) (newFd : Nat) (exact_ : Bool) :
    Graceful (fun fd => fd < maxOpenFiles ∧ (exact_ = false → kernel.openFiles fd = none))
      (duplicateTarget kernel newFd exact_) := by
  unfold duplicateTarget
  cases exact_ with
  | true =>
    rw [if_pos rfl]
    split
    · exact (by decide : errBadf < 0)
    · rename_i low
      exact ⟨not_le.mp low, fun impossible => by cases impossible⟩
  | false =>
    rw [if_neg (by decide)]
    exact (findFreeFd_graceful kernel newFd).imp (fun _ good => ⟨good.1, fun _ => good.2⟩)

theorem closeTarget_run (sound : Sound tree kernel) (fd : Nat) :
    ∃ vfs pages, (closeTarget (kernel.openFiles fd)).run kernel =
        (.ok (), { kernel with vfs := vfs, pages := pages }) ∧
      Sound tree (State.withSlot { kernel with vfs := vfs, pages := pages } fd none 0) := by
  cases found : kernel.openFiles fd with
  | none =>
    refine ⟨kernel.vfs, kernel.pages, rfl, ?_⟩
    refine sound.of_parts rfl ?_ rfl
    change update kernel.openFiles fd none = kernel.openFiles
    rw [← found, update_eq_self]
  | some file =>
    obtain ⟨object, pages, live, ran⟩ := closeFile_run sound found
    exact ⟨_, pages, ran, sound.closed found live 0⟩

/-- A duplicate is in its slot, and the original in its own. -/
structure Duplicated (tree : Vfs.State) (before : State) (oldFd newFd : Nat) (after : State) :
    Prop where
  kept : Kept tree before newFd after
  inside : newFd < maxOpenFiles
  file : ∃ file, before.openFiles oldFd = some file ∧ after.openFiles oldFd = some file ∧
    after.openFiles newFd = some file

theorem duplicateFd_answers (sound : Sound tree kernel) (oldFd newFd : Nat)
    (exact_ closeOnExec : Bool) : Answers kernel kernel (duplicateFd oldFd newFd exact_ closeOnExec)
      (fun fd after => Duplicated tree kernel oldFd fd after) := by
  unfold duplicateFd
  refine .gets ?_
  refine .lift (openSlot_graceful _ oldFd) (.refl _) ?_
  rintro file ⟨_, points⟩
  refine .lift (duplicateTarget_graceful _ newFd exact_) (.refl _) ?_
  rintro target ⟨inside, _⟩
  have small : target < 2 ^ 63 := lt_trans inside (by decide)
  refine answers_ite _ ?_ ?_
  · rintro rfl
    refine answers_ite _ (fun _ => answers_fail (by decide) (.refl _)) ?_
    intro _
    exact answers_pure _ ⟨⟨small, sound, rfl⟩, inside, file, points, points, points⟩
  · intro different
    rw [slotOf_inside inside]
    refine .step (run_lift _ _) ?_
    obtain ⟨vfs, pages, ran, soundClosed⟩ := closeTarget_run sound target
    refine .step ran ?_
    refine .step (setSlot_run inside _ _) ?_
    have stillPoints : (State.withSlot { kernel with vfs := vfs, pages := pages }
        target none 0).openFiles oldFd = some file :=
      (update_of_ne different _ _).trans points
    obtain ⟨_, object, live⟩ := soundClosed.accounts.slot oldFd file stillPoints
    have stillLive : vfs.files file = some object := live
    refine .step (changeFile_run stillLive _) ?_
    refine answers_pure _ ⟨⟨small, ?_, rfl⟩, inside, file, points, ?_, ?_⟩
    · have shared := soundClosed.shared inside (update_self _ _ _) live
        (if closeOnExec then fdCloexec else 0)
      refine shared.of_parts rfl ?_ rfl
      exact (update_idem _ _ _).symm
    · exact (update_of_ne different _ _).trans points
    · exact update_self _ _ _

/-! ### Positions and flags -/

theorem seekBase_graceful (sound : Sound tree kernel) {object : Vfs.File}
    (points : kernel.openFiles fd = some file) (live : kernel.vfs.files file = some object)
    (whence : Nat) :
    Graceful (fun base => base ≤ int64Max) (seekBase kernel.vfs object whence) := by
  obtain ⟨object', dentry, inode, content, live', liveDentry, pointsInode, liveInode⟩ :=
    sound.slot points
  rw [live] at live'
  cases live'
  unfold seekBase
  split
  · exact (by decide : (0 : Int) ≤ int64Max)
  · split
    · exact (by decide : errRange < 0)
    · rename_i bounded
      exact Int.not_lt.mp bounded
  · rw [follow_live liveDentry]
    simp only [bind, Except.bind, pointsInode]
    rw [follow_live liveInode]
    simp only
    split
    · exact (by decide : errRange < 0)
    · rename_i bounded
      exact Int.not_lt.mp bounded
  · exact (by decide : errInval < 0)

theorem seekTarget_graceful {base : Int} (offset : Int) (bounded : base ≤ int64Max) :
    Graceful (fun position => position < 2 ^ 63) (seekTarget base offset) := by
  unfold seekTarget
  split
  · exact (by decide : errRange < 0)
  · rename_i inRange
    split
    · exact (by decide : errInval < 0)
    · change (base + offset).toNat < 2 ^ 63
      unfold int64Max at bounded inRange
      omega

theorem sysLseek_answers (sound : Sound tree kernel) (fd rawOffset whence : Nat) :
    Answers kernel kernel (sysLseek fd rawOffset whence) (Kept tree kernel) := by
  unfold sysLseek
  refine .gets ?_
  refine .lift (openSlot_graceful _ fd) (.refl _) ?_
  rintro file ⟨_, points⟩
  obtain ⟨_, object, live⟩ := sound.accounts.slot fd file points
  rw [show follow (id kernel).vfs.files file = .ok object from follow_live live]
  refine .step (run_lift _ _) ?_
  refine .lift (seekBase_graceful sound points live whence) (.refl _) ?_
  intro base bounded
  refine .lift (seekTarget_graceful _ bounded) (.refl _) ?_
  intro position small
  refine .step (changeFile_run live _) ?_
  exact answers_pure _ ⟨small, sound.edited live rfl rfl (InRange.small tree small), rfl⟩

theorem sysFcntl_answers (sound : Sound tree kernel) (fd command argument : Nat) :
    Answers kernel kernel (sysFcntl fd command argument) (Kept tree kernel) := by
  have word : ∀ value : Nat, value % 2 ^ 32 < 2 ^ 63 := by
    intro value
    omega
  unfold sysFcntl
  refine .gets ?_
  refine .lift (openSlot_graceful _ fd) (.refl _) ?_
  rintro file ⟨inside, points⟩
  obtain ⟨_, object, live⟩ := sound.accounts.slot fd file points
  split
  · exact (duplicateFd_answers sound fd argument false false).imp
      (fun _ _ duplicated => duplicated.kept)
  · exact answers_pure _ ⟨word _, sound, rfl⟩
  · refine answers_ite _ (fun _ => answers_fail (by decide) (.refl _)) ?_
    intro _
    refine .step (setSlot_run inside _ _) ?_
    exact answers_pure _ ⟨by decide, sound.reflagged points _, rfl⟩
  · rw [show follow (id kernel).vfs.files file = .ok object from follow_live live]
    refine .step (run_lift _ _) ?_
    exact answers_pure _ ⟨word _, sound, rfl⟩
  · refine .step (changeFile_run live _) ?_
    exact answers_pure _ ⟨by decide, sound.edited live rfl rfl (sound.offset file object live), rfl⟩
  · exact answers_fail (by decide) (.refl _)

/-! ### The current directory -/

theorem sysGetcwd_answers (sound : Sound tree kernel) (userBuffer size : Nat) :
    Answers kernel kernel (sysGetcwd userBuffer size) (Kept tree kernel) := by
  obtain ⟨text, found⟩ := sound.text
  have short := cString_length found
  rw [sound.capacity] at short
  unfold sysGetcwd
  refine .gets ?_
  rw [show cString (id kernel).currentDirectory = .ok text from found]
  refine .step (run_lift _ _) ?_
  refine answers_ite _ (fun _ => answers_fail (by decide) (.refl _)) ?_
  intro _
  refine .bind (answers_copyToUser userBuffer _) ?_
  rintro done _ ⟨mem, rfl⟩
  refine answers_ite _ ?_ (fun _ => answers_fail (by decide) ((Same.refl _).setMem mem))
  intro _
  refine answers_pure _ ⟨?_, sound.setMem mem, rfl⟩
  unfold pathCapacity at short
  omega

/-- The current directory is another near directory. -/
structure Entered (tree : Vfs.State) (before : State) (dentry : Nat) (after : State) : Prop where
  sound : Sound tree after
  vfs : after.vfs = before.vfs
  openFiles : after.openFiles = before.openFiles
  directory : tree.typeOf dentry = some .directory
  path : ∃ names rest, Vfs.Located tree dentry names ∧
    after.currentDirectory = Vfs.pathText names ++ 0 :: rest

theorem storeDirectory_run {now : State} (shape : now.vfs.shape = tree)
    (size : now.currentDirectory.length = pathCapacity) {dentry : Nat} (near : Near tree dentry) :
    ∃ names rest, Vfs.Located tree dentry names ∧
      (Vfs.pathText names ++ 0 :: rest).length = pathCapacity ∧
      (storeDirectory dentry).run now =
        (.ok 0, { now with currentDirectory := Vfs.pathText names ++ 0 :: rest }) := by
  obtain ⟨names, rest, located, written, length⟩ := dentryPath_near shape near size
  refine ⟨names, rest, located, length, ?_⟩
  unfold storeDirectory
  rw [run_bind_ok (run_gets _ _)]
  have checked : (lift (dentryPath (id now).vfs dentry (id now).currentDirectory
      pathCapacity) : Action _).run now = (.ok (0, Vfs.pathText names ++ 0 :: rest), now) := by
    rw [run_lift]
    exact congrArg (fun result => (result, now)) written
  rw [run_bind_ok checked]
  rfl

theorem Sound.entered (sound : Sound tree kernel) {names : List Vfs.Name} {rest : List UInt8}
    (directory : tree.typeOf dentry = some .directory) (located : Vfs.Located tree dentry names)
    (length : (Vfs.pathText names ++ 0 :: rest).length = pathCapacity) :
    Entered tree kernel dentry
      { kernel with currentDirectory := Vfs.pathText names ++ 0 :: rest } := by
  refine ⟨?_, rfl, rfl, directory, names, rest, located, rfl⟩
  exact
    { shape := sound.shape
      accounts := sound.accounts
      fits := sound.fits
      near := sound.near
      offset := sound.offset
      capacity := length
      text := cString_exists _ rest }

theorem sysFchdir_answers (sound : Sound tree kernel) (fd : Nat) :
    Answers kernel kernel (sysFchdir fd) (fun value after => value = 0 ∧
      ∃ file object, kernel.openFiles fd = some file ∧ kernel.vfs.files file = some object ∧
        Entered tree kernel object.dentry after) := by
  unfold sysFchdir
  refine .gets ?_
  refine .lift (openDirectory_graceful sound fd) (.refl _) ?_
  rintro dentry ⟨near, directory, file, object, points, live, rfl⟩
  obtain ⟨names, rest, located, length, ran⟩ := storeDirectory_run sound.shape sound.capacity near
  refine .step ran ?_
  exact answers_run rfl ⟨rfl, file, object, points, live, sound.entered directory located length⟩

theorem sysChdir_answers (sound : Sound tree kernel) (userPath : Nat) :
    Answers kernel kernel (sysChdir userPath) (fun value after => value = 0 ∧
      ∃ path text dentry, resolveUserPath kernel atFdcwd userPath pathCapacity = .ok path ∧
        cString path = .ok text ∧ Vfs.Names tree text dentry ∧
        Entered tree kernel dentry after) := by
  unfold sysChdir
  refine .gets ?_
  refine .lift (resolveText_graceful sound atFdcwd userPath).self (.refl _) ?_
  rintro path ⟨isPath, text, found, short⟩
  rw [found]
  refine .step (run_lift _ _) ?_
  refine .bind (answers_walkPath sound (.refl _) text) ?_
  rintro dentry _ ⟨rfl, absolute, named, object, live⟩
  have near : Near tree dentry := by
    obtain ⟨names, located, bounds⟩ := named.near sound.accounts.tree absolute
      (Nat.le_of_lt_succ short)
    refine ⟨names, ?_, bounds⟩
    rw [← sound.shape]
    exact located.shape
  obtain ⟨inode, content, points, liveInode⟩ := sound.accounts.tree.inode dentry object live
  have held : (kernel.hold dentry).vfs.dentries dentry = some { object with
      refCount := object.refCount + (Pi.single dentry 1 : Nat → Int) dentry } :=
    kernel.vfs.adjust_dentries _ live
  have liveHeld : (kernel.hold dentry).vfs.inodes inode = some content := liveInode
  refine .step (fetch_run held) ?_
  simp only [points]
  refine .step (fetch_run liveHeld) ?_
  refine answers_ite _ ?_ ?_
  · intro _
    refine .bind (answers_release sound live) ?_
    rintro _ _ rfl
    exact answers_fail (by decide) (.refl _)
  · intro isDirectory
    have directory : tree.typeOf dentry = some .directory := by
      rw [← sound.shape, Vfs.State.shape_typeOf, Vfs.typeOf_of_live live points liveInode,
        not_not.mp isDirectory]
    obtain ⟨names, rest, located, length, ran⟩ := @storeDirectory_run tree (kernel.hold dentry)
      ((kernel.vfs.shape_adjust _).trans sound.shape) sound.capacity dentry near
    refine .step ran ?_
    have entered := sound.entered directory located length
    refine .bind (answers_release entered.sound live) ?_
    rintro _ _ rfl
    refine answers_run rfl ⟨rfl, path, text, dentry, isPath, found, ?_, entered⟩
    rw [← sound.shape]
    exact (Vfs.names_shape_iff _).mpr named

/-! ### Access and status -/

theorem sysAccessat_answers (sound : Sound tree kernel) (dirfd userPath mode flags : Nat) :
    Answers kernel kernel (sysAccessat dirfd userPath mode flags) (Kept tree kernel) := by
  unfold sysAccessat
  refine answers_ite _ (fun _ => answers_fail (by decide) (.refl _)) ?_
  intro _
  refine answers_ite _ (fun _ => answers_fail (by decide) (.refl _)) ?_
  intro _
  refine .gets ?_
  refine answers_resolve sound (.refl _) ?_
  intro text _
  refine .bind (answers_walkPath sound (.refl _) text) ?_
  rintro dentry _ ⟨rfl, _, _, object, live⟩
  refine .bind (answers_release sound live) ?_
  rintro _ _ rfl
  exact answers_pure _ ⟨by decide, sound, rfl⟩

theorem countDirectories_ok {vfs : Vfs.State} (wellFormed : Vfs.Tree vfs) (children : List Nat)
    (live : ∀ child ∈ children, ∃ object, vfs.dentries child = some object) :
    ∃ count, countDirectories vfs children = .ok count := by
  induction children with
  | nil => exact ⟨0, rfl⟩
  | cons child rest ih =>
    obtain ⟨later, counted⟩ := ih (fun other member => live other (.tail _ member))
    obtain ⟨object, liveChild⟩ := live child (.head _)
    obtain ⟨inode, content, points, liveInode⟩ := wellFormed.inode child object liveChild
    unfold countDirectories
    rw [follow_live liveChild]
    simp only [bind, Except.bind, points]
    rw [follow_live liveInode, counted]
    exact ⟨_, rfl⟩

theorem fillStat_ok {now : State} (wellFormed : Vfs.Tree now.vfs) {object : Vfs.Dentry}
    (live : now.vfs.dentries dentry = some object) (content : Vfs.Inode) :
    ∃ bytes, fillStat now object content = .ok bytes := by
  obtain ⟨count, counted⟩ := countDirectories_ok wellFormed object.children (fun child member => by
    obtain ⟨below, liveChild, _⟩ := wellFormed.child dentry object child live member
    exact ⟨below, liveChild⟩)
  unfold fillStat
  simp only
  split
  · rw [counted]
    exact ⟨_, rfl⟩
  · exact ⟨_, rfl⟩

theorem sysStatDentry_run {now : State} (wellFormed : Vfs.Tree now.vfs) {dentry : Nat}
    {object : Vfs.Dentry} (live : now.vfs.dentries dentry = some object) (userStatbuf : Nat) :
    ∃ result mem, (sysStatDentry dentry userStatbuf).run now = (result, { now with mem := mem }) ∧
      (result = .ok 0 ∨ result = .error (.code errFault)) := by
  obtain ⟨inode, content, points, liveInode⟩ := wellFormed.inode dentry object live
  obtain ⟨bytes, filled⟩ := fillStat_ok wellFormed live content
  obtain ⟨done, mem, copied⟩ := copyToUser_run userStatbuf bytes now
  unfold sysStatDentry
  rw [run_bind_ok (run_gets _ _)]
  simp only [id]
  rw [follow_live live, run_bind_ok (run_lift _ _)]
  simp only [points]
  rw [follow_live liveInode, run_bind_ok (run_lift _ _), filled,
    run_bind_ok (run_lift _ _), run_bind_ok copied, run_ite]
  cases done with
  | true => exact ⟨_, mem, rfl, .inl rfl⟩
  | false => exact ⟨_, mem, rfl, .inr rfl⟩

theorem sysStatPath_answers (sound : Sound tree kernel) (text : List UInt8) (userStatbuf : Nat) :
    Answers kernel kernel (sysStatPath text userStatbuf) (Kept tree kernel) := by
  unfold sysStatPath
  refine answers_ite _ (fun _ => answers_fail (by decide) (.refl _)) ?_
  intro _
  refine .bind (answers_walkPath sound (.refl _) text) ?_
  rintro dentry _ ⟨rfl, _, _, object, live⟩
  obtain ⟨result, mem, ran, cases_⟩ := @sysStatDentry_run (kernel.hold dentry)
    (sound.accounts.tree.held dentry) dentry _ (kernel.vfs.adjust_dentries _ live) userStatbuf
  have release := @answers_release tree kernel { kernel with mem := mem } (sound.setMem mem) dentry
    object live
  rcases cases_ with rfl | rfl
  · refine .step (run_attempt_ok ran) ?_
    refine .bind release ?_
    rintro _ _ rfl
    exact answers_pure _ ⟨by decide, sound.setMem mem, rfl⟩
  · refine .step (run_attempt_code ran) ?_
    refine .bind release ?_
    rintro _ _ rfl
    exact answers_fail (by decide) ((Same.refl _).setMem mem)

theorem sysNewfstatat_answers (sound : Sound tree kernel) (dirfd userPath userStatbuf flags : Nat) :
    Answers kernel kernel (sysNewfstatat dirfd userPath userStatbuf flags) (Kept tree kernel) := by
  unfold sysNewfstatat
  refine answers_ite _ (fun _ => answers_fail (by decide) (.refl _)) ?_
  intro _
  refine .gets ?_
  refine answers_resolve sound (.refl _) ?_
  intro text _
  exact sysStatPath_answers sound text userStatbuf

theorem sysFstat_answers (sound : Sound tree kernel) (fd userStatbuf : Nat) :
    Answers kernel kernel (sysFstat fd userStatbuf) (Kept tree kernel) := by
  unfold sysFstat
  refine answers_ite _ (fun _ => answers_fail (by decide) (.refl _)) ?_
  intro _
  refine .gets ?_
  refine .lift (openSlot_graceful _ fd) (.refl _) ?_
  rintro file ⟨_, points⟩
  obtain ⟨object, dentry, _, _, live, liveDentry, _⟩ := sound.slot points
  rw [show follow (id kernel).vfs.files file = .ok object from follow_live live]
  refine .step (run_lift _ _) ?_
  obtain ⟨result, mem, ran, cases_⟩ := sysStatDentry_run sound.accounts.tree liveDentry userStatbuf
  rcases cases_ with rfl | rfl
  · exact answers_run ran ⟨by decide, sound.setMem mem, rfl⟩
  · rintro _ rfl
    rw [ran]
    exact ⟨errFault, rfl, by decide, (Same.refl _).setMem mem⟩

end Calls

end Synx.Kernel
