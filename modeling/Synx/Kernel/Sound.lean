/-
The invariant of the system calls.
-/

import Synx.Fs.Reading
import Synx.Kernel.Resolution

namespace Synx.Kernel

open Lib Program
open Ramfs (ramfs)
open Vfs (Fault Fs Near Accounts Fits Tree Untouched slash)

/-- No directory has more children than a signed number counts. -/
def Roomy (tree : Vfs.State) : Prop :=
  ∀ id dentry, tree.dentries id = some dentry → (dentry.children.length : Int) ≤ int64Max

/-- A position that calls leave behind. -/
structure InRange (tree : Vfs.State) (offset : Nat) : Prop where
  word : offset < 2 ^ 64
  signed : Roomy tree → (offset : Int) ≤ int64Max

theorem InRange.small (tree : Vfs.State) {offset : Nat} (small : offset < 2 ^ 63) :
    InRange tree offset := by
  refine ⟨lt_trans small (by decide), fun _ => ?_⟩
  unfold int64Max
  omega

structure Sound (tree : Vfs.State) (kernel : State) : Prop where
  shape : kernel.vfs.shape = tree
  accounts : Accounts maxOpenFiles kernel.openFiles kernel.vfs
  fits : Fits (2 ^ 32) kernel.vfs
  near : ∀ id file, kernel.vfs.files id = some file → Near tree file.dentry
  offset : ∀ id file, kernel.vfs.files id = some file → InRange tree file.offset
  capacity : kernel.currentDirectory.length = pathCapacity
  text : ∃ text, cString kernel.currentDirectory = .ok text

/-- The files and the table of descriptors are as before.  Address spaces may have
changed. -/
structure SameFiles (before after : State) : Prop where
  vfs : after.vfs = { before.vfs with nextId := after.vfs.nextId }
  later : before.vfs.nextId ≤ after.vfs.nextId
  openFiles : after.openFiles = before.openFiles
  fdFlags : after.fdFlags = before.fdFlags
  currentDirectory : after.currentDirectory = before.currentDirectory

/-- Nothing has changed that system calls are about.  Physical memory and the
memory of the kernel may have. -/
structure Same (before after : State) : Prop extends SameFiles before after where
  activeRootPhys : after.activeRootPhys = before.activeRootPhys
  cr3 : after.cr3 = before.cr3

theorem Same.refl (kernel : State) : Same kernel kernel :=
  ⟨⟨rfl, le_rfl, rfl, rfl, rfl⟩, rfl, rfl⟩

theorem Same.trans {first second third : State} (one : Same first second)
    (two : Same second third) :
    Same first third :=
  { vfs := by rw [two.vfs, one.vfs]
    later := le_trans one.later two.later
    openFiles := two.openFiles.trans one.openFiles
    fdFlags := two.fdFlags.trans one.fdFlags
    currentDirectory := two.currentDirectory.trans one.currentDirectory
    activeRootPhys := two.activeRootPhys.trans one.activeRootPhys
    cr3 := two.cr3.trans one.cr3 }

theorem Same.setFs {kernel : State} {fs : Fs Pages} (untouched : Untouched kernel.fs fs) :
    Same kernel (kernel.setFs fs) :=
  ⟨⟨untouched.vfs, untouched.later, rfl, rfl, rfl⟩, rfl, rfl⟩

variable {tree : Vfs.State} {before now : State}

theorem Sound.of_parts {after : State} (sound : Sound tree before) (vfs : after.vfs = before.vfs)
    (openFiles : after.openFiles = before.openFiles)
    (directory : after.currentDirectory = before.currentDirectory) : Sound tree after := by
  obtain ⟨shape, accounts, fits, near, offset, capacity, text⟩ := sound
  constructor
  · rw [vfs]
    exact shape
  · rw [vfs, openFiles]
    exact accounts
  · rw [vfs]
    exact fits
  · rw [vfs]
    exact near
  · rw [vfs]
    exact offset
  · rw [directory]
    exact capacity
  · rw [directory]
    exact text

theorem Sound.sameFiles {after : State} (sound : Sound tree before)
    (same : SameFiles before after) : Sound tree after := by
  have aged : Sound tree { before with
      vfs := { before.vfs with nextId := after.vfs.nextId } } :=
    { shape := sound.shape
      accounts := sound.accounts.aged same.later
      fits := sound.fits
      near := sound.near
      offset := sound.offset
      capacity := sound.capacity
      text := sound.text }
  exact aged.of_parts same.vfs same.openFiles same.currentDirectory

theorem Sound.same {after : State} (sound : Sound tree before) (same : Same before after) :
    Sound tree after :=
  sound.sameFiles same.toSameFiles

/-! ### Rules -/

def Refused (before : State) (reason : Stop Fault) (after : State) : Prop :=
  ∃ code, reason = .code code ∧ code < 0 ∧ Same before after

/-- A part of a call that started in `before` and has come to `now`. -/
def Answers {α : Type} (before now : State) (action : Action α) (after : α → State → Prop) : Prop :=
  Triple (· = now) action after (Refused before)

section Rules

variable {α β : Type} {before now : State}

variable {action : Action α} {next : α → Action β} {after : α → State → Prop}

theorem Answers.bind {after : β → State → Prop} {between : α → State → Prop}
    (first : Answers before now action between)
    (rest : ∀ value later, between value later → Answers before later (next value) after) :
    Answers before now (action >>= next) after :=
  Triple.bind between first (fun value => Triple.of_state (rest value))

theorem Answers.imp {wanted : α → State → Prop} (answers : Answers before now action wanted)
    (enough : ∀ value later, wanted value later → after value later) :
    Answers before now action after :=
  .weaken answers (fun _ same => same) enough (fun _ _ refused => refused)

theorem answers_pure (value : α) (holds : after value now) :
    Answers before now (pure value) after := by
  rintro _ rfl
  exact holds

variable {code : Int} {value : α} {later : State} {checked : Checked α} {wanted : α → Prop}

theorem answers_fail (negative : code < 0) (same : Same before now) :
    Answers before now (fail code) after := by
  rintro _ rfl
  exact ⟨code, rfl, negative, same⟩

theorem answers_run (ran : action.run now = (.ok value, later)) (holds : after value later) :
    Answers before now action after := by
  rintro _ rfl
  rw [ran]
  exact holds

theorem Answers.step {after : β → State → Prop} (ran : action.run now = (.ok value, later))
    (rest : Answers before later (next value) after) :
    Answers before now (action >>= next) after := by
  rintro _ rfl
  rw [run_bind_ok ran]
  exact rest later rfl

theorem Answers.gets {read : State → α} {after : β → State → Prop}
    (rest : Answers before now (next (read now)) after) :
    Answers before now (gets read >>= next) after := .step (run_gets read now) rest

theorem answers_lift (graceful : Graceful wanted checked) (same : Same before now) :
    Answers before now (lift checked) (fun value later => wanted value ∧ later = now) := by
  rintro _ rfl
  rw [run_lift]
  cases checked with
  | ok value => exact ⟨graceful, rfl⟩
  | error reason =>
    cases reason with
    | code value => exact ⟨value, rfl, graceful, same⟩
    | fault cause => exact graceful.elim

theorem Answers.lift {after : β → State → Prop} (graceful : Graceful wanted checked)
    (same : Same before now)
    (rest : ∀ value, wanted value → Answers before now (next value) after) :
    Answers before now (lift checked >>= next) after := by
  refine .bind (answers_lift graceful same) ?_
  rintro value _ ⟨good, rfl⟩
  exact rest value good

theorem answers_ite (condition : Prop) [Decidable condition] {yes no : Action α}
    (holds : condition → Answers before now yes after)
    (fails : ¬condition → Answers before now no after) :
    Answers before now (if condition then yes else no) after :=
  .ite condition holds fails

theorem run_onFs {call : Vfs.Call Pages α} {result : Except (Stop Fault) α} {fs : Fs Pages}
    (ran : call.run now.fs = (result, fs)) : (onFs call).run now = (result, now.setFs fs) := by
  unfold onFs zoom
  change (let (result, part) := call.run now.fs
    (result, now.setFs part)) = _
  rw [ran]

theorem fetch_run {γ : Type} {cells : Vfs.State → Nat → Option γ} {id : Nat} {cell : γ}
    (live : cells now.vfs id = some cell) : (onFs (Vfs.fetch cells id)).run now = (.ok cell, now) :=
  run_onFs (@Vfs.run_fetch _ now.fs _ cells id cell live)

theorem answers_fails {call : Vfs.Call Pages α} (fails : Vfs.Fails now.fs code (call.run now.fs))
    (negative : code < 0) (same : Same before now) : Answers before now (onFs call) after := by
  obtain ⟨fs, ran, untouched⟩ := fails
  rintro _ rfl
  rw [run_onFs ran]
  exact ⟨code, rfl, negative, same.trans (.setFs untouched)⟩

end Rules

/-! ### Memory of the program -/

theorem writeUserChunks_run (userAddress rounds copied : Nat) (bytes : List UInt8)
    (kernel : State) :
    ∃ done mem, (writeUserChunks userAddress rounds copied bytes).run kernel =
      (.ok done, { kernel with mem := mem }) := by
  induction rounds generalizing copied bytes kernel with
  | zero =>
    cases bytes with
    | nil => exact ⟨true, kernel.mem, rfl⟩
    | cons byte rest => exact ⟨false, kernel.mem, rfl⟩
  | succ rounds ih =>
    cases bytes with
    | nil => exact ⟨true, kernel.mem, rfl⟩
    | cons byte rest =>
      unfold writeUserChunks
      rw [run_bind_ok (run_gets _ _)]
      simp only [id]
      split
      · exact ⟨false, kernel.mem, rfl⟩
      · rw [run_bind_ok (run_modify _ _)]
        obtain ⟨done, mem, ran⟩ := ih _ _ _
        exact ⟨done, mem, ran⟩

theorem copyToUser_run (userAddress : Nat) (bytes : List UInt8) (kernel : State) :
    ∃ done mem, (copyToUser userAddress bytes).run kernel =
      (.ok done, { kernel with mem := mem }) := by
  unfold copyToUser
  split
  · exact ⟨true, kernel.mem, rfl⟩
  · split
    · exact ⟨false, kernel.mem, rfl⟩
    · exact writeUserChunks_run userAddress _ 0 bytes kernel

theorem answers_copyToUser (userAddress : Nat) (bytes : List UInt8) :
    Answers before now (copyToUser userAddress bytes)
      (fun _ later => ∃ mem, later = { now with mem := mem }) := by
  obtain ⟨done, mem, ran⟩ := copyToUser_run userAddress bytes now
  exact answers_run ran ⟨mem, rfl⟩

theorem Same.setMem (same : Same before now) (mem : Memory) : Same before { now with mem := mem } :=
  same.trans ⟨⟨rfl, le_rfl, rfl, rfl, rfl⟩, rfl, rfl⟩

theorem Sound.setMem (sound : Sound tree now) (mem : Memory) :
    Sound tree { now with mem := mem } := sound.of_parts rfl rfl rfl

/-! ### Descriptors and paths -/

section Lookup

variable {tree : Vfs.State} {kernel : State}

theorem slotOf_inside {fd : Nat} (inside : fd < maxOpenFiles) :
    slotOf kernel fd = .ok (kernel.openFiles fd) := if_pos inside

theorem openSlot_graceful (kernel : State) (fd : Nat) :
    Graceful (fun file => fd < maxOpenFiles ∧ kernel.openFiles fd = some file)
      (openSlot kernel fd) := by
  unfold openSlot
  split
  · exact (by decide : errBadf < 0)
  · rename_i outside
    have inside := not_le.mp outside
    rw [slotOf_inside inside]
    simp only [bind, Except.bind]
    cases found : kernel.openFiles fd with
    | none => exact (by decide : errBadf < 0)
    | some file => exact ⟨inside, rfl⟩

theorem Sound.slot (sound : Sound tree kernel) {fd file : Nat}
    (points : kernel.openFiles fd = some file) :
    ∃ object dentry inode content, kernel.vfs.files file = some object ∧
      kernel.vfs.dentries object.dentry = some dentry ∧ dentry.inode = some inode ∧
      kernel.vfs.inodes inode = some content := by
  obtain ⟨object, dentry, live, liveDentry, _⟩ := sound.accounts.live points
  obtain ⟨inode, content, pointsInode, liveInode⟩ :=
    sound.accounts.tree.inode object.dentry dentry liveDentry
  exact ⟨object, dentry, inode, content, live, liveDentry, pointsInode, liveInode⟩

theorem openDirectory_graceful (sound : Sound tree kernel) (fd : Nat) :
    Graceful (fun dentry => Near tree dentry ∧ tree.typeOf dentry = some .directory ∧
        ∃ file object, kernel.openFiles fd = some file ∧ kernel.vfs.files file = some object ∧
          object.dentry = dentry) (openDirectory kernel fd) := by
  unfold openDirectory
  refine Graceful.bind (openSlot_graceful kernel fd) ?_
  rintro file ⟨_, points⟩
  obtain ⟨object, dentry, inode, content, live, liveDentry, pointsInode, liveInode⟩ :=
    sound.slot points
  rw [follow_live live]
  simp only [bind, Except.bind]
  rw [follow_live liveDentry]
  simp only [pointsInode]
  rw [follow_live liveInode]
  simp only
  split
  · exact (by decide : errNotdir < 0)
  · rename_i isDirectory
    refine ⟨sound.near file object live, ?_, file, object, points, live, rfl⟩
    rw [← sound.shape, Vfs.State.shape_typeOf,
      Vfs.typeOf_of_live liveDentry pointsInode liveInode, not_not.mp isDirectory]

theorem dentryPath_near (shape : kernel.vfs.shape = tree) {dentry : Nat} (near : Near tree dentry)
    {path : List UInt8} (size : path.length = pathCapacity) :
    ∃ names rest, Vfs.Located tree dentry names ∧
      dentryPath kernel.vfs dentry path pathCapacity = .ok (0, Vfs.pathText names ++ 0 :: rest) ∧
      (Vfs.pathText names ++ 0 :: rest).length = pathCapacity := by
  obtain ⟨names, located, few, fits⟩ := near
  have here := located
  rw [← shape] at here
  refine ⟨names, _, located, dentryPath_located here.of_shape few size (by decide)
    (Nat.lt_succ_of_le fits), ?_⟩
  have capacity : pathCapacity = 256 := rfl
  rw [List.length_append, List.length_cons, List.length_drop]
  omega

theorem cString_exists (front rest : List UInt8) :
    ∃ text, cString (front ++ 0 :: rest) = .ok text := by
  unfold cString Buffer.string
  rw [if_pos (by simp)]
  exact ⟨_, rfl⟩

theorem baseDirectory_graceful (sound : Sound tree kernel) (dirfd : Nat) :
    Graceful (fun buffer => ∃ text, cString buffer = .ok text ∧ 0 ∉ text)
      (baseDirectory kernel dirfd) := by
  unfold baseDirectory
  split
  · obtain ⟨text, found⟩ := sound.text
    rw [found]
    have short := cString_length found
    rw [sound.capacity] at short
    obtain ⟨rest, stored, _⟩ := @putBuffer_string text (freshBuffer pathCapacity)
      (by rw [length_freshBuffer]; exact short)
    simp only [bind, Except.bind]
    rw [stored]
    have nonzero := (cString_split found).1
    exact ⟨text, cString_append nonzero, nonzero⟩
  · refine Graceful.bind (openDirectory_graceful sound dirfd) ?_
    rintro dentry ⟨near, _⟩
    obtain ⟨names, rest, _, written, _⟩ := dentryPath_near sound.shape near
      (length_freshBuffer pathCapacity)
    rw [written]
    obtain ⟨text, found⟩ := cString_exists (Vfs.pathText names) rest
    exact ⟨text, found, (cString_split found).1⟩

theorem resolveText_graceful (sound : Sound tree kernel) (dirfd userPath : Nat) :
    Graceful (fun buffer => ∃ text, cString buffer = .ok text ∧ text.length < pathCapacity)
      (resolveUserPath kernel dirfd userPath pathCapacity) := by
  refine (resolveUserPath_graceful (baseDirectory_graceful sound dirfd)).imp ?_
  rintro buffer ⟨_, text, _, _, found, short, _⟩
  exact ⟨text, found, short⟩

end Lookup

theorem answers_resolve {α : Type} (sound : Sound tree now) (same : Same before now)
    {dirfd userPath : Nat} {next : List UInt8 → Action α} {after : α → State → Prop}
    (rest : ∀ text, text.length < pathCapacity → Answers before now (next text) after) :
    Answers before now (do
      let path ← lift (resolveUserPath now dirfd userPath pathCapacity)
      let text ← lift (cString path)
      next text) after := by
  refine .lift (resolveText_graceful sound dirfd userPath) same ?_
  rintro buffer ⟨text, found, short⟩
  rw [found]
  exact rest text short

/-! ### Walks -/

def State.hold (kernel : State) (dentry : Nat) : State :=
  { kernel with vfs := kernel.vfs.adjust (Pi.single dentry 1) }

section Walks

variable {tree : Vfs.State} {before now : State}

theorem missingCode_negative (fs : Fs Pages) : Vfs.missingCode Pages.heap fs < 0 := by
  unfold Vfs.missingCode
  split <;> decide

variable {vfs : Vfs.State} {missing code : Int}

theorem walk_code_negative (negative : missing < 0) {start : Nat} {names : List Vfs.Name}
    (failed : vfs.walk missing start names = .error code) : code < 0 := by
  induction names generalizing start with
  | nil => cases failed
  | cons name names ih =>
    rw [Vfs.State.walk_cons] at failed
    cases stepped : vfs.walkStep missing start name with
    | ok next =>
      rw [stepped] at failed
      exact ih failed
    | error reason =>
      rw [stepped] at failed
      cases failed
      unfold Vfs.State.walkStep at stepped
      split at stepped
      · cases stepped
        decide
      · split at stepped
        · cases stepped
        · split at stepped
          · cases stepped
          · split at stepped
            · cases stepped
              decide
            · split at stepped
              · cases stepped
              · cases stepped
                exact negative

theorem resolve_code_negative (negative : missing < 0) {path : Vfs.Name}
    (failed : vfs.resolve missing path = .error code) : code < 0 := by
  unfold Vfs.State.resolve at failed
  split at failed
  · cases failed
    decide
  · split at failed
    · cases failed
      decide
    · exact walk_code_negative negative failed

theorem opens_code_negative (negative : missing < 0) {path : Vfs.Name} {flags : Nat}
    (failed : vfs.opens missing path flags = .error code) : code < 0 := by
  unfold Vfs.State.opens at failed
  split at failed
  · cases failed
    decide
  · split at failed
    · cases failed
      decide
    · cases resolved : vfs.resolve missing (Vfs.State.parentPath path) with
      | error reason =>
        rw [resolved] at failed
        cases failed
        exact resolve_code_negative negative resolved
      | ok parent =>
        rw [resolved] at failed
        simp only [Except.bind] at failed
        split at failed
        · cases failed
          split <;> decide
        · split at failed
          · cases failed
            decide
          · cases failed

theorem answers_walkPath (sound : Sound tree now) (same : Same before now) (text : List UInt8) :
    Answers before now (walkPath text) (fun id later => later = now.hold id ∧
      text.head? = some slash ∧ Vfs.Names now.vfs text id ∧
      ∃ dentry, now.vfs.dentries id = some dentry) := by
  have ended := @Ramfs.pathWalk_ends _ Pages.heap now.fs sound.accounts.tree text
  cases resolved : now.fs.vfs.resolve (Vfs.missingCode Pages.heap now.fs) text with
  | error code =>
    rw [resolved] at ended
    exact answers_fails ended
      (resolve_code_negative (missingCode_negative now.fs) resolved) same
  | ok id =>
    rw [resolved] at ended
    obtain ⟨ran, live⟩ := ended
    have absolute : text.head? = some slash := by
      by_contra relative
      unfold Vfs.State.resolve at resolved
      rw [if_pos relative] at resolved
      cases resolved
    refine answers_run (run_onFs ran) ⟨rfl, absolute, ?_, live⟩
    exact (Vfs.resolve_eq_ok_iff _ _ absolute id).mp resolved

theorem answers_release (sound : Sound tree now) {id : Nat} {dentry : Vfs.Dentry}
    (live : now.vfs.dentries id = some dentry) :
    Answers before (now.hold id) (releaseDentry id) (fun _ later => later = now) :=
  answers_run (run_onFs (@Vfs.run_dput_held _ Pages.heap now.fs ramfs sound.accounts.tree id dentry
    live)) rfl

end Walks

end Synx.Kernel
