/-
The access mode of open files, for any file system.
-/

import Synx.Fs.Sessions
import Synx.Fs.OpenWalk

namespace Synx.Vfs

open Lib Program

/-- The two bits of the flags that say how a file is used. -/
def accessMode (flags : Nat) : Nat := flags &&& 3

def Readable (flags : Nat) : Prop := accessMode flags = oRdonly ∨ accessMode flags = oRdwr

def Writable (flags : Nat) : Prop := accessMode flags = oWronly ∨ accessMode flags = oRdwr

theorem accessMode_statusFlags (flags argument : Nat) :
    accessMode (statusFlags flags argument) = accessMode flags := by
  unfold accessMode statusFlags oAppend
  rw [Nat.and_or_distrib_right, Nat.and_assoc, Nat.and_assoc]
  simp

theorem readable_iff (flags : Nat) : Readable flags ↔ flags &&& oWronly = 0 := by
  have low : flags &&& 3 = flags % 4 := Nat.and_two_pow_sub_one_eq_mod flags 2
  have bit : flags &&& 1 = flags % 2 := Nat.and_two_pow_sub_one_eq_mod flags 1
  unfold Readable accessMode oRdonly oRdwr oWronly
  rw [low, bit]
  omega

/-! ### The mode a file was opened with -/

/-- The access mode is that of the flags a file was opened with. -/
def SameMode (openedWith : Nat → Option Nat) (id current : Nat) : Prop :=
  ∃ flags, openedWith id = some flags ∧ accessMode current = accessMode flags

theorem stable_sameMode (openedWith : Nat → Option Nat) :
    Stable File.flags (SameMode openedWith) where
  offset _ _ _ now := now
  flags := by
    rintro id file argument ⟨flags, opened, same⟩
    exact ⟨flags, opened, (accessMode_statusFlags _ _).trans same⟩
  refCount _ _ _ now := now

theorem sameMode_opens {τ : Type} {fs : Fs τ} {openedWith : Nat → Option Nat}
    (modes : EachFile File.flags (SameMode openedWith) fs) (id address dentry flags : Nat) :
    EachFile File.flags (SameMode (store openedWith id (some flags)))
      { fs with vfs := fs.vfs.setFile id (some ⟨address, dentry, 0, flags, 1⟩) } := by
  intro other file live
  by_cases same : other = id
  · subst same
    have new := Option.some.inj ((store_same).symm.trans live)
    rw [← new]
    exact ⟨flags, store_same, rfl⟩
  · obtain ⟨old, opened, kept⟩ := modes other file ((store_other same).symm.trans live)
    exact ⟨old, (store_other same).trans opened, kept⟩

theorem InSession.modes {τ : Type} {heap : Heap τ} {ops : FileSystem τ} {session : Session τ}
    (leaves : Leaves File.flags ops) (reached : InSession heap ops session) :
    EachFile File.flags (SameMode session.openedWith) session.fs := by
  induction reached with
  | start fs closed =>
    intro id file live
    rw [closed id] at live
    cases live
  | step _ next ih =>
    cases next with
    | opened ran =>
      exact (leaves.indifferent.openFile_triple _ _
        (fun fs id _ _ modes => sameMode_opens modes id _ _ _)).ok ih ran
    | refused ran =>
      exact (leaves.indifferent.openFile_triple _ _
        (fun fs id _ _ modes => sameMode_opens modes id _ _ _)).error ih ran
    | used use => exact (perform_each leaves (stable_sameMode _) use).final ih

/-! ### Calls of the operations -/

/-- A call of `read` or `write` of the file system. -/
inductive Access
  | read (file : Nat)
  | write (file : Nat)
  deriving DecidableEq

/-- An access that the flags of the opening allow. -/
def Permitted (openedWith : Nat → Option Nat) : Access → Prop
  | .read file => ∃ flags, openedWith file = some flags ∧ Readable flags
  | .write file => ∃ flags, openedWith file = some flags ∧ Writable flags

section

variable {τ : Type}

/-- The file system without the record of accesses. -/
def unwatched (fs : Fs (τ × List Access)) : Fs τ := ⟨fs.vfs, fs.heap.1⟩

def unrecorded {α : Type} (call : Call τ α) : Call (τ × List Access) α :=
  zoom unwatched (fun part fs => ⟨part.vfs, part.heap, fs.heap.2⟩) call

def record (access : Access) : Call (τ × List Access) Unit :=
  modify (fun fs => ⟨fs.vfs, fs.heap.1, access :: fs.heap.2⟩)

/-- The same operations, with a record of the calls of `read` and `write`. -/
def watched (ops : FileSystem τ) : FileSystem (τ × List Access) :=
  { lookup := ops.lookup.map (fun lookup dir dentry name => unrecorded (lookup dir dentry name))
    create := ops.create.map (fun create dir dentry mode => unrecorded (create dir dentry mode))
    read := ops.read.map (fun read file size offset => do
      record (.read file)
      unrecorded (read file size offset))
    write := ops.write.map (fun write file bytes offset => do
      record (.write file)
      unrecorded (write file bytes offset))
    readdir := ops.readdir.map (fun readdir file count => unrecorded (readdir file count))
    destroyInode :=
      ops.destroyInode.map (fun destroyInode inode => unrecorded (destroyInode inode)) }

def watch (fs : Fs τ) : Fs (τ × List Access) := ⟨fs.vfs, fs.heap, []⟩

def accesses {α : Type} (call : Call (τ × List Access) α) (fs : Fs τ) : List Access :=
  (call.run (watch fs)).2.heap.2

/-! ### A watched call does what the call does -/

def Mirrors {α : Type} (shadow : Call (τ × List Access) α) (call : Call τ α) : Prop :=
  ∀ fs, ((shadow.run fs).1, unwatched (shadow.run fs).2) = call.run (unwatched fs)

namespace Mirrors

variable {α β : Type}

theorem pure (value : α) :
    Mirrors (τ := τ) (Pure.pure value : Call (τ × List Access) α) (Pure.pure value) := fun _ => rfl

theorem unrecorded (call : Call τ α) : Mirrors (Vfs.unrecorded call) call := fun _ => rfl

theorem update (change : State → State) :
    Mirrors (τ := τ) (Vfs.update change) (Vfs.update change) :=
  fun _ => rfl

theorem fetch (cells : State → Nat → Option α) (id : Nat) :
    Mirrors (τ := τ) (Vfs.fetch cells id) (Vfs.fetch cells id) := by
  intro fs
  unfold run Vfs.fetch unwatched
  cases cells fs.vfs id <;> rfl

variable {shadow : Call (τ × List Access) α} {call : Call τ α}

theorem bind {shadowNext : α → Call (τ × List Access) β} {next : α → Call τ β}
    (first : Mirrors shadow call) (second : ∀ value, Mirrors (shadowNext value) (next value)) :
    Mirrors (shadow >>= shadowNext) (call >>= next) := by
  intro fs
  have same := first fs
  rw [run_bind, run_bind, ← same]
  cases ran : shadow.run fs with
  | mk result after =>
    cases result with
    | ok value => exact second value after
    | error reason => rfl

theorem recorded (access : Access) (same : Mirrors shadow call) :
    Mirrors (record access >>= fun _ => shadow) call := by
  intro fs
  exact same ⟨fs.vfs, fs.heap.1, access :: fs.heap.2⟩

theorem ite (condition : Prop) [Decidable condition] {yes no : Call (τ × List Access) α}
    {yes' no' : Call τ α} (holds : Mirrors yes yes') (fails : Mirrors no no') :
    Mirrors (if condition then yes else no) (if condition then yes' else no') := by
  split
  · exact holds
  · exact fails

theorem inodeOf (dentry : Dentry) : Mirrors (τ := τ) (Vfs.inodeOf dentry) (Vfs.inodeOf dentry) := by
  unfold Vfs.inodeOf
  cases dentry.inode with
  | none => exact fun _ => rfl
  | some id => exact bind (fetch _ id) (fun _ => pure _)

theorem writeOffset (file : File) :
    Mirrors (τ := τ) (Vfs.writeOffset file) (Vfs.writeOffset file) :=
  ite _ (bind (fetch _ _) (fun _ => bind (inodeOf _) (fun _ => pure _))) (pure _)

end Mirrors

variable {ops : FileSystem τ}

theorem watched_readFile (id size : Nat) :
    Mirrors (readFile (watched ops) id size) (readFile ops id size) := by
  refine .bind (.fetch _ id) (fun file => .ite _ (.pure _) ?_)
  unfold watched
  cases ops.read with
  | none => exact .pure _
  | some read =>
    refine .bind (.recorded _ (.unrecorded _)) (fun result =>
      .ite _ ?_ (.pure _))
    exact .bind (.fetch _ id) (fun _ =>
      .bind (.update _) (fun _ => .pure _))

theorem watched_writeFile (id : Nat) (bytes : List UInt8) :
    Mirrors (writeFile (watched ops) id bytes) (writeFile ops id bytes) := by
  refine .bind (.fetch _ id) (fun file => .ite _ (.pure _) ?_)
  unfold watched
  cases ops.write with
  | none => exact .pure _
  | some write =>
    refine .bind (.writeOffset file) (fun offset =>
      .bind (.recorded _ (.unrecorded _)) (fun count =>
        .ite _ ?_ (.pure _)))
    refine .bind (.fetch _ id) (fun _ => .bind (.update _) (fun _ =>
      .bind (.fetch _ _) (fun _ => .bind (.inodeOf _) (fun found => ?_))))
    exact .ite _ (.bind (.update _) (fun _ => .pure _)) (.pure _)

/-! ### Which calls reach the file system -/

def Recorded (log : List Access) (fs : Fs (τ × List Access)) : Prop := fs.heap.2 = log

variable {log : List Access}

variable {α β : Type} {next : α → Call (τ × List Access) β}

theorem keeps_unrecorded (call : Call τ α) : Keeps (Recorded log) (unrecorded call) := by
  intro fs now
  unfold run unrecorded zoom
  cases call (unwatched fs) with
  | mk result after =>
    cases result with
    | ok value => exact now
    | error reason => exact now

theorem keeps_recorded_update (change : State → State) :
    Keeps (Recorded log) (update change : Call (τ × List Access) Unit) :=
  .modify (fun _ now => now)

theorem accesses_recorded (access : Access) (call : Call τ α)
    (rest : ∀ value, Keeps (Recorded [access]) (next value)) (fs : Fs τ) :
    accesses ((record access >>= fun _ => unrecorded call) >>= next) fs = [access] := by
  have started : Recorded [access] (⟨fs.vfs, fs.heap, [access]⟩ : Fs (τ × List Access)) := rfl
  exact (Keeps.bind (keeps_unrecorded call) rest).final started

theorem accesses_bind {call : Call (τ × List Access) α} {fs : Fs τ} {value : α}
    (ran : call.run (watch fs) = (.ok value, watch fs)) :
    accesses (call >>= next) fs = accesses (next value) fs := by
  unfold accesses
  rw [run_bind_ok ran]

theorem accesses_error {call : Call (τ × List Access) α} {fs : Fs τ} {reason : Stop Fault}
    (ran : call.run (watch fs) = (.error reason, watch fs)) : accesses (call >>= next) fs = [] := by
  unfold accesses
  rw [run_bind_error ran]
  rfl

variable {fs : Fs τ} {id : Nat} {file : File}

theorem accesses_readFile (live : fs.vfs.files id = some file) (size : Nat) :
    accesses (readFile (watched ops) id size) fs =
      if file.flags &&& oWronly = 0 ∧ ops.read.isSome then [.read id] else [] := by
  have found : (fileOf id).run (watch fs) = (.ok file, watch fs) := run_fileOf live
  unfold readFile
  rw [accesses_bind found]
  by_cases refused : file.flags &&& oWronly = 0
  · rw [if_neg (not_not_intro refused)]
    unfold watched
    cases reads : ops.read with
    | none =>
      rw [if_neg (fun both => Bool.noConfusion both.2)]
      rfl
    | some read =>
      rw [if_pos ⟨refused, rfl⟩]
      refine accesses_recorded (.read id) _ (fun result => .ite _ ?_ (.pure _)) fs
      exact .bind (keeps_fileOf id) (fun _ => .bind (keeps_recorded_update _)
        (fun _ => .pure _))
  · rw [if_pos refused, if_neg (fun both => refused both.1)]
    rfl

theorem accesses_writeFile {write : Nat → List UInt8 → Nat → Call τ Int}
    (live : fs.vfs.files id = some file) (writes : ops.write = some write)
    (passes : file.flags ≠ oRdonly) (positioned : position fs file ≠ none) (bytes : List UInt8) :
    accesses (writeFile (watched ops) id bytes) fs = [.write id] := by
  have found : (fileOf id).run (watch fs) = (.ok file, watch fs) := run_fileOf live
  obtain ⟨offset, at_⟩ := Option.ne_none_iff_exists'.mp positioned
  have placed : (writeOffset file).run (watch fs) = (.ok offset, watch fs) := by
    have same : position (watch fs) file = some offset := at_
    rw [run_writeOffset, same]
  unfold writeFile
  rw [accesses_bind found, if_neg passes]
  unfold watched
  rw [writes]
  refine (accesses_bind placed).trans ?_
  refine accesses_recorded (.write id) _ (fun count => .ite _ ?_ (.pure _)) fs
  refine .bind (keeps_fileOf id) (fun _ => .bind (keeps_recorded_update _) (fun _ =>
    .bind (keeps_dentryOf _) (fun _ => .bind (keeps_inodeOf _) (fun found => ?_))))
  exact .ite _ (.bind (keeps_recorded_update _) (fun _ => .pure _)) (.pure _)

theorem accesses_writeFile_refused (live : fs.vfs.files id = some file)
    (refused : file.flags = oRdonly ∨ position fs file = none) (bytes : List UInt8) :
    accesses (writeFile (watched ops) id bytes) fs = [] := by
  have found : (fileOf id).run (watch fs) = (.ok file, watch fs) := run_fileOf live
  unfold writeFile
  rw [accesses_bind found]
  by_cases readOnly : file.flags = oRdonly
  · rw [if_pos readOnly]
    rfl
  · have lost : position (watch fs) file = none := refused.resolve_left readOnly
    have faults : (writeOffset file).run (watch fs) =
        (.error (.fault .badPointer), watch fs) := by
      rw [run_writeOffset, lost]
    rw [if_neg readOnly]
    unfold watched
    cases ops.write with
    | none => rfl
    | some write =>
      exact accesses_error faults

end

/-- In every session, a read reaches the file system only for a file that was opened for
reading, and a write only for a file that was opened for writing, unless the file has
other flags than its access mode. -/
theorem accesses_proper_iff {τ : Type} {heap : Heap τ} {ops : FileSystem τ}
    {write : Nat → List UInt8 → Nat → Call τ Int} (leaves : Leaves File.flags ops)
    (writes : ops.write = some write) {session : Session τ} (reached : InSession heap ops session)
    {id flags : Nat} {file : File} (live : session.fs.vfs.files id = some file)
    (opened : session.openedWith id = some flags) :
    (∀ size access, access ∈ accesses (readFile (watched ops) id size) session.fs →
        Permitted session.openedWith access) ∧
      ((∀ bytes access, access ∈ accesses (writeFile (watched ops) id bytes) session.fs →
          Permitted session.openedWith access) ↔
        file.flags = oRdonly ∨ Writable flags ∨ position session.fs file = none) := by
  have mode : accessMode file.flags = accessMode flags := by
    obtain ⟨other, same, mode⟩ := reached.modes leaves id file live
    rw [opened] at same
    cases same
    exact mode
  refine ⟨?_, ?_, ?_⟩
  · intro size access member
    rw [accesses_readFile live] at member
    split at member
    · rename_i passes
      rw [List.mem_singleton.mp member]
      refine ⟨flags, opened, ?_⟩
      have readable := (readable_iff file.flags).mpr passes.1
      unfold Readable at readable ⊢
      rw [← mode]
      exact readable
    · cases member
  · intro proper
    by_contra bad
    push Not at bad
    obtain ⟨passes, notWritable, positioned⟩ := bad
    have reaches : Access.write id ∈ accesses (writeFile (watched ops) id []) session.fs := by
      rw [accesses_writeFile live writes passes positioned]
      exact List.mem_singleton_self _
    obtain ⟨other, same, writable⟩ := proper [] _ reaches
    rw [opened] at same
    cases same
    exact notWritable writable
  · intro condition bytes access member
    by_cases refused : file.flags = oRdonly ∨ position session.fs file = none
    · rw [accesses_writeFile_refused live refused] at member
      cases member
    · push Not at refused
      have writable : Writable flags := by
        rcases condition with readOnly | writable | lost
        · exact absurd readOnly refused.1
        · exact writable
        · exact absurd lost refused.2
      rw [accesses_writeFile live writes refused.1 refused.2] at member
      rw [List.mem_singleton.mp member]
      exact ⟨flags, opened, writable⟩

/-- A file system whose `write` takes every byte it is given below `2 ^ 64`. -/
def takingFs : FileSystem Nat :=
  { lookup := none
    create := none
    read := some (fun _ _ _ => pure (0, []))
    write := some (fun _ bytes offset =>
      if offset + bytes.length < 2 ^ 64 then pure bytes.length else pure (- EIO))
    readdir := none
    destroyInode := none }

theorem takingFs_leaves {γ : Type} (view : File → γ) : Leaves view takingFs where
  lookup := nofun
  create := nofun
  read := by
    rintro _ ⟨⟩ file size offset table
    exact .pure _
  write := by
    rintro _ ⟨⟩ file bytes offset table
    exact .ite _ (.pure _) (.pure _)
  destroyInode := nofun

/-- The file `a` opened with the flags, in a session of its own. -/
def openedSession (flags : Nat) : Session Nat :=
  ⟨((openFile Ramfs.endless takingFs [slash, 97] flags).run Ramfs.smallFs).2,
    store (fun _ => none) 2 (some flags)⟩

theorem openedSession_inSession {flags : Nat}
    (opens : ((openFile Ramfs.endless takingFs [slash, 97] flags).run Ramfs.smallFs).1.toOption =
      some 2) :
    InSession Ramfs.endless takingFs (openedSession flags) :=
  .step (.start Ramfs.smallFs (fun _ => rfl)) (.opened (run_of_toOption opens))

theorem accesses_proper_wronly :
    (∀ size access, access ∈ accesses (readFile (watched takingFs) 2 size)
        (openedSession oWronly).fs → Permitted (openedSession oWronly).openedWith access) ∧
      ∀ bytes access, access ∈ accesses (writeFile (watched takingFs) 2 bytes)
        (openedSession oWronly).fs → Permitted (openedSession oWronly).openedWith access := by
  have reached : InSession Ramfs.endless takingFs (openedSession oWronly) :=
    openedSession_inSession (by decide +kernel)
  have live : (openedSession oWronly).fs.vfs.files 2 = some ⟨0, 1, 0, oWronly, 1⟩ := rfl
  obtain ⟨reads, writes⟩ := accesses_proper_iff (takingFs_leaves File.flags) rfl reached live rfl
  exact ⟨reads, writes.mpr (.inr (.inl (.inl rfl)))⟩

/-- A file that is opened with `O_CREAT | O_RDONLY` is written. -/
theorem write_reaches_readonly :
    InSession Ramfs.endless takingFs (openedSession (oCreat ||| oRdonly)) ∧
      accessMode (oCreat ||| oRdonly) = oRdonly ∧
      .write 2 ∈ accesses (writeFile (watched takingFs) 2 [0])
        (openedSession (oCreat ||| oRdonly)).fs ∧
      ¬Permitted (openedSession (oCreat ||| oRdonly)).openedWith (.write 2) := by
  refine ⟨openedSession_inSession (by decide +kernel), by decide, by decide +kernel, ?_⟩
  rintro ⟨flags, opened, writable⟩
  cases opened
  revert writable
  unfold Writable
  decide

end Synx.Vfs
