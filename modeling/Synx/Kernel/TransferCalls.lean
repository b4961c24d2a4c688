/-
Reading and writing in a sound state.  A transfer that fails may have moved the
position of its file, so the rules here only say that the state stays sound and
that the descriptors and the current directory stay as they are.
-/

import Synx.Kernel.FileCalls
import Synx.Kernel.Transfer

namespace Synx.Kernel

open Lib Program
open Exec (userTop field)
open Ramfs (ramfs)
open Vfs (Fault)

/-- A sound state with the descriptors and the directory of an earlier one. -/
structure Steady (tree : Vfs.State) (before now : State) : Prop where
  sound : Sound tree now
  openFiles : now.openFiles = before.openFiles
  currentDirectory : now.currentDirectory = before.currentDirectory

/-- The action returns a value as wanted or an error code. -/
def Serves {α : Type} (tree : Vfs.State) (before : State) (action : Action α) (wanted : α → Prop) :
    Prop :=
  Triple (Steady tree before) action (fun value after => wanted value ∧ Steady tree before after)
    (fun reason after => (∃ code, reason = .code code ∧ code < 0) ∧ Steady tree before after)

section Rules

variable {α β : Type} {tree : Vfs.State} {before : State}

variable {action : Action α} {next : α → Action β} {wanted : α → Prop} {value : α}

theorem Serves.bind {between : α → Prop} {wanted : β → Prop}
    (first : Serves tree before action between)
    (rest : ∀ value, between value → Serves tree before (next value) wanted) :
    Serves tree before (action >>= next) wanted :=
  Triple.bind _ first (fun value now reached => rest value reached.1 now reached.2)

theorem serves_pure (good : wanted value) :
    Serves tree before (pure value) wanted := fun _ steady => ⟨good, steady⟩

theorem serves_fail {code : Int} (negative : code < 0) :
    Serves tree before (fail code) wanted := fun _ steady => ⟨⟨code, rfl, negative⟩, steady⟩

theorem serves_ite (condition : Prop) [Decidable condition] {yes no : Action α}
    (holds : condition → Serves tree before yes wanted)
    (fails : ¬condition → Serves tree before no wanted) :
    Serves tree before (if condition then yes else no) wanted := .ite condition holds fails

theorem Serves.gets {next : State → Action β} {wanted : β → Prop}
    (rest : ∀ now, Steady tree before now → Serves tree before (next now) wanted) :
    Serves tree before (gets id >>= next) wanted := fun now steady => rest now steady now steady

theorem serves_lift {checked : Checked α} (graceful : Graceful wanted checked) :
    Serves tree before (lift checked) wanted := by
  intro now steady
  rw [run_lift]
  cases checked with
  | ok value => exact ⟨graceful, steady⟩
  | error reason =>
    cases reason with
    | code value => exact ⟨⟨value, rfl, graceful⟩, steady⟩
    | fault cause => exact graceful.elim

theorem Serves.ok {wanted : β → Prop} (rest : Serves tree before (next value) wanted) :
    Serves tree before (lift (.ok value) >>= next) wanted := rest

theorem serves_run
    (ran : ∀ now, Steady tree before now → ∃ value later, action.run now = (.ok value, later) ∧
      wanted value ∧ Steady tree before later) : Serves tree before action wanted := by
  intro now steady
  obtain ⟨value, later, isRun, good, stays⟩ := ran now steady
  rw [isRun]
  exact ⟨good, stays⟩

theorem Steady.of_parts {now later : State} (steady : Steady tree before now)
    (vfs : later.vfs = now.vfs) (openFiles : later.openFiles = now.openFiles)
    (directory : later.currentDirectory = now.currentDirectory) : Steady tree before later :=
  ⟨steady.sound.of_parts vfs openFiles directory, openFiles.trans steady.openFiles,
    directory.trans steady.currentDirectory⟩

theorem serves_copyToUser (userAddress : Nat) (bytes : List UInt8) :
    Serves tree before (copyToUser userAddress bytes) (fun _ => True) := by
  refine serves_run ?_
  intro now steady
  obtain ⟨done, mem, ran⟩ := copyToUser_run userAddress bytes now
  exact ⟨done, _, ran, trivial, steady.of_parts rfl rfl rfl⟩

theorem serves_partialResult {count bound : Nat} {code : Int} (small : count ≤ bound)
    (negative : code < 0) : Serves tree before (partialResult count code) (· ≤ bound) := by
  unfold partialResult
  exact serves_ite _ (fun _ => serves_pure small) (fun _ => serves_fail negative)

end Rules

section Transfers

variable {tree : Vfs.State} {before : State}

/-! ### Keyboard and console -/

/-- A result that is at most the count, if the call returns. -/
def AtMost (count : Nat) (result : Option Nat) : Prop :=
  ∀ value, result = some value → value ≤ count

theorem atMost_some {count value : Nat} (small : value ≤ count) : AtMost count (some value) := by
  rintro _ ⟨⟩
  exact small

theorem readKeys_serves (buffer count : Nat) (events : List KeyEvent) (readCount : Nat) :
    Serves tree before (readKeys buffer count events readCount) (AtMost (max readCount count)) := by
  induction events generalizing readCount with
  | nil =>
    unfold readKeys
    refine serves_ite _ (fun _ => serves_pure (atMost_some (le_max_left _ _))) ?_
    intro _
    exact serves_pure (by rintro _ ⟨⟩)
  | cons event rest ih =>
    unfold readKeys
    refine serves_ite _ (fun _ => serves_pure (atMost_some (le_max_left _ _))) ?_
    intro more
    have pops : Serves tree before
        (modify (fun kernel : State => { kernel with keyboard := rest })) (fun _ => True) :=
      serves_run (fun now steady => ⟨(), _, rfl, trivial, steady.of_parts rfl rfl rfl⟩)
    have bound : max (readCount + 1) count = max readCount count := by omega
    refine .bind pops (fun _ _ => ?_)
    refine serves_ite _ (fun _ => ih readCount) ?_
    intro _
    refine .bind (serves_copyToUser _ _) (fun done _ => ?_)
    refine serves_ite _ ?_ ?_
    · intro _
      refine serves_ite _ ?_ ?_
      · intro _
        exact serves_pure (atMost_some (by omega))
      · intro _
        rw [← bound]
        exact ih (readCount + 1)
    · intro _
      refine .bind (@serves_partialResult tree before readCount (max readCount count) errFault
        (le_max_left _ _) (by decide)) ?_
      intro value small
      exact serves_pure (atMost_some small)

theorem readKeyboard_serves (buffer count : Nat) :
    Serves tree before (readKeyboard buffer count) (AtMost count) := by
  unfold readKeyboard
  refine .bind (serves_copyToUser _ _) (fun done _ => ?_)
  refine serves_ite _ ?_ (fun _ => serves_fail (by decide))
  intro _
  refine .gets (fun now _ => ?_)
  have keys := @readKeys_serves tree before buffer count now.keyboard 0
  rw [Nat.zero_max] at keys
  exact keys

/-! ### Files -/

variable {fd file amount : Nat}

theorem readChunk_serves (points : before.openFiles fd = some file) (small : amount ≤ chunkSize) :
    Serves tree before (readChunk file amount) (fun outcome => outcome.1 ≤ amount ∧
      outcome.2.length = chunkSize) := by
  refine serves_run ?_
  intro now steady
  have pointsNow : now.openFiles fd = some file := by rw [steady.openFiles, points]
  obtain ⟨object, dentry, _, _, live, liveDentry, _⟩ := steady.sound.slot pointsNow
  obtain ⟨result, bytes, offset, ran, near, bounded, counted⟩ :=
    @Ramfs.readFile_ends _ now.fs file object dentry steady.sound.accounts.tree (2 ^ 32)
      steady.sound.fits live liveDentry amount (by unfold chunkSize at small; omega)
  have room : bytes.length ≤ (freshBuffer chunkSize).length := by
    rw [length_freshBuffer]
    omega
  have inRange : InRange tree offset := by
    rcases near with rfl | bounded
    · exact steady.sound.offset file object live
    · exact InRange.small tree (lt_of_le_of_lt bounded (by decide))
  have later : Steady tree before { now with
      vfs := now.vfs.setFile file (some { object with offset := offset }) } :=
    ⟨steady.sound.edited live rfl rfl inRange, steady.openFiles, steady.currentDirectory⟩
  unfold readChunk
  rw [run_bind_ok (run_onFs ran)]
  simp only
  rw [putBuffer_front room, run_bind_ok (run_lift _ _)]
  refine ⟨_, _, rfl, ⟨?_, ?_⟩, later⟩
  · by_cases positive : 0 ≤ result
    · have same := counted positive
      omega
    · omega
  · rw [List.length_append, List.length_drop, length_freshBuffer]
    rw [length_freshBuffer] at room
    omega

theorem readChunks_serves (points : before.openFiles fd = some file) (buffer count rounds : Nat)
    {readCount : Nat} (started : readCount ≤ count) :
    Serves tree before (readChunks file buffer count rounds readCount) (· ≤ count) := by
  induction rounds generalizing readCount with
  | zero => exact serves_pure started
  | succ rounds ih =>
    unfold readChunks
    refine serves_ite _ (fun _ => serves_pure started) ?_
    intro more
    simp only
    generalize isAmount : min chunkSize (count - readCount) = amount
    refine .bind (readChunk_serves points (by omega)) ?_
    rintro ⟨result, chunk⟩ ⟨bounded, size⟩
    simp only at bounded size ⊢
    refine serves_ite _ (fun negative => serves_partialResult started negative) ?_
    intro _
    refine serves_ite _ (fun _ => serves_pure started) ?_
    intro _
    have inside : getBuffer chunk 0 result.toNat = .ok ((chunk.drop 0).take result.toNat) :=
      if_pos (by omega)
    rw [inside]
    refine .ok ?_
    refine .bind (serves_copyToUser _ _) (fun done _ => ?_)
    refine serves_ite _ ?_ (fun _ => serves_partialResult started (by decide))
    intro _
    refine serves_ite _ ?_ ?_
    · intro _
      exact serves_pure (by omega)
    · intro _
      exact ih (by omega)

theorem sysRead_serves (fd buffer count : Nat) :
    Serves tree before (sysRead fd buffer count) (AtMost count) := by
  unfold sysRead
  refine .gets (fun now steady => ?_)
  refine serves_ite _ ?_ ?_
  · intro _
    refine serves_ite _ (fun _ => serves_pure (atMost_some zero_le)) ?_
    intro _
    refine serves_ite _ (fun _ => serves_fail (by decide)) ?_
    intro _
    exact readKeyboard_serves buffer count
  · intro _
    refine serves_ite _ (fun _ => serves_fail (by decide)) ?_
    intro _
    refine .bind (serves_lift (openSlot_graceful _ fd)) ?_
    rintro file ⟨_, points⟩
    have pointsBefore : before.openFiles fd = some file := steady.openFiles ▸ points
    refine serves_ite _ (fun _ => serves_pure (atMost_some zero_le)) ?_
    intro _
    refine serves_ite _ (fun _ => serves_fail (by decide)) ?_
    intro _
    refine .bind (readChunks_serves pointsBefore buffer count count zero_le) ?_
    intro value small
    exact serves_pure (atMost_some small)

theorem fetchChunk_serves (address : Nat) (small : amount ≤ chunkSize) :
    Serves tree before (fetchChunk address amount) (fun _ => True) := by
  unfold fetchChunk
  refine .gets (fun now _ => ?_)
  cases read : copyFromUser now.mem now.cr3 address amount with
  | none => exact serves_pure (by trivial)
  | some bytes =>
    have length := (copyFromUser_bytes read).1
    have room : bytes.length ≤ (freshBuffer chunkSize).length := by
      rw [length_freshBuffer]
      omega
    simp only
    rw [putBuffer_front room]
    refine .ok ?_
    have inside : getBuffer (bytes ++ (freshBuffer chunkSize).drop bytes.length) 0 amount =
        .ok (((bytes ++ (freshBuffer chunkSize).drop bytes.length).drop 0).take amount) :=
      if_pos (by rw [List.length_append]; omega)
    rw [inside]
    refine .ok ?_
    exact serves_pure (by trivial)

theorem writeFile_serves (points : before.openFiles fd = some file) (bytes : List UInt8) :
    Serves tree before (onFs (Vfs.writeFile ramfs file bytes)) (fun result => result < 0) := by
  refine serves_run ?_
  intro now steady
  have pointsNow : now.openFiles fd = some file := by rw [steady.openFiles, points]
  obtain ⟨_, object, live⟩ := steady.sound.accounts.slot fd file pointsNow
  have ran := @Ramfs.run_writeFile _ now.fs file object live bytes
  exact ⟨_, _, run_onFs ran, by decide, steady⟩

theorem writeChunks_serves {file : Option Nat}
    (points : ∀ id, file = some id → ∃ fd, before.openFiles fd = some id)
    (buffer count rounds : Nat) {written : Nat} (started : written ≤ count) :
    Serves tree before (writeChunks file buffer count rounds written) (· ≤ count) := by
  induction rounds generalizing written with
  | zero => exact serves_pure started
  | succ rounds ih =>
    unfold writeChunks
    refine serves_ite _ (fun _ => serves_pure started) ?_
    intro more
    simp only
    refine .bind (fetchChunk_serves _ (min_le_left _ _)) (fun fetched _ => ?_)
    cases fetched with
    | none => exact serves_partialResult started (by decide)
    | some bytes =>
      cases file with
      | none =>
        have prints : Serves tree before (printBytes bytes) (fun _ => True) :=
          serves_run (fun now steady => ⟨(), _, rfl, trivial, steady.of_parts rfl rfl rfl⟩)
        refine .bind prints (fun _ _ => ?_)
        exact ih (by omega)
      | some id =>
        obtain ⟨fd, pointsFd⟩ := points id rfl
        refine .bind (writeFile_serves pointsFd bytes) ?_
        intro result negative
        rw [if_pos negative]
        exact serves_partialResult started negative

theorem sysWrite_serves (fd buffer count : Nat) :
    Serves tree before (sysWrite fd buffer count) (· ≤ count) := by
  unfold sysWrite
  refine .gets (fun now steady => ?_)
  refine serves_ite _ (fun _ => serves_fail (by decide)) ?_
  intro _
  refine serves_ite _ ?_ ?_
  · intro _
    refine serves_ite _ (fun _ => serves_pure zero_le) ?_
    intro _
    refine serves_ite _ (fun _ => serves_fail (by decide)) ?_
    intro _
    exact writeChunks_serves (by rintro _ ⟨⟩) buffer count count zero_le
  · intro _
    refine .bind (serves_lift (openSlot_graceful _ fd)) ?_
    rintro file ⟨_, points⟩
    refine serves_ite _ (fun _ => serves_pure zero_le) ?_
    intro _
    refine serves_ite _ (fun _ => serves_fail (by decide)) ?_
    intro _
    refine writeChunks_serves ?_ buffer count count zero_le
    rintro _ ⟨⟩
    exact ⟨fd, steady.openFiles ▸ points⟩

/-! ### Vectors and the clock -/

theorem transfer_serves (fd : Nat) (writeToFile : Bool) (buffer count : Nat) :
    Serves tree before (transfer fd writeToFile buffer count) (AtMost count) := by
  unfold transfer
  refine serves_ite _ ?_ (fun _ => sysRead_serves fd buffer count)
  intro _
  refine .bind (sysWrite_serves fd buffer count) ?_
  intro value small
  exact serves_pure (atMost_some small)

theorem Serves.attempt {α : Type} {action : Action α} {wanted : α → Prop}
    (serves : Serves tree before action wanted) :
    Serves tree before (attempt action) (fun result =>
      match result with
      | .ok value => wanted value
      | .error code => code < 0) := by
  intro now steady
  have ended := serves now steady
  cases ran : action.run now with
  | mk result later =>
    rw [ran] at ended
    cases result with
    | ok value =>
      rw [run_attempt_ok ran]
      exact ended
    | error reason =>
      obtain ⟨⟨code, rfl, negative⟩, stays⟩ := ended
      rw [run_attempt_code ran]
      exact ⟨negative, stays⟩

theorem transferVectors_serves (fd userIov : Nat) (writeToFile : Bool) (missing : Nat)
    {index total : Nat} (started : total ≤ maxIoSize) :
    Serves tree before (transferVectors fd userIov writeToFile index missing total)
      (AtMost maxIoSize) := by
  have stops : ∀ {total : Nat} {code : Int}, total ≤ maxIoSize → code < 0 →
      Serves tree before (do
        let result ← partialResult total code
        pure (some result)) (AtMost maxIoSize) := by
    intro total code small negative
    refine .bind (serves_partialResult small negative) ?_
    intro value bounded
    exact serves_pure (atMost_some bounded)
  induction missing generalizing index total with
  | zero => exact serves_pure (atMost_some started)
  | succ missing ih =>
    unfold transferVectors
    refine .gets (fun now _ => ?_)
    cases userIovec now userIov index with
    | none => exact @stops total errFault started (by decide)
    | some vector =>
      obtain ⟨base, length⟩ := vector
      refine serves_ite _ (fun _ => @stops total errInval started (by decide)) ?_
      intro fits
      refine serves_ite _ (fun _ => ih started) ?_
      intro _
      refine .bind (transfer_serves fd writeToFile base length).attempt ?_
      intro result good
      cases result with
      | error code => exact stops started good
      | ok value =>
        cases value with
        | none => exact serves_pure (by rintro _ ⟨⟩)
        | some count =>
          have small := good count rfl
          refine serves_ite _ ?_ ?_
          · intro _
            exact serves_pure (atMost_some (by omega))
          · intro _
            exact ih (by omega)

theorem sysVectorIo_serves (fd userIov iovCount : Nat) (writeToFile : Bool) :
    Serves tree before (sysVectorIo fd userIov iovCount writeToFile) (AtMost maxIoSize) := by
  unfold sysVectorIo
  refine serves_ite _ (fun _ => serves_fail (by decide)) ?_
  intro _
  refine serves_ite _ (fun _ => serves_fail (by decide)) ?_
  intro _
  refine .bind (transfer_serves fd writeToFile 0 0) (fun _ _ => ?_)
  refine serves_ite _ (fun _ => serves_pure (atMost_some zero_le)) ?_
  intro _
  exact transferVectors_serves fd userIov writeToFile iovCount zero_le

theorem sysClockGettime_serves (clockId userTime : Nat) (getResolution : Bool) :
    Serves tree before (sysClockGettime clockId userTime getResolution) (· = 0) := by
  unfold sysClockGettime
  refine serves_ite _ (fun _ => serves_fail (by decide)) ?_
  intro _
  refine serves_ite _ (fun _ => serves_pure rfl) ?_
  intro _
  refine .gets (fun now _ => ?_)
  refine .bind (serves_copyToUser _ _) (fun done _ => ?_)
  exact serves_ite _ (fun _ => serves_pure rfl) (fun _ => serves_fail (by decide))

end Transfers

end Synx.Kernel
