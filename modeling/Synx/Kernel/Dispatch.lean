/-
The dispatcher in a sound state.
-/

import Synx.Kernel.Listing
import Synx.Kernel.ProcessCalls
import Synx.Kernel.Syscall
import Synx.Kernel.TransferCalls

namespace Synx.Kernel

open Lib Program

def fileServices : List Service :=
  [.open_, .openat, .close, .dup, .dup2, .dup3, .fcntl, .lseek, .chdir, .fchdir, .access,
    .faccessat, .faccessat2, .stat, .fstat, .newfstatat, .getdents64, .execve]

/-- What a call replied: a negative value comes with the old frame, and nothing
else has changed. -/
structure Served (tree : Vfs.State) (kernel : State) (frame : RegisterFrame) (reply : Option Reply)
    (after : State) : Prop where
  sound : Sound tree after
  unchanged : ∀ value started, reply = some (value, started) → 2 ^ 63 ≤ value →
    started = frame ∧ Same kernel after

section

variable {tree : Vfs.State} {kernel : State} {frame : RegisterFrame}

theorem answer_served {call : Action Nat}
    (answers : Answers kernel kernel call (fun value after => value < 2 ^ 63 ∧ Sound tree after))
    (sound : Sound tree kernel) :
    ∃ reply after, (answer frame call).run kernel = (.ok reply, after) ∧
      Served tree kernel frame reply after := by
  have ended := answers kernel rfl
  unfold answer answerIf
  cases ran : call.run kernel with
  | mk result after =>
    rw [ran] at ended
    cases result with
    | ok value =>
      have wrapped : (call >>= fun value => pure (some value)).run kernel =
        (.ok (some value), after) := by
        rw [run_bind_ok ran]
        rfl
      refine ⟨some (value, frame), after, ?_, ended.2, ?_⟩
      · rw [run_bind_ok (run_attempt_ok wrapped)]
        rfl
      · rintro _ _ ⟨⟩ large
        exact absurd large (not_le.mpr ended.1)
    | error reason =>
      obtain ⟨code, rfl, _, same⟩ := ended
      have wrapped : (call >>= fun value => pure (some value)).run kernel =
          (.error (.code code), after) := run_bind_error ran
      refine ⟨some (codeWord code, frame), after, ?_, sound.same same, ?_⟩
      · rw [run_bind_ok (run_attempt_code wrapped)]
        rfl
      · rintro _ _ ⟨⟩ _
        exact ⟨rfl, same⟩

theorem Serves.answered {call : Action (Option Nat)} {wanted : Option Nat → Prop}
    (serves : Serves tree kernel call wanted) (sound : Sound tree kernel) :
    ∃ reply after, (answerIf frame call).run kernel = (.ok reply, after) ∧ Sound tree after := by
  have ended := serves kernel ⟨sound, rfl, rfl⟩
  unfold answerIf
  cases ran : call.run kernel with
  | mk result after =>
    rw [ran] at ended
    cases result with
    | ok value =>
      rw [run_bind_ok (run_attempt_ok ran)]
      cases value with
      | none => exact ⟨none, after, rfl, ended.2.sound⟩
      | some value => exact ⟨some (value, frame), after, rfl, ended.2.sound⟩
    | error reason =>
      obtain ⟨⟨code, rfl, _⟩, steady⟩ := ended
      rw [run_bind_ok (run_attempt_code ran)]
      exact ⟨some (codeWord code, frame), after, rfl, steady.sound⟩

variable {call : Action Nat} {service : Service} {action : Action (Option Reply)}

theorem Serves.returns {wanted : Nat → Prop} (serves : Serves tree kernel call wanted) :
    Serves tree kernel (do
      let value ← call
      pure (some value)) (fun _ => True) :=
  .bind serves (fun _ _ => serves_pure trivial)

/-! ### The calls that were left -/

theorem utsField_ok (value : List UInt8) : ∃ field, utsField value = .ok field := by
  have length : (value.take 64).length = min value.length 64 := by
    rw [List.length_take, Nat.min_comm]
  have first := @putBuffer_front (value.take 64) (List.replicate 65 0)
    (by rw [length, List.length_replicate]; omega)
  have second := @putBuffer_append (value.take 64)
    ((List.replicate 65 0).drop (value.take 64).length) [0]
    (by rw [List.length_drop, length, List.length_replicate, List.length_singleton]; omega)
  rw [length] at second
  unfold utsField
  rw [first]
  change ∃ field, putBuffer _ (min value.length 64) [0] = .ok field
  rw [length]
  exact ⟨_, second⟩

theorem utsName_ok (stamp : List UInt8) : ∃ bytes, utsName stamp = .ok bytes := by
  obtain ⟨name, isName⟩ := utsField_ok kernelName
  obtain ⟨version, isVersion⟩ := utsField_ok kernelVersion
  obtain ⟨build, isBuild⟩ := utsField_ok ([83, 77, 80, 32] ++ stamp)
  obtain ⟨machine, isMachine⟩ := utsField_ok machineName
  obtain ⟨domain, isDomain⟩ := utsField_ok domainName
  unfold utsName
  simp only [List.mapM_cons, List.mapM_nil, isName, isVersion, isBuild, isMachine, isDomain]
  exact ⟨_, rfl⟩

section

variable (sound : Sound tree kernel)

include sound

theorem sysUname_answers (stamp : List UInt8) (userBuffer : Nat) :
    Answers kernel kernel (sysUname stamp userBuffer) (Kept tree kernel) := by
  obtain ⟨bytes, named⟩ := utsName_ok stamp
  unfold sysUname
  rw [named]
  refine .step (run_lift _ _) ?_
  refine .bind (answers_copyToUser userBuffer bytes) ?_
  rintro done _ ⟨mem, rfl⟩
  refine answers_ite _ ?_ (fun _ => answers_fail (by decide) ((Same.refl _).setMem mem))
  intro _
  exact answers_pure _ ⟨by decide, sound.setMem mem, rfl⟩

theorem sysDup3_answers (oldFd newFd flags : Nat) :
    Answers kernel kernel (sysDup3 oldFd newFd flags)
      (fun fd after => Duplicated tree kernel oldFd fd after) := by
  unfold sysDup3
  exact answers_ite _ (fun _ => answers_fail (by decide) (.refl _))
    (fun _ => duplicateFd_answers sound oldFd newFd true _)

theorem dispatchFcntl_answers (fd command argument : Nat) :
    Answers kernel kernel (dispatchFcntl fd command argument) (Kept tree kernel) := by
  unfold dispatchFcntl
  refine answers_ite _ ?_ (fun _ => sysFcntl_answers sound fd command argument)
  intro _
  exact (duplicateFd_answers sound fd argument false true).imp
    (fun _ _ duplicated => duplicated.kept)

theorem sysFsync_answers (fd : Nat) : Answers kernel kernel (sysFsync fd) (Kept tree kernel) := by
  unfold sysFsync
  refine .gets ?_
  refine .lift (openSlot_graceful _ fd) (.refl _) ?_
  intro _ _
  exact answers_pure _ ⟨by decide, sound, rfl⟩

theorem sysUmask_answers (mask : Nat) :
    Answers kernel kernel (sysUmask mask) (Kept tree kernel) := by
  unfold sysUmask
  refine .gets ?_
  refine .step (run_modify _ _) ?_
  refine answers_pure _ ⟨?_, sound.of_parts rfl rfl rfl, rfl⟩
  exact lt_trans (Nat.mod_lt _ (Nat.two_pow_pos 32)) (by decide)

theorem answerExecve_served : ∃ reply after, (answerExecve frame).run kernel = (.ok reply, after) ∧
      Served tree kernel frame reply after := by
  have ended := sysExecve_answers sound frame.rdi frame.rsi frame.rdx frame kernel rfl
  unfold answerExecve
  cases ran : (sysExecve frame.rdi frame.rsi frame.rdx frame).run kernel with
  | mk result after =>
    rw [ran] at ended
    cases result with
    | ok started =>
      obtain ⟨_, _, swept⟩ := ended
      refine ⟨some (0, started), after, ?_, swept.sound, ?_⟩
      · rw [run_bind_ok (run_attempt_ok ran)]
        rfl
      · rintro _ _ ⟨⟩ large
        exact absurd large (by decide)
    | error reason =>
      obtain ⟨code, rfl, _, same⟩ := ended
      refine ⟨some (codeWord code, frame), after, ?_, sound.same same, ?_⟩
      · rw [run_bind_ok (run_attempt_code ran)]
        rfl
      · rintro _ _ ⟨⟩ _
        exact ⟨rfl, same⟩

theorem answerExit_run : ∃ after, answerExit.run kernel = (.ok none, after) ∧ Sound tree after := by
  obtain ⟨middle, after, ran, swept, sameFiles⟩ := sysExit_run sound
  refine ⟨after, ?_, swept.sound.sameFiles sameFiles⟩
  unfold answerExit
  rw [run_bind_ok ran]
  rfl

end

/-! ### The dispatcher -/

theorem Answers.served {after : Nat → State → Prop} (sound : Sound tree kernel)
    (answers : Answers kernel kernel call after)
    (enough : ∀ value later, after value later → value < 2 ^ 63 ∧ Sound tree later) :
    ∃ reply later, (answer frame call).run kernel = (.ok reply, later) ∧
      Served tree kernel frame reply later :=
  answer_served (answers.imp enough) sound

theorem Kept.enough (value : Nat) (later : State) (kept : Kept tree kernel value later) :
    value < 2 ^ 63 ∧ Sound tree later := ⟨kept.small, kept.sound⟩

theorem Duplicated.enough {oldFd : Nat} (value : Nat) (later : State)
    (duplicated : Duplicated tree kernel oldFd value later) : value < 2 ^ 63 ∧ Sound tree later :=
  Kept.enough value later duplicated.kept

/-- The call replies in a sound state, and without effect if it is a call on files
that fails. -/
def Replies (tree : Vfs.State) (kernel : State) (frame : RegisterFrame) (service : Service)
    (action : Action (Option Reply)) : Prop :=
  ∃ reply after, action.run kernel = (.ok reply, after) ∧ Sound tree after ∧
    (service ∈ fileServices → Served tree kernel frame reply after)

theorem replies_of_served
    (served : ∃ reply after, action.run kernel = (.ok reply, after) ∧
      Served tree kernel frame reply after) :
    Replies tree kernel frame service action := by
  obtain ⟨reply, after, ran, served⟩ := served
  exact ⟨reply, after, ran, served.sound, fun _ => served⟩

theorem replies_of_sound
    (ends : ∃ reply after, action.run kernel = (.ok reply, after) ∧ Sound tree after)
    (other : service ∉ fileServices) : Replies tree kernel frame service action := by
  obtain ⟨reply, after, ran, sound⟩ := ends
  exact ⟨reply, after, ran, sound, fun isFile => absurd isFile other⟩

theorem replies_number (sound : Sound tree kernel) {number : Nat} (small : number < 2 ^ 63) :
    Replies tree kernel frame service (answer frame (pure number)) :=
  replies_of_served (answer_served (answers_pure number ⟨small, sound⟩) sound)

theorem serve_replies (sound : Sound tree kernel) (stamp : List UInt8) (frame : RegisterFrame)
    (service : Service) : Replies tree kernel frame service (serve stamp frame service) := by
  have kept : ∀ {call : Action Nat}, Answers kernel kernel call (Kept tree kernel) →
      Replies tree kernel frame service (answer frame call) :=
    fun answers => replies_of_served (answers.served sound Kept.enough)
  have duplicated : ∀ {call : Action Nat} {oldFd : Nat},
      Answers kernel kernel call (fun fd after => Duplicated tree kernel oldFd fd after) →
      Replies tree kernel frame service (answer frame call) :=
    fun answers => replies_of_served (answers.served sound Duplicated.enough)
  have transferred : ∀ {call : Action (Option Nat)} {wanted : Option Nat → Prop},
      Serves tree kernel call wanted → service ∉ fileServices →
      Replies tree kernel frame service (answerIf frame call) :=
    fun serves other => replies_of_sound (serves.answered sound) other
  cases service with
  | read => exact transferred (sysRead_serves _ _ _) (by decide)
  | readv => exact transferred (sysVectorIo_serves _ _ _ _) (by decide)
  | writev => exact transferred (sysVectorIo_serves _ _ _ _) (by decide)
  | write => exact transferred (sysWrite_serves _ _ _).returns (by decide)
  | clockGettime => exact transferred (sysClockGettime_serves _ _ _).returns (by decide)
  | clockGetres => exact transferred (sysClockGettime_serves _ _ _).returns (by decide)
  | open_ => exact kept (sysOpenat_answers sound _ _ _)
  | openat => exact kept (sysOpenat_answers sound _ _ _)
  | close => exact kept (sysClose_answers sound _)
  | lseek => exact kept (sysLseek_answers sound _ _ _)
  | dup => exact duplicated (duplicateFd_answers sound _ _ _ _)
  | dup2 => exact duplicated (duplicateFd_answers sound _ _ _ _)
  | dup3 => exact duplicated (sysDup3_answers sound _ _ _)
  | fcntl => exact kept (dispatchFcntl_answers sound _ _ _)
  | fsync => exact kept (sysFsync_answers sound _)
  | fdatasync => exact kept (sysFsync_answers sound _)
  | getcwd => exact kept (sysGetcwd_answers sound _ _)
  | chdir =>
    refine replies_of_served ((sysChdir_answers sound frame.rdi).served sound ?_)
    rintro _ later ⟨rfl, _, _, _, _, _, _, entered⟩
    exact ⟨by decide, entered.sound⟩
  | fchdir =>
    refine replies_of_served ((sysFchdir_answers sound frame.rdi).served sound ?_)
    rintro _ later ⟨rfl, _, _, _, _, entered⟩
    exact ⟨by decide, entered.sound⟩
  | access => exact kept (sysAccessat_answers sound _ _ _ _)
  | faccessat => exact kept (sysAccessat_answers sound _ _ _ _)
  | faccessat2 => exact kept (sysAccessat_answers sound _ _ _ _)
  | getdents64 => exact kept (sysGetdents64_answers sound _ _ _)
  | stat => exact kept (sysNewfstatat_answers sound _ _ _ _)
  | newfstatat => exact kept (sysNewfstatat_answers sound _ _ _ _)
  | fstat => exact kept (sysFstat_answers sound _ _)
  | umask => exact kept (sysUmask_answers sound _)
  | uname => exact kept (sysUname_answers sound stamp _)
  | execve => exact replies_of_served (answerExecve_served sound)
  | exit =>
    obtain ⟨after, ran, soundAfter⟩ := answerExit_run sound
    exact replies_of_sound ⟨none, after, ran, soundAfter⟩ (by decide)
  | exitGroup =>
    obtain ⟨after, ran, soundAfter⟩ := answerExit_run sound
    exact replies_of_sound ⟨none, after, ran, soundAfter⟩ (by decide)
  | getpid => exact replies_number sound (by decide)
  | gettid => exact replies_number sound (by decide)
  | getuid => exact replies_number sound (by decide)
  | getgid => exact replies_number sound (by decide)
  | geteuid => exact replies_number sound (by decide)
  | getegid => exact replies_number sound (by decide)
  | getppid => exact replies_number sound (by decide)
  | getpgrp => exact replies_number sound (by decide)

theorem syscallDispatch_replies (sound : Sound tree kernel) (stamp : List UInt8)
    (frame : RegisterFrame) :
    ∃ reply after, (syscallDispatch stamp frame).run kernel = (.ok reply, after) ∧
      Sound tree after ∧
      ∀ service, serviceOf frame.rax = some service → service ∈ fileServices →
        Served tree kernel frame reply after := by
  unfold syscallDispatch
  cases known : serviceOf frame.rax with
  | none =>
    obtain ⟨reply, after, ran, served⟩ := @answer_served tree kernel frame _
      (answers_fail (by decide : errNosys < 0) (.refl kernel)) sound
    exact ⟨reply, after, ran, served.sound, nofun⟩
  | some service =>
    obtain ⟨reply, after, ran, soundAfter, served⟩ := serve_replies sound stamp frame service
    refine ⟨reply, after, ran, soundAfter, ?_⟩
    rintro _ ⟨⟩ isFile
    exact served isFile

end

end Synx.Kernel
