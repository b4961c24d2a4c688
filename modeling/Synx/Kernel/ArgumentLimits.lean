/-
The two limits on the size of the arguments of `sys_execve`.
-/

import Synx.Kernel.LoadComplete
import Synx.Kernel.ProcessCalls
import Synx.Kernel.Scatter

namespace Synx.Kernel

open Lib Program Memory List
open Exec
open Paging

theorem giveUp_never {α : Type} {buffer size : Nat} {code : Int} {kernel after : State}
    {value : α} :
    (giveUp buffer size code : Action α).run kernel ≠ (.ok value, after) := by
  intro ran
  obtain ⟨_, _, _, failed⟩ := run_bind_eq_ok ran
  cases failed

/-- A file that has been loaded was read whole and accepted. -/
theorem loadImage_takes {before after : State} {path : List UInt8} {argv envp : List (List UInt8)}
    {image : ExecImage} (loads : (loadImage path argv envp).run before = (.ok image, after)) :
    ∃ buffer size file middle plan,
      (takeFile path).run before = (.ok (buffer, size, file), middle) ∧ SizeAllowed size ∧
        parseImage file = some plan := by
  unfold loadImage at loads
  rw [run_ite] at loads
  split at loads
  · cases loads
  obtain ⟨id, opened, openRun, loads⟩ := run_bind_eq_ok loads
  obtain ⟨size, sized, sizeRun, loads⟩ := run_bind_eq_ok loads
  rw [run_ite] at loads
  split at loads
  · obtain ⟨_, _, _, failed⟩ := run_bind_eq_ok loads
    cases failed
  rename_i allowed
  obtain ⟨allocated, now, allocRun, loads⟩ := run_bind_eq_ok loads
  cases allocated with
  | none =>
    obtain ⟨_, _, _, failed⟩ := run_bind_eq_ok loads
    cases failed
  | some buffer =>
    obtain ⟨⟨count, bytes⟩, read, readRun, loads⟩ := run_bind_eq_ok loads
    obtain ⟨_, closed, closeRun, loads⟩ := run_bind_eq_ok loads
    rw [run_ite] at loads
    split at loads
    · exact absurd loads giveUp_never
    rename_i complete
    cases parsed : parseImage bytes with
    | none =>
      unfold loadFile at loads
      rw [parsed] at loads
      exact absurd loads giveUp_never
    | some plan =>
      refine ⟨buffer, size, bytes, closed, plan, ?_, by unfold SizeAllowed; omega, parsed⟩
      unfold takeFile
      rw [run_bind_ok openRun, run_bind_ok sizeRun, run_bind_ok allocRun]
      dsimp only
      rw [run_bind_ok readRun]
      dsimp only
      rw [run_bind_ok closeRun, if_neg complete]
      rfl

section

variable {before after : State} {path : List UInt8} {argv envp : List (List UInt8)}
  {image : ExecImage}

/-- Where a file is loaded without arguments it is loaded with those that fit on the stack, and
called a bad executable with any others. -/
theorem prepare_strings (ready : Ready before)
    (loads : (prepare path [] []).run before = (.ok image, after)) (few : argv.length ≤ 128)
    (fewEnvp : envp.length ≤ 128) :
    ((∃ image after, (prepare path argv envp).run before = (.ok image, after)) ↔
        stackStrings argv envp path ≤ maxStackStrings) ∧
      (maxStackStrings < stackStrings argv envp path →
        ((prepare path argv envp).run before).1 = .error (.code (-8))) := by
  obtain ⟨buffer, size, file, middle, plan, taken, allowed, parsed⟩ := loadImage_takes loads
  have readyMiddle :=
    (((takeFile_quiet before path).ok (Quiet.refl before) taken).ready ready).1
  have same := loadImage_taken taken allowed few fewEnvp
  have alone :=
    @loadFile_ends middle file plan parsed path [] [] (by decide) (by decide) buffer size
  have ends := @loadFile_ends middle file plan parsed path argv envp few fewEnvp buffer size
  unfold prepare at loads ⊢
  rw [← loadImage_taken taken allowed (by decide) (by decide), loads] at alone
  rw [same]
  rcases ran : (loadFile path argv envp buffer size file).run middle with ⟨outcome, final⟩
  rw [ran] at ends
  cases alone with
  | done made ran =>
    obtain ⟨⟨_, built⟩, blank⟩ := fresh_of_made readyMiddle made
    have fits := buildImage_strings_iff built.live blank.shows ran few fewEnvp
    cases ends with
    | root refused =>
      rw [made] at refused
      cases refused
    | image madeAgain refused =>
      rw [made] at madeAgain
      cases madeAgain
      rw [refused] at fits
      refine ⟨⟨?_, fun bounded => ?_⟩, fun _ => rfl⟩
      · rintro ⟨_, _, loaded⟩
        cases loaded
      · obtain ⟨_, _, again⟩ := fits.mpr bounded
        cases again
    | done madeAgain again =>
      rw [made] at madeAgain
      cases madeAgain
      have bounded := fits.mp ⟨_, _, again⟩
      exact ⟨⟨fun _ => bounded, fun _ => ⟨_, _, rfl⟩⟩, fun long => absurd bounded (by omega)⟩

end

/-- With accepted arguments, an executable that loads without arguments loads exactly if they
fit on the stack together with the path.  Otherwise it is called a bad executable. -/
theorem prepare_accepted_iff {before after : State} {path : List UInt8}
    {argv envp : List (List UInt8)} {userArgv userEnvp : Nat} {image : ExecImage}
    (ready : Ready before) (accepted : execStrings before userArgv userEnvp = .ok (argv, envp))
    (loads : (prepare path [] []).run before = (.ok image, after)) :
    ((∃ image after, (prepare path argv envp).run before = (.ok image, after)) ↔
        stackStrings argv envp path ≤ maxStackStrings) ∧
      (maxStackStrings < stackStrings argv envp path →
        ((prepare path argv envp).run before).1 = .error (.code (-8))) := by
  have strings := execStrings_graceful before userArgv userEnvp
  rw [accepted] at strings
  obtain ⟨few, fewEnvp, _⟩ := strings
  have most : maxExecStrings ≤ 128 := by decide
  exact prepare_strings ready loads (few.trans most) (fewEnvp.trans most)

/-! ### What the copies accept -/

theorem length_packed (texts : List (List UInt8)) : (packed texts).length = stringBytes texts := by
  induction texts with
  | nil => rfl
  | cons text rest ih =>
    rw [packed_cons, length_append, length_cons, ih, stringBytes_cons]
    omega

theorem execStrings_accepts {kernel : State} (space : Space kernel.mem kernel.cr3)
    {userArgv userEnvp : Nat} {argv envp : List (List UInt8)}
    (isArgv : UserVector kernel.mem kernel.cr3 userArgv argv)
    (isEnvp : UserVector kernel.mem kernel.cr3 userEnvp envp) (few : argv.length ≤ maxExecStrings)
    (fewEnvp : envp.length ≤ maxExecStrings)
    (room : stringBytes argv + stringBytes envp ≤ maxExecStringBytes) :
    execStrings kernel userArgv userEnvp = .ok (argv, envp) := by
  rcases execStrings_cases kernel userArgv userEnvp with
    ⟨argv', envp', ran, _, _, isArgv', isEnvp'⟩ | ⟨_, _, _, long⟩
  · rw [ran, isArgv'.unique space isArgv, isEnvp'.unique space isEnvp]
  · have tooLong := long space argv envp isArgv isEnvp few fewEnvp
    rw [length_packed, length_packed] at tooLong
    omega

/-! ### Arguments between the limits -/

def longText : List UInt8 := replicate 127 97

/-- Pointers to the text, the path `/a`, and the text in the second kilobyte. -/
def crowdedPage : List UInt8 :=
  (replicate 64 0x400400 ++ [0]).flatMap (fun word => numberBytes word 8) ++
    [Vfs.slash, 97, 0] ++ replicate 501 0 ++ longText ++ [0]

/-- A space with one page, made in the kernel that has the small executable. -/
def pagedMachine : Machine :=
  ((mapUserPage 8192 0x400000 pteWritable).run ((kernelWith singleFile).machine.zeroed 2)).2

def crowdedMachine : Machine := ((copyToSpace 8192 0x400000 crowdedPage).run pagedMachine).2

def crowdedKernel : State := { (kernelWith singleFile).setMachine crowdedMachine with cr3 := 8192 }

theorem pagedMachine_live : Live pagedMachine 8192 := by
  obtain ⟨⟨events, built⟩, _⟩ :=
    @fresh_zeroed (kernelWith singleFile).machine 2 (by decide) (by decide)
    (by decide) (by decide)
  have keeps :=
    keeps_mapUserPage built.live 0x400000 pteWritable (by decide) (by constructor <;> decide)
  exact (keeps.final .refl).live built.live

theorem userBytes_copyToSpace {start after : Machine} {root address : Nat} {bytes : List UInt8}
    (live : Live start root) (ran : (copyToSpace root address bytes).run start = (.ok (), after)) :
    Space after.mem root ∧ UserBytes after.mem root address bytes := by
  obtain ⟨edits, copied⟩ := (copyToSpace_triple address bytes live).ok rfl ran
  have space := (edits.live live).space
  refine ⟨space, fun offset inside => ?_⟩
  have within : Within address bytes.length (address + offset) :=
    ⟨Nat.le_add_right _ _, Nat.add_lt_add_left inside _⟩
  have user := (copied.mapped _ within).1
  rw [Space.userRead_eq space user, copied.byte _ user, if_pos ⟨within.1, within.2⟩,
    Nat.add_sub_cancel_left, getElem?_eq_getElem inside]

theorem crowdedMachine_copied :
    (copyToSpace 8192 0x400000 crowdedPage).run pagedMachine = (.ok (), crowdedMachine) :=
  run_of_toOption (by decide +kernel)

-- unification must not run the copy
attribute [irreducible] crowdedMachine

theorem crowdedKernel_page :
    Space crowdedKernel.mem 8192 ∧ UserBytes crowdedKernel.mem 8192 0x400000 crowdedPage :=
  userBytes_copyToSpace pagedMachine_live crowdedMachine_copied

theorem userPointers_replicate {mem : Memory} {cr3 pointer : Nat} {text : List UInt8}
    (nonzero : pointer ≠ 0) (points : UserString mem cr3 pointer text) {count address : Nat}
    (holds : UserBytes mem cr3 address ((replicate count pointer ++ [0]).flatMap
      (fun word => numberBytes word 8))) :
    UserPointers mem cr3 address (replicate count text) := by
  induction count generalizing address with
  | zero => exact UserPointers.last (by simpa using holds)
  | succ count ih =>
    rw [replicate_succ, cons_append, flatMap_cons] at holds
    have width := numberBytes_length pointer 8
    have here := holds.slice 0 8
    have later := holds.slice 8 (List.flatMap (fun word => numberBytes word 8)
      (replicate count pointer ++ [0])).length
    rw [add_zero, drop_zero, take_left' width] at here
    rw [drop_left' width, take_length] at later
    exact UserPointers.next here nonzero points (ih later)

theorem crowdedKernel_accepted :
    execStrings crowdedKernel 0x400000 0x400000 =
      .ok (replicate 64 longText, replicate 64 longText) := by
  obtain ⟨space, page⟩ := crowdedKernel_page
  have textBytes := page.slice 0x400 128
  have pointerBytes := page.slice 0 520
  rw [show (crowdedPage.drop 0x400).take 128 = longText ++ [0] by decide +kernel] at textBytes
  rw [show (crowdedPage.drop 0).take 520 = (replicate 64 0x400400 ++ [0]).flatMap
    (fun word => numberBytes word 8) by decide +kernel] at pointerBytes
  have pointers := userPointers_replicate (by decide) ⟨textBytes, by decide +kernel⟩ pointerBytes
  have isVector : UserVector crowdedKernel.mem crowdedKernel.cr3 0x400000 _ :=
    .inr ⟨by decide, pointers⟩
  exact execStrings_accepts space isVector isVector (by decide) (by decide) (by decide +kernel)

theorem crowdedKernel_loads :
    ∃ image after, (prepare [Vfs.slash, 97] [] []).run crowdedKernel = (.ok image, after) := by
  have loads : ((prepare [Vfs.slash, 97] [] []).run crowdedKernel).1.toOption.isSome = true := by
    decide +kernel
  obtain ⟨image, same⟩ := Option.isSome_iff_exists.mp loads
  exact ⟨image, _, run_of_toOption same⟩

theorem crowdedKernel_ready : Ready crowdedKernel :=
  ⟨show crowdedMachine.pmm.totalPages ≤ 2 ^ 40 by decide +kernel, by decide +kernel⟩

theorem prepare_accepted_iff_crowded :
    ((prepare [Vfs.slash, 97] (replicate 64 longText) (replicate 64 longText)).run
      crowdedKernel).1 = .error (.code (-8)) := by
  obtain ⟨image, after, loads⟩ := crowdedKernel_loads
  exact (prepare_accepted_iff crowdedKernel_ready crowdedKernel_accepted loads).2
    (by decide +kernel)

/-- 128 strings of 128 bytes fill the storage.  With the path they are three bytes too long
for the stack, and a good executable is called a bad one. -/
theorem prepare_rejects_accepted :
    ∃ argv envp, execStrings crowdedKernel 0x400000 0x400000 = .ok (argv, envp) ∧
      (copyUserPath crowdedKernel.mem crowdedKernel.cr3 0x400208 pathCapacity
        (freshBuffer pathCapacity) >>=
        cString).toOption = some [Vfs.slash, 97] ∧
      ((prepare [Vfs.slash, 97] argv envp).run crowdedKernel).1 = .error (.code (-8)) ∧
      ((prepare [Vfs.slash, 97] [] []).run crowdedKernel).1.toOption.isSome = true := by
  refine ⟨_, _, crowdedKernel_accepted, by decide +kernel, ?_, by decide +kernel⟩
  obtain ⟨image, after, loads⟩ := crowdedKernel_loads
  exact (prepare_strings crowdedKernel_ready loads (by decide) (by decide)).2 (by decide +kernel)

end Synx.Kernel
