/-
What can make `load_image` fail once it has read and validated its file.
-/

import Synx.Kernel.LoadedImage

namespace Synx.Kernel

open Lib Program
open Exec
open Pmm (bitmapGet)

/-! ### Reading the file -/

/-- The first half of `load_image`: the file is read into a buffer and closed. -/
def takeFile (path : List UInt8) : Action (Nat × Nat × List UInt8) := do
  let file ← onFs (Vfs.openFile Pages.heap Ramfs.ramfs path Vfs.oRdonly)
  let size ← fileSize file
  match ← slabAlloc size with
  | none => fail (-12)
  | some buffer => do
      let (count, bytes) ← onFs (Vfs.readFile Ramfs.ramfs file size)
      onFs (Vfs.closeFile Pages.heap Ramfs.ramfs file)
      if count ≠ size then fail (-8) else pure (buffer, size, bytes)

theorem takeFile_quiet (before : State) (path : List UInt8) :
    Keeps (Quiet before) (takeFile path) := by
  refine .bind (keeps_quiet before (fun small => Ramfs.keeps_openFile small path Vfs.oRdonly)) ?_
  intro id
  refine .bind (keeps_fileSize before id) (fun size => ?_)
  refine Triple.bind (fun _ => Quiet before) ?_ ?_
  · exact (triple_slabAlloc before size).weaken (fun _ now => now) (fun _ _ now => now.1)
      (fun _ _ now => now)
  · intro allocated
    cases allocated with
    | none => exact Keeps.stop _
    | some buffer =>
      refine Keeps.bind (keeps_quiet before (fun _ => Ramfs.keeps_readFile id size)) ?_
      rintro ⟨count, bytes⟩
      refine .bind (keeps_quiet before (fun small => Ramfs.keeps_closeFile small id)) ?_
      intro _
      exact .ite _ (.stop _) (.pure _)

def SizeAllowed (size : Nat) : Prop := sizeofElfHeader ≤ size ∧ size ≤ maxExecFileSize

variable {before : State} {path file : List UInt8} {argv envp : List (List UInt8)}

theorem loadImage_taken {middle : State} {buffer size : Nat}
    (taken : (takeFile path).run before = (.ok (buffer, size, file), middle))
    (allowed : SizeAllowed size) (few : argv.length ≤ 128) (fewEnvp : envp.length ≤ 128) :
    (loadImage path argv envp).run before =
      (loadFile path argv envp buffer size file).run middle := by
  unfold takeFile at taken
  obtain ⟨id, opened, openRun, taken⟩ := run_bind_eq_ok taken
  obtain ⟨found, sized, sizeRun, taken⟩ := run_bind_eq_ok taken
  obtain ⟨allocated, now, allocRun, taken⟩ := run_bind_eq_ok taken
  cases allocated with
  | none => cases taken
  | some place =>
    obtain ⟨⟨count, bytes⟩, read, readRun, taken⟩ := run_bind_eq_ok taken
    obtain ⟨_, closed, closeRun, taken⟩ := run_bind_eq_ok taken
    rw [run_ite] at taken
    split at taken
    · cases taken
    · rename_i complete
      cases taken
      obtain ⟨low, high⟩ := allowed
      unfold loadImage
      rw [if_neg (by omega), run_bind_ok openRun, run_bind_ok sizeRun,
        if_neg (by omega), run_bind_ok allocRun]
      dsimp only
      rw [run_bind_ok readRun]
      dsimp only
      rw [run_bind_ok closeRun, if_neg complete]

/-! ### Building the image -/

/-- The ways in which the second half ends: no root, no image, or an image. -/
inductive LoadEnds (kernel : State) (file : List UInt8) (plan : Plan) (path : List UInt8)
    (argv envp : List (List UInt8)) : Except (Lib.Program.Stop Vfs.Fault) ExecImage → Prop
  | root {stopped : Machine}
      (refused : (createAddressSpace kernel.kernelRoot).run kernel.machine = (.error (), stopped)) :
      LoadEnds kernel file plan path argv envp (.error (.code (-12)))
  | image {root : Nat} {fresh stopped : Machine}
      (made : (createAddressSpace kernel.kernelRoot).run kernel.machine = (.ok root, fresh))
      (refused : (buildImage root file plan kernel.nx argv envp path).run fresh =
        (.error (), stopped)) :
      LoadEnds kernel file plan path argv envp (.error (.code (-8)))
  | done {root : Nat} {fresh built : Machine} {image : ExecImage}
      (made : (createAddressSpace kernel.kernelRoot).run kernel.machine = (.ok root, fresh))
      (ran : (buildImage root file plan kernel.nx argv envp path).run fresh = (.ok image, built)) :
      LoadEnds kernel file plan path argv envp (.ok image)

theorem run_onMachine {α : Type} {kernel : State} {loader : Loader α} {result : Except Unit α}
    {machine : Machine} (ran : loader.run kernel.machine = (result, machine)) :
    (onMachine loader).run kernel = (.ok result.toOption, kernel.setMachine machine) := by
  cases result with
  | ok value =>
    show onMachine loader kernel = _
    unfold onMachine
    rw [ran]
    rfl
  | error _ =>
    show onMachine loader kernel = _
    unfold onMachine
    rw [ran]
    rfl

theorem loadFile_ends {kernel : State} {file : List UInt8} {plan : Plan}
    (parsed : parseImage file = some plan) (path : List UInt8) {argv envp : List (List UInt8)}
    (few : argv.length ≤ 128) (fewEnvp : envp.length ≤ 128) (buffer size : Nat) :
    LoadEnds kernel file plan path argv envp
      ((loadFile path argv envp buffer size file).run kernel).1 := by
  unfold loadFile
  rw [parsed]
  dsimp only
  rw [run_bind_ok (run_gets id kernel)]
  simp only [id]
  rcases made : (createAddressSpace kernel.kernelRoot).run kernel.machine with ⟨created, fresh⟩
  rw [run_bind_ok (run_onMachine made)]
  cases created with
  | error _ => exact LoadEnds.root made
  | ok root =>
    dsimp only [Except.toOption]
    rw [run_bind_ok (run_fitAddresses few fewEnvp _)]
    rcases ran :
      (buildImage root file plan kernel.nx argv envp path).run fresh with ⟨built, machine⟩
    rw [run_bind_ok (@run_onMachine _ (kernel.setMachine fresh) _ _ _ ran)]
    cases built with
    | error _ => exact LoadEnds.image made ran
    | ok image => exact LoadEnds.done made ran

/-- The root was refused, or the image was given up, when no page was left. -/
inductive RanOut (kernel : State) (file : List UInt8) (plan : Plan) (path : List UInt8)
    (argv envp : List (List UInt8)) : Prop
  | root {stopped : Machine}
      (refused : (createAddressSpace kernel.kernelRoot).run kernel.machine = (.error (), stopped))
      (full : Full stopped)
  | image {root : Nat} {fresh stopped : Machine}
      (made : (createAddressSpace kernel.kernelRoot).run kernel.machine = (.ok root, fresh))
      (refused : (buildImage root file plan kernel.nx argv envp path).run fresh =
        (.error (), stopped))
      (full : Full stopped)

theorem createAddressSpace_starved {start : Machine} {kernelRoot : Nat} (set : kernelRoot ≠ 0) :
    Triple (· = start) (createAddressSpace kernelRoot) (fun _ _ => True)
      (fun _ => Starved start) := by
  unfold createAddressSpace
  rw [if_neg set]
  refine .bind _ allocateZeroedPage_triple (fun phys => ?_)
  apply Triple.ite
  · intro zero
    apply Triple.stop
    rintro after ⟨_, rfl, allocated⟩
    exact allocated.starved zero id
  · intro _
    refine Triple.bind (fun _ _ => True) ?_ (fun _ => Triple.pure _ (fun _ _ => trivial))
    refine (Triple.each (fun _ => True) _ _ ?_).weaken (fun _ _ => trivial) (fun _ _ _ => trivial)
      (fun _ _ stopped => stopped)
    intro index _
    exact Triple.modify _ (fun _ _ => trivial)

section

variable {kernel : State} {root : Nat} {fresh : Machine} {file path : List UInt8} {plan : Plan}
  {argv envp : List (List UInt8)}

theorem fresh_of_made (ready : Ready kernel)
    (made : (createAddressSpace kernel.kernelRoot).run kernel.machine = (.ok root, fresh)) :
    Fresh kernel.machine root fresh :=
  ((@createAddressSpace_triple kernel.machine kernel.kernelRoot ready.addressable
    ready.aligned).ok rfl made).1

theorem LoadEnds.complete (ready : Ready kernel) (set : kernel.kernelRoot ≠ 0)
    (reserved : bitmapGet kernel.pages.pmm.bitmap 0 = true)
    {outcome : Except (Lib.Program.Stop Vfs.Fault) ExecImage}
    (ends : LoadEnds kernel file plan path argv envp outcome)
    (buildable : Buildable file plan argv envp path) :
    (∃ image, outcome = .ok image) ∨ RanOut kernel file plan path argv envp := by
  cases ends with
  | root refused =>
    exact .inr (.root refused ((createAddressSpace_starved set).error rfl refused reserved))
  | image made refused =>
    obtain ⟨⟨_, built⟩, blank⟩ := fresh_of_made ready made
    have starved := (viewed_buildImage built.live file plan kernel.nx argv envp path).error
      ⟨.refl, blank.shows⟩ refused buildable
    exact .inr (.image made refused (starved (built.used 0 reserved)))
  | done => exact .inl ⟨_, rfl⟩

theorem LoadEnds.not_ranOut {image : ExecImage}
    (ends : LoadEnds kernel file plan path argv envp (.ok image)) :
    ¬RanOut kernel file plan path argv envp := by
  intro ranOut
  cases ends with
  | done made ran =>
    cases ranOut with
    | root refused _ =>
      rw [made] at refused
      cases refused
    | image madeAgain refused _ =>
      rw [made] at madeAgain
      cases madeAgain
      rw [ran] at refused
      cases refused

end

/-! ### The load -/

/-- Nothing in the file needs what the loader may lack. -/
structure PlainFile (file : List UInt8) : Prop where
  static_ : ∀ program, program ∈ programHeaders file (readElfHeader file) → program.type ≠ ptDynamic
  header : ∀ program, program ∈ programHeaders file (readElfHeader file) → program.type = ptPhdr →
    program.vaddr + fileBias file < 2 ^ 64

theorem PlainFile.buildable {plan : Plan} (plain : PlainFile file)
    (parsed : parseImage file = some plan) (fits : StackFits argv envp path) :
    Buildable file plan argv envp path := by
  have accepted := parseImage_accepted parsed
  obtain ⟨scan, _, _, rfl⟩ := parseImage_cases parsed
  refine ⟨accepted.checked, accepted.dynamic.mpr plain.static_, ?_, fits⟩
  unfold programHeaderAddress
  dsimp only
  split
  · exact Option.some_ne_none _
  · rename_i program found
    have isHeader := List.find?_some found
    have header := plain.header program (List.mem_of_find?_eq_some found) (beq_iff_eq.mp isHeader)
    rw [if_neg (by unfold uint64Max; unfold fileBias at header; omega)]
    split <;> exact Option.some_ne_none _

theorem Quiet.ready {after : State} (quiet : Quiet before after) (ready : Ready before) :
    Ready after ∧ after.kernelRoot = before.kernelRoot := by
  have same : after.kernelRoot = before.kernelRoot := by rw [quiet.rest]
  refine ⟨⟨?_, ?_⟩, same⟩
  · rw [quiet.grown.totalPages]
    exact ready.addressable
  · rw [same]
    exact ready.aligned

/-- A file that passes the checks is loaded unless the load comes to a point where no page
is left. -/
theorem loadImage_complete {before middle : State} {path file : List UInt8}
    {argv envp : List (List UInt8)} {buffer size : Nat} {plan : Plan} (ready : Ready before)
    (set : before.kernelRoot ≠ 0) (reserved : bitmapGet before.pages.pmm.bitmap 0 = true)
    (taken : (takeFile path).run before = (.ok (buffer, size, file), middle))
    (allowed : SizeAllowed size) (parsed : parseImage file = some plan) (plain : PlainFile file)
    (fits : StackFits argv envp path) :
    (∃ image after, (loadImage path argv envp).run before = (.ok image, after)) ∨
      RanOut middle file plan path argv envp := by
  have quiet := (takeFile_quiet before path).ok (Quiet.refl before) taken
  obtain ⟨readyMiddle, sameRoot⟩ := quiet.ready ready
  have ends := @loadFile_ends middle file plan parsed path argv envp fits.2.1 fits.2.2 buffer size
  rw [loadImage_taken taken allowed fits.2.1 fits.2.2]
  rcases ends.complete readyMiddle (by rw [sameRoot]; exact set) (quiet.grown.used 0 reserved)
    (plain.buildable parsed fits) with ⟨image, done⟩ | ranOut
  · exact .inl ⟨image, _, Prod.ext done rfl⟩
  · exact .inr ranOut

theorem singleFile_taken : (takeFile [Vfs.slash, 97]).run (kernelWith singleFile) =
    (.ok (1, 120, singleFile), ((takeFile [Vfs.slash, 97]).run (kernelWith singleFile)).2) :=
  run_of_toOption (by decide +kernel)

theorem singleFile_plain : PlainFile singleFile := by
  constructor <;> decide +kernel

theorem loadImage_complete_single :
    ∃ image after, (loadImage [Vfs.slash, 97] [] []).run (kernelWith singleFile) =
      (.ok image, after) := by
  obtain ⟨plan, _, parsed, _⟩ :=
    loadImage_shows (kernelWith_ready singleFile) singleFile_loads singleFile_fetched
  have allowed : SizeAllowed 120 := by constructor <;> decide
  have ends := @loadFile_ends ((takeFile [Vfs.slash, 97]).run (kernelWith singleFile)).2 _ _ parsed
    [Vfs.slash, 97] [] [] (by decide) (by decide) 1 120
  rw [← loadImage_taken singleFile_taken allowed (by decide) (by decide), singleFile_loads] at ends
  exact (loadImage_complete (kernelWith_ready singleFile) (by decide) (by decide) singleFile_taken
    allowed parsed singleFile_plain ⟨by decide, by decide, by decide⟩).resolve_right ends.not_ranOut

end Synx.Kernel
