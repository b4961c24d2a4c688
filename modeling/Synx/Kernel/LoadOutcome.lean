/-
What a call of `load_image` can do to the kernel.
-/

import Synx.Exec.Building
import Synx.Exec.Teardown
import Synx.Fs.HeapUse
import Synx.Kernel.LoadImage
import Synx.Mem.PmmOwnership

namespace Synx.Kernel

open Lib Program
open Pmm (pageSize bitmapGet)
open Exec
open Vfs (OnHeap SmallUse)

/-! ### Memory for kernel objects -/

/-- Pages have been taken and none has been given back. -/
structure Grown (before after : Pages) : Prop where
  totalPages : after.pmm.totalPages = before.pmm.totalPages
  used : ∀ page, bitmapGet before.pmm.bitmap page = true → bitmapGet after.pmm.bitmap page = true

theorem Grown.refl (pages : Pages) : Grown pages pages := ⟨rfl, fun _ used => used⟩

theorem Grown.trans {first second third : Pages} (one : Grown first second)
    (two : Grown second third) : Grown first third :=
  ⟨two.totalPages.trans one.totalPages, fun page used => two.used page (one.used page used)⟩

/-- The block at an address was free and now is in use. -/
structure TookBlock (before after : Pages) (phys count : Nat) : Prop where
  inside : phys / pageSize + count ≤ before.pmm.totalPages
  wasFree : ∀ page, phys / pageSize ≤ page → page < phys / pageSize + count →
    bitmapGet before.pmm.bitmap page = false
  used : ∀ page, phys / pageSize ≤ page → page < phys / pageSize + count →
    bitmapGet after.pmm.bitmap page = true

theorem allocBlock_grown (pages : Pages) (count : Nat) : Grown pages (pages.allocBlock count).2 ∧
      ∀ phys, (pages.allocBlock count).1 = some phys →
        TookBlock pages (pages.allocBlock count).2 phys count := by
  unfold Pages.allocBlock
  rcases Pmm.allocPages_cases pages.pmm count with failed | ⟨page, _positive, inside, clear, took⟩
  · rw [failed]
    refine ⟨.refl pages, ?_⟩
    intro phys impossible
    cases impossible
  · rw [took]
    have bits : ∀ other, bitmapGet (pages.pmm.take page count).bitmap other =
        (decide (page ≤ other ∧ other < page + count) || bitmapGet pages.pmm.bitmap other) :=
      fun other => Pmm.bitmapGet_bitmapSetRun pages.pmm.bitmap page count other
    refine ⟨⟨rfl, ?_⟩, ?_⟩
    · intro other used
      simp only
      rw [bits, used, Bool.or_true]
    · intro phys result
      simp only at result
      split at result
      · cases result
      · rw [← Option.some.inj result]
        have first : page * pageSize / pageSize = page := page_mul_div page
        refine ⟨by rw [first]; exact inside, by rw [first]; exact clear, ?_⟩
        rw [first]
        intro other low high
        simp only
        rw [bits, decide_eq_true ⟨low, high⟩, Bool.true_or]

theorem alloc_grown (size : Nat) (pages : Pages) : Grown pages (Pages.alloc size pages).2 := by
  unfold Pages.alloc
  split
  · exact .refl pages
  · split
    · exact (allocBlock_grown pages _).1
    · simp only
      split
      · exact ⟨rfl, fun _ used => used⟩
      · have grown := (allocBlock_grown { pages with requests := pages.requests + 1 }
          (slabPages size)).1
        exact ⟨grown.totalPages, grown.used⟩

theorem smallUse_of_grown {holds : Pages → Prop}
    (grows : ∀ before after, Grown before after → holds before → holds after) :
    SmallUse Pages.heap holds := by
  constructor
  · intro size pages _ _ now
    exact grows pages _ (alloc_grown size pages) now
  · intro address size pages positive bounded now
    have small : 0 < size ∧ size ≤ slabSizeMax := ⟨positive, bounded⟩
    change holds (Pages.free address size pages)
    unfold Pages.free
    rw [if_pos small]
    exact now

/-! ### Before the space exists -/

/-- Only the file system and memory for kernel objects have been used. -/
structure Quiet (before after : State) : Prop where
  rest : after = { before with vfs := after.vfs, pages := after.pages }
  grown : Grown before.pages after.pages

theorem Quiet.refl (kernel : State) : Quiet kernel kernel := ⟨rfl, .refl _⟩

/-- The buffer of a size at an address, taken since `before`. -/
def Buffered (before : State) (buffer size : Nat) (pages : Pages) : Prop :=
  slabSizeMax < size → TookBlock before.pages pages buffer (largePages size)

variable {before kernel : State} {buffer size : Nat} {pages : Pages} {α : Type}
    {path file : List UInt8}

variable {pages' : Pages} {others : Lib.Program.Stop Vfs.Fault → State → Prop} {machine : Machine}
  {root : Nat}

theorem Buffered.grown (buffered : Buffered before buffer size pages) (grown : Grown pages pages') :
    Buffered before buffer size pages' := by
  intro large
  obtain ⟨inside, wasFree, used⟩ := buffered large
  exact ⟨inside, wasFree, fun page low high => grown.used page (used page low high)⟩

theorem quiet_setFs (quiet : Quiet before kernel) {fs : Vfs.Fs Pages}
    (grown : Grown before.pages fs.heap) : Quiet before (kernel.setFs fs) := by
  refine ⟨?_, grown⟩
  unfold State.setFs
  rw [quiet.rest]

theorem zoom_result {σ ρ ε : Type} (get : ρ → σ) (set : σ → ρ → ρ) (program : Program σ ε α)
    (whole : ρ) :
    (zoom get set program).run whole =
      ((program.run (get whole)).1, set (program.run (get whole)).2 whole) := rfl

theorem keeps_onFs {α : Type} (before : State) {holds : Pages → Prop}
    (grows : ∀ pages pages', Grown pages pages' → holds pages → holds pages')
    {call : Vfs.Call Pages α}
    (keeps : ∀ {kept : Pages → Prop}, SmallUse Pages.heap kept → Keeps (OnHeap kept) call) :
    Keeps (fun kernel => Quiet before kernel ∧ holds kernel.pages) (onFs call) := by
  intro kernel now
  have small : SmallUse Pages.heap (fun pages => Grown before.pages pages ∧ holds pages) :=
    smallUse_of_grown (fun pages pages' grown both =>
      ⟨both.1.trans grown, grows pages pages' grown both.2⟩)
  have final : OnHeap (fun pages => Grown before.pages pages ∧ holds pages)
      (Program.run call kernel.fs).2 := (keeps small).final ⟨now.1.grown, now.2⟩
  have quiet := quiet_setFs now.1 final.1
  unfold onFs
  rw [zoom_result]
  cases ended : (Program.run call kernel.fs).1 with
  | ok value => exact ⟨quiet, final.2⟩
  | error reason => exact ⟨quiet, final.2⟩

theorem keeps_quiet (before : State) {call : Vfs.Call Pages α}
    (keeps : ∀ {kept : Pages → Prop}, SmallUse Pages.heap kept → Keeps (OnHeap kept) call) :
    Keeps (Quiet before) (onFs call) := by
  have both := @keeps_onFs α before (fun _ => True) (fun _ _ _ _ => trivial) call keeps
  exact both.weaken (fun _ quiet => ⟨quiet, trivial⟩) (fun _ _ now => now.1) (fun _ _ now => now.1)

/-! ### Giving the buffer back -/

/-- What returning the buffer does to the pages: it clears pages of the buffer
and no others. -/
structure Returned (before : State) (buffer size : Nat) (pages pages' : Pages) : Prop where
  totalPages : pages'.pmm.totalPages = pages.pmm.totalPages
  kept : ∀ page, bitmapGet pages.pmm.bitmap page = true →
    (slabSizeMax < size → page < buffer / pageSize ∨ buffer / pageSize + largePages size ≤ page) →
    bitmapGet pages'.pmm.bitmap page = true

theorem free_returned (positive : 0 < size) (buffered : Buffered before buffer size pages)
    (total : pages.pmm.totalPages = before.pages.pmm.totalPages) :
    Returned before buffer size pages (Pages.free buffer size pages) := by
  unfold Pages.free
  split
  · exact ⟨rfl, fun _ used _ => used⟩
  · rename_i notSmall
    split
    · exact ⟨rfl, fun _ used _ => used⟩
    · have large : slabSizeMax < size := by omega
      have inside := (buffered large).inside
      refine ⟨Pmm.releaseRun_totalPages _ _ _ _, ?_⟩
      intro page used outside
      simp only
      unfold Pmm.freePages
      rw [Pmm.bitmapGet_releaseRun _ _ _ _ _ (by rw [total]; exact inside), used,
        decide_eq_false (by have := outside large; omega)]
      rfl

theorem Returned.grown (returned : Returned before buffer size pages pages')
    (buffered : Buffered before buffer size pages) (grown : Grown before.pages pages) :
    Grown before.pages pages' := by
  refine ⟨returned.totalPages.trans grown.totalPages, ?_⟩
  intro page used
  apply returned.kept page (grown.used page used)
  intro large
  by_contra within
  have free := (buffered large).wasFree page (by omega) (by omega)
  rw [used] at free
  cases free

/-- The kernel has its buffer and has not touched anything else. -/
def Reading (before : State) (buffer size : Nat) (kernel : State) : Prop :=
  Quiet before kernel ∧ Buffered before buffer size kernel.pages

theorem triple_giveUp (positive : 0 < size) (code : Int) {after : α → State → Prop}
    (covers : ∀ reason kernel, Quiet before kernel → others reason kernel) :
    Triple (Reading before buffer size) (giveUp buffer size code) after others := by
  refine .bind (fun _ => Quiet before) (.of_state ?_)
    (fun _ => .stop _ (fun kernel quiet => covers _ kernel quiet))
  rintro kernel ⟨quiet, buffered⟩
  rintro _ rfl
  exact quiet_setFs quiet
    ((free_returned positive buffered quiet.grown.totalPages).grown buffered quiet.grown)

theorem triple_slabAlloc (before : State) (size : Nat)
    {stopped : Lib.Program.Stop Vfs.Fault → State → Prop} :
    Triple (Quiet before) (slabAlloc size)
      (fun result kernel => Quiet before kernel ∧
        ∀ buffer, result = some buffer → Buffered before buffer size kernel.pages) stopped := by
  intro kernel quiet
  have grown := alloc_grown size kernel.pages
  refine ⟨quiet_setFs quiet (quiet.grown.trans grown), ?_⟩
  intro buffer result large
  change (Pages.alloc size kernel.pages).1 = some buffer at result
  change TookBlock before.pages (Pages.alloc size kernel.pages).2 buffer (largePages size)
  have positive : size ≠ 0 := by
    intro zero
    rw [zero] at large
    exact absurd large (by decide)
  unfold Pages.alloc at result ⊢
  rw [if_neg positive, if_pos large] at result ⊢
  have block := (allocBlock_grown kernel.pages (largePages size)).2 buffer result
  refine ⟨?_, ?_, block.used⟩
  · rw [← quiet.grown.totalPages]
    exact block.inside
  · intro page low high
    cases used : bitmapGet before.pages.pmm.bitmap page with
    | false => rfl
    | true =>
      have now := block.wasFree page low high
      rw [quiet.grown.used page used] at now
      cases now

/-! ### The two endings -/

/-- Physical memory fits the address bits of an entry, and the kernel's root is
a page. -/
structure Ready (kernel : State) : Prop where
  addressable : kernel.pages.pmm.totalPages ≤ 2 ^ 40
  aligned : kernel.kernelRoot % 4096 = 0

/-- Descriptors, directories and the active space are as before. -/
def SameRest (before after : State) : Prop :=
  after = { before with
    mem := after.mem, log := after.log, pages := after.pages, vfs := after.vfs }

/-- The first half of `load_image` without its checks: the file is opened and
read into a buffer. -/
def fetchFile (path : List UInt8) : Action (List UInt8) := do
  let file ← onFs (Vfs.openFile Pages.heap Ramfs.ramfs path Vfs.oRdonly)
  let size ← fileSize file
  match ← slabAlloc size with
  | none => fail (-12)
  | some _ => do
      let (count, bytes) ← onFs (Vfs.readFile Ramfs.ramfs file size)
      if count ≠ size then fail (-8) else pure bytes

/-- The bytes that opening and reading the file delivers. -/
def Fetched (before : State) (path file : List UInt8) : Prop :=
  ((fetchFile path).run before).1 = .ok file

theorem Fetched.unique {other : List UInt8} (fetched : Fetched before path file)
    (also : Fetched before path other) : file = other := by
  unfold Fetched at fetched also
  rw [fetched] at also
  exact Except.ok.inj also

theorem fetched_of_runs {id : Nat} {opened sized allocated final : State}
    (openRun : (onFs (Vfs.openFile Pages.heap Ramfs.ramfs path Vfs.oRdonly)).run before =
      (.ok id, opened)) (sizeRun : (fileSize id).run opened = (.ok size, sized))
    (allocRun : (slabAlloc size).run sized = (.ok (some buffer), allocated))
    (readRun : (onFs (Vfs.readFile Ramfs.ramfs id size)).run allocated =
      (.ok ((size : Int), file), final)) : Fetched before path file := by
  unfold Fetched fetchFile
  rw [run_bind_ok openRun, run_bind_ok sizeRun, run_bind_ok allocRun, run_bind_ok readRun]
  simp only [ne_eq, not_true_eq_false, if_false, run_pure]

/-- The image was built in an empty space from a file that passed the checks. -/
structure Constructed (before : State) (argv envp : List (List UInt8)) (path file : List UInt8)
    (plan : Plan) (image : ExecImage) (after : State) : Prop where
  parsed : parseImage file = some plan
  ran : ∃ start fresh built, start.mem = before.mem ∧
    Fresh start image.rootPhys fresh ∧
    (buildImage image.rootPhys file plan before.nx argv envp path).run fresh =
      (.ok image, built) ∧ after.mem = built.mem

/-- A successful load. -/
structure Loaded (before : State) (path : List UInt8) (argv envp : List (List UInt8))
    (image : ExecImage) (after : State) : Prop where
  built : ∃ events, Built before.machine image.rootPhys events after.machine
  shares : InUse before.machine before.kernelRoot →
    SharesKernel before.mem before.kernelRoot image.rootPhys after.mem
  rest : SameRest before after
  constructed : ∃ file plan, Fetched before path file ∧
    Constructed before argv envp path file plan image after

/-- A failed load: no space was made, or it has been torn down. -/
inductive Unloaded (before : State) : State → Prop
  | quiet {after : State} (quiet : Quiet before after) : Unloaded before after
  | destroyed {middle : State} {root : Nat} {events : List FrameEvent}
      (built : Built before.machine root events middle.machine) (rest : SameRest before middle) :
      Unloaded before (middle.setMachine (destroyAddressSpace middle.machine root))

theorem triple_onMachine (kernel : State) {loader : Loader α} {after : α → Machine → Prop}
    {stopped : Unit → Machine → Prop} (triple : Triple (· = kernel.machine) loader after stopped) :
    Triple (· = kernel) (onMachine loader)
      (fun result final => ∃ machine, final = kernel.setMachine machine ∧
        match result with
        | some value => after value machine ∧ loader.run kernel.machine = (.ok value, machine)
        | none => stopped () machine) others := by
  rintro _ rfl
  have ended := triple _ rfl
  simp only [Program.run, onMachine] at ended ⊢
  generalize loader _ = outcome at ended ⊢
  rcases outcome with ⟨_ | value, machine⟩
  · exact ⟨machine, rfl, ended⟩
  · exact ⟨machine, rfl, ended, rfl⟩

theorem Reading.nothingTaken (reading : Reading before buffer size kernel)
    (nothing : NothingTaken kernel.machine machine) :
    Reading before buffer size (kernel.setMachine machine) := by
  obtain ⟨quiet, buffered⟩ := reading
  have grown : machine.mem = kernel.mem ∧ machine.log = kernel.log ∧
      Grown kernel.pages (kernel.setMachine machine).pages := by
    rcases nothing with rfl | ⟨pmm, failed, rfl⟩
    · exact ⟨rfl, rfl, .refl _⟩
    · exact ⟨rfl, rfl, exhausted_totalPages failed, fun _ used => exhausted_used failed used⟩
  refine ⟨⟨?_, quiet.grown.trans grown.2.2⟩, buffered.grown grown.2.2⟩
  unfold State.setMachine
  rw [grown.1, grown.2.1, quiet.rest]

theorem Reading.afterFree {events : List FrameEvent} (positive : 0 < size)
    (reading : Reading before buffer size kernel)
    (built : Built kernel.machine root events machine) :
    Built before.machine root events
      { machine with
        pmm := (Pages.free buffer size (kernel.setMachine machine).pages).pmm } := by
  obtain ⟨quiet, buffered⟩ := reading
  have mem : kernel.machine.mem = before.machine.mem := by
    change kernel.mem = before.mem
    rw [quiet.rest]
  have log : kernel.machine.log = before.machine.log := by
    change kernel.log = before.log
    rw [quiet.rest]
  have grown : Grown kernel.pages (kernel.setMachine machine).pages :=
    ⟨built.totalPages, built.used⟩
  have total := quiet.grown.totalPages
  have buffered' := buffered.grown grown
  have returned := free_returned positive buffered' (grown.totalPages.trans total)
  have rebased := built.rebase mem log total quiet.grown.used
  refine rebased.repage returned.totalPages ?_ ?_
  · intro phys member
    refine returned.kept _ (built.live.held phys ((built.reaches phys).mp member)).2 ?_
    intro large
    by_contra within
    have inUse := (buffered large).used (phys / pageSize) (by omega) (by omega)
    have free := built.wasFree phys member
    change bitmapGet kernel.pages.pmm.bitmap (phys / pageSize) = false at free
    rw [inUse] at free
    cases free
  · exact (returned.grown buffered' (quiet.grown.trans grown)).used

theorem triple_buildFile (positive : 0 < size) (reading : Reading before buffer size kernel)
    (argv envp : List (List UInt8)) (fetched : Fetched before path file) {plan : Plan}
    (parsed : parseImage file = some plan) {fresh : Machine}
    (isFresh : Fresh kernel.machine root fresh) (shares : InUse kernel.machine kernel.kernelRoot →
      SharesKernel kernel.mem kernel.kernelRoot root fresh.mem) :
    Triple (· = kernel.setMachine fresh)
      (do
        let image ← onMachine (buildImage root file plan kernel.nx argv envp path)
        slabFree buffer size
        match image with
        | none => do
            changeMachine (fun machine => destroyAddressSpace machine root)
            fail (-8)
        | some image => pure image)
      (Loaded before path argv envp) (fun _ => Unloaded before) := by
  have quiet := reading.1
  obtain ⟨events, built⟩ := isFresh.built
  have rootSame : kernel.kernelRoot = before.kernelRoot := by rw [quiet.rest]
  have memSame : kernel.mem = before.mem := by rw [quiet.rest]
  have nxSame : kernel.nx = before.nx := by rw [quiet.rest]
  refine .bind _ (triple_onMachine (kernel.setMachine fresh)
    (buildImage_triple built.live file plan kernel.nx argv envp path)) ?_
  intro image
  apply Triple.of_state
  rintro _ ⟨machine, rfl, outcome⟩
  -- either way the machine has only been edited
  have edits : Edits root fresh machine := by
    cases image with
    | none => exact outcome
    | some image => exact outcome.1.1
  obtain ⟨later, now⟩ := built.edits edits
  have final := reading.afterFree positive now
  have upper := fun inUse => edits.sharesKernel built.live (shares inUse)
  apply Triple.bind (fun _ state =>
    state.machine = { machine with
      pmm := (Pages.free buffer size (kernel.setMachine machine).pages).pmm } ∧
    SameRest before state)
  · rintro _ rfl
    refine ⟨rfl, ?_⟩
    unfold SameRest
    rw [quiet.rest]
    rfl
  intro _
  cases image with
  | none =>
    refine .bind (fun _ => Unloaded before) (.modify _ ?_)
      (fun _ => .stop _ (fun _ done => done))
    rintro state ⟨sameMachine, rest⟩
    rw [← sameMachine] at final
    exact Unloaded.destroyed final rest
  | some image =>
    apply Triple.pure
    rintro state ⟨sameMachine, rest⟩
    obtain ⟨⟨_, fields⟩, ran⟩ := outcome
    have rootEq := fields.rootPhys
    subst rootEq
    have memory : state.mem = machine.mem := congrArg Machine.mem sameMachine
    refine ⟨⟨later, ?_⟩, ?_, rest, ⟨file, plan, fetched, parsed, ?_⟩⟩
    · rw [sameMachine]
      exact final
    · intro inUse
      rw [memory, ← memSame, ← rootSame]
      rw [← rootSame] at inUse
      exact upper (quiet.grown.used _ inUse)
    · refine ⟨kernel.machine, fresh, machine, memSame, ?_, ?_, memory⟩
      · exact isFresh
      · rw [← nxSame]
        exact ran

theorem triple_loadFile (ready : Ready before) (positive : 0 < size) (path : List UInt8)
    {argv envp : List (List UInt8)} (few : argv.length ≤ maxAddresses)
    (fewEnvp : envp.length ≤ maxAddresses) (fetched : Fetched before path file) :
    Triple (Reading before buffer size) (loadFile path argv envp buffer size file)
      (Loaded before path argv envp) (fun _ => Unloaded before) := by
  unfold loadFile
  cases parsed : parseImage file with
  | none => exact triple_giveUp positive _ (fun _ _ quiet => Unloaded.quiet quiet)
  | some plan =>
    apply Triple.of_state
    intro kernel reading
    have quiet := reading.1
    have rootSame : kernel.kernelRoot = before.kernelRoot := by rw [quiet.rest]
    apply Triple.bind (fun seen now => now = kernel ∧ seen = kernel)
    · exact Triple.gets _ (fun _ same => ⟨same, same⟩)
    intro seen
    apply Triple.of_state
    rintro _ ⟨rfl, rfl⟩
    refine Triple.bind _ (triple_onMachine _ (createAddressSpace_triple ?_ ?_)) ?_
    · exact quiet.grown.totalPages.trans_le ready.addressable
    · rw [rootSame]
      exact ready.aligned
    intro created
    cases created with
    | none =>
      refine (triple_giveUp positive (-12) (fun _ _ quiet => Unloaded.quiet quiet)).weaken ?_
        (fun _ _ holds => holds) (fun _ _ holds => holds)
      rintro _ ⟨machine, rfl, nothing⟩
      exact reading.nothingTaken nothing
    | some root =>
      apply Triple.of_state
      rintro _ ⟨fresh, rfl, ⟨isFresh, shares⟩, _⟩
      refine Triple.bind (fun _ now => now = seen.setMachine fresh) ?_ (fun _ => ?_)
      · rintro _ rfl
        rw [run_fitAddresses few fewEnvp]
      exact triple_buildFile positive reading argv envp fetched parsed isFresh shares

theorem keeps_fileSize (before : State) (id : Nat) : Keeps (Quiet before) (fileSize id) :=
  keeps_quiet before (fun _ => .bind (Vfs.keeps_fileOf id) (fun _ =>
    .bind (Vfs.keeps_dentryOf _) (fun _ => .bind (Vfs.keeps_inodeOf _)
      (fun _ => .pure _))))

theorem at_quiet {action : Action α} (quiet : Quiet before kernel)
    (keeps : Keeps (Quiet before) action) : Triple (· = kernel) action
      (fun value after => Quiet before after ∧ action.run kernel = (.ok value, after))
      (fun _ => Unloaded before) := by
  refine (.ran (keeps.weaken ?_ (fun _ _ now => now) (fun _ _ now => Unloaded.quiet now)))
  rintro _ rfl
  exact quiet

theorem triple_loadImage (before : State) (ready : Ready before) (path : List UInt8)
    (argv envp : List (List UInt8)) : Triple (· = before) (loadImage path argv envp)
      (Loaded before path argv envp) (fun _ => Unloaded before) := by
  unfold loadImage
  apply Triple.ite
  · intro _
    apply Triple.stop
    rintro _ rfl
    exact Unloaded.quiet (.refl _)
  intro few
  rw [not_or, not_lt, not_lt] at few
  refine Triple.bind _ (at_quiet (.refl before) (keeps_quiet before
    (fun small => Ramfs.keeps_openFile small path Vfs.oRdonly))) ?_
  intro id
  apply Triple.of_state
  rintro opened ⟨quiet, openRun⟩
  refine Triple.bind _ (at_quiet quiet (keeps_fileSize before id)) ?_
  intro size
  apply Triple.of_state
  rintro sized ⟨quiet, sizeRun⟩
  have closes : Keeps (Quiet before) (onFs (Vfs.closeFile Pages.heap Ramfs.ramfs id)) :=
    keeps_quiet before (fun small => Ramfs.keeps_closeFile small id)
  apply Triple.ite
  · intro _
    exact Triple.bind _ (at_quiet quiet closes)
      (fun _ => Triple.stop _ (fun _ now => Unloaded.quiet now.1))
  intro bounded
  have positive : 0 < size := by
    unfold sizeofElfHeader at bounded
    omega
  refine Triple.bind _ (Triple.ran ((triple_slabAlloc before size).weaken
    (fun _ same => same ▸ quiet) (fun _ _ now => now) (fun _ _ now => now))) ?_
  intro allocated
  apply Triple.of_state
  rintro now ⟨⟨quiet, buffered⟩, allocRun⟩
  cases allocated with
  | none =>
    exact Triple.bind _ (at_quiet quiet closes)
      (fun _ => Triple.stop _ (fun _ now => Unloaded.quiet now.1))
  | some buffer =>
    have grows : ∀ pages pages', Grown pages pages' → Buffered before buffer size pages →
        Buffered before buffer size pages' := fun _ _ grown holds => holds.grown grown
    have reads : Keeps (Reading before buffer size) (onFs (Vfs.readFile Ramfs.ramfs id size)) :=
      keeps_onFs before grows (fun _ => Ramfs.keeps_readFile id size)
    have closing : Keeps (Reading before buffer size)
        (onFs (Vfs.closeFile Pages.heap Ramfs.ramfs id)) :=
      keeps_onFs before grows (fun small => Ramfs.keeps_closeFile small id)
    have unload : ∀ (reason : Lib.Program.Stop Vfs.Fault) (kernel : State),
        Reading before buffer size kernel → Unloaded before kernel :=
      fun _ _ reading => Unloaded.quiet reading.1
    refine Triple.bind _ (Triple.ran (reads.weaken ?_ (fun _ _ now => now) unload)) ?_
    · rintro _ rfl
      exact ⟨quiet, buffered buffer rfl⟩
    rintro ⟨count, bytes⟩
    apply Triple.of_state
    rintro final ⟨reading, readRun⟩
    refine Triple.bind _ (closing.weaken (fun _ same => same ▸ reading) (fun _ _ now => now)
      unload) ?_
    intro _
    apply Triple.ite
    · intro _
      exact triple_giveUp positive (-8) (fun _ _ quiet => Unloaded.quiet quiet)
    · intro complete
      rw [not_not] at complete
      rw [complete] at readRun
      exact triple_loadFile ready positive path few.1 few.2
        (fetched_of_runs openRun sizeRun allocRun readRun)

end Synx.Kernel
