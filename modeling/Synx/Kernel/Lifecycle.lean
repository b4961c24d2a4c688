/-
Whole lives of user address spaces: images are prepared, discarded and
activated, the active space ends, and between these calls the rest of the
kernel and the programs run.  The frames that the exec subsystem holds are
always exactly those of the active space and of the pending images.
-/

import Synx.Kernel.Isolation

namespace Synx.Kernel

open Lib Program Option Function
open Exec
open Paging

/-- The kernel and the `ExecImage` variables of its callers. -/
structure Life where
  kernel : State
  images : Nat → ExecImage

def noImage : ExecImage := ⟨0, 0, 0, 0, 0, 0⟩

namespace Life

/-- The roots in use: of the active space and of every image. -/
def roots (life : Life) : Option Nat → Nat
  | none => life.kernel.activeRootPhys
  | some slot => (life.images slot).rootPhys

/-- The image after `load_image`, which clears it unless it refuses the counts. -/
def preparedImage (argv envp : List (List UInt8)) (old : ExecImage) :
    Except (Stop Vfs.Fault) ExecImage → ExecImage
  | .ok image => image
  | .error _ => if 128 < argv.length ∨ 128 < envp.length then old else noImage

def prepare (life : Life) (slot : Nat) (path : List UInt8) (argv envp : List (List UInt8)) :
    Life :=
  let outcome := (Kernel.prepare path argv envp).run life.kernel
  { kernel := outcome.2
    images := update life.images slot
      (preparedImage argv envp (life.images slot) outcome.1) }

theorem prepare_images (life : Life) (slot : Nat) (path : List UInt8)
    (argv envp : List (List UInt8)) : (life.prepare slot path argv envp).images slot =
      preparedImage argv envp (life.images slot)
        ((Kernel.prepare path argv envp).run life.kernel).1 :=
  update_self _ _ _

def discard (life : Life) (slot : Nat) : Life :=
  { kernel := ((Kernel.discard (life.images slot)).run life.kernel).2
    images :=
      if (life.images slot).rootPhys = 0 then life.images
      else update life.images slot noImage }

def activate (life : Life) (slot : Nat) (frame : RegisterFrame) : Life :=
  { kernel := ((Kernel.activate (life.images slot) frame).run life.kernel).2
    images := update life.images slot { life.images slot with rootPhys := 0 } }

def terminateCurrent (life : Life) : Life :=
  { life with kernel := (Kernel.terminateCurrent.run life.kernel).2 }

def launchStatic (life : Life) (path : List UInt8) : Life :=
  { life with kernel := ((Kernel.launchStatic path).run life.kernel).2 }

end Life

/-- What the rest of the kernel and the programs may do between the calls: page
tables of user spaces are not written, no frame of a space is freed, and the
tables that the kernel adds for itself are not frames of a space. -/
structure Harmless (life : Life) (kernel : State) : Prop where
  log : kernel.log = life.kernel.log
  activeRootPhys : kernel.activeRootPhys = life.kernel.activeRootPhys
  kernelRoot : kernel.kernelRoot = life.kernel.kernelRoot
  totalPages : kernel.pages.pmm.totalPages = life.kernel.pages.pmm.totalPages
  tables : ∀ owner, life.roots owner ≠ 0 →
    SameTables life.kernel.mem kernel.mem (life.roots owner)
  used : ∀ phys, Owned life.kernel.mem life.roots phys → InUse kernel.machine phys
  kernelTables : ∀ table, KernelTable kernel.mem kernel.kernelRoot table →
    InUse kernel.machine table ∧ ¬Owned life.kernel.mem life.roots table

/-- An image is prepared into a variable that holds no space, as all callers do. -/
inductive LifeStep (life : Life) : Life → Prop
  | prepare (slot : Nat) (path : List UInt8) (argv envp : List (List UInt8))
      (empty : (life.images slot).rootPhys = 0) : LifeStep life (life.prepare slot path argv envp)
  | discard (slot : Nat) : LifeStep life (life.discard slot)
  | activate (slot : Nat) (frame : RegisterFrame) : LifeStep life (life.activate slot frame)
  | terminateCurrent : LifeStep life life.terminateCurrent
  | launchStatic (path : List UInt8) (idle : life.kernel.activeRootPhys = 0) :
      LifeStep life (life.launchStatic path)
  | others {kernel : State} (harmless : Harmless life kernel) :
      LifeStep life { life with kernel := kernel }

def LifeRun : Life → Life → Prop := Relation.ReflTransGen LifeStep

/-- Before the first program: no space, and the kernel's tables are in use. -/
structure Booted (life : Life) : Prop where
  ready : Ready life.kernel
  log : life.kernel.log = []
  idle : ∀ owner, life.roots owner = 0
  kernelTables : ∀ table, KernelTable life.kernel.mem life.kernel.kernelRoot table →
    InUse life.kernel.machine table

def Life.Balanced (life : Life) : Prop :=
  Accounts life.kernel.machine life.kernel.kernelRoot life.roots

theorem Booted.balanced {life : Life} (booted : Booted life) : life.Balanced := by
  have nothing : ∀ phys, ¬Outstanding life.kernel.machine.log phys := by
    intro phys
    change ¬Outstanding life.kernel.log phys
    rw [booted.log]
    exact id
  refine
    { addressable := booted.ready.addressable
      aligned := booted.ready.aligned
      disciplined := ?_
      live := fun owner occupied => absurd (booted.idle owner) occupied
      apart := fun owner _ _ occupied => absurd (booted.idle owner) occupied
      outstanding := ?_
      kernel := fun table kernelTable => ⟨booted.kernelTables table kernelTable, nothing table⟩ }
  · change Disciplined life.kernel.log
    rw [booted.log]
    trivial
  · intro phys
    constructor
    · intro out
      exact absurd out (nothing phys)
    · rintro ⟨owner, occupied, _⟩
      exact absurd (booted.idle owner) occupied

/-! ### One step -/

/-- What a step adds to the log: first frames are taken that were free, then
frames are given back. -/
def Traced (life : Life) (log : List FrameEvent) : Prop :=
  ∃ (taken : List FrameEvent) (frames : List Nat),
    log = (frames.map FrameEvent.gave).reverse ++ (taken ++ life.kernel.log) ∧
      (∀ phys, .gave phys ∉ taken) ∧
        ∀ phys, phys ∈ takenIn taken → ¬InUse life.kernel.machine phys

theorem traced_silent (life : Life) : Traced life life.kernel.log :=
  ⟨[], [], rfl, by simp, by simp [takenIn]⟩

theorem traced_gave (life : Life) (frames : List Nat) :
    Traced life ((frames.map FrameEvent.gave).reverse ++ life.kernel.log) :=
  ⟨[], frames, rfl, by simp, by simp [takenIn]⟩

section LifeStep

variable {life : Life} (balanced : life.Balanced)

include balanced

theorem Life.Balanced.ready : Ready life.kernel := ⟨balanced.addressable, balanced.aligned⟩

theorem Life.Balanced.quiet {kernel : State} (quiet : Quiet life.kernel kernel) :
    Accounts kernel.machine kernel.kernelRoot life.roots := by
  have mem : kernel.machine.mem = life.kernel.machine.mem := by
    change kernel.mem = life.kernel.mem
    rw [quiet.rest]
  have kernelRoot : kernel.kernelRoot = life.kernel.kernelRoot := by rw [quiet.rest]
  have log : kernel.machine.log = life.kernel.machine.log := by
    change kernel.log = life.kernel.log
    rw [quiet.rest]
  rw [kernelRoot]
  refine balanced.others log quiet.grown.totalPages ?_ ?_ ?_
  · intro owner _ path table _ _ _ address _ _
    rw [mem]
  · intro phys owned
    exact quiet.grown.used _ (balanced.inUse owned)
  · intro table kernelTable
    rw [mem] at kernelTable
    obtain ⟨inUse, notOut⟩ := balanced.kernel table kernelTable
    exact ⟨quiet.grown.used _ inUse, notOut⟩

def loadedRoot : Except (Stop Vfs.Fault) ExecImage → Nat
  | .ok image => image.rootPhys
  | .error _ => 0

theorem Life.Balanced.load (owner : Option Nat) (vacant : life.roots owner = 0) (path : List UInt8)
    (argv envp : List (List UInt8)) :
    let outcome := (Kernel.prepare path argv envp).run life.kernel
    Accounts outcome.2.machine outcome.2.kernelRoot
        (update life.roots owner (loadedRoot outcome.1)) ∧
      outcome.2.activeRootPhys = life.kernel.activeRootPhys ∧ Traced life outcome.2.log := by
  have ended := triple_loadImage life.kernel balanced.ready path argv envp life.kernel rfl
  have unchanged : update life.roots owner 0 = life.roots := by
    rw [← vacant]
    exact update_eq_self owner life.roots
  intro outcome
  have same : (loadImage path argv envp).run life.kernel = outcome := rfl
  rw [same] at ended
  clear_value outcome
  rcases outcome with ⟨reason | image, after⟩
  · change Accounts after.machine after.kernelRoot (update life.roots owner 0) ∧ _
    rw [unchanged]
    cases ended with
    | quiet quiet =>
      refine ⟨balanced.quiet quiet, ?_, ?_⟩
      · rw [quiet.rest]
      · have log : after.log = life.kernel.log := by rw [quiet.rest]
        exact log.symm ▸ traced_silent life
    | @destroyed middle root events built rest =>
      have kernelRoot : middle.kernelRoot = life.kernel.kernelRoot := by rw [rest]
      have grown := balanced.grow vacant built
      have here : update life.roots owner root owner = root :=
        update_self owner root life.roots
      have nonzero : root ≠ 0 := built.live.rootFrame.nonzero
      have dropped := grown.drop owner (here.symm ▸ nonzero)
      rw [here, update_idem, unchanged] at dropped
      refine ⟨?_, ?_, ?_⟩
      · change Accounts (destroyAddressSpace middle.machine root) middle.kernelRoot life.roots
        rw [kernelRoot]
        exact dropped
      · change middle.activeRootPhys = life.kernel.activeRootPhys
        rw [rest]
      · refine ⟨events, spaceFrames middle.machine.mem root, ?_, built.kept,
          fun phys taken => (built.taken_frame taken).1⟩
        change (destroyAddressSpace middle.machine root).log = _
        rw [built.live.space.destroyAddressSpace_eq, Machine.freeFrames_log, built.log]
        rfl
  · obtain ⟨events, built⟩ := ended.built
    have rest := ended.rest
    have kernelRoot : after.kernelRoot = life.kernel.kernelRoot := by rw [rest]
    refine ⟨?_, ?_, ?_⟩
    · change Accounts after.machine after.kernelRoot _
      rw [kernelRoot]
      exact balanced.grow vacant built
    · change after.activeRootPhys = life.kernel.activeRootPhys
      rw [rest]
    · exact ⟨events, [], built.log, built.kept, fun phys taken => (built.taken_frame taken).1⟩

theorem Life.Balanced.destroy (owner : Option Nat) :
    let machine := destroyAddressSpace life.kernel.machine (life.roots owner)
    Accounts machine life.kernel.kernelRoot (update life.roots owner 0) ∧
      Traced life machine.log := by
  intro machine
  by_cases vacant : life.roots owner = 0
  · have same : machine = life.kernel.machine := if_pos vacant
    have unchanged : update life.roots owner 0 = life.roots := by
      rw [← vacant]
      exact update_eq_self owner life.roots
    rw [same, unchanged]
    exact ⟨balanced, traced_silent life⟩
  · refine ⟨balanced.drop owner vacant, ?_⟩
    change Traced life (destroyAddressSpace life.kernel.machine (life.roots owner)).log
    rw [(balanced.live owner vacant).space.destroyAddressSpace_eq, Machine.freeFrames_log]
    exact traced_gave life _

end LifeStep

/-! ### The roots after each call -/

theorem Life.roots_image (life : Life) (kernel : State) (slot : Nat) (image : ExecImage)
    (active : kernel.activeRootPhys = life.kernel.activeRootPhys) :
    (Life.mk kernel (update life.images slot image)).roots =
      update life.roots (some slot) image.rootPhys := by
  funext owner
  cases owner with
  | none => exact active
  | some other =>
    by_cases same : other = slot
    · subst other
      simp only [Life.roots, update_self]
    · have different : (some other : Option Nat) ≠ some slot := by
        intro equal
        exact same (some.inj equal)
      simp only [Life.roots, update_of_ne same, update_of_ne different]

theorem Life.roots_active (life : Life) (kernel : State) : (Life.mk kernel life.images).roots =
      update life.roots none kernel.activeRootPhys := by
  funext owner
  cases owner with
  | none => rfl
  | some slot => rfl

theorem preparedImage_rootPhys (argv envp : List (List UInt8)) {old : ExecImage}
    (empty : old.rootPhys = 0) (result : Except (Stop Vfs.Fault) ExecImage) :
    (Life.preparedImage argv envp old result).rootPhys = loadedRoot result := by
  cases result with
  | ok image => rfl
  | error reason =>
    simp only [Life.preparedImage, loadedRoot]
    split
    · exact empty
    · rfl

theorem destroyAddressSpace_zero (machine : Machine) : destroyAddressSpace machine 0 = machine := by
  unfold destroyAddressSpace
  rw [if_pos rfl]

/-- The kernel with a new active root and the frames of the old one given back. -/
def State.switched (kernel : State) (cr3 root : Nat) : State :=
  State.setMachine (destroyAddressSpace kernel.machine kernel.activeRootPhys)
    { kernel with cr3 := cr3, activeRootPhys := root }

theorem triple_activate (image : ExecImage) (frame : RegisterFrame) (kernel : State)
    (occupied : image.rootPhys ≠ 0) :
    Triple (· = kernel) (activate image frame)
      (fun after final => after = startFrame image frame ∧
        final = kernel.switched image.rootPhys image.rootPhys)
      (fun _ _ => False) := by
  unfold activate
  apply Triple.ite
  · intro vacant
    exact absurd vacant occupied
  intro _
  refine .bind (fun seen now => seen = kernel ∧ now = kernel)
    (.gets _ (fun _ same => ⟨same, same⟩)) ?_
  intro seen
  refine .bind (fun _ now => seen = kernel ∧
    now = { kernel with cr3 := image.rootPhys, activeRootPhys := image.rootPhys })
    (.modify _ ?_) ?_
  · rintro now ⟨rfl, rfl⟩
    exact ⟨rfl, rfl⟩
  intro _
  unfold State.switched
  apply Triple.ite
  · intro idle
    apply Triple.pure
    rintro now ⟨rfl, rfl⟩
    refine ⟨rfl, ?_⟩
    rw [idle, destroyAddressSpace_zero]
    rfl
  · intro _
    refine .bind (fun _ now => now = State.setMachine
      (destroyAddressSpace kernel.machine kernel.activeRootPhys)
      { kernel with cr3 := image.rootPhys, activeRootPhys := image.rootPhys })
      (.modify _ ?_) (fun _ => .pure _ (fun now same => ⟨rfl, same⟩))
    rintro now ⟨rfl, rfl⟩
    rfl

theorem triple_terminateCurrent (kernel : State) :
    Triple (· = kernel) terminateCurrent
      (fun _ final => final =
        if kernel.activeRootPhys = 0 then kernel else kernel.switched kernel.kernelRoot 0)
      (fun _ _ => False) := by
  unfold terminateCurrent
  refine .bind (fun seen now => seen = kernel ∧ now = kernel)
    (.gets _ (fun _ same => ⟨same, same⟩)) ?_
  intro seen
  apply Triple.ite
  · intro idle
    apply Triple.pure
    rintro now ⟨rfl, rfl⟩
    rw [if_pos idle]
  · intro busy
    refine .bind (fun _ now => seen = kernel ∧
      now = { kernel with cr3 := kernel.kernelRoot, activeRootPhys := 0 }) (.modify _ ?_) ?_
    · rintro now ⟨rfl, rfl⟩
      exact ⟨rfl, rfl⟩
    intro _
    apply Triple.modify
    rintro now ⟨rfl, rfl⟩
    rw [if_neg busy]
    rfl

theorem activate_final (image : ExecImage) (frame : RegisterFrame) (kernel : State)
    (occupied : image.rootPhys ≠ 0) :
    ((activate image frame).run kernel).2 = kernel.switched image.rootPhys image.rootPhys := by
  obtain ⟨_, _, ran, _, same⟩ := (triple_activate image frame kernel occupied).total rfl
  rw [ran]
  exact same

theorem terminateCurrent_final (kernel : State) :
    (terminateCurrent.run kernel).2 =
      if kernel.activeRootPhys = 0 then kernel else kernel.switched kernel.kernelRoot 0 := by
  obtain ⟨_, _, ran, same⟩ := (triple_terminateCurrent kernel).total rfl
  rw [ran]
  exact same

theorem discard_final (image : ExecImage) (kernel : State) (occupied : image.rootPhys ≠ 0) :
    ((discard image).run kernel).2 =
      State.setMachine (destroyAddressSpace kernel.machine image.rootPhys) kernel := by
  unfold discard
  rw [if_neg occupied, run_changeMachine]

/-! ### Every step -/

section Calls

variable {life : Life} (balanced : life.Balanced)

include balanced

theorem keeps_prepare (slot : Nat) (path : List UInt8) (argv envp : List (List UInt8))
    (empty : (life.images slot).rootPhys = 0) : (life.prepare slot path argv envp).Balanced ∧
      Traced life (life.prepare slot path argv envp).kernel.log := by
  obtain ⟨accounts, active, traced⟩ := balanced.load (some slot) empty path argv envp
  refine ⟨?_, traced⟩
  have roots := life.roots_image _ slot (Life.preparedImage argv envp (life.images slot)
    ((Kernel.prepare path argv envp).run life.kernel).1) active
  rw [preparedImage_rootPhys argv envp empty] at roots
  change Accounts _ _ (Life.mk _ _).roots
  rw [roots]
  exact accounts

theorem keeps_discard (slot : Nat) :
    (life.discard slot).Balanced ∧ Traced life (life.discard slot).kernel.log := by
  unfold Life.discard
  by_cases vacant : (life.images slot).rootPhys = 0
  · simp only [Kernel.discard, if_pos vacant, run_pure]
    exact ⟨balanced, traced_silent life⟩
  · rw [if_neg vacant, discard_final _ _ vacant]
    obtain ⟨accounts, traced⟩ := balanced.destroy (some slot)
    refine ⟨?_, traced⟩
    unfold Life.Balanced
    rw [life.roots_image (State.setMachine _ life.kernel) slot noImage rfl]
    exact accounts

theorem keeps_activate (slot : Nat) (frame : RegisterFrame) :
    (life.activate slot frame).Balanced ∧ Traced life (life.activate slot frame).kernel.log := by
  unfold Life.activate
  by_cases vacant : (life.images slot).rootPhys = 0
  · have same : update life.images slot { life.images slot with rootPhys := 0 } =
        life.images := by
      rw [← vacant]
      exact update_eq_self slot life.images
    rw [same]
    simp only [Kernel.activate, if_pos vacant, run_pure]
    exact ⟨balanced, traced_silent life⟩
  · rw [activate_final _ _ _ vacant]
    obtain ⟨accounts, traced⟩ := balanced.destroy none
    refine ⟨?_, traced⟩
    -- the image's space becomes the active one, and the image is left without a space
    have roots : (Life.mk (life.kernel.switched (life.images slot).rootPhys
          (life.images slot).rootPhys)
        (update life.images slot { life.images slot with rootPhys := 0 })).roots =
        update life.roots none 0 ∘ Equiv.swap none (some slot) := by
      funext owner
      cases owner with
      | none => simp [Life.roots, State.switched, State.setMachine]
      | some other =>
        by_cases same : other = slot
        · subst other
          simp [Life.roots]
        · have different : (some other : Option Nat) ≠ some slot := by
            intro equal
            exact same (some.inj equal)
          rw [comp_apply,
            Equiv.swap_apply_of_ne_of_ne (some_ne_none other) different]
          simp [Life.roots, update_of_ne same]
    unfold Life.Balanced
    rw [roots]
    exact accounts.rename _

theorem keeps_terminateCurrent :
    life.terminateCurrent.Balanced ∧ Traced life life.terminateCurrent.kernel.log := by
  unfold Life.terminateCurrent
  rw [terminateCurrent_final]
  by_cases idle : life.kernel.activeRootPhys = 0
  · rw [if_pos idle]
    exact ⟨balanced, traced_silent life⟩
  · rw [if_neg idle]
    obtain ⟨accounts, traced⟩ := balanced.destroy none
    refine ⟨?_, traced⟩
    unfold Life.Balanced
    rw [life.roots_active]
    exact accounts

theorem keeps_launchStatic (path : List UInt8) (idle : life.kernel.activeRootPhys = 0) :
    (life.launchStatic path).Balanced ∧ Traced life (life.launchStatic path).kernel.log := by
  obtain ⟨accounts, active, traced⟩ := balanced.load none idle path [] []
  unfold Life.launchStatic Kernel.launchStatic
  rw [run_bind]
  generalize (Kernel.prepare path [] []).run life.kernel = outcome at accounts active traced ⊢
  rcases outcome with ⟨reason | image, after⟩
  · refine ⟨?_, traced⟩
    unfold Life.Balanced
    rw [life.roots_active, show after.activeRootPhys = 0 from active.trans idle]
    exact accounts
  · refine ⟨?_, traced⟩
    unfold Life.Balanced
    rw [life.roots_active]
    exact accounts

theorem keeps_others {kernel : State} (harmless : Harmless life kernel) :
    (Life.mk kernel life.images).Balanced ∧ Traced life kernel.log := by
  refine ⟨?_, harmless.log.symm ▸ traced_silent life⟩
  unfold Life.Balanced
  rw [life.roots_active, harmless.activeRootPhys]
  have same : update life.roots none life.kernel.activeRootPhys = life.roots :=
    update_eq_self none life.roots
  rw [same]
  change Accounts kernel.machine kernel.kernelRoot life.roots
  rw [harmless.kernelRoot]
  refine balanced.others harmless.log harmless.totalPages harmless.tables harmless.used ?_
  intro table kernelTable
  rw [← harmless.kernelRoot] at kernelTable
  obtain ⟨inUse, notOwned⟩ := harmless.kernelTables table kernelTable
  exact ⟨inUse, fun out => notOwned ((balanced.outstanding table).mp out)⟩

theorem LifeStep.keeps {next : Life} (step : LifeStep life next) :
    next.Balanced ∧ Traced life next.kernel.log := by
  cases step with
  | prepare slot path argv envp empty => exact keeps_prepare balanced slot path argv envp empty
  | discard slot => exact keeps_discard balanced slot
  | activate slot frame => exact keeps_activate balanced slot frame
  | terminateCurrent => exact keeps_terminateCurrent balanced
  | launchStatic path idle => exact keeps_launchStatic balanced path idle
  | others harmless => exact keeps_others balanced harmless

end Calls

theorem LifeRun.balanced {start life : Life} (booted : Booted start) (run : LifeRun start life) :
    life.Balanced := by
  induction run with
  | refl => exact booted.balanced
  | tail _ step ih => exact (step.keeps ih).1

/-! ### Exact teardown -/

/-- The frames that are out belong to exactly one space in use; a step gives back
only frames of spaces that it ends or that it made itself, and no kernel table. -/
structure ExactTeardown (life : Life) : Prop where
  once : Disciplined life.kernel.log
  exact : ∀ phys, Outstanding life.kernel.log phys ↔ Owned life.kernel.mem life.roots phys
  apart : ∀ owner other phys, life.roots owner ≠ 0 → life.roots other ≠ 0 →
    Reaches life.kernel.mem (life.roots owner) phys →
    Reaches life.kernel.mem (life.roots other) phys → owner = other
  freed : ∀ next, LifeStep life next → ∃ events, next.kernel.log = events ++ life.kernel.log ∧
    ∀ phys, .gave phys ∈ events →
      (Owned life.kernel.mem life.roots phys ∨ .took phys ∈ events) ∧
        ¬Owned next.kernel.mem next.roots phys ∧
          ¬KernelTable life.kernel.mem life.kernel.kernelRoot phys

theorem LifeStep.freed {life next : Life} (balanced : life.Balanced) (step : LifeStep life next) :
    ∃ events, next.kernel.log = events ++ life.kernel.log ∧
      ∀ phys, .gave phys ∈ events → (Owned life.kernel.mem life.roots phys ∨ .took phys ∈ events) ∧
          ¬Owned next.kernel.mem next.roots phys ∧
            ¬KernelTable life.kernel.mem life.kernel.kernelRoot phys := by
  obtain ⟨after, taken, frames, log, kept, new⟩ := step.keeps balanced
  have disciplined : Disciplined next.kernel.log := after.disciplined
  rw [log] at disciplined
  have out := disciplined.gave_outstanding.2
  refine ⟨(frames.map FrameEvent.gave).reverse ++ taken, by rw [log, List.append_assoc], ?_⟩
  intro phys gave
  have member : phys ∈ frames := by
    rcases List.mem_append.mp gave with inFrames | inTaken
    · simpa using inFrames
    · exact absurd inTaken (kept phys)
  have source := (outstanding_took kept phys).mp (out phys member)
  refine ⟨?_, ?_, ?_⟩
  · rcases source with inTaken | before
    · exact .inr (List.mem_append_right _ ((mem_takenIn taken phys).mp inTaken))
    · exact .inl ((balanced.outstanding phys).mp before)
  · intro owned
    have stillOut : Outstanding next.kernel.log phys := (after.outstanding phys).mpr owned
    rw [log, outstanding_gave] at stillOut
    exact stillOut.1 member
  · intro kernelTable
    obtain ⟨inUse, notOut⟩ := balanced.kernel phys kernelTable
    rcases source with inTaken | before
    · exact new phys inTaken inUse
    · exact notOut before

theorem run_tears_down_exactly (start life : Life) (booted : Booted start)
    (run : LifeRun start life) : ExactTeardown life := by
  have balanced := run.balanced booted
  exact
    { once := balanced.disciplined
      exact := balanced.outstanding
      apart := balanced.apart
      freed := fun _ step => step.freed balanced }

theorem flagged_entry_zero (table index : Nat) :
    flagged (entryAt (fun _ => 0) table index) ptePresent = false := by
  have zero : entryAt (fun _ => 0) table index = 0 := by
    simp [entryAt, Memory.readWord, Memory.readNumber]
  rw [zero]
  decide

theorem rootPage_inUse : InUse (kernelWith singleFile).machine 4096 := by
  unfold InUse
  decide +kernel

/-- An image is prepared, made active, and ended. -/
theorem run_tears_down_exactly_single :
    let start : Life := ⟨kernelWith singleFile, fun _ => noImage⟩
    let prepared := start.prepare 0 [Vfs.slash, 97] [] []
    let active :=
      prepared.activate 0
        (startFrame noImage ⟨0, 0, 0, 0, 0, 0, 0, 0, 0, 0, 0, 0, 0, 0, 0, 0, 0, 0⟩)
    prepared.images 0 = singleImage ∧ ExactTeardown active ∧
      ExactTeardown active.terminateCurrent := by
  intro start prepared active
  have zeroTable : ∀ table, KernelTable start.kernel.mem start.kernel.kernelRoot table →
      table = 4096 := by
    rintro table ⟨path, _, reached⟩
    cases path with
    | nil => exact (some.inj reached).symm
    | cons index rest =>
      have empty : nextFrame (fun _ => 0) 4096 index = none :=
        nextFrame_absent (flagged_entry_zero 4096 index)
      change (nextFrame (fun _ => 0) 4096 index).bind _ = some table at reached
      rw [empty] at reached
      cases reached
  have booted : Booted start := by
    refine ⟨kernelWith_ready _, rfl, ?_, ?_⟩
    · intro owner
      cases owner with
      | none => rfl
      | some slot => rfl
    · intro table kernelTable
      rw [zeroTable table kernelTable]
      exact rootPage_inUse
  have first : LifeStep start prepared := LifeStep.prepare 0 [Vfs.slash, 97] [] [] rfl
  have second : LifeStep prepared active := LifeStep.activate 0 _
  have third : LifeStep active active.terminateCurrent := LifeStep.terminateCurrent
  have run : LifeRun start active := (Relation.ReflTransGen.single first).tail second
  refine ⟨?_, run_tears_down_exactly start active booted run,
    run_tears_down_exactly start _ booted (run.tail third)⟩
  have ran : (Kernel.prepare [Vfs.slash, 97] [] []).run start.kernel =
      (.ok singleImage, singleLoaded) := singleFile_loads
  rw [Life.prepare_images, ran]
  rfl

end Synx.Kernel
