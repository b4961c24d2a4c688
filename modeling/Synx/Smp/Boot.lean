/-
The start of the other processors in `kernel_main`, and `ap_main` on each of them.
-/

import Synx.Sched.Runs

namespace Synx.Smp

open Lib Program Function
open Pmm (Block wordSize)
open Sched (State Cold createIdle initAllCpus)

def apStackSize : Nat := 16 * 1024

def apTimeout : Nat := 100000000

/-- The stack of an idle task, a default argument in the source. -/
def idleStack : Nat := 4096

/-- What the boot loader reports, and the address of `__idle`. -/
structure Setup where
  hhdm : Nat
  idle : Nat
  lapicIds : List Nat
  bspLapicId : Nat

/-- Where the boot processor is in `kernel_main`. -/
inductive Bsp
  | starting (rest : List Nat)
  | waiting (timeout : Nat)
  | creating (rest : List Nat)
  | published
  | panicked

/-- Where another processor is in `ap_main`. -/
inductive Ap
  | parked
  | entering
  | spinning
  | released
  | scheduling
  | panicked
  deriving DecidableEq

structure System where
  state : State
  bsp : Bsp
  aps : Nat → Ap
  expectedAps : Nat
  apOnlineCount : Nat
  schedulerReady : Bool

def System.move (system : System) (id : Nat) (next : Ap) : System :=
  { system with aps := update system.aps id next }

section

variable (setup : Setup) (others : List Block)

/-- The head of `init_all_cpus`. -/
def initTasks (system : System) : System :=
  if system.state.initialized then { system with bsp := .creating [] }
  else { system with state :=
    { system.state with initialized := true }, bsp := .creating setup.lapicIds }

/-- `kernel_main` from the response of the boot loader on. -/
def boot (state : State) : System :=
  let system : System := ⟨state, .starting setup.lapicIds, fun _ => .parked, 0, 0, false⟩
  if setup.lapicIds.length ≤ 1 then initTasks setup system else system

def startAp (system : System) (id : Nat) (rest : List Nat) : System :=
  if id = setup.bspLapicId then { system with bsp := .starting rest }
  else
    match (Slab.alloc setup.hhdm apStackSize).run system.state.heap with
    | (.error _, _) => { system with bsp := .panicked }
    | (.ok ptr, heap) =>
      let apStackTop := (ptr + apStackSize) % wordSize / 16 * 16
      if ptr = 0 ∨ apStackTop / 2 ^ 48 ≠ 0xFFFF ∨ apStackTop % 16 ≠
        0 then { system with bsp := .panicked }
      else
        { system.move id .entering with
          state :=
            { system.state with heap := { heap with mem := heap.mem.fill ptr apStackSize 0 } }
          bsp := .starting rest
          expectedAps := system.expectedAps + 1 }

def bspNext (system : System) : System :=
  match system.bsp with
  | .starting (id :: rest) => startAp setup system id rest
  | .starting [] => { system with bsp := .waiting apTimeout }
  | .waiting timeout =>
    if system.apOnlineCount < system.expectedAps then
      { system with bsp := if timeout - 1 = 0 then .panicked else .waiting (timeout - 1) }
    else initTasks setup system
  | .creating (id :: rest) =>
    match (createIdle setup.hhdm setup.idle idleStack id).run system.state with
    | (.ok _, after) => { system with state := after, bsp := .creating rest }
    | (.error _, after) => { system with state := after, bsp := .panicked }
  | .creating [] => { system with bsp := .published, schedulerReady := true }
  | .published | .panicked => system

def apNext (system : System) (id : Nat) : System :=
  match system.aps id with
  | .entering => { system.move id .spinning with apOnlineCount := system.apOnlineCount + 1 }
  | .spinning => if system.schedulerReady then system.move id .released else system
  | .released =>
    match (Sched.init setup.hhdm setup.idle idleStack 0).run system.state with
    | (.ok _, after) => { system.move id .scheduling with state := after }
    | (.error _, after) => { system.move id .panicked with state := after }
  | _ => system

/-- The steps of the processors in some order, with `none` for the boot processor. -/
def follow (movers : List (Option Nat)) (system : System) : System :=
  movers.foldl (fun system mover => mover.elim (bspNext setup system) (apNext setup system)) system

/-! ### The invariant -/

def Bsp.tasked : Bsp → Prop
  | .creating _ | .published => True
  | _ => False

/-- Creating the tasks that are left completes a run of `init_all_cpus`. -/
def Left (rest : List Nat) (state : State) : Prop :=
  state.initialized = true ∧ ∃ start, Cold setup.hhdm others start ∧
    (initAllCpus setup.hhdm setup.idle idleStack setup.lapicIds).run start =
      (each (createIdle setup.hhdm setup.idle idleStack) rest).run state

def Phase (state : State) (ready : Bool) : Bsp → Prop
  | .starting _ | .waiting _ => ready = false ∧ Cold setup.hhdm others state
  | .creating rest => ready = false ∧ Left setup others rest state
  | .published => Left setup others [] state
  | .panicked => ready = false

def Placed (bsp : Bsp) (ready : Bool) : Ap → Prop
  | .parked | .spinning => True
  | .entering => ¬bsp.tasked
  | .released | .scheduling => ready = true
  | .panicked => False

/-- The processors that were started and are not online yet are among the pending
ones, which the boot processor still waits for. -/
structure Ordered (system : System) : Prop where
  phase : Phase setup others system.state system.schedulerReady system.bsp
  placed : ∀ id, Placed system.bsp system.schedulerReady (system.aps id)
  pending : ∃ pending : List Nat, pending.length + system.apOnlineCount = system.expectedAps ∧
    ∀ id, system.aps id = .entering → id ∈ pending

end

section

variable {setup : Setup} {others : List Block} {system : System}

theorem cold_apStack {hhdm ptr : Nat} {state : State} {heap : Slab.State}
    (cold : Cold hhdm others state)
    (ran : (Slab.alloc hhdm apStackSize).run state.heap = (.ok ptr, heap)) (nonnull : ptr ≠ 0) :
    Cold hhdm others
      { state with heap := { heap with mem := heap.mem.fill ptr apStackSize 0 } } := by
  obtain ⟨first, booted, live, fresh, boots, steps⟩ := cold.heap
  have taken : Slab.Step hhdm _ _ :=
    .alloc ⟨_, live⟩ apStackSize ptr heap (by decide) (by decide) ran
  rw [if_neg nonnull] at taken
  refine { cold with heap := ⟨first, booted, _, fresh, boots, (steps.tail taken).tail
    (.write _ ⟨ptr, apStackSize⟩ _ (.head _) (fun byte changed => ?_))⟩ }
  by_contra outside
  exact changed (Memory.fill_outside _ _ _ _ _ (by dsimp only at outside; omega))

theorem Placed.imp {bsp bsp' : Bsp} {ready ready' : Bool} {ap : Ap} (placed : Placed bsp ready ap)
    (tasked : bsp'.tasked → ap = .entering → bsp.tasked)
    (published : ready = true → ready' = true) :
    Placed bsp' ready' ap := by
  cases ap with
  | entering => exact fun begun => placed (tasked begun rfl)
  | released | scheduling => exact published placed
  | parked | spinning | panicked => exact placed

theorem move_cases (system : System) (id : Nat) (next : Ap) (other : Nat) :
    other = id ∧ (system.move id next).aps other = next ∨
      other ≠ id ∧ (system.move id next).aps other = system.aps other := by
  rcases eq_or_ne other id with same | different
  · exact .inl ⟨same, same ▸ update_self ..⟩
  · exact .inr ⟨different, update_of_ne different ..⟩

namespace Ordered

variable (ordered : Ordered setup others system)

include ordered

theorem published (ready : system.schedulerReady = true) :
    system.bsp = .published ∧ Left setup others [] system.state := by
  have phase := ordered.phase
  rw [ready] at phase
  cases here : system.bsp <;> rw [here] at phase
  case published => exact ⟨rfl, phase⟩
  case panicked => cases phase
  all_goals cases phase.1

theorem placed_move {id : Nat} {next : Ap} (fine : Placed system.bsp system.schedulerReady next)
    (other : Nat) :
    Placed system.bsp system.schedulerReady ((system.move id next).aps other) := by
  rcases move_cases system id next other with ⟨_, same⟩ | ⟨_, same⟩ <;> rw [same]
  · exact fine
  · exact ordered.placed other

/-- A processor that is online moves on. -/
theorem release {id : Nat} {next : Ap} (ready : system.schedulerReady = true)
    (late : next = .released ∨ next = .scheduling) :
    Ordered setup others (system.move id next) := by
  obtain ⟨pending, total, covers⟩ := ordered.pending
  refine ⟨ordered.phase, ordered.placed_move (by rcases late with rfl | rfl <;> exact ready),
    pending, total, ?_⟩
  intro other enters
  rcases move_cases system id next other with ⟨_, same⟩ | ⟨_, same⟩ <;> rw [same] at enters
  · rcases late with rfl | rfl <;> cases enters
  · exact covers other enters

theorem apNext (id : Nat) : Ordered setup others (apNext setup system id) := by
  unfold Smp.apNext
  split
  · rename_i here
    obtain ⟨pending, total, covers⟩ := ordered.pending
    have member := covers id here
    have positive := List.length_pos_of_mem member
    -- The counter takes over what the pending processors lose.
    refine ⟨ordered.phase, ordered.placed_move trivial, pending.erase id, ?_, fun other enters =>
      ?_⟩
    · rw [List.length_erase_of_mem member]
      change _ + (system.apOnlineCount + 1) = system.expectedAps
      omega
    · rcases move_cases system id .spinning other with ⟨_, same⟩ | ⟨different, same⟩ <;>
        rw [show _ = _ from same] at enters
      · cases enters
      · exact (List.mem_erase_of_ne different).mpr (covers other enters)
  · split
    · exact ordered.release ‹_› (.inl rfl)
    · exact ordered
  · rename_i here
    have ready := ordered.placed id
    rw [here] at ready
    rw [Sched.run_init (ordered.published ready).2.1]
    exact ordered.release ready (.inr rfl)
  · exact ordered

theorem startAp {id : Nat} {rest : List Nat} (here : system.bsp = .starting (id :: rest)) :
    Ordered setup others (startAp setup system id rest) := by
  obtain ⟨phase, placed, pending, total, covers⟩ := ordered
  rw [here] at phase placed
  obtain ⟨notReady, cold⟩ := phase
  unfold Smp.startAp
  split
  · exact ⟨⟨notReady, cold⟩, placed, pending, total, covers⟩
  split
  · exact ⟨notReady, placed, pending, total, covers⟩
  rename_i ptr heap ran
  simp only
  split
  · exact ⟨notReady, placed, pending, total, covers⟩
  rename_i valid
  refine ⟨⟨notReady, cold_apStack cold ran (fun null => valid (.inl null))⟩, fun other =>
    ?_, id :: pending, ?_, fun other enters => ?_⟩
  · rcases move_cases system id .entering other with ⟨_, same⟩ | ⟨_, same⟩ <;>
      rw [show _ = _ from same]
    · exact False.elim
    · exact placed other
  · change pending.length + 1 + system.apOnlineCount = system.expectedAps + 1
    omega
  · rcases move_cases system id .entering other with ⟨equal, _⟩ | ⟨_, same⟩
    · exact equal ▸ List.mem_cons_self
    · exact .tail _ (covers other (same ▸ enters))

theorem initTasks (cold : Cold setup.hhdm others system.state)
    (notReady : system.schedulerReady = false)
    (enough : system.expectedAps ≤ system.apOnlineCount) :
    Ordered setup others (initTasks setup system) := by
  obtain ⟨_, placed, pending, total, covers⟩ := ordered
  obtain rfl : pending = [] := List.eq_nil_of_length_eq_zero (by omega)
  rw [Smp.initTasks, cold.notInitialized]
  refine ⟨⟨notReady, rfl, system.state, cold, ?_⟩, fun id =>
    (placed id).imp (fun _ enters => ?_) (fun ready => ready), [], total, covers⟩
  · rw [initAllCpus, run_bind_ok (run_gets _ _), cold.notInitialized]
    rfl
  · exact absurd (covers id enters) List.not_mem_nil

theorem bspNext : Ordered setup others (bspNext setup system) := by
  have whole := ordered
  obtain ⟨phase, placed, pending⟩ := ordered
  unfold Smp.bspNext
  split
  all_goals
    rename_i here
    rw [here] at phase placed
  · exact whole.startAp here
  · exact ⟨phase, placed, pending⟩
  · split
    · split
      · exact ⟨phase.1, placed, pending⟩
      · exact ⟨phase, placed, pending⟩
    · exact whole.initTasks phase.2 phase.1 (by omega)
  · obtain ⟨notReady, initialized, start, cold, run⟩ := phase
    split
    · rename_i ran
      rw [each, run_bind_ok ran] at run
      exact ⟨⟨notReady, Sched.createIdle_initialized ran initialized, start, cold, run⟩, placed,
        pending⟩
    · exact ⟨notReady, fun id => (placed id).imp False.elim (fun ready => ready), pending⟩
  · exact ⟨phase.2, fun id => (placed id).imp (fun _ _ => trivial) (fun _ => rfl), pending⟩
  · exact whole
  · exact whole

omit ordered in
theorem follow (movers : List (Option Nat)) {system : System}
    (ordered : Ordered setup others system) :
    Ordered setup others (follow setup movers system) := by
  induction movers generalizing system with
  | nil => exact ordered
  | cons mover rest ih =>
    cases mover with
    | none => exact ih ordered.bspNext
    | some id => exact ih (ordered.apNext id)

end Ordered

theorem ordered_boot {state : State} (cold : Cold setup.hhdm others state) :
    Ordered setup others (boot setup state) := by
  have fresh :
    Ordered setup others ⟨state, .starting setup.lapicIds, fun _ => .parked, 0, 0, false⟩ :=
    ⟨⟨rfl, cold⟩, fun _ => trivial, [], rfl, by simp⟩
  unfold boot
  simp only
  split
  · exact fresh.initTasks cold rfl (Nat.le_refl 0)
  · exact fresh

end

/-- However the steps of the processors are ordered, no other processor leaves its
loop before `init_all_cpus` has run as a whole on the state of a boot, and it begins
only when every processor that was started is online.  The `init` of the scheduler
that each of them then calls does nothing. -/
theorem smp_boot_ordered (setup : Setup) (others : List Block) (state : State)
    (movers : List (Option Nat)) (system : System) (cold : Cold setup.hhdm others state)
    (runs : follow setup movers (boot setup state) = system) :
    (∀ id, Placed system.bsp system.schedulerReady (system.aps id)) ∧
      (system.schedulerReady = true → system.bsp = .published ∧
        (∃ start, Cold setup.hhdm others start ∧
          (initAllCpus setup.hhdm setup.idle idleStack setup.lapicIds).run start =
            (.ok (), system.state)) ∧
        (Sched.init setup.hhdm setup.idle idleStack 0).run system.state =
          (.ok (), system.state)) := by
  have ordered : Ordered setup others system := runs ▸ (ordered_boot cold).follow movers
  refine ⟨ordered.placed, fun ready => ?_⟩
  obtain ⟨published, initialized, complete⟩ := ordered.published ready
  exact ⟨published, complete, Sched.run_init initialized⟩

def smallSetup : Setup := ⟨Slab.kernelBase, 0x1000, [0, 1], 0⟩

/-- Two processors on the small machine. -/
def smallRun : System :=
  follow smallSetup [none, none, none, some 1, none, none, none, none, some 1, some 1]
    (boot smallSetup Sched.smallCold)

theorem smp_boot_ordered_small :
    smallRun.aps 1 = .scheduling ∧ ∃ start, Cold Slab.kernelBase [] start ∧
    (initAllCpus Slab.kernelBase 0x1000 idleStack [0, 1]).run start = (.ok (), smallRun.state) := by
  have ends : smallRun.aps 1 = .scheduling := by decide +kernel
  have holds := smp_boot_ordered smallSetup [] Sched.smallCold _ smallRun Sched.smallCold_cold rfl
  have ready := holds.1 1
  rw [ends] at ready
  exact ⟨ends, (holds.2 ready).2.1⟩

/-- The scheduler's invariant holds from such a boot on, and no call of `schedule`
halts a processor. -/
theorem smp_boot_schedules (setup : Setup) (others : List Block) (state : State)
    (movers : List (Option Nat)) (system : System) (machine : Sched.Machine)
    (cold : Cold setup.hhdm others state) (runs : follow setup movers (boot setup state) = system)
    (ready : system.schedulerReady = true) (distinct : setup.lapicIds.Nodup)
    (steps : Relation.ReflTransGen (Sched.Step setup.hhdm others)
      (Sched.afterBoot system.state setup.idle idleStack setup.lapicIds) machine) :
    Sched.Scheduled setup.hhdm others setup.lapicIds machine ∧
      ∀ cpu ∈ setup.lapicIds, ∀ registers, ∃ loaded after,
        (Sched.schedule cpu registers).run machine.state = (.ok loaded, after) := by
  have ordered : Ordered setup others system := runs ▸ (ordered_boot cold).follow movers
  obtain ⟨_, _, start, isCold, complete⟩ := ordered.published ready
  have scheduled := (isCold.boot distinct complete).run steps
  refine ⟨scheduled, fun cpu member registers => ?_⟩
  obtain ⟨before, behind, split⟩ := List.append_of_mem (scheduled.current cpu member)
  rw [scheduled.run_schedule member registers split]
  split <;> exact ⟨_, _, rfl⟩

theorem smp_boot_schedules_small : smallRun.schedulerReady = true ∧ ∀ registers, ∃ loaded after,
    (Sched.schedule 1 registers).run smallRun.state = (.ok loaded, after) := by
  have ready : smallRun.schedulerReady = true := by decide +kernel
  exact ⟨ready,
    (smp_boot_schedules smallSetup [] Sched.smallCold _ smallRun _ Sched.smallCold_cold rfl ready
    (by decide) .refl).2 1 (by decide)⟩

end Synx.Smp
