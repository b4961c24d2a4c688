/-
The steps that change an address space.
-/

import Synx.Exec.UserView

namespace Synx.Exec

open Lib List
open Pmm (pageSize bitmapGet)
open Paging

def Reaches (mem : Memory) (root phys : Nat) : Prop :=
  ∃ path, LowPath path ∧ frameAt mem root path = some phys

/-- A space whose frames are held in the allocator.  Physical addresses fit the
address bits of an entry. -/
structure Live (machine : Machine) (root : Nat) : Prop where
  space : Space machine.mem root
  held : ∀ phys, Reaches machine.mem root phys →
    phys / pageSize < machine.pmm.totalPages ∧
      bitmapGet machine.pmm.bitmap (phys / pageSize) = true
  addressable : machine.pmm.totalPages ≤ 2 ^ 40

/-- The machine after a free page has been zeroed and linked at an entry. -/
def Machine.linked (machine : Machine) (table index page entry : Nat) : Machine :=
  { mem := linkMem machine.mem table index (page * pageSize) entry
    pmm := machine.pmm.take page 1
    log := .wrote (entryAddress table index) 8 :: .wrote (page * pageSize) pageSize ::
      .took (page * pageSize) :: machine.log }

inductive Edit (root : Nat) (machine : Machine) : Machine → Prop
  | exhausted {pmm : Pmm.State} (none : Pmm.allocPage machine.pmm = (0, pmm)) :
      Edit root machine { machine with pmm := pmm }
  | link {path : List Nat} {table index page flags : Nat} (low : LowPath (path ++ [index]))
      (reached : frameAt machine.mem root path = some table)
      (empty : flagged (entryAt machine.mem table index) ptePresent = false)
      (inside : page < machine.pmm.totalPages)
      (clear : bitmapGet machine.pmm.bitmap page = false) (nonzero : page ≠ 0)
      (opens : OpenFlags flags) :
      Edit root machine (machine.linked table index page (page * pageSize ||| flags))
  | relabel {path : List Nat} {table index entry : Nat} (low : LowPath (path ++ [index]))
      (reached : frameAt machine.mem root path = some table)
      (present : flagged (entryAt machine.mem table index) ptePresent = true)
      (links : Links entry (pteAddress (entryAt machine.mem table index))) :
      Edit root machine (machine.writeWord (entryAddress table index) entry)
  | data {path : List Nat} {phys offset : Nat} {bytes : List UInt8} (low : LowPath path)
      (leaf : path.length = 4) (reached : frameAt machine.mem root path = some phys)
      (inside : offset + bytes.length ≤ 4096) :
      Edit root machine (machine.writeBytes (phys + offset) bytes)

def Edits (root : Nat) : Machine → Machine → Prop := Relation.ReflTransGen (Edit root)

/-! ### A free page as a new frame -/

variable {machine : Machine} {page root : Nat}

theorem frame_of_page (addressable : machine.pmm.totalPages ≤ 2 ^ 40)
    (inside : page < machine.pmm.totalPages) (nonzero : page ≠ 0) : Frame (page * pageSize) := by
  unfold pageSize
  exact ⟨by omega, by omega, by omega⟩

theorem page_mul_div (page : Nat) : page * pageSize / pageSize = page :=
  Nat.mul_div_cancel page (by decide)

theorem Live.newFrame (live : Live machine root)
    (clear : bitmapGet machine.pmm.bitmap page = false) :
    NewFrame machine.mem root (page * pageSize) := by
  intro path low reached
  have used := (live.held _ ⟨path, low, reached⟩).2
  rw [page_mul_div, clear] at used
  cases used

theorem Live.rootFrame (live : Live machine root) : Frame root :=
  live.space.frame [] root lowPath_nil rfl

theorem reaches_root (mem : Memory) (root : Nat) : Reaches mem root root :=
  ⟨[], lowPath_nil, rfl⟩

theorem Space.sameTables_writeBytes {mem : Memory} (space : Space mem root) {path : List Nat}
    {phys offset : Nat} {bytes : List UInt8} (low : LowPath path) (leaf : path.length = 4)
    (reached : frameAt mem root path = some phys) (inside : offset + bytes.length ≤ 4096) :
    SameTables mem (Memory.writeBytes mem (phys + offset) bytes) root := by
  intro other table otherLow short otherReached address above below
  have framePhys := space.frame path phys low reached
  have frameTable := space.frame other table otherLow otherReached
  have different : phys ≠ table := by
    intro same
    subst table
    have samePath := space.unshared path other phys low otherLow reached otherReached
    rw [samePath] at leaf
    omega
  apply Memory.writeBytes_outside
  rcases framePhys.apart frameTable different with before | after
  · omega
  · omega

/-! ### Frames of the tree after an edit -/

section Tree

variable {machine : Machine} {root : Nat} (live : Live machine root)

include live

variable {path : List Nat} {table index flags : Nat}

section

variable {page : Nat} (low : LowPath (path ++ [index]))
  (reached : frameAt machine.mem root path = some table)
  (empty : flagged (entryAt machine.mem table index) ptePresent = false)
  (inside : page < machine.pmm.totalPages) (clear : bitmapGet machine.pmm.bitmap page = false)
  (nonzero : page ≠ 0) (opens : OpenFlags flags)

include low reached empty inside clear nonzero opens

theorem Live.frameAt_linked (other : List Nat) (otherLow : LowPath other) :
    frameAt (machine.linked table index page (page * pageSize ||| flags)).mem root other =
      if other = path ++ [index] then some (page * pageSize)
      else frameAt machine.mem root other :=
  have frame := frame_of_page live.addressable inside nonzero
  live.space.frameAt_linkMem low reached empty (live.newFrame clear) frame (frame.links opens)
    other otherLow

theorem Live.reaches_linked (phys : Nat) :
    Reaches (machine.linked table index page (page * pageSize ||| flags)).mem root phys ↔
      phys = page * pageSize ∨ Reaches machine.mem root phys := by
  have grown := live.frameAt_linked low reached empty inside clear nonzero opens
  constructor
  · rintro ⟨other, otherLow, at_⟩
    rw [grown other otherLow] at at_
    split at at_
    · exact .inl (Option.some.inj at_).symm
    · exact .inr ⟨other, otherLow, at_⟩
  · rintro (rfl | ⟨other, otherLow, at_⟩)
    · refine ⟨path ++ [index], low, ?_⟩
      rw [grown _ low, if_pos rfl]
    · refine ⟨other, otherLow, ?_⟩
      rw [grown other otherLow, if_neg ?_, at_]
      intro same
      have absent := live.space.nextFrame_eq low reached
      rw [empty] at absent
      rw [same, frameAt_snoc_eq_some] at at_
      obtain ⟨parent, parentReached, next⟩ := at_
      rw [reached] at parentReached
      rw [← Option.some.inj parentReached, absent] at next
      cases next

end

theorem Live.reaches_relabel {entry : Nat} (low : LowPath (path ++ [index]))
    (reached : frameAt machine.mem root path = some table)
    (present : flagged (entryAt machine.mem table index) ptePresent = true)
    (links : Links entry (pteAddress (entryAt machine.mem table index))) (phys : Nat) :
    Reaches (machine.writeWord (entryAddress table index) entry).mem root phys ↔
      Reaches machine.mem root phys := by
  have same := live.space.frameAt_relabel low reached present links
  constructor
  · rintro ⟨other, otherLow, at_⟩
    exact ⟨other, otherLow, (same other otherLow).symm.trans at_⟩
  · rintro ⟨other, otherLow, at_⟩
    exact ⟨other, otherLow, (same other otherLow).trans at_⟩

end Tree

theorem SameTables.reaches_iff {mem mem' : Memory} (same : SameTables mem mem' root) (phys : Nat) :
    Reaches mem' root phys ↔ Reaches mem root phys := by
  constructor
  · rintro ⟨other, otherLow, at_⟩
    exact ⟨other, otherLow, (same.frameAt_eq other otherLow).symm.trans at_⟩
  · rintro ⟨other, otherLow, at_⟩
    exact ⟨other, otherLow, (same.frameAt_eq other otherLow).trans at_⟩

/-! ### Pages marked by the allocator -/

theorem bitmapGet_take_one (state : Pmm.State) (page other : Nat) :
    bitmapGet (state.take page 1).bitmap other =
      (bitmapGet state.bitmap other || decide (other = page)) := by
  unfold Pmm.State.take
  rw [Pmm.bitmapGet_bitmapSetRun, Bool.or_comm]
  congr 1
  apply decide_eq_decide.mpr
  omega

theorem exhausted_totalPages {state after : Pmm.State} (none : Pmm.allocPage state = (0, after)) :
    after.totalPages = state.totalPages := by
  rcases Pmm.allocPage_cases state with ⟨same, _⟩ | ⟨page, _, _, same⟩
  · cases none.symm.trans same
    rfl
  · rw [(Prod.mk.inj (none.symm.trans same)).2, Pmm.take_totalPages]

theorem exhausted_used {state after : Pmm.State} (none : Pmm.allocPage state = (0, after))
    (used : bitmapGet state.bitmap page = true) : bitmapGet after.bitmap page = true := by
  rcases Pmm.allocPage_cases state with ⟨same, _⟩ | ⟨found, _, _, same⟩
  · cases none.symm.trans same
    exact used
  · rw [(Prod.mk.inj (none.symm.trans same)).2, bitmapGet_take_one, used, Bool.true_or]

theorem Edits.used {start : Machine} (edits : Edits root start machine)
    (used : bitmapGet start.pmm.bitmap page = true) : bitmapGet machine.pmm.bitmap page = true := by
  induction edits with
  | refl => exact used
  | tail _ edit ih =>
    cases edit with
    | exhausted none => exact exhausted_used none ih
    | link =>
      show bitmapGet (Pmm.State.take _ _ 1).bitmap page = true
      rw [bitmapGet_take_one, ih, Bool.true_or]
    | relabel => exact ih
    | data => exact ih

/-! ### Every edit keeps a live space -/

theorem Edit.live {after : Machine} (edit : Edit root machine after) (live : Live machine root) :
    Live after root := by
  cases edit with
  | exhausted none =>
    refine ⟨live.space, ?_, ?_⟩
    · intro phys reaches
      obtain ⟨inside, used⟩ := live.held phys reaches
      refine ⟨?_, exhausted_used none used⟩
      rw [exhausted_totalPages none]
      exact inside
    · rw [exhausted_totalPages none]
      exact live.addressable
  | @link path table index page flags low reached empty inside clear nonzero opens =>
    have frame := frame_of_page live.addressable inside nonzero
    refine ⟨live.space.link low reached empty (live.newFrame clear) frame (frame.links opens),
      ?_, live.addressable⟩
    intro phys reaches
    rw [live.reaches_linked low reached empty inside clear nonzero opens] at reaches
    unfold Machine.linked
    simp only [Pmm.take_totalPages, bitmapGet_take_one]
    rcases reaches with rfl | old
    · rw [page_mul_div]
      exact ⟨inside, by simp⟩
    · obtain ⟨inside', used⟩ := live.held phys old
      exact ⟨inside', by rw [used, Bool.true_or]⟩
  | @relabel path table index entry low reached present links =>
    refine ⟨live.space.relabel low reached present links, ?_, live.addressable⟩
    intro phys reaches
    exact live.held phys ((live.reaches_relabel low reached present links phys).mp reaches)
  | @data path phys offset bytes low leaf reached inside =>
    have same := live.space.sameTables_writeBytes low leaf reached inside
    refine ⟨same.space live.space, ?_, live.addressable⟩
    intro other reaches
    exact live.held other ((same.reaches_iff other).mp reaches)

theorem Edits.live {after : Machine} (edits : Edits root machine after) (live : Live machine root) :
    Live after root := by
  induction edits with
  | refl => exact live
  | tail _ edit ih => exact edit.live ih

/-! ### A space under construction -/

def takenIn : List FrameEvent → List Nat
  | [] => []
  | .took phys :: rest => phys :: takenIn rest
  | _ :: rest => takenIn rest

theorem mem_takenIn (events : List FrameEvent) (phys : Nat) :
    phys ∈ takenIn events ↔ .took phys ∈ events := by
  induction events with
  | nil => simp [takenIn]
  | cons event rest ih =>
    cases event <;> simp [takenIn, ih]

def InsideOne (frames : List Nat) (address length : Nat) : Prop :=
  ∃ phys, phys ∈ frames ∧ phys ≤ address ∧ address + length ≤ phys + 4096

theorem InsideOne.cons {frames : List Nat} {address length : Nat}
    (inside : InsideOne frames address length) (phys : Nat) :
    InsideOne (phys :: frames) address length := by
  obtain ⟨frame, member, above, below⟩ := inside
  exact ⟨frame, mem_cons_of_mem phys member, above, below⟩

/-- From `start`, the events so far have built the space at `root` out of frames
that were free, and have touched nothing else. -/
structure Built (start : Machine) (root : Nat) (events : List FrameEvent)
    (machine : Machine) : Prop where
  live : Live machine root
  log : machine.log = events ++ start.log
  kept : ∀ phys, .gave phys ∉ events
  reaches : ∀ phys, phys ∈ takenIn events ↔ Reaches machine.mem root phys
  once : (takenIn events).Nodup
  wasFree : ∀ phys, phys ∈ takenIn events → bitmapGet start.pmm.bitmap (phys / pageSize) = false
  writes : ∀ address length, .wrote address length ∈ events →
    InsideOne (takenIn events) address length
  memory : ∀ address, machine.mem address ≠ start.mem address →
    InsideOne (takenIn events) address 1
  totalPages : machine.pmm.totalPages = start.pmm.totalPages
  used : ∀ page, bitmapGet start.pmm.bitmap page = true →
    bitmapGet machine.pmm.bitmap page = true

section Built

variable {start machine : Machine} {root : Nat} {events : List FrameEvent}

theorem Built.exhausted (built : Built start root events machine) {pmm : Pmm.State}
    (none : Pmm.allocPage machine.pmm = (0, pmm)) :
    Built start root events { machine with pmm := pmm } :=
  { live := (Edit.exhausted none).live built.live
    log := built.log
    kept := built.kept
    reaches := built.reaches
    once := built.once
    wasFree := built.wasFree
    writes := built.writes
    memory := built.memory
    totalPages := (exhausted_totalPages none).trans built.totalPages
    used := fun page used => exhausted_used none (built.used page used) }

theorem Built.write (built : Built start root events machine) (mem : Memory)
    (address length phys : Nat)
    (live : Live { machine with mem := mem, log := .wrote address length :: machine.log } root)
    (tree : ∀ frame, Reaches mem root frame ↔ Reaches machine.mem root frame)
    (reached : Reaches machine.mem root phys) (above : phys ≤ address)
    (below : address + length ≤ phys + 4096)
    (outside : ∀ other, other < address ∨ address + length ≤ other →
      mem other = machine.mem other) :
    Built start root (.wrote address length :: events)
      { machine with mem := mem, log := .wrote address length :: machine.log } := by
  have member : phys ∈ takenIn events := (built.reaches phys).mpr reached
  refine
    { live := live
      log := by rw [built.log, cons_append]
      kept := by
        intro frame gave
        rcases mem_cons.mp gave with impossible | old
        · cases impossible
        · exact built.kept frame old
      reaches := fun frame => (built.reaches frame).trans (tree frame).symm
      once := built.once
      wasFree := built.wasFree
      writes := ?_
      memory := ?_
      totalPages := built.totalPages
      used := built.used }
  · intro address' length' wrote
    rcases mem_cons.mp wrote with same | old
    · obtain ⟨rfl, rfl⟩ := FrameEvent.wrote.inj same
      exact ⟨phys, member, above, below⟩
    · exact built.writes address' length' old
  · intro other changed
    by_cases within : other < address ∨ address + length ≤ other
    · apply built.memory other
      rw [← outside other within]
      exact changed
    · exact ⟨phys, member, by omega, by omega⟩

theorem Built.link (built : Built start root events machine) {path : List Nat}
    {table index page flags : Nat} (low : LowPath (path ++ [index]))
    (reached : frameAt machine.mem root path = some table)
    (empty : flagged (entryAt machine.mem table index) ptePresent = false)
    (inside : page < machine.pmm.totalPages)
    (clear : bitmapGet machine.pmm.bitmap page = false) (nonzero : page ≠ 0)
    (opens : OpenFlags flags) :
    Built start root
      (.wrote (entryAddress table index) 8 :: .wrote (page * pageSize) pageSize ::
        .took (page * pageSize) :: events)
      (machine.linked table index page (page * pageSize ||| flags)) := by
  have tableMember : table ∈ takenIn events :=
    (built.reaches table).mpr ⟨path, low.parent, reached⟩
  have bound := low.last_lt
  have fresh : page * pageSize ∉ takenIn events := by
    intro member
    have used := (built.live.held _ ((built.reaches _).mp member)).2
    rw [page_mul_div, clear] at used
    cases used
  have wasClear : bitmapGet start.pmm.bitmap page = false := by
    cases before : bitmapGet start.pmm.bitmap page with
    | false => rfl
    | true => rw [built.used page before] at clear; cases clear
  refine
    { live := (Edit.link low reached empty inside clear nonzero opens).live built.live
      log := by
        simp only [Machine.linked, built.log, cons_append]
      kept := ?_
      reaches := ?_
      once := nodup_cons.mpr ⟨fresh, built.once⟩
      wasFree := ?_
      writes := ?_
      memory := ?_
      totalPages := built.totalPages
      used := ?_ }
  · intro phys gave
    simp only [mem_cons, reduceCtorEq, false_or] at gave
    exact built.kept phys gave
  · intro phys
    rw [built.live.reaches_linked low reached empty inside clear nonzero opens]
    simp only [takenIn, mem_cons, built.reaches]
  · intro phys member
    rcases mem_cons.mp member with rfl | old
    · rw [page_mul_div]
      exact wasClear
    · exact built.wasFree phys old
  · intro address length wrote
    simp only [mem_cons, FrameEvent.wrote.injEq, reduceCtorEq, false_or] at wrote
    rcases wrote with ⟨rfl, rfl⟩ | ⟨rfl, rfl⟩ | old
    · unfold entryAddress
      exact ⟨table, mem_cons_of_mem _ tableMember, by omega, by omega⟩
    · exact ⟨page * pageSize, mem_cons_self, le_rfl, le_rfl⟩
    · exact (built.writes address length old).cons _
  · intro address changed
    by_cases inEntry : address < entryAddress table index ∨ entryAddress table index + 8 ≤ address
    · by_cases inFrame : address < page * pageSize ∨ page * pageSize + 4096 ≤ address
      · refine (built.memory address ?_).cons _
        intro same
        apply changed
        unfold Machine.linked
        simp only
        rw [linkMem_outside address inFrame inEntry, same]
      · exact ⟨page * pageSize, mem_cons_self, by omega, by omega⟩
    · unfold entryAddress at inEntry
      exact ⟨table, mem_cons_of_mem _ tableMember, by omega, by omega⟩
  · intro other used
    unfold Machine.linked
    simp only [bitmapGet_take_one]
    rw [built.used other used, Bool.true_or]

section

variable (built : Built start root events machine)

include built

theorem Built.edit {after : Machine} (edit : Edit root machine after) :
    ∃ events', Built start root events' after := by
  have live := edit.live built.live
  cases edit with
  | exhausted none => exact ⟨events, built.exhausted none⟩
  | link low reached empty inside clear nonzero opens =>
    exact ⟨_, built.link low reached empty inside clear nonzero opens⟩
  | @relabel path table index entry low reached present links =>
    have bound := low.last_lt
    refine ⟨_, built.write _ (entryAddress table index) 8 table live
      (built.live.reaches_relabel low reached present links) ⟨path, low.parent, reached⟩ ?_ ?_
      (fun other outside => Memory.writeWord_outside outside)⟩
    · unfold entryAddress
      omega
    · unfold entryAddress
      omega
  | @data path phys offset bytes low leaf reached inside =>
    have same := built.live.space.sameTables_writeBytes low leaf reached inside
    exact ⟨_, built.write _ (phys + offset) bytes.length phys live same.reaches_iff
      ⟨path, low, reached⟩ (by omega) (by omega)
      (fun other outside => Memory.writeBytes_outside _ _ _ _ outside)⟩

theorem Built.edits {after : Machine} (edits : Edits root machine after) :
    ∃ events', Built start root events' after := by
  induction edits with
  | refl => exact ⟨events, built⟩
  | tail _ edit ih =>
    obtain ⟨_, soFar⟩ := ih
    exact soFar.edit edit

theorem Built.rebase {earlier : Machine} (mem : start.mem = earlier.mem)
    (log : start.log = earlier.log) (total : start.pmm.totalPages = earlier.pmm.totalPages)
    (used : ∀ page, bitmapGet earlier.pmm.bitmap page = true →
      bitmapGet start.pmm.bitmap page = true) : Built earlier root events machine := by
  refine
    { live := built.live
      log := by rw [built.log, log]
      kept := built.kept
      reaches := built.reaches
      once := built.once
      wasFree := ?_
      writes := built.writes
      memory := by rw [← mem]; exact built.memory
      totalPages := built.totalPages.trans total
      used := fun page before => built.used page (used page before) }
  intro phys member
  cases before : bitmapGet earlier.pmm.bitmap (phys / pageSize) with
  | false => rfl
  | true =>
    have free := built.wasFree phys member
    rw [used _ before] at free
    cases free

theorem Built.repage {pmm : Pmm.State} (total : pmm.totalPages = machine.pmm.totalPages)
    (held : ∀ phys ∈ takenIn events, bitmapGet pmm.bitmap (phys / pageSize) = true)
    (used : ∀ page, bitmapGet start.pmm.bitmap page = true → bitmapGet pmm.bitmap page = true) :
    Built start root events { machine with pmm := pmm } :=
  { live :=
      { space := built.live.space
        held := by
          intro phys reaches
          refine ⟨?_, held phys ((built.reaches phys).mpr reaches)⟩
          rw [total]
          exact (built.live.held phys reaches).1
        addressable := by rw [total]; exact built.live.addressable }
    log := built.log
    kept := built.kept
    reaches := built.reaches
    once := built.once
    wasFree := built.wasFree
    writes := built.writes
    memory := built.memory
    totalPages := total.trans built.totalPages
    used := used }

end

end Built

end Synx.Exec
