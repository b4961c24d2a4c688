/-
The frames that the exec subsystem has taken and not given back, and whose they
are.  The ghost log says which frames are out; the page tables of the spaces in
use say who needs them.
-/

import Synx.Exec.Copying
import Synx.Exec.Teardown

namespace Synx.Exec

open Lib List Function
open Pmm (pageSize bitmapGet)
open Paging

/-! ### The log as an account -/

/-- The frame has been taken and not given back since. -/
def Outstanding : List FrameEvent → Nat → Prop
  | [], _ => False
  | .took phys :: rest, frame => frame = phys ∨ Outstanding rest frame
  | .gave phys :: rest, frame => frame ≠ phys ∧ Outstanding rest frame
  | .wrote _ _ :: rest, frame => Outstanding rest frame

/-- A frame is taken only while it is not out, and given back only while it is. -/
def Disciplined : List FrameEvent → Prop
  | [] => True
  | .took phys :: rest => ¬Outstanding rest phys ∧ Disciplined rest
  | .gave phys :: rest => Outstanding rest phys ∧ Disciplined rest
  | .wrote _ _ :: rest => Disciplined rest

section Log

variable {events log : List FrameEvent} (kept : ∀ phys, .gave phys ∉ events)

include kept

theorem outstanding_took (frame : Nat) :
    Outstanding (events ++ log) frame ↔ frame ∈ takenIn events ∨ Outstanding log frame := by
  induction events with
  | nil => simp [takenIn]
  | cons event rest ih =>
    have later := ih (fun phys member => kept phys (.tail _ member))
    cases event with
    | took phys => simp only [cons_append, Outstanding, takenIn, mem_cons, later, or_assoc]
    | gave phys => exact absurd (.head _) (kept phys)
    | wrote address length => exact later

theorem disciplined_took (once : (takenIn events).Nodup)
    (new : ∀ phys ∈ takenIn events, ¬Outstanding log phys) (disciplined : Disciplined log) :
    Disciplined (events ++ log) := by
  induction events with
  | nil => exact disciplined
  | cons event rest ih =>
    have keptLater : ∀ phys, .gave phys ∉ rest :=
      fun phys member => kept phys (.tail _ member)
    cases event with
    | took phys =>
      obtain ⟨notLater, onceLater⟩ := nodup_cons.mp once
      refine ⟨?_, ih keptLater onceLater (fun other member =>
        new other (.tail phys member))⟩
      exact (outstanding_took keptLater phys).not.mpr
        (not_or.mpr ⟨notLater, new phys (.head _)⟩)
    | gave phys => exact absurd (.head _) (kept phys)
    | wrote address length => exact ih keptLater once new

end Log

theorem outstanding_gave (frames : List Nat) (log : List FrameEvent) (frame : Nat) :
    Outstanding ((frames.map FrameEvent.gave).reverse ++ log) frame ↔
      frame ∉ frames ∧ Outstanding log frame := by
  induction frames generalizing log with
  | nil => simp
  | cons phys rest ih =>
    rw [map_cons, reverse_cons, append_assoc, singleton_append, ih]
    simp only [Outstanding, mem_cons, not_or]
    tauto

variable {frames : List Nat} {log : List FrameEvent} {mem : Memory} {kernelRoot : Nat}

theorem disciplined_gave (once : frames.Nodup) (out : ∀ phys ∈ frames, Outstanding log phys)
    (disciplined : Disciplined log) :
    Disciplined ((frames.map FrameEvent.gave).reverse ++ log) := by
  induction frames generalizing log with
  | nil => exact disciplined
  | cons phys rest ih =>
    obtain ⟨notLater, onceLater⟩ := nodup_cons.mp once
    rw [map_cons, reverse_cons, append_assoc, singleton_append]
    refine ih onceLater ?_ ⟨out phys (.head _), disciplined⟩
    intro other member
    refine ⟨?_, out other (.tail phys member)⟩
    rintro rfl
    exact notLater member

theorem Disciplined.gave_outstanding
    (disciplined : Disciplined ((frames.map FrameEvent.gave).reverse ++ log)) :
    Disciplined log ∧ ∀ phys ∈ frames, Outstanding log phys := by
  induction frames generalizing log with
  | nil => exact ⟨disciplined, by simp⟩
  | cons first rest ih =>
    rw [map_cons, reverse_cons, append_assoc, singleton_append] at disciplined
    obtain ⟨⟨out, earlier⟩, later⟩ := ih disciplined
    refine ⟨earlier, ?_⟩
    intro phys member
    rcases mem_cons.mp member with rfl | inRest
    · exact out
    · exact (later phys inRest).2

/-! ### The kernel's own tables -/

/-- Paths to tables through the upper half of the root. -/
def HighPath (path : List Nat) : Prop :=
  path.length ≤ 3 ∧ (∀ index, index ∈ path → index < 512) ∧
    ∀ index, index ∈ path.head? → 256 ≤ index

theorem highPath_prefixClosed : Trie.PrefixClosed HighPath := by
  rintro path index ⟨short, bounded, first⟩
  refine ⟨?_, ?_, ?_⟩
  · rw [length_append] at short
    omega
  · intro other member
    exact bounded other (mem_append_left [index] member)
  · intro other member
    apply first other
    cases path with
    | nil => cases member
    | cons head rest => exact member

/-- The kernel's root and the tables that its upper half reaches. -/
def KernelTable (mem : Memory) (kernelRoot table : Nat) : Prop :=
  ∃ path, HighPath path ∧ frameAt mem kernelRoot path = some table

theorem kernelTable_aligned {table : Nat} (aligned : kernelRoot % 4096 = 0)
    (kernelTable : KernelTable mem kernelRoot table) : table % 4096 = 0 := by
  obtain ⟨path, _, reached⟩ := kernelTable
  cases path using List.reverseRecOn with
  | nil => rw [← Option.some.inj reached]; exact aligned
  | append_singleton path index =>
    obtain ⟨parent, _, next⟩ := (frameAt_snoc_eq_some _ _ _ _ _).mp reached
    unfold nextFrame at next
    simp only at next
    split at next
    · rw [← Option.some.inj next]
      exact pteAddress_aligned _
    · cases next

theorem kernelTable_congr {mem' : Memory} (same : ∀ table, KernelTable mem kernelRoot table →
      ∀ address, table ≤ address → address < table + 4096 → mem' address = mem address)
      (table : Nat) : KernelTable mem' kernelRoot table ↔ KernelTable mem kernelRoot table := by
  have frames : ∀ path, HighPath path →
      frameAt mem' kernelRoot path = frameAt mem kernelRoot path := by
    intro path high
    apply Trie.descend_congr highPath_prefixClosed (nextFrame mem) _ kernelRoot _ path high
    intro way below node wayHigh wayReached
    unfold nextFrame
    rw [entryAt_congr mem' mem node below]
    · exact wayHigh.2.1 below (mem_append_right way (mem_singleton_self below))
    · exact same node ⟨way, highPath_prefixClosed way below wayHigh, wayReached⟩
  constructor
  · rintro ⟨path, high, reached⟩
    exact ⟨path, high, (frames path high) ▸ reached⟩
  · rintro ⟨path, high, reached⟩
    exact ⟨path, high, (frames path high).trans reached⟩

/-! ### Several spaces -/

/-- The frame belongs to one of the spaces.  A root of zero is no space. -/
def Owned {ι : Type} (mem : Memory) (roots : ι → Nat) (phys : Nat) : Prop :=
  ∃ owner, roots owner ≠ 0 ∧ Reaches mem (roots owner) phys

/-- The frames that are out are those of the spaces, which share none. -/
structure Accounts {ι : Type} (machine : Machine) (kernelRoot : Nat) (roots : ι → Nat) : Prop where
  addressable : machine.pmm.totalPages ≤ 2 ^ 40
  aligned : kernelRoot % 4096 = 0
  disciplined : Disciplined machine.log
  live : ∀ owner, roots owner ≠ 0 → Live machine (roots owner)
  apart : ∀ owner other phys, roots owner ≠ 0 → roots other ≠ 0 →
    Reaches machine.mem (roots owner) phys → Reaches machine.mem (roots other) phys → owner = other
  outstanding : ∀ phys, Outstanding machine.log phys ↔ Owned machine.mem roots phys
  kernel : ∀ table, KernelTable machine.mem kernelRoot table →
    InUse machine table ∧ ¬Outstanding machine.log table

theorem Live.surroundings {machine machine' : Machine} {root : Nat} (live : Live machine root)
    (same : SameTables machine.mem machine'.mem root)
    (total : machine'.pmm.totalPages = machine.pmm.totalPages)
    (used : ∀ phys, Reaches machine.mem root phys → InUse machine' phys) : Live machine' root := by
  refine ⟨same.space live.space, ?_, total.trans_le live.addressable⟩
  intro phys reaches
  rw [same.reaches_iff] at reaches
  rw [total]
  exact ⟨(live.held phys reaches).1, used phys reaches⟩

section Moves

variable {ι : Type} {machine : Machine} {kernelRoot : Nat} {roots : ι → Nat}
  (accounts : Accounts machine kernelRoot roots)

include accounts

theorem Accounts.inUse {phys : Nat} (owned : Owned machine.mem roots phys) :
    InUse machine phys := by
  obtain ⟨owner, occupied, reaches⟩ := owned
  exact ((accounts.live owner occupied).held phys reaches).2

theorem Accounts.frame {phys : Nat} (owned : Owned machine.mem roots phys) : Frame phys := by
  obtain ⟨owner, occupied, reaches⟩ := owned
  exact (accounts.live owner occupied).frameOf reaches

theorem Accounts.others {machine' : Machine} (log : machine'.log = machine.log)
    (total : machine'.pmm.totalPages = machine.pmm.totalPages)
    (tables : ∀ owner, roots owner ≠ 0 → SameTables machine.mem machine'.mem (roots owner))
    (used : ∀ phys, Owned machine.mem roots phys → InUse machine' phys)
    (kernel : ∀ table, KernelTable machine'.mem kernelRoot table →
      InUse machine' table ∧ ¬Outstanding machine.log table) :
    Accounts machine' kernelRoot roots := by
  have reaches : ∀ owner phys, roots owner ≠ 0 →
      (Reaches machine'.mem (roots owner) phys ↔ Reaches machine.mem (roots owner) phys) :=
    fun owner phys occupied => (tables owner occupied).reaches_iff phys
  refine
    { addressable := total.trans_le accounts.addressable
      aligned := accounts.aligned
      disciplined := log ▸ accounts.disciplined
      live := ?_
      apart := ?_
      outstanding := ?_
      kernel := ?_ }
  · intro owner occupied
    exact (accounts.live owner occupied).surroundings (tables owner occupied) total
      (fun phys reached => used phys ⟨owner, occupied, reached⟩)
  · intro owner other phys occupied occupied' reached reached'
    exact accounts.apart owner other phys occupied occupied'
      ((reaches owner phys occupied).mp reached) ((reaches other phys occupied').mp reached')
  · intro phys
    rw [log, accounts.outstanding phys]
    constructor
    · rintro ⟨owner, occupied, reached⟩
      exact ⟨owner, occupied, (reaches owner phys occupied).mpr reached⟩
    · rintro ⟨owner, occupied, reached⟩
      exact ⟨owner, occupied, (reaches owner phys occupied).mp reached⟩
  · intro table kernelTable
    rw [log]
    exact kernel table kernelTable

theorem Accounts.rename (name : Equiv.Perm ι) : Accounts machine kernelRoot (roots ∘ name) := by
  refine
    { addressable := accounts.addressable
      aligned := accounts.aligned
      disciplined := accounts.disciplined
      live := fun owner => accounts.live (name owner)
      apart := ?_
      outstanding := ?_
      kernel := accounts.kernel }
  · intro owner other phys occupied occupied' reached reached'
    exact name.injective (accounts.apart (name owner) (name other) phys occupied occupied'
      reached reached')
  · intro phys
    rw [accounts.outstanding phys]
    constructor
    · rintro ⟨owner, owns⟩
      refine ⟨name.symm owner, ?_⟩
      simp only [comp_apply, Equiv.apply_symm_apply]
      exact owns
    · rintro ⟨owner, owns⟩
      exact ⟨name owner, owns⟩

variable [DecidableEq ι]

theorem Accounts.grow {owner : ι} {machine' : Machine} {root : Nat} {events : List FrameEvent}
    (vacant : roots owner = 0) (built : Built machine root events machine') :
    Accounts machine' kernelRoot (update roots owner root) := by
  have nonzero : root ≠ 0 := built.live.rootFrame.nonzero
  have notOwned : ∀ phys ∈ takenIn events, ¬Owned machine.mem roots phys :=
    fun phys taken owned => (built.taken_frame taken).1 (accounts.inUse owned)
  have tables : ∀ other, roots other ≠ 0 → SameTables machine.mem machine'.mem (roots other) := by
    intro other occupied path table low _ reached address above below
    have owned : Owned machine.mem roots table := ⟨other, occupied, path, low, reached⟩
    exact built.untouched (accounts.inUse owned) (accounts.frame owned).aligned above below
  have kernelSame : ∀ table, KernelTable machine'.mem kernelRoot table ↔
      KernelTable machine.mem kernelRoot table :=
    kernelTable_congr (fun table kernelTable _ above below =>
      built.untouched (accounts.kernel table kernelTable).1
        (kernelTable_aligned accounts.aligned kernelTable) above below)
  have outside : ∀ other, other ≠ owner → update roots owner root other = roots other :=
    fun other different => update_of_ne different root roots
  have here : update roots owner root owner = root := update_self owner root roots
  -- the frames of the other spaces are the old ones, those of the new space are the taken ones
  have reachesOther : ∀ other phys, roots other ≠ 0 →
      (Reaches machine'.mem (roots other) phys ↔ Reaches machine.mem (roots other) phys) :=
    fun other phys occupied => (tables other occupied).reaches_iff phys
  have ownedIff : ∀ phys, Owned machine'.mem (update roots owner root) phys ↔
      phys ∈ takenIn events ∨ Owned machine.mem roots phys := by
    intro phys
    rw [built.reaches phys]
    constructor
    · rintro ⟨other, occupied, reached⟩
      by_cases same : other = owner
      · subst other
        rw [here] at reached
        exact .inl reached
      · rw [outside other same] at occupied reached
        exact .inr ⟨other, occupied, (reachesOther other phys occupied).mp reached⟩
    · rintro (reached | ⟨other, occupied, reached⟩)
      · exact ⟨owner, here.symm ▸ nonzero, here.symm ▸ reached⟩
      · have different : other ≠ owner := by
          rintro rfl
          exact occupied vacant
        refine ⟨other, ?_, ?_⟩
        · rw [outside other different]
          exact occupied
        · rw [outside other different]
          exact (reachesOther other phys occupied).mpr reached
  refine
    { addressable := built.live.addressable
      aligned := accounts.aligned
      disciplined := ?_
      live := ?_
      apart := ?_
      outstanding := ?_
      kernel := ?_ }
  · rw [built.log]
    exact disciplined_took built.kept built.once
      (fun phys taken out => notOwned phys taken ((accounts.outstanding phys).mp out))
      accounts.disciplined
  · intro other occupied
    by_cases same : other = owner
    · subst other
      rw [here]
      exact built.live
    · rw [outside other same] at occupied ⊢
      exact (accounts.live other occupied).surroundings (tables other occupied) built.totalPages
        (fun phys reached => built.used _ (accounts.inUse ⟨other, occupied, reached⟩))
  · -- a frame of an old space is not one that was taken
    have clash : ∀ other phys, roots other ≠ 0 → Reaches machine'.mem root phys →
        ¬Reaches machine'.mem (roots other) phys := by
      intro other phys occupied new old
      exact notOwned phys ((built.reaches phys).mpr new)
        ⟨other, occupied, (reachesOther other phys occupied).mp old⟩
    intro left right phys occupiedLeft occupiedRight reachedLeft reachedRight
    by_cases sameLeft : left = owner
    · by_cases sameRight : right = owner
      · rw [sameLeft, sameRight]
      · rw [outside right sameRight] at occupiedRight reachedRight
        rw [sameLeft, here] at reachedLeft
        exact absurd reachedRight (clash right phys occupiedRight reachedLeft)
    · rw [outside left sameLeft] at occupiedLeft reachedLeft
      by_cases sameRight : right = owner
      · rw [sameRight, here] at reachedRight
        exact absurd reachedLeft (clash left phys occupiedLeft reachedRight)
      · rw [outside right sameRight] at occupiedRight reachedRight
        exact accounts.apart left right phys occupiedLeft occupiedRight
          ((reachesOther left phys occupiedLeft).mp reachedLeft)
          ((reachesOther right phys occupiedRight).mp reachedRight)
  · intro phys
    rw [built.log, outstanding_took built.kept, accounts.outstanding, ownedIff]
  · intro table kernelTable
    obtain ⟨inUse, notOut⟩ := accounts.kernel table ((kernelSame table).mp kernelTable)
    refine ⟨built.used _ inUse, ?_⟩
    rw [built.log, outstanding_took built.kept]
    exact not_or.mpr ⟨fun taken => (built.taken_frame taken).1 inUse, notOut⟩

theorem Accounts.drop (owner : ι) (occupied : roots owner ≠ 0) :
    Accounts (destroyAddressSpace machine (roots owner)) kernelRoot
      (update roots owner 0) := by
  have live := accounts.live owner occupied
  rw [live.space.destroyAddressSpace_eq]
  let frames := spaceFrames machine.mem (roots owner)
  have memberIff : ∀ phys, phys ∈ frames ↔ Reaches machine.mem (roots owner) phys :=
    mem_spaceFrames machine.mem (roots owner)
  have mem : (machine.freeFrames frames).mem = machine.mem := machine.freeFrames_mem frames
  have log := machine.freeFrames_log frames
  have total := machine.freeFrames_totalPages frames
  have insideAll : ∀ phys ∈ frames, phys / pageSize < machine.pmm.totalPages :=
    fun phys member => (live.held phys ((memberIff phys).mp member)).1
  -- a page that is not among the freed frames stays in use
  have stays : ∀ phys, phys % 4096 = 0 → InUse machine phys → phys ∉ frames →
      InUse (machine.freeFrames frames) phys := by
    intro phys aligned inUse notFreed
    refine (machine.freeFrames_bitmap frames insideAll (phys / pageSize)).mpr ⟨inUse, ?_⟩
    intro freed member same
    have freedAligned := (live.frameOf ((memberIff freed).mp member)).aligned
    have equal : freed = phys := by
      unfold pageSize at same
      omega
    exact notFreed (equal ▸ member)
  have outside : ∀ other, update roots owner 0 other ≠ 0 →
      other ≠ owner ∧ update roots owner 0 other = roots other := by
    intro other occupied
    by_cases same : other = owner
    · rw [same, update_self] at occupied
      exact absurd rfl occupied
    · exact ⟨same, update_of_ne same 0 roots⟩
  refine
    { addressable := total.trans_le accounts.addressable
      aligned := accounts.aligned
      disciplined := ?_
      live := ?_
      apart := ?_
      outstanding := ?_
      kernel := ?_ }
  · rw [log]
    refine disciplined_gave live.space.nodup_spaceFrames ?_ accounts.disciplined
    intro phys member
    exact (accounts.outstanding phys).mpr ⟨owner, occupied, (memberIff phys).mp member⟩
  · intro other occupiedOther
    obtain ⟨different, same⟩ := outside other occupiedOther
    rw [same] at occupiedOther ⊢
    refine (accounts.live other occupiedOther).surroundings ?_ total ?_
    · intro path table _ _ _ address _ _
      rw [mem]
    · intro phys reached
      have owned : Owned machine.mem roots phys := ⟨other, occupiedOther, reached⟩
      apply stays phys (accounts.frame owned).aligned (accounts.inUse owned)
      intro member
      exact different (accounts.apart other owner phys occupiedOther occupied reached
        ((memberIff phys).mp member))
  · intro left right phys occupiedLeft occupiedRight reachedLeft reachedRight
    obtain ⟨_, sameLeft⟩ := outside left occupiedLeft
    obtain ⟨_, sameRight⟩ := outside right occupiedRight
    rw [sameLeft] at occupiedLeft reachedLeft
    rw [sameRight] at occupiedRight reachedRight
    rw [mem] at reachedLeft reachedRight
    exact accounts.apart left right phys occupiedLeft occupiedRight reachedLeft reachedRight
  · intro phys
    rw [log, outstanding_gave, accounts.outstanding, mem]
    constructor
    · rintro ⟨notFreed, other, occupiedOther, reached⟩
      have different : other ≠ owner := by
        rintro rfl
        exact notFreed ((memberIff phys).mpr reached)
      have same := update_of_ne different 0 roots
      exact ⟨other, same.symm ▸ occupiedOther, same.symm ▸ reached⟩
    · rintro ⟨other, occupiedOther, reached⟩
      obtain ⟨different, same⟩ := outside other occupiedOther
      rw [same] at occupiedOther reached
      refine ⟨?_, other, occupiedOther, reached⟩
      intro member
      exact different (accounts.apart other owner phys occupiedOther occupied reached
        ((memberIff phys).mp member))
  · intro table kernelTable
    rw [mem] at kernelTable
    obtain ⟨inUse, notOut⟩ := accounts.kernel table kernelTable
    refine ⟨?_, ?_⟩
    · apply stays table (kernelTable_aligned accounts.aligned kernelTable) inUse
      intro member
      exact notOut ((accounts.outstanding table).mpr
        ⟨owner, occupied, (memberIff table).mp member⟩)
    · rw [log, outstanding_gave]
      exact fun both => notOut both.2

end Moves

end Synx.Exec
