/-
Page-frame ownership over whole runs of the physical allocator.
-/

import Synx.Lib.Counting
import Synx.Mem.Pmm

namespace Synx.Pmm

open Lib List

/-- A run of pages as a caller holds it: its address and its page count. -/
structure Block where
  phys : Nat
  pages : Nat
  deriving DecidableEq

def Block.firstPage (block : Block) : Nat := block.phys / pageSize

def Block.Covers (block : Block) (page : Nat) : Prop :=
  block.firstPage ≤ page ∧ page < block.firstPage + block.pages

instance (block : Block) (page : Nat) : Decidable (block.Covers page) := by
  unfold Block.Covers
  infer_instance

theorem Block.firstPage_mul (start count : Nat) :
    Block.firstPage ⟨start * pageSize, count⟩ = start :=
  Nat.mul_div_cancel start (by decide)

theorem Block.covers_mul (start count page : Nat) :
    Block.Covers ⟨start * pageSize, count⟩ page ↔ start ≤ page ∧ page < start + count := by
  unfold Block.Covers
  rw [Block.firstPage_mul]

theorem Block.covers_first (block : Block) (nonempty : 0 < block.pages) :
    block.Covers block.firstPage :=
  ⟨le_rfl, Nat.lt_add_of_pos_right nonempty⟩

def Block.Apart (left right : Block) : Prop :=
  ∀ page, left.Covers page → ¬right.Covers page

variable {left right : Block}

theorem Block.Apart.symm (apart : left.Apart right) : right.Apart left :=
  fun page covered other => apart page other covered

theorem Block.Apart.bytes (apart : left.Apart right) (leftAligned : left.phys % pageSize = 0)
    (rightAligned : right.phys % pageSize = 0) (leftPages : 0 < left.pages)
    (rightPages : 0 < right.pages) : left.phys + left.pages * pageSize ≤ right.phys ∨
      right.phys + right.pages * pageSize ≤ left.phys := by
  by_contra overlap
  have first := apart left.firstPage
  have second := apart right.firstPage
  unfold Block.Covers Block.firstPage pageSize at *
  omega

/-- The clear bits among the pages of the machine. -/
def clearPages (state : State) : Nat :=
  countBelow (fun page => !bitmapGet state.bitmap page) state.totalPages

/-- The allocator and its callers agree on who holds what. -/
structure Owned (state : State) (held : List Block) : Prop where
  counted : state.freePages = clearPages state
  zeroUsed : bitmapGet state.bitmap 0 = true
  inside : ∀ block, block ∈ held → ∀ page, block.Covers page → page < state.totalPages
  used : ∀ block, block ∈ held → ∀ page, block.Covers page → bitmapGet state.bitmap page = true
  positive : ∀ block, block ∈ held → 0 < block.firstPage
  aligned : ∀ block, block ∈ held → block.phys % pageSize = 0
  nonempty : ∀ block, block ∈ held → 0 < block.pages
  apart : held.Pairwise Block.Apart

variable {state : State} {held : List Block} {frames : Nat → Prop}

theorem Owned.perm {other : List Block} (owned : Owned state held) (order : held.Perm other) :
    Owned state other :=
  { counted := owned.counted
    zeroUsed := owned.zeroUsed
    inside := fun block member => owned.inside block (order.mem_iff.mpr member)
    used := fun block member => owned.used block (order.mem_iff.mpr member)
    positive := fun block member => owned.positive block (order.mem_iff.mpr member)
    aligned := fun block member => owned.aligned block (order.mem_iff.mpr member)
    nonempty := fun block member => owned.nonempty block (order.mem_iff.mpr member)
    apart := (order.pairwise_iff Block.Apart.symm).mp owned.apart }

theorem Owned.block_end (owned : Owned state held) {block : Block} (member : block ∈ held) :
    block.phys + block.pages * pageSize ≤ state.totalPages * pageSize := by
  have nonempty := owned.nonempty block member
  have aligned := owned.aligned block member
  have last := owned.inside block member (block.firstPage + block.pages - 1)
  unfold Block.Covers Block.firstPage pageSize at *
  omega

theorem clearPages_le (state : State) : clearPages state ≤ state.totalPages :=
  countBelow_le _ _

/-! ### One page at a time -/

private theorem clearPages_setRun (bitmap : Memory) (total start count : Nat)
    (inside : start + count ≤ total)
    (clear : ∀ page, start ≤ page → page < start + count → bitmapGet bitmap page = false) :
    countBelow (fun other => !bitmapGet (bitmapSetRun bitmap start count) other) total + count =
      countBelow (fun other => !bitmapGet bitmap other) total := by
  induction count generalizing bitmap start with
  | zero => rfl
  | succ count ih =>
    have startClear := clear start (Nat.le_refl start) (by omega)
    have rest := ih (bitmapSet bitmap start) (start + 1) (by omega) (by
      intro page low high
      rw [bitmapGet_bitmapSet, clear page (by omega) (by omega), Bool.or_false,
        decide_eq_false_iff_not]
      omega)
    have first : countBelow (fun other => !bitmapGet (bitmapSet bitmap start) other) total + 1 =
        countBelow (fun other => !bitmapGet bitmap other) total := by
      symm
      apply countBelow_flip _ _ total start (by omega)
      · simp only [bitmapGet_bitmapSet, decide_true, Bool.true_or, Bool.not_true]
      · simp only [startClear, Bool.not_false]
      · intro other different
        simp only [bitmapGet_bitmapSet, different, decide_false, Bool.false_or]
    simp only [bitmapSetRun]
    omega

theorem clearPages_take (state : State) (start count : Nat)
    (inside : start + count ≤ state.totalPages)
    (clear : ∀ page, start ≤ page → page < start + count →
      bitmapGet state.bitmap page = false) :
    clearPages (state.take start count) + count = clearPages state :=
  clearPages_setRun state.bitmap state.totalPages start count inside clear

theorem clearPages_release (state : State) (page : Nat) (inside : page < state.totalPages)
    (used : bitmapGet state.bitmap page = true) :
    clearPages (state.release page) = clearPages state + 1 := by
  unfold clearPages
  rw [release_totalPages]
  apply countBelow_flip _ _ state.totalPages page inside
  · simp only [used, Bool.not_true]
  · simp only [bitmapGet_release, inside, and_self, decide_true, Bool.not_true, Bool.false_and,
      Bool.not_false]
  · intro other different
    simp only [bitmapGet_release, different, false_and, decide_false, Bool.not_false, Bool.true_and]

private theorem freePages_take (state : State) (start count : Nat)
    (counted : state.freePages = clearPages state) (inside : start + count ≤ state.totalPages)
    (clear : ∀ page, start ≤ page → page < start + count → bitmapGet state.bitmap page = false) :
    (state.take start count).freePages = clearPages (state.take start count) := by
  have taken := clearPages_take state start count inside clear
  have bounded := clearPages_le state
  have addressable := state.addressable
  have small : clearPages state < wordSize := by
    unfold wordSize
    omega
  have countSmall : count % wordSize = count := Nat.mod_eq_of_lt (by omega)
  simp only [State.take, counted, countSmall]
  change (clearPages state + (wordSize - count)) % wordSize = clearPages (state.take start count)
  rw [show clearPages state + (wordSize - count) =
    clearPages (state.take start count) + wordSize by omega, Nat.add_mod_right]
  exact Nat.mod_eq_of_lt (by omega)

theorem release_freePages (state : State) (page : Nat)
    (counted : state.freePages = clearPages state) :
    (state.release page).freePages = clearPages (state.release page) := by
  by_cases guarded : page < state.totalPages ∧ bitmapGet state.bitmap page = true
  · have gained := clearPages_release state page guarded.1 guarded.2
    have bounded := clearPages_le (state.release page)
    have addressable := state.addressable
    rw [release_totalPages] at bounded
    rw [gained]
    rw [gained] at bounded
    simp only [State.release, if_pos guarded, counted]
    apply Nat.mod_eq_of_lt
    unfold wordSize
    omega
  · simp only [State.release, if_neg guarded]
    exact counted

/-! ### Whole blocks -/

@[simp]
theorem releaseRun_totalPages (state : State) (page offset count : Nat) :
    (releaseRun state page offset count).totalPages = state.totalPages := by
  induction count generalizing state offset with
  | zero => rfl
  | succ count ih => simp only [releaseRun, ih, release_totalPages]

theorem releaseRun_freePages (state : State) (page offset count : Nat)
    (counted : state.freePages = clearPages state) :
    (releaseRun state page offset count).freePages =
      clearPages (releaseRun state page offset count) := by
  induction count generalizing state offset with
  | zero => exact counted
  | succ count ih =>
    simp only [releaseRun]
    exact ih _ _ (release_freePages state _ counted)

theorem bitmapGet_releaseRun (state : State) (page offset count other : Nat)
    (inside : page + offset + count ≤ state.totalPages) :
    bitmapGet (releaseRun state page offset count).bitmap other =
      (!decide (page + offset ≤ other ∧ other < page + offset + count) &&
        bitmapGet state.bitmap other) := by
  induction count generalizing state offset with
  | zero =>
    have outside : ¬(page + offset ≤ other ∧ other < page + offset + 0) := by omega
    simp only [releaseRun, outside, decide_false, Bool.not_false, Bool.true_and]
  | succ count ih =>
    have addressable := state.addressable
    have unwrapped : (page + offset) % wordSize = page + offset := by
      apply Nat.mod_eq_of_lt
      unfold wordSize
      omega
    simp only [releaseRun, unwrapped]
    rw [ih _ _ (by rw [release_totalPages]; omega), bitmapGet_release, ← Bool.and_assoc,
      ← Bool.not_or, ← Bool.decide_or]
    congr 2
    apply decide_eq_decide.mpr
    omega

theorem Owned.take (owned : Owned state held) (start count : Nat) (positive : 0 < count)
    (inside : start + count ≤ state.totalPages)
    (clear : ∀ page, start ≤ page → page < start + count →
      bitmapGet state.bitmap page = false) :
    Owned (state.take start count) (⟨start * pageSize, count⟩ :: held) := by
  have startPositive : 0 < start := by
    by_contra zero
    have atZero := clear 0 (by omega) (by omega)
    rw [owned.zeroUsed] at atZero
    cases atZero
  have fresh : ∀ block ∈ held, Block.Apart ⟨start * pageSize, count⟩ block := by
    intro block member page covered other
    rw [Block.covers_mul] at covered
    have usedPage := owned.used block member page other
    rw [clear page covered.1 covered.2] at usedPage
    cases usedPage
  refine
    { counted := freePages_take state start count owned.counted inside clear
      zeroUsed := ?_
      inside := ?_
      used := ?_
      positive := ?_
      aligned := ?_
      nonempty := ?_
      apart := pairwise_cons.mpr ⟨fresh, owned.apart⟩ }
  · rw [take_bitmap, bitmapGet_bitmapSetRun, owned.zeroUsed, Bool.or_true]
  · intro block member page covered
    rcases mem_cons.mp member with rfl | old
    · rw [Block.covers_mul] at covered
      rw [take_totalPages]
      omega
    · exact owned.inside block old page covered
  · intro block member page covered
    rw [take_bitmap, bitmapGet_bitmapSetRun]
    rcases mem_cons.mp member with rfl | old
    · rw [Block.covers_mul] at covered
      rw [decide_eq_true covered, Bool.true_or]
    · rw [owned.used block old page covered, Bool.or_true]
  · intro block member
    rcases mem_cons.mp member with rfl | old
    · rw [Block.firstPage_mul]
      exact startPositive
    · exact owned.positive block old
  · intro block member
    rcases mem_cons.mp member with rfl | old
    · exact Nat.mul_mod_left start pageSize
    · exact owned.aligned block old
  · intro block member
    rcases mem_cons.mp member with rfl | old
    · exact positive
    · exact owned.nonempty block old

theorem Owned.allocPages (owned : Owned state held) (count : Nat) :
    (Pmm.allocPages state count = (0, state)) ∨
    ∃ phys after, Pmm.allocPages state count = (phys, after) ∧ phys ≠ 0 ∧
      Owned after (⟨phys, count⟩ :: held) := by
  rcases allocPages_cases state count with failed | ⟨page, positive, inside, clear, took⟩
  · exact .inl failed
  · have next := owned.take page count positive inside clear
    have pagePositive := next.positive _ (.head _)
    refine .inr ⟨page * pageSize, state.take page count, took, ?_, next⟩
    intro zero
    rw [zero] at pagePositive
    simp [Block.firstPage] at pagePositive

theorem allocPages_one (state : State) : Pmm.allocPages state 1 = allocPage state := rfl

theorem Owned.bitmapGet_freePages (owned : Owned state held) (block : Block) (member : block ∈ held)
    (other : Nat) : bitmapGet (Pmm.freePages state block.phys block.pages).bitmap other =
      (!decide (block.Covers other) && bitmapGet state.bitmap other) := by
  have runInside : block.firstPage + 0 + block.pages ≤ state.totalPages := by
    have nonempty := owned.nonempty block member
    have last := owned.inside block member (block.firstPage + block.pages - 1)
      ⟨by omega, by omega⟩
    omega
  exact bitmapGet_releaseRun state block.firstPage 0 block.pages other runInside

theorem Owned.freePages (owned : Owned state held) (block : Block) (member : block ∈ held) :
    Owned (Pmm.freePages state block.phys block.pages) (held.erase block) := by
  have bits := owned.bitmapGet_freePages block member
  have total : (Pmm.freePages state block.phys block.pages).totalPages = state.totalPages :=
    releaseRun_totalPages state _ 0 block.pages
  have order : held.Perm (block :: held.erase block) := perm_cons_erase member
  have apartAll : (block :: held.erase block).Pairwise Block.Apart :=
    (order.pairwise_iff Block.Apart.symm).mp owned.apart
  have keeps : ∀ other ∈ held.erase block, other ∈ held :=
    fun _ later => mem_of_mem_erase later
  refine
    { counted := releaseRun_freePages state _ 0 block.pages owned.counted
      zeroUsed := ?_
      inside := ?_
      used := ?_
      positive := fun other later => owned.positive other (keeps other later)
      aligned := fun other later => owned.aligned other (keeps other later)
      nonempty := fun other later => owned.nonempty other (keeps other later)
      apart := (pairwise_cons.mp apartAll).2 }
  · have outside : ¬block.Covers 0 := by
      have positive := owned.positive block member
      unfold Block.Covers
      omega
    rw [bits, owned.zeroUsed, decide_eq_false outside]
    rfl
  · intro other later page covered
    rw [total]
    exact owned.inside other (keeps other later) page covered
  · intro other later page covered
    have elsewhere : ¬block.Covers page :=
      (pairwise_cons.mp apartAll).1 other later |>.symm page covered
    rw [bits, owned.used other (keeps other later) page covered, decide_eq_false elsewhere]
    rfl

theorem Owned.freePage_eq (owned : Owned state held) (phys : Nat) (member : ⟨phys, 1⟩ ∈ held) :
    Pmm.freePages state phys 1 = freePage state phys := by
  have inside : phys / pageSize < state.totalPages :=
    owned.inside _ member _ (Block.covers_first _ one_pos)
  have small : phys / pageSize < wordSize :=
    lt_of_lt_of_le inside (le_trans state.addressable (by decide))
  simp only [Pmm.freePages, releaseRun, add_zero, Nat.mod_eq_of_lt small, freePage]

theorem Owned.initial (state : State) (counted : state.freePages = clearPages state)
    (zeroUsed : bitmapGet state.bitmap 0 = true) : Owned state [] :=
  { counted := counted
    zeroUsed := zeroUsed
    inside := by intro block member; cases member
    used := by intro block member; cases member
    positive := by intro block member; cases member
    aligned := by intro block member; cases member
    nonempty := by intro block member; cases member
    apart := List.Pairwise.nil }

/-! ### Runs -/

/-- The allocator with the blocks its callers hold. -/
structure Holdings where
  pmm : State
  held : List Block

/-- A returned address becomes a held block unless it reports failure. -/
def Holdings.gained (holdings : Holdings) (result : Nat × State) (count : Nat) : Holdings :=
  { pmm := result.2
    held := if result.1 = 0 then holdings.held else ⟨result.1, count⟩ :: holdings.held }

/-- One call by a caller that frees only what it holds, with its original page
count. -/
inductive Call : Holdings → Holdings → Prop
  | allocPage (holdings : Holdings) :
      Call holdings (holdings.gained (Pmm.allocPage holdings.pmm) 1)
  | allocPages (holdings : Holdings) (count : Nat) :
      Call holdings (holdings.gained (Pmm.allocPages holdings.pmm count) count)
  | freePage (holdings : Holdings) (phys : Nat) (member : ⟨phys, 1⟩ ∈ holdings.held) :
      Call holdings ⟨Pmm.freePage holdings.pmm phys, holdings.held.erase ⟨phys, 1⟩⟩
  | freePages (holdings : Holdings) (block : Block) (member : block ∈ holdings.held) :
      Call holdings
        ⟨Pmm.freePages holdings.pmm block.phys block.pages, holdings.held.erase block⟩

variable {holdings first second : Holdings}

theorem Owned.gained (owned : Owned holdings.pmm holdings.held) (count : Nat) :
    Owned (holdings.gained (Pmm.allocPages holdings.pmm count) count).pmm
      (holdings.gained (Pmm.allocPages holdings.pmm count) count).held := by
  rcases owned.allocPages count with failed | ⟨phys, after, took, nonzero, next⟩
  · rw [failed]
    exact owned
  · rw [took]
    simpa only [Holdings.gained, if_neg nonzero] using next

theorem Call.owned (call : Call first second) (owned : Owned first.pmm first.held) :
    Owned second.pmm second.held := by
  cases call with
  | allocPage => exact owned.gained 1
  | allocPages count => exact owned.gained count
  | freePage phys member =>
    rw [← owned.freePage_eq phys member]
    exact owned.freePages ⟨phys, 1⟩ member
  | freePages block member => exact owned.freePages block member

/-- Every finite sequence of calls keeps the counter equal to the number of
clear bits, keeps the pages of every held block marked and inside the machine,
and never hands out a frame twice. -/
theorem run_keeps_ownership (start finish : Holdings)
    (counted : start.pmm.freePages = clearPages start.pmm)
    (zeroUsed : bitmapGet start.pmm.bitmap 0 = true)
    (nothing : start.held = [])
    (calls : Relation.ReflTransGen Call start finish) :
    finish.pmm.freePages = clearPages finish.pmm ∧
      (∀ block, block ∈ finish.held → ∀ page, block.Covers page →
        bitmapGet finish.pmm.bitmap page = true ∧ page < finish.pmm.totalPages) ∧
      finish.held.Pairwise Block.Apart := by
  have initial : Owned start.pmm start.held := by
    rw [nothing]
    exact Owned.initial start.pmm counted zeroUsed
  have final : Owned finish.pmm finish.held := by
    induction calls with
    | refl => exact initial
    | tail _ call ih => exact call.owned ih
  refine ⟨final.counted, ?_, final.apart⟩
  intro block member page covered
  exact ⟨final.used block member page covered, final.inside block member page covered⟩

/-! ### Frames out of reach -/

/-- The given frames are marked and no held block covers one of them.  Frame zero
is apart: its address reports a failure, so no block starts there. -/
structure Shielded (frames : Nat → Prop) (holdings : Holdings) : Prop where
  marked : ∀ page, frames page → 0 < page → page < holdings.pmm.totalPages →
    bitmapGet holdings.pmm.bitmap page = true
  positive : ∀ block, block ∈ holdings.held → 0 < block.firstPage
  inside : ∀ block, block ∈ holdings.held →
    block.firstPage + block.pages ≤ holdings.pmm.totalPages
  held : ∀ block, block ∈ holdings.held → ∀ page, block.Covers page → ¬frames page

theorem Shielded.gained (shielded : Shielded frames holdings) (count : Nat) :
    Shielded frames (holdings.gained (Pmm.allocPages holdings.pmm count) count) := by
  rcases allocPages_cases holdings.pmm count with failed | ⟨start, _, inside, clear, took⟩
  · rw [failed]
    exact ⟨shielded.marked, shielded.positive, shielded.inside, shielded.held⟩
  · rw [took]
    have marked : ∀ page, frames page → 0 < page → page < holdings.pmm.totalPages →
        bitmapGet (bitmapSetRun holdings.pmm.bitmap start count) page = true := by
      intro page framed positive below
      rw [bitmapGet_bitmapSetRun, shielded.marked page framed positive below, Bool.or_true]
    by_cases null : start * pageSize = 0
    · have same : (holdings.gained (start * pageSize, holdings.pmm.take start count) count).held =
          holdings.held := if_pos null
      refine ⟨marked, ?_, ?_, ?_⟩
      · rw [same]
        exact shielded.positive
      · rw [same]
        exact shielded.inside
      · rw [same]
        exact shielded.held
    · have startPositive : 0 < start := by
        unfold pageSize at null
        omega
      have member : ∀ block,
          block ∈ (holdings.gained (start * pageSize, holdings.pmm.take start count) count).held →
            block = ⟨start * pageSize, count⟩ ∨ block ∈ holdings.held := by
        intro block present
        simp only [Holdings.gained, if_neg null] at present
        exact mem_cons.mp present
      refine ⟨marked, ?_, ?_, ?_⟩
      · intro block present
        rcases member block present with rfl | old
        · rw [Block.firstPage_mul]
          exact startPositive
        · exact shielded.positive block old
      · intro block present
        rcases member block present with rfl | old
        · rw [Block.firstPage_mul]
          exact inside
        · exact shielded.inside block old
      · intro block present page covered framed
        rcases member block present with rfl | old
        · rw [Block.covers_mul] at covered
          have used := shielded.marked page framed (by omega) (by omega)
          rw [clear page covered.1 covered.2] at used
          cases used
        · exact shielded.held block old page covered framed

private theorem Shielded.returned (shielded : Shielded frames holdings) (block : Block)
    (member : block ∈ holdings.held) (after : State)
    (total : after.totalPages = holdings.pmm.totalPages)
    (bits : ∀ page, bitmapGet after.bitmap page =
      (!decide (block.Covers page) && bitmapGet holdings.pmm.bitmap page)) :
    Shielded frames ⟨after, holdings.held.erase block⟩ := by
  refine ⟨?_, ?_, ?_, ?_⟩
  · intro page framed positive below
    rw [total] at below
    have outside : ¬block.Covers page := fun covered =>
      shielded.held block member page covered framed
    rw [bits, shielded.marked page framed positive below, decide_eq_false outside]
    rfl
  · intro other later
    exact shielded.positive other (mem_of_mem_erase later)
  · intro other later
    rw [total]
    exact shielded.inside other (mem_of_mem_erase later)
  · intro other later
    exact shielded.held other (mem_of_mem_erase later)

theorem Shielded.call (shielded : Shielded frames first) (call : Call first second) :
    Shielded frames second := by
  cases call with
  | allocPage => exact shielded.gained 1
  | allocPages count => exact shielded.gained count
  | freePage phys member =>
    refine shielded.returned _ member (Pmm.freePage first.pmm phys) (release_totalPages _ _) ?_
    intro page
    have inside := shielded.inside _ member
    have covers : Block.Covers ⟨phys, 1⟩ page ↔
        page = phys / pageSize ∧ phys / pageSize < first.pmm.totalPages := by
      unfold Block.Covers
      unfold Block.firstPage at *
      simp only at inside ⊢
      omega
    rw [Pmm.freePage, bitmapGet_release]
    simp only [covers]
  | freePages block member =>
    refine shielded.returned _ member (Pmm.freePages first.pmm block.phys block.pages)
      (releaseRun_totalPages _ _ _ _) ?_
    intro page
    rw [Pmm.freePages, bitmapGet_releaseRun _ _ _ _ _ (shielded.inside block member)]
    rfl

theorem Shielded.run {start finish : Holdings} (shielded : Shielded frames start)
    (calls : Relation.ReflTransGen Call start finish) : Shielded frames finish := by
  induction calls with
  | refl => exact shielded
  | tail _ call ih => exact ih.call call

/-- Eight pages, of which only page zero is in use. -/
def smallState : State :=
  { bitmap := fun _ => 1
    totalPages := 8
    freePages := 7
    addressable := eight_addressable }

/-- Two blocks are taken and the first is returned. -/
theorem run_keeps_ownership_small :
    let first : Holdings := ⟨smallState, []⟩
    let second := first.gained (allocPages first.pmm 2) 2
    let third := second.gained (allocPage second.pmm) 1
    let finish : Holdings := ⟨freePages third.pmm 4096 2, third.held.erase ⟨4096, 2⟩⟩
    finish.held = [⟨12288, 1⟩] ∧
      finish.pmm.freePages = clearPages finish.pmm ∧
      (∀ block, block ∈ finish.held → ∀ page, block.Covers page →
        bitmapGet finish.pmm.bitmap page = true ∧ page < finish.pmm.totalPages) ∧
      finish.held.Pairwise Block.Apart := by
  intro first second third finish
  refine ⟨by decide, ?_⟩
  apply run_keeps_ownership first finish (by decide) (by decide) rfl
  have returned : Call third finish := Call.freePages third ⟨4096, 2⟩ (by decide)
  exact ((Relation.ReflTransGen.single (Call.allocPages first 2)).tail
    (Call.allocPage second)).tail returned

end Synx.Pmm
