/-
Which run of pages `pmm::allocPages` hands out.
-/

import Synx.Mem.PmmOwnership

namespace Synx.Pmm

open Lib

/-- `count` clear pages from `start` on, all of them below `total`. -/
structure ClearRun (bitmap : Memory) (total count start : Nat) : Prop where
  inside : start + count ≤ total
  clear : ∀ page, start ≤ page → page < start + count → bitmapGet bitmap page = false

/-- The clear run that no other run of the same length precedes. -/
structure LeftmostRun (bitmap : Memory) (total count start : Nat) : Prop where
  run : ClearRun bitmap total count start
  first : ∀ other, ClearRun bitmap total count other → start ≤ other

/-! ### The scan -/

theorem findClear_le (bitmap : Memory) (bit count page : Nat)
    (found : findClear bitmap bit count = some page) (other : Nat) (low : bit ≤ other)
    (clear : bitmapGet bitmap other = false) : page ≤ other := by
  induction count generalizing bit with
  | zero => cases found
  | succ count ih =>
    simp only [findClear] at found
    cases used : bitmapGet bitmap bit with
    | true =>
      rw [used, if_pos rfl] at found
      have different : other ≠ bit := by
        intro same
        rw [same, used] at clear
        cases clear
      exact ih (bit + 1) found (by omega)
    | false =>
      rw [used] at found
      have same : bit = page := Option.some.inj found
      omega

private theorem ClearRun.beyond {bitmap : Memory} {total count start page : Nat}
    (run : ClearRun bitmap total count start) (used : bitmapGet bitmap page = true) :
    start + count ≤ page ∨ page < start := by
  by_contra inside
  have clear := run.clear page (by omega) (by omega)
  rw [used] at clear
  cases clear

private theorem scanRun_first (bitmap : Memory)
    (total count page remaining consecutive startPage : Nat)
    (reached : page + remaining = total) (short : consecutive < count)
    (starts : consecutive ≠ 0 → startPage + consecutive = page)
    (earliest : ∀ start, ClearRun bitmap total count start → page ≤ start + consecutive) :
    match scanRun bitmap count page remaining consecutive startPage with
    | some (found, _) => ∀ start, ClearRun bitmap total count start → found ≤ start
    | none => ∀ start, ¬ClearRun bitmap total count start := by
  induction remaining generalizing page consecutive startPage with
  | zero =>
    intro start run
    have := earliest start run
    have := run.inside
    omega
  | succ remaining ih =>
    simp only [scanRun]
    cases used : bitmapGet bitmap page with
    | true =>
      rw [if_pos rfl]
      apply ih (page + 1) 0 startPage (by omega) (by omega) (by omega)
      intro start run
      have := earliest start run
      rcases run.beyond used with before | after
      · omega
      · omega
    | false =>
      simp only [Bool.false_eq_true, if_false]
      have begins : (if consecutive = 0 then page else startPage) + consecutive = page := by
        split
        · omega
        · rename_i nonzero
          exact starts nonzero
      by_cases complete : consecutive + 1 = count
      · rw [if_pos complete]
        intro start run
        have := earliest start run
        omega
      · rw [if_neg complete]
        apply ih (page + 1) (consecutive + 1) _ (by omega) (by omega) (by omega)
        intro start run
        have := earliest start run
        omega

theorem allocPages_leftmost (state : State) (count : Nat) (positive : 1 ≤ count) :
    (∃ start, LeftmostRun state.bitmap state.totalPages count start ∧
      allocPages state count = (start * pageSize, state.take start count)) ∨
    ((∀ start, ¬ClearRun state.bitmap state.totalPages count start) ∧
      allocPages state count = (0, state)) := by
  unfold allocPages
  rw [if_neg (by omega)]
  by_cases single : count = 1
  · subst count
    rw [if_pos rfl]
    unfold allocPage
    cases found : findClear state.bitmap 0 state.totalPages with
    | some page =>
      have facts := findClear_eq_some state.bitmap 0 state.totalPages page found
      refine .inl ⟨page, ⟨⟨by omega, ?_⟩, ?_⟩, rfl⟩
      · intro other low high
        have same : other = page := by omega
        rw [same]
        exact facts.2.2
      · intro other run
        exact findClear_le state.bitmap 0 state.totalPages page found other (Nat.zero_le other)
          (run.clear other (Nat.le_refl other) (by omega))
    | none =>
      refine .inr ⟨?_, rfl⟩
      intro start run
      have inside := run.inside
      have used := findClear_eq_none state.bitmap 0 state.totalPages found start
        (Nat.zero_le start) (by omega)
      rw [run.clear start (Nat.le_refl start) (by omega)] at used
      cases used
  · rw [if_neg single]
    have first := scanRun_first state.bitmap state.totalPages count 0 state.totalPages 0 0
      (by omega) (by omega) (by omega) (by intro start _; omega)
    cases scanned : scanRun state.bitmap count 0 state.totalPages 0 0 with
    | some run =>
      obtain ⟨start, last⟩ := run
      rw [scanned] at first
      obtain ⟨length, inside, clear⟩ := scanRun_eq_some state.bitmap count 0
        state.totalPages 0 0 start last scanned (by omega) (by intro other; omega)
      have pages : last + 1 - start = count := by omega
      refine .inl ⟨start, ⟨⟨by omega, clear⟩, first⟩, ?_⟩
      simp only [State.take, pages]
    | none =>
      rw [scanned] at first
      exact .inr ⟨first, rfl⟩

/-! ### Returning the run -/

theorem bitmap_ext {left right : Memory}
    (same : ∀ bit, bitmapGet left bit = bitmapGet right bit) : left = right := by
  funext index
  rw [← UInt8.toNat_inj]
  apply Nat.eq_of_testBit_eq
  intro position
  by_cases small : position < 8
  · have bit := same (8 * index + position)
    rw [bitmapGet_eq_testBit, bitmapGet_eq_testBit, show (8 * index + position) / 8 = index by
      omega, show (8 * index + position) % 8 = position by omega] at bit
    exact bit
  · have large : 2 ^ 8 ≤ 2 ^ position := Nat.pow_le_pow_right (by decide) (by omega)
    rw [Nat.testBit_lt_two_pow (lt_of_lt_of_le (left index).toNat_lt large),
      Nat.testBit_lt_two_pow (lt_of_lt_of_le (right index).toNat_lt large)]

theorem state_ext {left right : State} (bitmap : left.bitmap = right.bitmap)
    (total : left.totalPages = right.totalPages) (free : left.freePages = right.freePages) :
    left = right := by
  cases left
  cases right
  cases bitmap
  cases total
  cases free
  rfl

theorem releaseRun_counter (state : State) (page offset count : Nat)
    (inside : page + offset + count ≤ state.totalPages)
    (used : ∀ other, page + offset ≤ other → other < page + offset + count →
      bitmapGet state.bitmap other = true) (small : state.freePages < wordSize) :
    (releaseRun state page offset count).freePages = (state.freePages + count) % wordSize := by
  induction count generalizing state offset with
  | zero => exact (Nat.mod_eq_of_lt small).symm
  | succ count ih =>
    have addressable := state.addressable
    have unwrapped : (page + offset) % wordSize = page + offset := by
      apply Nat.mod_eq_of_lt
      unfold wordSize
      omega
    have guarded : page + offset < state.totalPages ∧
        bitmapGet state.bitmap (page + offset) = true :=
      ⟨by omega, used (page + offset) le_rfl (by omega)⟩
    have counted : (state.release (page + offset)).freePages =
        (state.freePages + 1) % wordSize := by
      rw [State.release, if_pos guarded]
    simp only [releaseRun, unwrapped]
    rw [ih _ _ (by rw [release_totalPages]; omega), counted, Nat.mod_add_mod]
    · congr 1
      omega
    · intro other low high
      rw [bitmapGet_release, used other (by omega) (by omega)]
      have different : ¬(other = page + offset ∧ page + offset < state.totalPages) := by omega
      rw [decide_eq_false different]
      rfl
    · rw [counted]
      exact Nat.mod_lt _ (by decide)

theorem freePages_take_eq (state : State) (start count : Nat)
    (run : ClearRun state.bitmap state.totalPages count start)
    (small : state.freePages < wordSize) :
    freePages (state.take start count) (start * pageSize) count = state := by
  have inside := run.inside
  have addressable := state.addressable
  have countSmall : count < wordSize := by
    unfold wordSize
    omega
  have taken : (state.take start count).freePages =
      (state.freePages + (wordSize - count)) % wordSize := by
    rw [State.take, Nat.mod_eq_of_lt countSmall]
  have bits : (freePages (state.take start count) (start * pageSize) count).bitmap =
      state.bitmap := by
    apply bitmap_ext
    intro other
    unfold freePages
    rw [Nat.mul_div_cancel start (by decide), bitmapGet_releaseRun _ _ _ _ _ inside, take_bitmap,
      bitmapGet_bitmapSetRun, add_zero]
    by_cases covered : start ≤ other ∧ other < start + count
    · rw [decide_eq_true covered, run.clear other covered.1 covered.2]
      rfl
    · rw [decide_eq_false covered]
      rfl
  have counter : (freePages (state.take start count) (start * pageSize) count).freePages =
      state.freePages := by
    unfold freePages
    rw [Nat.mul_div_cancel start (by decide), releaseRun_counter _ _ _ _ inside, taken,
      Nat.mod_add_mod]
    · rw [show state.freePages + (wordSize - count) + count = state.freePages + wordSize by omega,
        Nat.add_mod_right, Nat.mod_eq_of_lt small]
    · intro other low high
      rw [take_bitmap, bitmapGet_bitmapSetRun, decide_eq_true (by omega), Bool.true_or]
    · rw [taken]
      exact Nat.mod_lt _ (by decide)
  have total : (freePages (state.take start count) (start * pageSize) count).totalPages =
      state.totalPages := releaseRun_totalPages _ _ _ _
  exact state_ext bits total counter

theorem freePages_allocPages {state after : State} {count phys : Nat}
    (word : state.freePages < wordSize) (nonnull : phys ≠ 0)
    (took : allocPages state count = (phys, after)) :
    after ≠ state ∧ freePages after phys count = state := by
  rcases allocPages_cases state count with failed | ⟨start, positive, inside, clear, ran⟩
  · rw [failed] at took
    cases took
    exact absurd rfl nonnull
  · rw [ran] at took
    cases took
    refine ⟨?_, freePages_take_eq state start count ⟨inside, clear⟩ word⟩
    intro same
    have marked : bitmapGet (state.take start count).bitmap start = true := by
      rw [take_bitmap, bitmapGet_bitmapSetRun, decide_eq_true (by omega), Bool.true_or]
    rw [same, clear start (Nat.le_refl start) (by omega)] at marked
    cases marked

/-! ### First fit -/

/-- What a successful request of `count` pages did: it marked the pages from
`start` on, counted them and can be undone. -/
structure Granted (state : State) (count start : Nat) (result : Nat × State) : Prop where
  address : result.1 = start * pageSize
  nonnull : result.1 ≠ 0
  bits : ∀ page, bitmapGet result.2.bitmap page =
    (decide (start ≤ page ∧ page < start + count) || bitmapGet state.bitmap page)
  total : result.2.totalPages = state.totalPages
  counter : (result.2.freePages : Int) = (state.freePages - count) % wordSize
  lowered : count ≤ state.freePages → result.2.freePages = state.freePages - count
  undone : freePages result.2 result.1 count = state

/-- `allocPages` is a sound and complete first fit.  The counter is a 64-bit
word; where it holds at least `count` pages it goes down by `count`. -/
theorem allocPages_first_fit (state : State) (count : Nat) (positive : 1 ≤ count)
    (zeroUsed : bitmapGet state.bitmap 0 = true) (word : state.freePages < wordSize) :
    ((∃ start, ClearRun state.bitmap state.totalPages count start) →
      ∃ start, LeftmostRun state.bitmap state.totalPages count start ∧
        Granted state count start (allocPages state count)) ∧
    ((¬∃ start, ClearRun state.bitmap state.totalPages count start) →
      allocPages state count = (0, state)) := by
  rcases allocPages_leftmost state count positive with ⟨start, leftmost, took⟩ | ⟨missing, failed⟩
  · refine ⟨fun _ => ⟨start, leftmost, ?_⟩, fun absent => absurd ⟨start, leftmost.run⟩ absent⟩
    have inside := leftmost.run.inside
    have addressable := state.addressable
    have countSmall : count < wordSize := by
      unfold wordSize
      omega
    have startPositive : 0 < start := by
      rcases leftmost.run.beyond zeroUsed with before | after
      · omega
      · exact after
    have counter : (state.take start count).freePages =
        (state.freePages + (wordSize - count)) % wordSize := by
      rw [State.take, Nat.mod_eq_of_lt countSmall]
    rw [took]
    exact
      { address := rfl
        nonnull := Nat.mul_ne_zero (Nat.ne_of_gt startPositive) (by decide)
        bits := bitmapGet_bitmapSetRun state.bitmap start count
        total := rfl
        counter := by
          rw [counter]
          unfold wordSize at *
          omega
        lowered := by
          intro enough
          rw [counter]
          unfold wordSize at *
          omega
        undone := freePages_take_eq state start count leftmost.run word }
  · exact ⟨fun present => absurd present (not_exists.mpr missing), fun _ => failed⟩

/-- Pages 1 and 2 are too short a run for three pages when page 3 is in use. -/
theorem allocPages_first_fit_gap :
    let state : State := ⟨fun _ => 9, 8, 6, by decide⟩
    (∃ start, LeftmostRun state.bitmap state.totalPages 3 start ∧
        Granted state 3 start (allocPages state 3)) ∧
      (allocPages state 3).1 = 4 * pageSize ∧ allocPages state 5 = (0, state) := by
  intro state
  have found := allocPages_first_fit state 3 (by decide) (by decide) (by decide)
  have absent := allocPages_first_fit state 5 (by decide) (by decide) (by decide)
  refine ⟨found.1 ⟨4, by decide, ?_⟩, by decide, absent.2 ?_⟩
  · intro page low high
    have bound : page < 8 := by omega
    interval_cases page <;> decide
  · rintro ⟨start, run⟩
    have inside := run.inside
    have third : bitmapGet state.bitmap 3 = true := by decide
    have zero : bitmapGet state.bitmap 0 = true := by decide
    change start + 5 ≤ 8 at inside
    rcases run.beyond third with before | after
    · omega
    · omega

end Synx.Pmm
