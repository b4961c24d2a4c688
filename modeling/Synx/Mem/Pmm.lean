/-
The physical page allocator of `mem/kmemory.cpp`.
-/

import Synx.Lib.Memory

namespace Synx.Pmm

open Lib

def pageSize : Nat := 4096

def wordSize : Nat := 2 ^ 64

/-! ### The bitmap -/

def bitmapGet (bitmap : Memory) (bit : Nat) : Bool :=
  (bitmap (bit / 8) >>> UInt8.ofNat (bit % 8)) &&& 1 != 0

def bitmapSet (bitmap : Memory) (bit : Nat) : Memory := fun index =>
  if index = bit / 8 then bitmap index ||| (1 <<< UInt8.ofNat (bit % 8))
  else bitmap index

def bitmapClear (bitmap : Memory) (bit : Nat) : Memory := fun index =>
  if index = bit / 8 then bitmap index &&& ~~~(1 <<< UInt8.ofNat (bit % 8))
  else bitmap index

/-- The static variables of the allocator.  Every page has a 64-bit physical
address, so there are at most `2 ^ 52` of them. -/
structure State where
  bitmap : Memory
  totalPages : Nat
  freePages : Nat
  addressable : totalPages ≤ 2 ^ 52

theorem eight_addressable : 8 ≤ 2 ^ 52 := by decide

private theorem shifted_one (position : Nat) (small : position < 8) :
    ((1 : UInt8) <<< UInt8.ofNat position).toNat = 2 ^ position := by
  have positionValue : (UInt8.ofNat position).toNat = position := by
    rw [UInt8.toNat_ofNat']
    omega
  rw [UInt8.toNat_shiftLeft, positionValue, Nat.mod_eq_of_lt small, UInt8.toNat_one,
    Nat.shiftLeft_eq, one_mul]
  exact Nat.mod_eq_of_lt (Nat.pow_lt_pow_right (by decide) small)

theorem bitmapGet_eq_testBit (bitmap : Memory) (bit : Nat) :
    bitmapGet bitmap bit = (bitmap (bit / 8)).toNat.testBit (bit % 8) := by
  have small : bit % 8 < 8 := Nat.mod_lt bit (by decide)
  have positionValue : (UInt8.ofNat (bit % 8)).toNat = bit % 8 := by
    rw [UInt8.toNat_ofNat']
    omega
  have zeroIff : ((bitmap (bit / 8) >>> UInt8.ofNat (bit % 8)) &&& 1 = 0) ↔
      (bitmap (bit / 8)).toNat.testBit (bit % 8) = false := by
    rw [← UInt8.toNat_inj, UInt8.toNat_and, UInt8.toNat_shiftRight, positionValue,
      Nat.mod_eq_of_lt small, UInt8.toNat_one, UInt8.toNat_zero, Nat.and_one_is_mod,
      Nat.testBit_eq_decide_div_mod_eq, Nat.shiftRight_eq_div_pow, decide_eq_false_iff_not]
    omega
  unfold bitmapGet
  cases tested : (bitmap (bit / 8)).toNat.testBit (bit % 8) with
  | false => simpa using zeroIff.mpr tested
  | true =>
    have nonzero : ¬((bitmap (bit / 8) >>> UInt8.ofNat (bit % 8)) &&& 1 = 0) := by
      rw [zeroIff, tested]
      decide
    simpa using nonzero

private theorem same_bit_iff (bit other : Nat) (sameByte : other / 8 = bit / 8) :
    bit % 8 = other % 8 ↔ other = bit := by
  omega

theorem bitmapGet_bitmapSet (bitmap : Memory) (bit other : Nat) :
    bitmapGet (bitmapSet bitmap bit) other = (decide (other = bit) || bitmapGet bitmap other) := by
  have small : bit % 8 < 8 := Nat.mod_lt bit (by decide)
  rw [bitmapGet_eq_testBit, bitmapGet_eq_testBit]
  by_cases sameByte : other / 8 = bit / 8
  · simp only [bitmapSet, if_pos sameByte, UInt8.toNat_or, Nat.testBit_or,
      shifted_one _ small, Nat.testBit_two_pow, same_bit_iff bit other sameByte]
    exact Bool.or_comm _ _
  · have different : other ≠ bit := fun same => sameByte (by rw [same])
    simp only [bitmapSet, if_neg sameByte, different, decide_false, Bool.false_or]

private theorem testBit_complement (value position : Nat) (byte : UInt8)
    (masked : byte.toNat = 2 ^ position) (index : Nat) (small : index < 8) :
    (value &&& (~~~byte).toNat).testBit index =
      (!decide (position = index) && value.testBit index) := by
  have mask : (~~~byte).toNat = 2 ^ 8 - 1 - byte.toNat := by
    rw [UInt8.toNat_not]
    rfl
  have byteSmall : byte.toNat < 2 ^ 8 := byte.toNat_lt
  have complement : 2 ^ 8 - 1 - byte.toNat = 2 ^ 8 - (byte.toNat + 1) := by omega
  rw [mask, complement, Nat.testBit_and, Nat.testBit_two_pow_sub_succ byteSmall, masked,
    Nat.testBit_two_pow]
  simp only [small, decide_true, Bool.true_and]
  exact Bool.and_comm _ _

theorem bitmapGet_bitmapClear (bitmap : Memory) (bit other : Nat) :
    bitmapGet (bitmapClear bitmap bit) other =
      (!decide (other = bit) && bitmapGet bitmap other) := by
  have small : bit % 8 < 8 := Nat.mod_lt bit (by decide)
  rw [bitmapGet_eq_testBit, bitmapGet_eq_testBit]
  by_cases sameByte : other / 8 = bit / 8
  · simp only [bitmapClear, if_pos sameByte, UInt8.toNat_and]
    rw [testBit_complement _ (bit % 8) _ (shifted_one _ small) (other % 8)
      (Nat.mod_lt other (by decide))]
    simp only [same_bit_iff bit other sameByte]
  · have different : other ≠ bit := fun same => sameByte (by rw [same])
    simp only [bitmapClear, if_neg sameByte, different, decide_false, Bool.not_false, Bool.true_and]

/-! ### Allocation and release -/

/-- The first clear bit among the `count` bits from `bit`. -/
def findClear (bitmap : Memory) : Nat → Nat → Option Nat
  | _, 0 => none
  | bit, count + 1 =>
    if bitmapGet bitmap bit then findClear bitmap (bit + 1) count else some bit

/-- Sets the `count` bits from `bit`, in ascending order. -/
def bitmapSetRun (bitmap : Memory) : Nat → Nat → Memory
  | _, 0 => bitmap
  | bit, count + 1 => bitmapSetRun (bitmapSet bitmap bit) (bit + 1) count

/-- Marks `count` pages from `start` as used and takes them off the counter,
which wraps below zero as a `size_t` does. -/
def State.take (state : State) (start count : Nat) : State :=
  { state with
    bitmap := bitmapSetRun state.bitmap start count
    freePages := (state.freePages + (wordSize - count % wordSize)) % wordSize }

def allocPage (state : State) : Nat × State :=
  match findClear state.bitmap 0 state.totalPages with
  | some page => (page * pageSize, state.take page 1)
  | none => (0, state)

/-- The scan of `allocPages` over the `remaining` pages from `page`.  The two
locals of the loop are the length of the current clear run and its start.  The
result holds the start and the last page of the run that was found. -/
def scanRun (bitmap : Memory) (count : Nat) : Nat → Nat → Nat → Nat → Option (Nat × Nat)
  | _, 0, _, _ => none
  | page, remaining + 1, consecutive, startPage =>
    if bitmapGet bitmap page then
      scanRun bitmap count (page + 1) remaining 0 startPage
    else
      let startPage := if consecutive = 0 then page else startPage
      if consecutive + 1 = count then some (startPage, page)
      else scanRun bitmap count (page + 1) remaining (consecutive + 1) startPage

def allocPages (state : State) (count : Nat) : Nat × State :=
  if count = 0 then (0, state)
  else if count = 1 then allocPage state
  else
    match scanRun state.bitmap count 0 state.totalPages 0 0 with
    | some (startPage, page) =>
      (startPage * pageSize,
        { state with
          bitmap := bitmapSetRun state.bitmap startPage (page + 1 - startPage)
          freePages := (state.freePages + (wordSize - count % wordSize)) % wordSize })
    | none => (0, state)

/-- The guarded release of one page, shared by both free functions. -/
def State.release (state : State) (page : Nat) : State :=
  if page < state.totalPages ∧ bitmapGet state.bitmap page = true then
    { state with
      bitmap := bitmapClear state.bitmap page
      freePages := (state.freePages + 1) % wordSize }
  else state

def freePage (state : State) (physAddr : Nat) : State :=
  state.release (physAddr / pageSize)

def releaseRun (state : State) (page : Nat) : Nat → Nat → State
  | _, 0 => state
  | offset, count + 1 =>
    releaseRun (state.release ((page + offset) % wordSize)) page (offset + 1) count

def freePages (state : State) (physAddr count : Nat) : State :=
  releaseRun state (physAddr / pageSize) 0 count

@[simp]
theorem take_totalPages (state : State) (start count : Nat) :
    (state.take start count).totalPages = state.totalPages := rfl

@[simp]
theorem take_bitmap (state : State) (start count : Nat) :
    (state.take start count).bitmap = bitmapSetRun state.bitmap start count := rfl

@[simp]
theorem release_totalPages (state : State) (page : Nat) :
    (state.release page).totalPages = state.totalPages := by
  unfold State.release
  split <;> rfl

theorem bitmapGet_bitmapSetRun (bitmap : Memory) (start count other : Nat) :
    bitmapGet (bitmapSetRun bitmap start count) other =
      (decide (start ≤ other ∧ other < start + count) || bitmapGet bitmap other) := by
  induction count generalizing bitmap start with
  | zero =>
    have outside : ¬(start ≤ other ∧ other < start + 0) := by omega
    simp only [bitmapSetRun, outside, decide_false, Bool.false_or]
  | succ count ih =>
    simp only [bitmapSetRun, ih, bitmapGet_bitmapSet]
    rw [← Bool.or_assoc]
    congr 1
    rw [← Bool.decide_or]
    apply decide_eq_decide.mpr
    omega

theorem bitmapGet_release (state : State) (page other : Nat) :
    bitmapGet (state.release page).bitmap other =
      (!decide (other = page ∧ page < state.totalPages) && bitmapGet state.bitmap other) := by
  unfold State.release
  split
  · rename_i guarded
    simp only [bitmapGet_bitmapClear, guarded.1, and_true]
  · rename_i skipped
    by_cases same : other = page
    · subst other
      by_cases inside : page < state.totalPages
      · have clear : bitmapGet state.bitmap page = false := by
          simpa [inside] using skipped
        simp only [clear, Bool.and_false]
      · simp only [inside, and_false, decide_false, Bool.not_false, Bool.true_and]
    · simp only [same, false_and, decide_false, Bool.not_false, Bool.true_and]

theorem findClear_eq_some (bitmap : Memory) (bit count page : Nat)
    (found : findClear bitmap bit count = some page) :
    bit ≤ page ∧ page < bit + count ∧ bitmapGet bitmap page = false := by
  induction count generalizing bit with
  | zero => cases found
  | succ count ih =>
    simp only [findClear] at found
    cases used : bitmapGet bitmap bit with
    | true =>
      rw [used, if_pos rfl] at found
      have later := ih (bit + 1) found
      exact ⟨by omega, by omega, later.2.2⟩
    | false =>
      rw [used] at found
      have same : bit = page := Option.some.inj found
      subst page
      exact ⟨Nat.le_refl bit, by omega, used⟩

theorem findClear_eq_none (bitmap : Memory) (bit count : Nat)
    (missing : findClear bitmap bit count = none) (page : Nat)
    (low : bit ≤ page) (high : page < bit + count) : bitmapGet bitmap page = true := by
  induction count generalizing bit with
  | zero => omega
  | succ count ih =>
    simp only [findClear] at missing
    cases used : bitmapGet bitmap bit with
    | false =>
      rw [used] at missing
      cases missing
    | true =>
      rw [used, if_pos rfl] at missing
      by_cases same : page = bit
      · rw [same]
        exact used
      · exact ih (bit + 1) missing (by omega) (by omega)

theorem scanRun_eq_some (bitmap : Memory) (count page remaining consecutive startPage : Nat)
    (found last : Nat)
    (scanned : scanRun bitmap count page remaining consecutive startPage = some (found, last))
    (starts : consecutive ≠ 0 → startPage + consecutive = page)
    (clear : ∀ other, page ≤ other + consecutive → other < page → bitmapGet bitmap other = false) :
    found + count = last + 1 ∧ last < page + remaining ∧
      ∀ other, found ≤ other → other < found + count → bitmapGet bitmap other = false := by
  induction remaining generalizing page consecutive startPage with
  | zero => cases scanned
  | succ remaining ih =>
    simp only [scanRun] at scanned
    cases used : bitmapGet bitmap page with
    | true =>
      rw [used, if_pos rfl] at scanned
      have rest := ih (page + 1) 0 startPage scanned (by omega) (by intro other; omega)
      exact ⟨rest.1, by omega, rest.2.2⟩
    | false =>
      rw [used] at scanned
      simp only [Bool.false_eq_true, if_false] at scanned
      have extended : ∀ other, page + 1 ≤ other + (consecutive + 1) → other < page + 1 →
          bitmapGet bitmap other = false := by
        intro other low high
        by_cases same : other = page
        · rw [same]
          exact used
        · exact clear other (by omega) (by omega)
      have begins : (if consecutive = 0 then page else startPage) + (consecutive + 1) =
          page + 1 := by
        split
        · omega
        · rename_i nonzero
          have := starts nonzero
          omega
      by_cases complete : consecutive + 1 = count
      · rw [if_pos complete] at scanned
        have same := Prod.mk.inj (Option.some.inj scanned)
        rw [same.1] at begins
        have atPage := same.2
        refine ⟨by omega, by omega, ?_⟩
        intro other low high
        exact extended other (by omega) (by omega)
      · rw [if_neg complete] at scanned
        have rest := ih (page + 1) (consecutive + 1) _ scanned (fun _ => begins) extended
        exact ⟨rest.1, by omega, rest.2.2⟩

theorem allocPage_cases (state : State) : (allocPage state = (0, state) ∧
      ∀ page < state.totalPages, bitmapGet state.bitmap page = true) ∨
    ∃ page < state.totalPages, bitmapGet state.bitmap page = false ∧
      allocPage state = (page * pageSize, state.take page 1) := by
  unfold allocPage
  cases found : findClear state.bitmap 0 state.totalPages with
  | none =>
    refine .inl ⟨rfl, ?_⟩
    intro page inside
    exact findClear_eq_none state.bitmap 0 state.totalPages found page (Nat.zero_le page)
      (by omega)
  | some page =>
    have facts := findClear_eq_some state.bitmap 0 state.totalPages page found
    exact .inr ⟨page, by omega, facts.2.2, rfl⟩

theorem allocPages_cases (state : State) (count : Nat) : allocPages state count = (0, state) ∨
    ∃ page, 0 < count ∧ page + count ≤ state.totalPages ∧
      (∀ other, page ≤ other → other < page + count → bitmapGet state.bitmap other = false) ∧
      allocPages state count = (page * pageSize, state.take page count) := by
  unfold allocPages
  by_cases none : count = 0
  · exact .inl (by rw [if_pos none])
  rw [if_neg none]
  by_cases single : count = 1
  · rw [if_pos single, single]
    rcases allocPage_cases state with ⟨failed, _⟩ | ⟨page, inside, clear, took⟩
    · exact .inl failed
    · refine .inr ⟨page, by omega, by omega, ?_, took⟩
      intro other low high
      have same : other = page := by omega
      rw [same]
      exact clear
  · rw [if_neg single]
    cases scanned : scanRun state.bitmap count 0 state.totalPages 0 0 with
    | none => exact .inl rfl
    | some run =>
      obtain ⟨page, last⟩ := run
      obtain ⟨length, inside, clear⟩ := scanRun_eq_some state.bitmap count 0
        state.totalPages 0 0 page last scanned (by omega) (by intro other; omega)
      have pages : last + 1 - page = count := by omega
      refine .inr ⟨page, by omega, by omega, clear, ?_⟩
      simp only [State.take, pages]

end Synx.Pmm
