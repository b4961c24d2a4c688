/-
Page-table entries of `mem/paging.h` and `proc/elf_exec.cpp`.
-/

import Synx.Lib.Memory

namespace Synx.Paging

open Lib

def ptePresent : Nat := 1
def pteWritable : Nat := 2
def pteUser : Nat := 4
def pteLarge : Nat := 2 ^ 7
def pteNx : Nat := 2 ^ 63

def pteAddressMask : Nat := 0x000FFFFFFFFFF000

def pageTableEntries : Nat := 512

/-- The test `entry & flag` of the source. -/
def flagged (entry flag : Nat) : Bool := entry &&& flag != 0

def pteAddress (entry : Nat) : Nat := entry &&& pteAddressMask

def entryAddress (table index : Nat) : Nat := table + 8 * index

def entryAt (mem : Memory) (table index : Nat) : Nat :=
  Memory.readWord mem (entryAddress table index)

/-! ### Flags -/

theorem flagged_two_pow (entry position : Nat) :
    flagged entry (2 ^ position) = entry.testBit position := by
  unfold flagged
  rw [Nat.and_two_pow]
  cases entry.testBit position <;> simp

theorem flagged_or (left right flag : Nat) :
    flagged (left ||| right) flag = (flagged left flag || flagged right flag) := by
  unfold flagged
  rw [Nat.and_or_distrib_right]
  apply Bool.eq_iff_iff.mpr
  simp only [bne_iff_ne, ne_eq, Nat.or_eq_zero_iff, Bool.or_eq_true]
  tauto

theorem pteAddress_or (left right : Nat) :
    pteAddress (left ||| right) = pteAddress left ||| pteAddress right := by
  unfold pteAddress
  exact Nat.and_or_distrib_right left right pteAddressMask

private theorem mask_testBit (position : Nat) :
    pteAddressMask.testBit position = decide (12 ≤ position ∧ position < 52) := by
  have shifted : pteAddressMask = (2 ^ 40 - 1) <<< 12 := by decide
  rw [shifted, Nat.testBit_shiftLeft, Nat.testBit_two_pow_sub_one, ← Bool.decide_and]
  apply decide_eq_decide.mpr
  omega

theorem pteAddress_eq (entry : Nat) : pteAddress entry = entry / 2 ^ 12 % 2 ^ 40 * 2 ^ 12 := by
  apply Nat.eq_of_testBit_eq
  intro position
  unfold pteAddress
  rw [Nat.testBit_and, mask_testBit, mul_comm, Nat.testBit_two_pow_mul,
    Nat.testBit_mod_two_pow, Nat.testBit_div_two_pow]
  by_cases low : 12 ≤ position
  · have index : position - 12 + 12 = position := by omega
    rw [index]
    by_cases high : position < 52
    · have inside : position - 12 < 40 := by omega
      simp [low, high, inside]
    · have outside : ¬position - 12 < 40 := by omega
      simp [high, outside]
  · simp [low]

theorem pteAddress_aligned (entry : Nat) : pteAddress entry % 4096 = 0 := by
  rw [pteAddress_eq]
  omega

theorem pteAddress_of_frame (phys : Nat) (aligned : phys % 4096 = 0) (small : phys < 2 ^ 52) :
    pteAddress phys = phys := by
  rw [pteAddress_eq]
  omega

theorem flagged_frame_low (phys position : Nat) (aligned : phys % 4096 = 0)
    (low : position < 12) : flagged phys (2 ^ position) = false := by
  rw [flagged_two_pow]
  have multiple : phys = phys / 2 ^ 12 * 2 ^ 12 := by omega
  rw [multiple, mul_comm, Nat.testBit_two_pow_mul, decide_eq_false (by omega), Bool.false_and]

theorem flagged_frame_high (phys position : Nat) (small : phys < 2 ^ 52)
    (high : 52 ≤ position) : flagged phys (2 ^ position) = false := by
  rw [flagged_two_pow]
  apply Nat.testBit_eq_false_of_lt
  exact lt_of_lt_of_le small (Nat.pow_le_pow_right (by decide) high)

theorem entryAt_lt (mem : Memory) (table index : Nat) : entryAt mem table index < 2 ^ 64 :=
  Memory.readWord_lt mem (entryAddress table index)

end Synx.Paging
