/-
Byte-addressed memory.
-/

import Mathlib.Tactic
import Mathlib.Data.Nat.Bitwise

namespace Lib

open List

abbrev Memory := Nat → UInt8

namespace Memory

/-- The little-endian number in the `count` bytes from `address`. -/
def readNumber (memory : Memory) (address : Nat) : Nat → Nat
  | 0 => 0
  | count + 1 =>
    (memory address).toNat + 256 * readNumber memory (address + 1) count

/-- The `count` low bytes of a number, least significant first. -/
def numberBytes (value : Nat) : Nat → List UInt8
  | 0 => []
  | count + 1 => UInt8.ofNat value :: numberBytes (value / 256) count

def readWord (memory : Memory) (address : Nat) : Nat :=
  readNumber memory address 8

/-- The bytes of a half-open address range. -/
def readBytes (memory : Memory) (address count : Nat) : List UInt8 :=
  (range count).map (fun index => memory (address + index))

def writeBytes (memory : Memory) (address : Nat) (bytes : List UInt8) : Memory :=
  fun target =>
    if address ≤ target then
      bytes.getD (target - address) (memory target)
    else memory target

def writeWord (memory : Memory) (address value : Nat) : Memory :=
  writeBytes memory address (numberBytes value 8)

def fill (memory : Memory) (address count : Nat) (value : UInt8) : Memory :=
  fun target =>
    if address ≤ target ∧ target < address + count then value else memory target

/-! ### Bytes of a number -/

@[simp]
theorem numberBytes_length (value count : Nat) : (numberBytes value count).length = count := by
  induction count generalizing value with
  | zero => rfl
  | succ count ih => simp only [numberBytes, length_cons, ih]

@[simp]
theorem readBytes_length (memory : Memory) (address count : Nat) :
    (readBytes memory address count).length = count := by
  simp only [readBytes, length_map, length_range]

theorem readBytes_add (memory : Memory) (address first second : Nat) :
    readBytes memory address (first + second) =
      readBytes memory address first ++ readBytes memory (address + first) second := by
  simp only [readBytes, range_add, map_append, map_map, Function.comp_def, add_assoc]

theorem readNumber_lt (memory : Memory) (address count : Nat) :
    readNumber memory address count < 256 ^ count := by
  induction count generalizing address with
  | zero => simp only [readNumber, Nat.pow_zero, zero_lt_one]
  | succ count ih =>
    have rest := ih (address + 1)
    have first := (memory address).toNat_lt
    simp only [readNumber, Nat.pow_succ]
    omega

theorem readWord_lt (memory : Memory) (address : Nat) : readWord memory address < 2 ^ 64 := by
  have bound := readNumber_lt memory address 8
  unfold readWord
  omega

/-- A number read depends only on the bytes of its own range. -/
theorem readNumber_congr (left right : Memory) (address count : Nat) (same : ∀ offset < count,
      left (address + offset) = right (address + offset)) :
    readNumber left address count = readNumber right address count := by
  induction count generalizing address with
  | zero => rfl
  | succ count ih =>
    have first := same 0 (Nat.succ_pos count)
    have rest : readNumber left (address + 1) count =
        readNumber right (address + 1) count := by
      apply ih
      intro offset bound
      have shifted := same (offset + 1) (by omega)
      rw [show address + 1 + offset = address + (offset + 1) by omega]
      exact shifted
    simp only [add_zero] at first
    simp only [readNumber, first, rest]

theorem readWord_congr (left right : Memory) (address : Nat) (same : ∀ offset < 8,
      left (address + offset) = right (address + offset)) :
    readWord left address = readWord right address :=
  readNumber_congr left right address 8 same

/-- Reading back a number whose bytes stand at the address. -/
theorem readNumber_of_bytes (memory : Memory) (address value count : Nat)
    (present : ∀ offset < count,
      memory (address + offset) = (numberBytes value count).getD offset 0) :
    readNumber memory address count = value % 256 ^ count := by
  induction count generalizing address value with
  | zero => simp only [readNumber, Nat.pow_zero, Nat.mod_one]
  | succ count ih =>
    have first : memory address = UInt8.ofNat value := by
      have head := present 0 (Nat.succ_pos count)
      simpa only [add_zero, numberBytes, getD_cons_zero] using head
    have rest : readNumber memory (address + 1) count =
        value / 256 % 256 ^ count := by
      apply ih
      intro offset bound
      have tail := present (offset + 1) (by omega)
      rw [show address + 1 + offset = address + (offset + 1) by omega, tail]
      simp only [numberBytes, getD_cons_succ]
    have byteValue : (UInt8.ofNat value).toNat = value % 256 := by
      simp only [UInt8.toNat_ofNat']
    simp only [readNumber, first, rest, byteValue, Nat.pow_succ]
    rw [mul_comm (256 ^ count) 256, Nat.mod_mul]

theorem numberBytes_readNumber (memory : Memory) (address count : Nat) :
    numberBytes (readNumber memory address count) count = readBytes memory address count := by
  induction count generalizing address with
  | zero => rfl
  | succ count ih =>
    have byte := (memory address).toNat_lt
    have low : UInt8.ofNat (readNumber memory address (count + 1)) = memory address := by
      apply UInt8.toNat_inj.mp
      rw [UInt8.toNat_ofNat', readNumber]
      omega
    have high : readNumber memory address (count + 1) / 256 =
        readNumber memory (address + 1) count := by
      rw [readNumber]
      omega
    rw [numberBytes, low, high, ih]
    simp only [readBytes, range_succ_eq_map, map_cons, map_map, add_zero]
    congr 1
    apply map_congr_left
    intro index _
    simp only [Function.comp_apply, add_assoc, add_comm 1]

/-! ### Range updates -/

theorem writeBytes_inside (memory : Memory) (address : Nat)
    (bytes : List UInt8) (offset : Nat) (inside : offset < bytes.length) :
    writeBytes memory address bytes (address + offset) = bytes[offset] := by
  have low : address ≤ address + offset := Nat.le_add_right address offset
  simp only [writeBytes, if_pos low, Nat.add_sub_cancel_left]
  exact getD_eq_getElem bytes _ inside

theorem readBytes_writeBytes (memory : Memory) (address : Nat) (bytes : List UInt8) :
    readBytes (writeBytes memory address bytes) address bytes.length = bytes := by
  refine ext_getElem (readBytes_length _ _ _) (fun index _ inside => ?_)
  simp only [readBytes, getElem_map, getElem_range]
  exact writeBytes_inside memory address bytes index inside

theorem writeBytes_outside (memory : Memory) (address : Nat) (bytes : List UInt8) (target : Nat)
    (outside : target < address ∨ address + bytes.length ≤ target) :
    writeBytes memory address bytes target = memory target := by
  unfold writeBytes
  rcases outside with below | above
  · rw [if_neg (Nat.not_le_of_lt below)]
  · have low : address ≤ target := by omega
    rw [if_pos low]
    exact getD_eq_default bytes _ (by omega)

theorem writeBytes_append (memory : Memory) (address : Nat) (first second : List UInt8) :
    writeBytes (writeBytes memory address first) (address + first.length) second =
      writeBytes memory address (first ++ second) := by
  funext target
  rcases Nat.lt_or_ge target address with below | above
  · rw [writeBytes_outside _ _ _ _ (by omega), writeBytes_outside _ _ _ _ (by omega),
      writeBytes_outside _ _ _ _ (by omega)]
  · obtain ⟨offset, rfl⟩ := Nat.exists_eq_add_of_le above
    rcases Nat.lt_or_ge offset first.length with early | late
    · rw [writeBytes_outside _ _ _ _ (by omega), writeBytes_inside _ _ _ _ early,
        writeBytes_inside _ _ _ _ (by rw [length_append]; omega), getElem_append_left early]
    · simp only [writeBytes]
      rw [if_pos (by omega), if_pos (by omega), if_pos (by omega), Nat.add_sub_cancel_left,
        getD_append_right _ _ _ _ late, getD_eq_default first _ late]
      congr 1
      omega

theorem writeWord_outside {memory : Memory} {address value target : Nat}
    (outside : target < address ∨ address + 8 ≤ target) :
    writeWord memory address value target = memory target := by
  apply writeBytes_outside
  simpa only [numberBytes_length] using outside

theorem fill_inside (memory : Memory) (address count : Nat) (value : UInt8)
    (target : Nat) (inside : address ≤ target ∧ target < address + count) :
    fill memory address count value target = value := by
  simp only [fill, if_pos inside]

theorem fill_outside (memory : Memory) (address count : Nat) (value : UInt8)
    (target : Nat) (outside : target < address ∨ address + count ≤ target) :
    fill memory address count value target = memory target := by
  have absent : ¬(address ≤ target ∧ target < address + count) := by omega
  simp only [fill, if_neg absent]

@[simp]
theorem readWord_writeWord (memory : Memory) (address value : Nat) :
    readWord (writeWord memory address value) address = value % 2 ^ 64 := by
  have stored : readNumber (writeWord memory address value) address 8 =
      value % 256 ^ 8 := by
    apply readNumber_of_bytes
    intro offset bound
    unfold writeWord
    rw [writeBytes_inside memory address _ offset (by simpa using bound)]
    exact (getD_eq_getElem _ _ (by simpa using bound)).symm
  exact stored

theorem readWord_writeWord_of_lt (memory : Memory) (address value : Nat) (small : value < 2 ^ 64) :
    readWord (writeWord memory address value) address = value := by
  rw [readWord_writeWord, Nat.mod_eq_of_lt small]

theorem readWord_writeWord_of_ne {memory : Memory} {address other value : Nat}
    (apart : other + 8 ≤ address ∨ address + 8 ≤ other) :
    readWord (writeWord memory address value) other = readWord memory other := by
  apply readWord_congr
  intro offset bound
  apply writeWord_outside
  omega

theorem readWord_fill_of_ne (memory : Memory) (address count : Nat) (value : UInt8) (other : Nat)
    (apart : other + 8 ≤ address ∨ address + count ≤ other) :
    readWord (fill memory address count value) other = readWord memory other := by
  apply readWord_congr
  intro offset bound
  apply fill_outside
  omega

/-- A word inside a zero-filled range is zero. -/
theorem readWord_fill_zero (memory : Memory) (address count other : Nat)
    (inside : address ≤ other ∧ other + 8 ≤ address + count) :
    readWord (fill memory address count 0) other = 0 := by
  unfold readWord
  rw [readNumber_of_bytes _ other 0 8]
  · rfl
  · intro offset bound
    rw [fill_inside memory address count 0 (other + offset) (by omega)]
    have zeros : numberBytes 0 8 = replicate 8 0 := by decide
    rw [zeros, getD_replicate]
    exact bound

end Memory
end Lib
