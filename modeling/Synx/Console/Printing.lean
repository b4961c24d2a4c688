/-
Integers on the kernel stream (`ostreamk.cpp`).
-/

import Mathlib.Tactic

namespace Synx.Kprint

open List

/-- The bases that the manipulators `dec` and `hex` set. -/
inductive Base where
  | dec
  | hex
  deriving DecidableEq

def Base.radix : Base → Nat
  | .dec => 10
  | .hex => 16

theorem Base.two_le (base : Base) : 2 ≤ base.radix := by
  cases base <;> decide

def digitChar (digit : Nat) : UInt8 :=
  if digit < 10 then UInt8.ofNat (48 + digit) else UInt8.ofNat (97 + digit - 10)

/-- The digits that the loop leaves in `tmp`, the last one first. -/
def tmpDigits (base : Base) (value : Int) : List UInt8 :=
  if 0 < value then
    digitChar (value % base.radix).toNat :: tmpDigits base (value / base.radix)
  else []
termination_by value.toNat
decreasing_by
  have two := base.two_le
  have smaller : value / base.radix < value :=
    Int.ediv_lt_self_of_pos_of_ne_one (by assumption) (by omega)
  omega

def uintToStr (base : Base) (value : Int) : List UInt8 :=
  if value = 0 then [48] else (tmpDigits base value).reverse

inductive Width where
  | w8
  | w16
  | w32
  | w64

def Width.bits : Width → Nat
  | .w8 => 8
  | .w16 => 16
  | .w32 => 32
  | .w64 => 64

/-- The size of the local buffer of the operators for this width. -/
def Width.buffer : Width → Nat
  | .w8 => 4
  | .w16 => 6
  | .w32 => 11
  | .w64 => 21

/-- The values of the signed and of the unsigned type. -/
def Width.Value (width : Width) : Type :=
  { value : Int // -2 ^ (width.bits - 1) ≤ value ∧ value < 2 ^ width.bits }

/-! ### Reading back -/

def digitValue (base : Base) (char : UInt8) : Option Nat :=
  let digit := if 48 ≤ char ∧ char ≤ 57 then some (char.toNat - 48)
    else if 97 ≤ char ∧ char ≤ 102 then some (char.toNat - 87) else none
  digit.filter (· < base.radix)

def readDigits (base : Base) (chars : List UInt8) : Option Nat :=
  chars.foldlM (fun number char => (digitValue base char).map (number * base.radix + ·)) 0

/-- The number that the characters denote, with an optional leading minus sign. -/
def readBack (base : Base) : List UInt8 → Option Int
  | [] => none
  | 45 :: digits =>
    if digits = [] then none else (readDigits base digits).map (fun number => -(number : Int))
  | digits => (readDigits base digits).map (fun number => (number : Int))

/-- The value is printed, inside the buffer, and reads back. -/
def ReadsBack (width : Width) (base : Base) (value : Int) : Prop :=
  uintToStr base value ≠ [] ∧ (uintToStr base value).length ≤ width.buffer ∧
    readBack base (uintToStr base value) = some value

theorem digitValue_digitChar (base : Base) {digit : Nat} (small : digit < base.radix) :
    digitValue base (digitChar digit) = some digit ∧ digitChar digit ≠ 45 := by
  have all : ∀ base : Bool, ∀ digit : Fin (if base then 10 else 16),
      let base := if base then Base.dec else .hex
      digitValue base (digitChar digit) = some digit.val ∧ digitChar digit ≠ 45 := by
    decide
  cases base with
  | dec => exact all true ⟨digit, small⟩
  | hex => exact all false ⟨digit, small⟩

theorem tmpDigits_succ (base : Base) {value : Nat} (positive : 0 < value) :
    tmpDigits base value =
      digitChar (value % base.radix) :: tmpDigits base (value / base.radix : Nat) := by
  rw [tmpDigits, if_pos (by omega)]
  rfl

theorem tmpDigits_zero (base : Base) : tmpDigits base (0 : Nat) = [] := by
  rw [tmpDigits]
  rfl

theorem readDigits_tmpDigits (base : Base) (value : Nat) :
    readDigits base (tmpDigits base value).reverse = some value := by
  have two := base.two_le
  induction value using Nat.strong_induction_on with
  | _ value ih =>
    rcases Nat.eq_zero_or_pos value with rfl | positive
    · rw [tmpDigits_zero]
      rfl
    · have last := (digitValue_digitChar base (Nat.mod_lt value (by omega))).1
      have front := ih (value / base.radix) (Nat.div_lt_self positive two)
      unfold readDigits at front ⊢
      rw [tmpDigits_succ base positive, reverse_cons, foldlM_append, front]
      simp only [foldlM_cons, foldlM_nil, last, Option.map_some, bind_pure, Option.bind_eq_bind,
        Option.bind_some]
      rw [Nat.div_add_mod']

theorem tmpDigits_length (base : Base) {value count : Nat} (small : value < base.radix ^ count) :
    (tmpDigits base value).length ≤ count := by
  have two := base.two_le
  induction count generalizing value with
  | zero =>
    rw [Nat.lt_one_iff.mp small, tmpDigits_zero]
    exact Nat.le_refl 0
  | succ count ih =>
    rcases Nat.eq_zero_or_pos value with rfl | positive
    · rw [tmpDigits_zero]
      exact zero_le
    · rw [tmpDigits_succ base positive, length_cons]
      refine Nat.succ_le_succ (ih ?_)
      rw [Nat.div_lt_iff_lt_mul (by omega)]
      exact small

theorem mem_tmpDigits (base : Base) (value : Nat) : (45 : UInt8) ∉ tmpDigits base value := by
  have two := base.two_le
  induction value using Nat.strong_induction_on with
  | _ value ih =>
    rcases Nat.eq_zero_or_pos value with rfl | positive
    · rw [tmpDigits_zero]
      exact not_mem_nil
    · have last := (digitValue_digitChar base (Nat.mod_lt value (by omega))).2
      rw [tmpDigits_succ base positive, mem_cons, not_or]
      exact ⟨last.symm, ih _ (Nat.div_lt_self positive two)⟩

theorem readBack_digits {base : Base} {chars : List UInt8} (some_ : chars ≠ [])
    (plain : 45 ∉ chars) :
    readBack base chars = (readDigits base chars).map (fun number => (number : Int)) := by
  unfold readBack
  split
  · exact absurd rfl some_
  · exact absurd (.head _) plain
  · rfl

theorem Width.value_lt (width : Width) (base : Base) :
    2 ^ width.bits ≤ base.radix ^ width.buffer := by
  cases width <;> cases base <;> decide

/-- A printed integer reads back exactly when it is not negative. -/
theorem readsBack_iff (width : Width) (base : Base) (value : width.Value) :
    ReadsBack width base value.val ↔ 0 ≤ value.val := by
  obtain ⟨value, _, below⟩ := value
  change ReadsBack width base value ↔ 0 ≤ value
  constructor
  · rintro ⟨printed, _⟩
    by_contra negative
    rw [uintToStr, if_neg (by omega), tmpDigits, if_neg (by omega)] at printed
    exact printed rfl
  · intro positive
    obtain ⟨value, rfl⟩ := Int.eq_ofNat_of_zero_le positive
    rcases Nat.eq_zero_or_pos value with rfl | positive
    · cases width <;> cases base <;> exact ⟨by decide, by decide, by decide⟩
    · have printed : uintToStr base value = (tmpDigits base value).reverse := if_neg (by omega)
      have some_ : uintToStr base value ≠ [] := by
        rw [printed, tmpDigits_succ base positive, reverse_cons]
        simp
      have small : value < base.radix ^ width.buffer :=
        lt_of_lt_of_le (by exact_mod_cast below) (width.value_lt base)
      refine ⟨some_, ?_, ?_⟩
      · rw [printed, length_reverse]
        exact tmpDigits_length base small
      · rw [readBack_digits some_ (by rw [printed, mem_reverse]; exact mem_tmpDigits base value),
          printed, readDigits_tmpDigits]
        rfl

/-- Of the error code -1 nothing is printed. -/
theorem uintToStr_negative : uintToStr .dec (-1) = [] ∧ ¬ReadsBack .w32 .dec (-1) := by
  have nothing : uintToStr .dec (-1) = [] := by
    rw [uintToStr, if_neg (by decide), tmpDigits, if_neg (by decide)]
    rfl
  exact ⟨nothing, fun reads => reads.1 nothing⟩

end Synx.Kprint
