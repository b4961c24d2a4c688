/-
Reading a buffer item by item.  A cursor is the part of a buffer from a position on.
A read at its end has no value, so a loop that goes too far ends with `none`.
-/

import Synx.Lib.Buffer

namespace Lib.Cursor

variable {α : Type}

/-- The next items. -/
def copy : Nat → List α → Option (List α)
  | 0, _ => some []
  | _ + 1, [] => none
  | count + 1, item :: rest => (copy count rest).map (item :: ·)

theorem copy_eq {count : Nat} {cursor : List α} (enough : count ≤ cursor.length) :
    copy count cursor = some (cursor.take count) := by
  induction cursor generalizing count with
  | nil =>
    rw [Nat.le_zero.mp enough]
    rfl
  | cons item rest ih =>
    cases count with
    | zero => rfl
    | succ count =>
      rw [copy, ih (Nat.le_of_succ_le_succ enough)]
      rfl

variable [DecidableEq α]

/-- Whether the next items are the wanted ones; the first that is not ends the loop. -/
def agrees : List α → List α → Option Bool
  | _, [] => some true
  | [], _ :: _ => none
  | item :: rest, wanted :: more => if item = wanted then agrees rest more else some false

theorem agrees_eq {cursor wanted : List α} (enough : wanted.length ≤ cursor.length) :
    agrees cursor wanted = some (decide (cursor.take wanted.length = wanted)) := by
  induction wanted generalizing cursor with
  | nil => simp [agrees]
  | cons first more ih =>
    cases cursor with
    | nil => simp at enough
    | cons item rest =>
      rw [agrees]
      by_cases same : item = first
      · rw [if_pos same, ih (Nat.le_of_succ_le_succ enough), same]
        simp
      · rw [if_neg same]
        simp [same]

variable [Zero α]

/-- The items before the next zero. -/
def text : List α → Option (List α)
  | [] => none
  | item :: rest => if item = 0 then some [] else (text rest).map (item :: ·)

theorem text_append {name : List α} (nonzero : 0 ∉ name) (rest : List α) :
    text (name ++ 0 :: rest) = some name := by
  induction name with
  | nil => simp [text]
  | cons item name ih =>
    rw [List.mem_cons, not_or] at nonzero
    rw [List.cons_append, text, if_neg (fun isZero => nonzero.1 isZero.symm), ih nonzero.2]
    rfl

theorem text_none {cursor : List α} (nonzero : 0 ∉ cursor) : text cursor = none := by
  induction cursor with
  | nil => rfl
  | cons item rest ih =>
    rw [List.mem_cons, not_or] at nonzero
    rw [text, if_neg (fun isZero => nonzero.1 isZero.symm), ih nonzero.2]
    rfl

/-- The text before a zero ends with it. -/
theorem split_text {cursor : List α} (ends : 0 ∈ cursor) :
    0 ∉ cursor.takeWhile (· != 0) ∧ ∃ rest, cursor = cursor.takeWhile (· != 0) ++ 0 :: rest := by
  have found : Buffer.string cursor = some (cursor.takeWhile (· != 0)) :=
    if_pos (by simpa using ends)
  exact Buffer.eq_append_of_string found

/-- Whether the text is the wanted one. -/
def sameText : List α → List α → Option Bool
  | [], _ => none
  | item :: _, [] => some (decide (item = 0))
  | item :: rest, wanted :: more =>
    if item ≠ 0 ∧ item = wanted then sameText rest more else some false

theorem sameText_append {name wanted : List α} (nonzero : 0 ∉ name) (wantedNonzero : 0 ∉ wanted)
    (rest : List α) : sameText (name ++ 0 :: rest) wanted = some (decide (name = wanted)) := by
  induction name generalizing wanted with
  | nil =>
    cases wanted with
    | nil => simp [sameText]
    | cons first more => simp [sameText]
  | cons item name ih =>
    rw [List.mem_cons, not_or] at nonzero
    have some_ : item ≠ 0 := fun isZero => nonzero.1 isZero.symm
    cases wanted with
    | nil => simp [sameText, some_]
    | cons first more =>
      rw [List.mem_cons, not_or] at wantedNonzero
      rw [List.cons_append, sameText]
      by_cases same : item = first
      · rw [if_pos ⟨some_, same⟩, ih nonzero.2 wantedNonzero.2, same]
        simp
      · rw [if_neg (fun both => same both.2)]
        simp [same]

end Lib.Cursor
