/-
Comparing names (`klibc_string.cpp`, `d_lookup`).
-/

import Synx.Fs.OpenWalk

namespace Synx.Vfs

open Lib Program

/-- The result as the narrowed difference; `none` when a string has no terminator. -/
def strcmp : List UInt8 → List UInt8 → Option Nat
  | first :: s1, second :: s2 =>
    if first ≠ 0 ∧ first = second then strcmp s1 s2
    else some (((first.toNat : Int) - second.toNat) % 256).toNat
  | _, _ => none

theorem narrowed_eq_zero_iff (first second : UInt8) :
    (((first.toNat : Int) - second.toNat) % 256).toNat = 0 ↔ first = second := by
  have firstBelow := first.toNat_lt
  have secondBelow := second.toNat_lt
  rw [← UInt8.toNat_inj]
  omega

theorem strcmp_zero_iff {first second : List UInt8} (firstText : 0 ∉ first)
    (secondText : 0 ∉ second) (firstRest secondRest : List UInt8) :
    ∃ result, strcmp (first ++ 0 :: firstRest) (second ++ 0 :: secondRest) = some result ∧
      (result = 0 ↔ first = second) := by
  induction first generalizing second with
  | nil =>
    cases second with
    | nil => exact ⟨0, rfl, by simp⟩
    | cons byte second =>
      refine ⟨_, if_neg (fun same => same.1 rfl), ?_⟩
      rw [narrowed_eq_zero_iff]
      simp at secondText
      simp [secondText.1]
  | cons byte first ih =>
    simp only [List.mem_cons, not_or] at firstText
    cases second with
    | nil =>
      refine ⟨_, if_neg (fun same => firstText.1 same.2.symm), ?_⟩
      rw [narrowed_eq_zero_iff]
      simp [Ne.symm firstText.1]
    | cons other second =>
      simp only [List.mem_cons, not_or] at secondText
      by_cases same : byte = other
      · obtain ⟨result, compared, zero⟩ := ih firstText.2 secondText.2
        refine ⟨result, (if_pos ⟨Ne.symm firstText.1, same⟩).trans compared, ?_⟩
        rw [zero, List.cons.injEq]
        exact (and_iff_right same).symm
      · refine ⟨_, if_neg (fun both => same both.2), ?_⟩
        rw [narrowed_eq_zero_iff, List.cons.injEq]
        tauto

section Lookup

variable {τ : Type} {fs : Fs τ}

/-- The loop of `d_lookup`; the names are followed by their terminators. -/
def searchStrings (name : Name) : List Nat → Call τ (Option Nat)
  | [] => pure none
  | child :: rest => do
    let dentry ← dentryOf child
    if strcmp (dentry.name ++ [0]) (name ++ [0]) = some 0 then pure (some child)
    else searchStrings name rest

def dLookupStrings (parent : Nat) (name : Name) : Call τ (Option Nat) := do
  let directory ← dentryOf parent
  searchStrings name directory.children

def Texts (vfs : State) (children : List Nat) : Prop :=
  ∀ child ∈ children, ∃ dentry, vfs.dentries child = some dentry ∧ 0 ∉ dentry.name

theorem run_searchStrings {name : Name} (text : 0 ∉ name) {children : List Nat}
    (texts : Texts fs.vfs children) :
    (searchStrings name children).run fs = (searchChildren name children).run fs := by
  induction children with
  | nil => rfl
  | cons child rest ih =>
    obtain ⟨dentry, found, named⟩ := texts child (.head _)
    obtain ⟨result, compared, zero⟩ := strcmp_zero_iff named text [] []
    have later := ih (fun other member => texts other (.tail child member))
    unfold searchStrings searchChildren
    rw [run_bind_ok (run_dentryOf found), run_bind_ok (run_dentryOf found), run_ite, run_ite, later]
    simp only [compared, Option.some_inj, zero]

end Lookup

/-- `strcmp` tells equal strings, so `d_lookup` finds the first child of the name, and null
exactly when there is none. -/
theorem dLookupStrings_first {τ : Type} (fs : Fs τ) {parent : Nat} {directory : Dentry}
    (live : fs.vfs.dentries parent = some directory) (texts : Texts fs.vfs directory.children)
    (name : Name) (text : 0 ∉ name) :
    let named := fun child => (fs.vfs.dentries child).map Dentry.name == some name
    (∀ first second firstRest secondRest : List UInt8, 0 ∉ first → 0 ∉ second →
        ∃ result, strcmp (first ++ 0 :: firstRest) (second ++ 0 :: secondRest) = some result ∧
          (result = 0 ↔ first = second)) ∧
      (dLookupStrings parent name).run fs = (.ok (directory.children.find? named), fs) ∧
      (directory.children.find? named = none ↔ ∀ child ∈ directory.children,
        named child = false) := by
  refine ⟨fun _ _ firstRest secondRest first second =>
    strcmp_zero_iff first second firstRest secondRest, ?_, ?_⟩
  · unfold dLookupStrings
    rw [run_bind_ok (run_dentryOf live), run_searchStrings text texts]
    refine run_searchChildren name _ (fun child member => ?_)
    obtain ⟨dentry, found, _⟩ := texts child member
    exact ⟨dentry, found⟩
  · rw [List.find?_eq_none]
    simp

theorem dLookupStrings_first_small :
    (dLookupStrings 0 [97]).run Ramfs.smallFs = (.ok (some 1), Ramfs.smallFs) := by
  have live : Ramfs.smallFs.vfs.dentries 0 = some ⟨0, [slash], some 0, none, [1], 1⟩ := rfl
  have texts : Texts Ramfs.smallFs.vfs [1] := by
    intro child member
    cases List.mem_singleton.mp member
    exact ⟨_, rfl, by decide⟩
  exact (dLookupStrings_first Ramfs.smallFs live texts [97] (by decide)).2.1

end Synx.Vfs
