/-
The symbol lookup of `kallsyms/kallsyms.cpp`: a binary search over the table that the
build generates from `nm -n`, with a fallback to the left neighbour.
-/

import Mathlib.Tactic

namespace Synx.Kallsyms

structure KSym where
  addr : Nat
  name : List UInt8
  deriving DecidableEq

/-- How the loop ends: at a symbol of exactly the address, or at an empty interval. -/
inductive Found (syms : List KSym)
  | hit (index : Fin syms.length)
  | gap (left : Nat) (inside : left ≤ syms.length)

/-- The loop over the half-open interval.  Every symbol that it reads is in the table. -/
def search (syms : List KSym) (addr left right : Nat) (ordered : left ≤ right)
    (inside : right ≤ syms.length) : Found syms :=
  if open_ : left < right then
    let mid := left + (right - left) / 2
    have below : mid < right := by omega
    let val := (syms.get ⟨mid, by omega⟩).addr
    if val = addr then .hit ⟨mid, by omega⟩
    else if val < addr then search syms addr (mid + 1) right (by omega) inside
    else search syms addr left mid (by omega) (by omega)
  else .gap left (by omega)
termination_by right - left

/-- The name and the offset, if `true` is returned. -/
def kallsymsLookup (syms : List KSym) (addr : Nat) : Option (List UInt8 × Nat) :=
  if syms.length = 0 then none
  else match search syms addr 0 syms.length zero_le le_rfl with
  | .hit index => some ((syms.get index).name, 0)
  | .gap left inside =>
    if positive : 0 < left then
      let sym := syms.get ⟨left - 1, by omega⟩
      if sym.addr ≤ addr then some (sym.name, addr - sym.addr) else none
    else none

section

variable {syms : List KSym} {addr : Nat}

/-- The symbols are in the order of their addresses. -/
def Sorted (syms : List KSym) : Prop := syms.Pairwise (fun left right => left.addr ≤ right.addr)

theorem Sorted.le (sorted : Sorted syms) {left right : Fin syms.length} (order : left ≤ right) :
    (syms.get left).addr ≤ (syms.get right).addr := by
  rcases Nat.lt_or_eq_of_le order with before | same
  · exact List.pairwise_iff_get.mp sorted left right before
  · rw [Fin.ext same]

def Located (syms : List KSym) (addr : Nat) : Found syms → Prop
  | .hit index => (syms.get index).addr = addr
  | .gap left _ => ∀ index : Fin syms.length,
      (index.val < left → (syms.get index).addr < addr) ∧
        (left ≤ index.val → addr < (syms.get index).addr)

-- below the interval all addresses are smaller, from its end on all are greater
theorem search_located (sorted : Sorted syms) (left right : Nat) (ordered : left ≤ right)
    (inside : right ≤ syms.length)
    (smaller : ∀ index : Fin syms.length, index.val < left → (syms.get index).addr < addr)
    (greater : ∀ index : Fin syms.length, right ≤ index.val → addr < (syms.get index).addr) :
    Located syms addr (search syms addr left right ordered inside) := by
  induction left, right, ordered, inside using search.induct syms addr with
  | case1 left right ordered inside open_ mid below val equal =>
    rw [search, dif_pos open_]
    simp only [mid, val] at equal
    simp only [equal, if_true]
    exact equal
  | case2 left right ordered inside open_ mid below val other less ih =>
    rw [search, dif_pos open_]
    simp only [mid, val] at other less
    simp only [other, less, if_true, if_false]
    refine ih ?_ greater
    intro index early
    have order : index ≤ ⟨mid, by omega⟩ := Nat.lt_succ_iff.mp early
    have bound := sorted.le order
    exact lt_of_le_of_lt bound less
  | case3 left right ordered inside open_ mid below val other more ih =>
    rw [search, dif_pos open_]
    simp only [mid, val] at other more
    simp only [other, more, if_false]
    refine ih smaller ?_
    intro index late
    have order : (⟨mid, by omega⟩ : Fin syms.length) ≤ index := late
    have bound := sorted.le order
    have strict := Nat.lt_of_le_of_ne (not_lt.mp more) (Ne.symm other)
    exact lt_of_lt_of_le strict bound
  | case4 left right ordered inside closed =>
    rw [search, dif_neg closed]
    intro index
    refine ⟨smaller index, ?_⟩
    intro late
    exact greater index (by omega)

/-- The last symbol that is not behind the address, and the distance to it. -/
def Encloses (syms : List KSym) (addr : Nat) (name : List UInt8) (offset : Nat) : Prop :=
  ∃ sym, sym ∈ syms ∧ sym.name = name ∧ sym.addr ≤ addr ∧ offset = addr - sym.addr ∧
    ∀ other, other ∈ syms → other.addr ≤ addr → other.addr ≤ sym.addr

theorem kallsymsLookup_cases (sorted : Sorted syms) :
    match kallsymsLookup syms addr with
    | none => ∀ sym ∈ syms, addr < sym.addr
    | some (name, offset) => Encloses syms addr name offset := by
  have located := @search_located syms addr sorted 0 syms.length zero_le le_rfl
    nofun (fun index late => absurd index.isLt (not_lt.mpr late))
  unfold kallsymsLookup
  by_cases empty : syms.length = 0
  · rw [if_pos empty, List.eq_nil_of_length_eq_zero empty]
    nofun
  rw [if_neg empty]
  cases found : search syms addr 0 syms.length zero_le le_rfl with
  | hit index =>
    rw [found] at located
    have equal : (syms.get index).addr = addr := located
    refine ⟨syms.get index, List.get_mem syms index, rfl, le_of_eq equal, ?_, ?_⟩
    · rw [equal, Nat.sub_self]
    · intro other _ low
      rw [equal]
      exact low
  | gap left inside =>
    rw [found] at located
    have around : ∀ index : Fin syms.length, _ := located
    simp only
    by_cases positive : 0 < left
    · rw [dif_pos positive]
      have last : left - 1 < syms.length := by omega
      have before := (around ⟨left - 1, last⟩).1 (Nat.sub_lt positive one_pos)
      rw [if_pos (le_of_lt before)]
      refine ⟨_, List.get_mem syms ⟨left - 1, last⟩, rfl, le_of_lt before, rfl, ?_⟩
      intro other member low
      obtain ⟨index, rfl⟩ := List.get_of_mem member
      have early : index.val < left := by
        by_contra late
        have beyond := (around index).2 (not_lt.mp late)
        omega
      exact sorted.le (show index ≤ ⟨left - 1, last⟩ from Nat.le_sub_one_of_lt early)
    · rw [dif_neg positive]
      intro sym member
      obtain ⟨index, rfl⟩ := List.get_of_mem member
      exact (around index).2 (by omega)

/-- The lookup fails exactly if no symbol is at or before the address, and otherwise it returns a
symbol of the greatest address that is. -/
theorem kallsymsLookup_encloses (syms : List KSym) (sorted : Sorted syms) (addr : Nat) :
    (kallsymsLookup syms addr = none ↔ ¬∃ sym, sym ∈ syms ∧ sym.addr ≤ addr) ∧
      ∀ name offset, kallsymsLookup syms addr = some (name, offset) →
        Encloses syms addr name offset := by
  have cases_ := @kallsymsLookup_cases syms addr sorted
  cases result : kallsymsLookup syms addr with
  | none =>
    rw [result] at cases_
    refine ⟨iff_of_true rfl ?_, nofun⟩
    rintro ⟨sym, member, low⟩
    have behind := cases_ sym member
    omega
  | some found =>
    obtain ⟨name, offset⟩ := found
    rw [result] at cases_
    have encloses : Encloses syms addr name offset := cases_
    constructor
    · obtain ⟨sym, member, _, low, _⟩ := encloses
      exact iff_of_false nofun (fun none_ => none_ ⟨sym, member, low⟩)
    · intro other distance same
      cases same
      exact encloses

end

theorem kallsymsLookup_encloses_repeated :
    ∃ name offset, kallsymsLookup [⟨16, [97]⟩, ⟨32, [98]⟩, ⟨32, [99]⟩, ⟨48, [100]⟩] 40 =
      some (name, offset) ∧
      Encloses [⟨16, [97]⟩, ⟨32, [98]⟩, ⟨32, [99]⟩, ⟨48, [100]⟩] 40 name offset := by
  have sorted : Sorted [⟨16, [97]⟩, ⟨32, [98]⟩, ⟨32, [99]⟩, ⟨48, [100]⟩] := by
    unfold Sorted
    decide
  obtain ⟨missing, encloses⟩ := kallsymsLookup_encloses _ sorted 40
  cases result : kallsymsLookup [⟨16, [97]⟩, ⟨32, [98]⟩, ⟨32, [99]⟩, ⟨48, [100]⟩] 40 with
  | none => exact absurd ⟨_, List.mem_cons_self, by decide⟩ (missing.mp result)
  | some found => exact ⟨found.1, found.2, rfl, encloses _ _ result⟩

end Synx.Kallsyms
