/-
Null-terminated linked lists.
-/

import Mathlib.Tactic

namespace Lib

open List

/-- From `head` the links pass `nodes` and end at null. -/
def Chain (next : Nat → Nat) : Nat → List Nat → Prop
  | head, [] => head = 0
  | head, node :: rest => head = node ∧ node ≠ 0 ∧ Chain next (next node) rest

/-- From `head` the links pass `nodes` and arrive at `last`. -/
def Stretch (next : Nat → Nat) : Nat → List Nat → Nat → Prop
  | head, [], last => head = last
  | head, node :: rest, last => head = node ∧ node ≠ 0 ∧ Stretch next (next node) rest last

/-- The loop that follows the links until a node meets the test.  The result is
that node, or null at the end of the list.  There is none if the list does not
end within `fuel` links. -/
def walk (next : Nat → Nat) (test : Nat → Bool) : Nat → Nat → Option Nat
  | 0, node => if node = 0 then some 0 else none
  | fuel + 1, node =>
    if node = 0 then some 0
    else if test node then some node
    else walk next test fuel (next node)

/-- The loop that follows the links round the list from behind `current`: at the
end it starts again at `head`, and it stops at a node that meets the test or at
`current`.  There is no result if it does not stop within `fuel` steps. -/
def cycle (next : Nat → Nat) (test : Nat → Bool) (head current : Nat) : Nat → Nat → Option Nat
  | 0, _ => none
  | fuel + 1, link =>
    let node := if link = 0 then head else link
    if node = current then some current
    else if test node then some node
    else cycle next test head current fuel (next node)

namespace Chain

variable {next next' : Nat → Nat} {head node : Nat} {nodes rest : List Nat}

theorem ne_zero (chain : Chain next head nodes) (member : node ∈ nodes) : node ≠ 0 := by
  induction nodes generalizing head with
  | nil => cases member
  | cons first rest ih =>
    rcases mem_cons.mp member with rfl | later
    · exact chain.2.1
    · exact ih chain.2.2 later

/-- The links decide the nodes. -/
theorem unique (chain : Chain next head nodes) (other : Chain next head rest) : nodes = rest := by
  induction nodes generalizing head rest with
  | nil =>
    cases rest with
    | nil => rfl
    | cons first more => exact absurd (other.1.symm.trans chain) other.2.1
  | cons first more ih =>
    cases rest with
    | nil => exact absurd (chain.1.symm.trans other) chain.2.1
    | cons first' more' =>
      obtain ⟨rfl, _, tail⟩ := chain
      obtain ⟨rfl, _, tail'⟩ := other
      rw [ih tail tail']

variable {before : List Nat} {fuel current : Nat} {test : Nat → Bool}

/-- What follows a node of the list is a list. -/
theorem after (chain : Chain next head (before ++ node :: rest)) : Chain next (next node) rest := by
  induction before generalizing head with
  | nil => exact chain.2.2
  | cons first before ih => exact ih chain.2.2

/-- A list that ends does not come back to a node. -/
theorem nodup (chain : Chain next head nodes) : nodes.Nodup := by
  induction nodes generalizing head with
  | nil => exact nodup_nil
  | cons first more ih =>
    refine nodup_cons.mpr ⟨?_, ih chain.2.2⟩
    intro again
    obtain ⟨before, later, split⟩ := append_of_mem again
    have tail : Chain next (next first) (before ++ first :: later) := by
      rw [← split]
      exact chain.2.2
    have same : before ++ first :: later = later := tail.unique tail.after
    have shorter := congrArg List.length same
    rw [length_append, length_cons] at shorter
    omega

/-- The list as a stretch that ends at null. -/
theorem stretch (chain : Chain next head nodes) : Stretch next head nodes 0 := by
  induction nodes generalizing head with
  | nil => exact chain
  | cons first more ih => exact ⟨chain.1, chain.2.1, ih chain.2.2⟩

/-- The part of the list before a node. -/
theorem before_stretch (chain : Chain next head (before ++ node :: rest)) :
    Stretch next head before node := by
  induction before generalizing head with
  | nil => exact chain.1
  | cons first more ih => exact ⟨chain.1, chain.2.1, ih chain.2.2⟩

/-- Only the links of the nodes matter. -/
theorem congr (chain : Chain next head nodes)
    (same : ∀ node ∈ nodes, next' node = next node) : Chain next' head nodes := by
  induction nodes generalizing head with
  | nil => exact chain
  | cons first more ih =>
    refine ⟨chain.1, chain.2.1, ?_⟩
    rw [same first (.head _)]
    exact ih chain.2.2 (fun node later => same node (.tail first later))

theorem length_le (chain : Chain next head nodes) {limit : Nat}
    (bounded : ∀ node ∈ nodes, node < limit) : nodes.length ≤ limit := by
  have subset : nodes ⊆ range limit := fun node member => mem_range.mpr (bounded node member)
  have shorter := (subperm_of_subset chain.nodup subset).length_le
  rwa [length_range] at shorter

theorem walk_eq (chain : Chain next head nodes) (test : Nat → Bool) (enough : nodes.length ≤ fuel) :
    walk next test fuel head = some ((nodes.find? test).getD 0) := by
  induction nodes generalizing head fuel with
  | nil =>
    rw [show head = 0 from chain]
    cases fuel with
    | zero => rfl
    | succ fuel => rfl
  | cons first more ih =>
    obtain ⟨rfl, nonzero, tail⟩ := chain
    cases fuel with
    | zero => cases enough
    | succ fuel =>
      rw [walk, if_neg nonzero, find?_cons]
      cases test head with
      | true => rfl
      | false => exact ih tail (Nat.le_of_succ_le_succ enough)

/-- A stretch of the list that does not hold `current`: the loop stops in it or
goes on behind it. -/
theorem cycle_stretch {link last : Nat} {stretch : List Nat} (fuel : Nat)
    (linked : Stretch next link stretch last) (absent : current ∉ stretch) :
    cycle next test head current (stretch.length + fuel) link =
      match stretch.find? test with
      | some found => some found
      | none => cycle next test head current fuel last := by
  induction stretch generalizing link with
  | nil =>
    rw [show link = last from linked, length_nil, zero_add]
    rfl
  | cons first more ih =>
    obtain ⟨rfl, nonzero, tail⟩ := linked
    have different : link ≠ current := fun same => absent (same ▸ mem_cons_self)
    rw [length_cons, show more.length + 1 + fuel = (more.length + fuel) + 1 by omega, cycle]
    simp only [if_neg nonzero, if_neg different, find?_cons]
    cases test link with
    | true => rfl
    | false => exact ih tail (fun later => absent (.tail link later))

/-- The loop looks at the nodes behind `current` and then at those before it. -/
theorem cycle_eq {behind : List Nat} (chain : Chain next head (before ++ current :: behind))
    (enough : before.length + behind.length < fuel) :
    cycle next test head current fuel (next current) =
      some (((behind ++ before).find? test).getD current) := by
  have nodup := chain.nodup
  rw [nodup_append, nodup_cons] at nodup
  obtain ⟨_, ⟨notBehind, _⟩, apart⟩ := nodup
  have notBefore : current ∉ before := fun member => apart current member current (.head _) rfl
  have nonzero : current ≠ 0 := chain.ne_zero (mem_append_right _ (.head _))
  have headNonzero : head ≠ 0 := by
    cases before with
    | nil => exact chain.1 ▸ nonzero
    | cons first more => exact chain.1 ▸ chain.2.1
  obtain ⟨rest, rfl⟩ : ∃ rest, fuel = behind.length + (before.length + (rest + 1)) :=
    ⟨fuel - behind.length - before.length - 1, by omega⟩
  have wrap : ∀ steps, cycle next test head current steps 0 =
    cycle next test head current steps head := by
    intro steps
    cases steps with
    | zero => rfl
    | succ steps => simp only [cycle, if_true, if_neg headNonzero]
  rw [cycle_stretch _ chain.after.stretch notBehind, find?_append]
  cases behind.find? test with
  | some found => rfl
  | none =>
    simp only [Option.none_or]
    rw [wrap, cycle_stretch _ chain.before_stretch notBefore]
    cases before.find? test with
    | some found => rfl
    | none => simp only [cycle, if_neg nonzero, if_true, Option.getD_none]

end Chain

end Lib
