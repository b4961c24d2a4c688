/-
Rooted trees given by a partial child function.
-/

import Mathlib.Tactic

namespace Lib.Trie

open List
open Option

variable {ν κ : Type}

theorem snoc_inj {front back : List κ} {slot last : κ} (same : front ++ [slot] = back ++ [last]) :
    front = back ∧ slot = last := by
  simpa using same

/-- The node at the end of a path, if every slot on the way is filled. -/
def descend (child : ν → κ → Option ν) (root : ν) (path : List κ) : Option ν :=
  path.foldlM child root

section

variable (child : ν → κ → Option ν) (root : ν)

include child root

theorem descend_cons (slot : κ) (rest : List κ) :
    descend child root (slot :: rest) =
      (child root slot).bind (fun next => descend child next rest) := rfl

theorem descend_append (front back : List κ) : descend child root (front ++ back) =
      (descend child root front).bind (fun node => descend child node back) := by
  unfold descend
  rw [foldlM_append]
  rfl

theorem descend_snoc (path : List κ) (slot : κ) : descend child root (path ++ [slot]) =
      (descend child root path).bind (fun node => child node slot) := by
  unfold descend
  rw [foldlM_append]
  cases path.foldlM child root <;> simp

theorem descend_snoc_eq_some (path : List κ) (slot : κ) (node : ν) :
    descend child root (path ++ [slot]) = some node ↔
      ∃ parent, descend child root path = some parent ∧ child parent slot = some node := by
  rw [descend_snoc, bind_eq_some_iff]

end

/-- A set of paths that contains the way to each of its members. -/
def PrefixClosed (valid : List κ → Prop) : Prop :=
  ∀ path slot, valid (path ++ [slot]) → valid path

def Unshared (valid : List κ → Prop) (child : ν → κ → Option ν) (root : ν) : Prop :=
  ∀ left right node, valid left → valid right →
    descend child root left = some node → descend child root right = some node → left = right

variable {valid : List κ → Prop}

/-- Paths see only the slots of the nodes that they reach. -/
theorem descend_congr (closed : PrefixClosed valid) (child child' : ν → κ → Option ν) (root : ν)
    (same : ∀ path slot node, valid (path ++ [slot]) → descend child root path = some node →
      child' node slot = child node slot) (path : List κ) (low : valid path) :
      descend child' root path = descend child root path := by
  induction path using List.reverseRecOn with
  | nil => rfl
  | append_singleton path slot ih =>
    rw [descend_snoc, descend_snoc, ih (closed path slot low)]
    cases reached : descend child root path with
    | none => rfl
    | some node => exact same path slot node low reached

/-- Filling an empty slot with a fresh childless node adds one path. -/
theorem descend_link [DecidableEq κ] (closed : PrefixClosed valid) (child child' : ν → κ → Option ν)
    (root : ν) (path : List κ) (slot : κ) (parent fresh : ν)
    (reached : descend child root path = some parent) (empty : child parent slot = none)
    (filled : child' parent slot = some fresh)
    (childless : ∀ below, valid (path ++ [slot] ++ [below]) → child' fresh below = none)
    (elsewhere : ∀ other below node, valid (other ++ [below]) →
      descend child root other = some node → other ++ [below] ≠ path ++ [slot] →
      child' node below = child node below) (other : List κ) (valid' : valid other) :
    descend child' root other =
      if other = path ++ [slot] then some fresh else descend child root other := by
  induction other using List.reverseRecOn with
  | nil =>
    have different : [] ≠ path ++ [slot] := by simp
    rw [if_neg different]
    rfl
  | append_singleton other below ih =>
    have before := ih (closed other below valid')
    by_cases under : other = path ++ [slot]
    · -- below the new node there is nothing, before and after
      have longer : other ++ [below] ≠ path ++ [slot] := by
        intro same
        have lengths := congrArg List.length same
        rw [under] at lengths
        simp at lengths
      have nothing : descend child root other = none := by
        rw [under, descend_snoc, reached]
        exact empty
      rw [if_pos under] at before
      rw [if_neg longer, descend_snoc, descend_snoc, before, nothing]
      rw [under] at valid'
      exact childless below valid'
    · rw [if_neg under] at before
      by_cases here : other ++ [below] = path ++ [slot]
      · obtain ⟨rfl, rfl⟩ := snoc_inj here
        rw [if_pos rfl, descend_snoc, before, reached]
        exact filled
      · rw [if_neg here, descend_snoc, descend_snoc, before]
        cases at_ : descend child root other with
        | none => rfl
        | some node => exact elsewhere other below node valid' at_ here

/-- A linked fresh node is not shared with anything. -/
theorem unshared_link {child child' : ν → κ → Option ν} {root : ν}
    (unshared : Unshared valid child root) [DecidableEq κ] (added : List κ) (fresh : ν)
    (new : ∀ other, valid other → descend child root other ≠ some fresh)
    (grown : ∀ other, valid other → descend child' root other =
      if other = added then some fresh else descend child root other) :
      Unshared valid child' root := by
  intro left right node lowLeft lowRight atLeft atRight
  rw [grown left lowLeft] at atLeft
  rw [grown right lowRight] at atRight
  by_cases leftNew : left = added
  · rw [if_pos leftNew] at atLeft
    have same := some.inj atLeft
    by_cases rightNew : right = added
    · rw [leftNew, rightNew]
    · rw [if_neg rightNew, ← same] at atRight
      exact absurd atRight (new right lowRight)
  · rw [if_neg leftNew] at atLeft
    by_cases rightNew : right = added
    · rw [if_pos rightNew] at atRight
      have same := some.inj atRight
      rw [← same] at atLeft
      exact absurd atLeft (new left lowLeft)
    · rw [if_neg rightNew] at atRight
      exact unshared left right node lowLeft lowRight atLeft atRight

/-! ### Children first -/

/-- The nodes below a node, down to a depth, each after its children.  The slots
that are looked at depend on the remaining depth. -/
def postorder (child : ν → κ → Option ν) (slots : Nat → List κ) : Nat → ν → List ν
  | 0, node => [node]
  | depth + 1, node =>
    (slots (depth + 1)).flatMap (fun slot =>
      (child node slot).elim [] (postorder child slots depth)) ++ [node]

/-- The paths that such a traversal follows. -/
def Follows (slots : Nat → List κ) : Nat → List κ → Prop
  | _, [] => True
  | 0, _ :: _ => False
  | depth + 1, slot :: rest => slot ∈ slots (depth + 1) ∧ Follows slots depth rest

theorem follows_nil (slots : Nat → List κ) (depth : Nat) : Follows slots depth [] := by
  cases depth <;> trivial

theorem mem_postorder (child : ν → κ → Option ν) (slots : Nat → List κ) (depth : Nat)
    (node found : ν) : found ∈ postorder child slots depth node ↔
      ∃ path, Follows slots depth path ∧ descend child node path = some found := by
  induction depth generalizing node with
  | zero =>
    rw [postorder, mem_singleton]
    constructor
    · rintro rfl
      exact ⟨[], trivial, rfl⟩
    · rintro ⟨path, follows, reached⟩
      cases path with
      | nil => exact (some.inj reached).symm
      | cons slot rest => exact follows.elim
  | succ depth ih =>
    rw [postorder, mem_append, mem_flatMap, mem_singleton]
    constructor
    · rintro (⟨slot, member, below⟩ | rfl)
      · cases at_ : child node slot with
        | none => rw [at_] at below; cases below
        | some next =>
          rw [at_] at below
          obtain ⟨path, follows, reached⟩ := (ih next).mp below
          refine ⟨slot :: path, ⟨member, follows⟩, ?_⟩
          rw [descend_cons, at_]
          exact reached
      · exact ⟨[], trivial, rfl⟩
    · rintro ⟨path, follows, reached⟩
      cases path with
      | nil => exact .inr (some.inj reached).symm
      | cons slot rest =>
        rw [descend_cons, bind_eq_some_iff] at reached
        obtain ⟨next, at_, further⟩ := reached
        refine .inl ⟨slot, follows.1, ?_⟩
        rw [at_]
        exact (ih next).mpr ⟨rest, follows.2, further⟩

/-- In an unshared tree every node is listed once. -/
theorem nodup_postorder (child : ν → κ → Option ν) (slots : Nat → List κ)
    (distinct : ∀ depth, (slots depth).Nodup) (depth : Nat) (node : ν)
    (unshared : Unshared (Follows slots depth) child node) :
    (postorder child slots depth node).Nodup := by
  induction depth generalizing node with
  | zero => exact nodup_singleton node
  | succ depth ih =>
    -- the subtree of a slot, as part of the whole
    have below : ∀ slot ∈ slots (depth + 1), ∀ found,
        found ∈ (child node slot).elim [] (postorder child slots depth) →
          ∃ rest, Follows slots (depth + 1) (slot :: rest) ∧
            descend child node (slot :: rest) = some found := by
      intro slot member found listed
      cases at_ : child node slot with
      | none => rw [at_] at listed; cases listed
      | some next =>
        rw [at_] at listed
        obtain ⟨rest, follows, reached⟩ := (mem_postorder child slots depth next found).mp listed
        refine ⟨rest, ⟨member, follows⟩, ?_⟩
        rw [descend_cons, at_]
        exact reached
    rw [postorder, nodup_append]
    refine ⟨?_, nodup_singleton node, ?_⟩
    · rw [nodup_flatMap]
      refine ⟨?_, ?_⟩
      · intro slot member
        cases at_ : child node slot with
        | none => exact nodup_nil
        | some next =>
          apply ih next
          intro left right found followsLeft followsRight atLeft atRight
          have same := unshared (slot :: left) (slot :: right) found ⟨member, followsLeft⟩
            ⟨member, followsRight⟩ (by rw [descend_cons, at_]; exact atLeft)
            (by rw [descend_cons, at_]; exact atRight)
          exact (List.cons.inj same).2
      · apply List.Pairwise.imp_of_mem _ (distinct (depth + 1))
        intro left right memberLeft memberRight different found listedLeft listedRight
        obtain ⟨restLeft, followsLeft, atLeft⟩ := below left memberLeft found listedLeft
        obtain ⟨restRight, followsRight, atRight⟩ := below right memberRight found listedRight
        have same := unshared _ _ found followsLeft followsRight atLeft atRight
        exact different (List.cons.inj same).1
    · intro found listed last isNode same
      rw [mem_singleton] at isNode
      subst last
      subst found
      obtain ⟨slot, member, inSubtree⟩ := mem_flatMap.mp listed
      obtain ⟨rest, follows, reached⟩ := below slot member _ inSubtree
      have atRoot := unshared (slot :: rest) [] _ follows trivial reached rfl
      cases atRoot

end Lib.Trie
