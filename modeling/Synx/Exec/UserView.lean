/-
What a user program sees of its address space: the leaf entry and the byte at
each virtual address below the user limit.
-/

import Synx.Exec.PageTree

namespace Synx.Exec

open Lib Memory Option
open Paging

/-- The leaf entry that maps an address, if it is present. -/
def leafAt (mem : Memory) (root virtualAddress : Nat) : Option Nat :=
  (frameAt mem root (tableIndices virtualAddress)).bind (fun table =>
    let entry := entryAt mem table (leafIndex virtualAddress)
    if flagged entry ptePresent then some entry else none)

def userByte (mem : Memory) (root virtualAddress : Nat) : Option UInt8 :=
  (leafAt mem root virtualAddress).map
    (fun entry => mem (pteAddress entry + virtualAddress % 4096))

/-! ### Addresses and paths -/

section

variable (virtualAddress : Nat)

include virtualAddress

theorem pageIndices_eq :
    pageIndices virtualAddress = tableIndices virtualAddress ++ [leafIndex virtualAddress] := rfl

theorem tableIndices_length : (tableIndices virtualAddress).length = 3 := rfl

theorem pageIndices_length : (pageIndices virtualAddress).length = 4 := rfl

theorem pageIndices_low (below : virtualAddress / 2 ^ 39 % 512 < 256) :
    LowPath (pageIndices virtualAddress) := by
  refine ⟨(pageIndices_length virtualAddress).le, ?_, ?_⟩
  · intro index member
    simp only [pageIndices, List.mem_cons, List.not_mem_nil, or_false] at member
    rcases member with rfl | rfl | rfl | rfl <;> exact Nat.mod_lt _ (by decide)
  · intro index member
    simp only [pageIndices, List.head?_cons, mem_some_iff] at member
    rw [← member]
    exact below

theorem rootIndex_lt (user : virtualAddress < userTop) : virtualAddress / 2 ^ 39 % 512 < 256 := by
  unfold userTop at user
  omega

theorem pageIndices_user (user : virtualAddress < userTop) : LowPath (pageIndices virtualAddress) :=
  pageIndices_low virtualAddress (rootIndex_lt virtualAddress user)

end

theorem pageIndices_inj (left right : Nat) (userLeft : left < userTop)
    (userRight : right < userTop) :
    pageIndices left = pageIndices right ↔ left / 4096 = right / 4096 := by
  unfold userTop at userLeft userRight
  unfold pageIndices
  simp only [List.cons.injEq, and_true]
  omega

theorem Space.frameAt_of_leafAt {mem : Memory} {root : Nat} (space : Space mem root)
    {virtualAddress entry : Nat} (user : virtualAddress < userTop)
    (leaf : leafAt mem root virtualAddress = some entry) :
    frameAt mem root (pageIndices virtualAddress) = some (pteAddress entry) := by
  unfold leafAt at leaf
  obtain ⟨table, reached, present⟩ := bind_eq_some_iff.mp leaf
  have low := pageIndices_user virtualAddress user
  rw [pageIndices_eq] at low ⊢
  rw [frameAt_snoc_eq_some]
  refine ⟨table, reached, ?_⟩
  rw [space.nextFrame_eq low reached]
  simp only at present
  split at present
  · rename_i on
    rw [if_pos on, some.inj present]
  · cases present

theorem leafAt_eq_locatePte (mem : Memory) (root virtualAddress : Nat)
    (user : virtualAddress < userTop) :
    leafAt mem root virtualAddress =
      (locatePte mem root virtualAddress).bind (fun pte =>
        if flagged (readWord mem pte) ptePresent then some (readWord mem pte)
        else none) := by
  have low := rootIndex_lt virtualAddress user
  unfold leafAt locatePte
  rw [if_neg (not_le.mpr low), locateTable_eq_frameAt]
  cases frameAt mem root (tableIndices virtualAddress) <;> rfl

/-! ### Effects of the edits -/

section Link

variable {mem : Memory} {root : Nat} {path : List Nat} {table index phys entry : Nat}
  (space : Space mem root) (low : LowPath (path ++ [index]))
  (reached : frameAt mem root path = some table)
  (empty : flagged (entryAt mem table index) ptePresent = false)
  (fresh : NewFrame mem root phys) (framePhys : Frame phys) (links : Links entry phys)

include space low reached fresh framePhys

theorem Space.linkMem_leaf_byte {other : List Nat} {frame : Nat} (otherLow : LowPath other)
    (leaf : other.length = 4) (otherReached : frameAt mem root other = some frame)
    (offset : Nat) (inside : offset < 4096) :
    linkMem mem table index phys entry (frame + offset) = mem (frame + offset) := by
  have frameTable := space.frame path table low.parent reached
  have frameOther := space.frame other frame otherLow otherReached
  have tableBound := low.last_lt
  have notTable : frame ≠ table := by
    intro same
    subst frame
    have samePath := space.unshared other path table otherLow low.parent otherReached reached
    have short := low.length_lt
    rw [samePath] at leaf
    omega
  apply linkMem_outside
  · rcases framePhys.apart frameOther (fresh.ne otherLow otherReached).symm with before | after
    · omega
    · omega
  · unfold entryAddress
    rcases frameTable.apart frameOther notTable.symm with before | after
    · omega
    · omega

include empty links

theorem Space.leafAt_linkMem (virtualAddress : Nat) (user : virtualAddress < userTop) :
    leafAt (linkMem mem table index phys entry) root virtualAddress =
      if pageIndices virtualAddress = path ++ [index] then some entry
      else leafAt mem root virtualAddress := by
  have pageLow := pageIndices_user virtualAddress user
  rw [pageIndices_eq] at pageLow ⊢
  have tables := space.frameAt_linkMem low reached empty fresh framePhys links
    (tableIndices virtualAddress) pageLow.parent
  unfold leafAt
  rw [tables]
  by_cases newTable : tableIndices virtualAddress = path ++ [index]
  · -- the new table is empty, and before there was no table
    have frameTable := space.frame path table low.parent reached
    have notFresh := fresh.ne low.parent reached
    have longer : tableIndices virtualAddress ++ [leafIndex virtualAddress] ≠ path ++ [index] := by
      intro same
      have lengths := congrArg List.length same
      rw [newTable] at lengths
      simp at lengths
    have nothing : frameAt mem root (tableIndices virtualAddress) = none := by
      have absent := space.nextFrame_eq low reached
      rw [empty] at absent
      rw [newTable]
      unfold frameAt at reached ⊢
      rw [Trie.descend_snoc, reached]
      exact absent
    have zero : entryAt (linkMem mem table index phys entry) phys (leafIndex virtualAddress) = 0 :=
      linkMem_entry_fresh frameTable framePhys notFresh low.last_lt _ pageLow.last_lt
    rw [if_pos newTable, if_neg longer, nothing, bind_some, zero]
    rfl
  · rw [if_neg newTable]
    by_cases here : tableIndices virtualAddress ++ [leafIndex virtualAddress] = path ++ [index]
    · obtain ⟨samePath, slotEq⟩ := Trie.snoc_inj here
      rw [if_pos here, samePath, reached, slotEq, bind_some,
        linkMem_entry_same links.word]
      simp only [links.present, if_true]
    · rw [if_neg here]
      rcases eq_none_or_eq_some (frameAt mem root (tableIndices virtualAddress))
        with nothing | ⟨other, at_⟩
      · rw [nothing, bind_none, bind_none]
      · rw [at_, bind_some, bind_some,
          space.linkMem_entry low reached fresh framePhys pageLow at_ here]

theorem Space.userByte_linkMem (virtualAddress : Nat) (user : virtualAddress < userTop) :
    userByte (linkMem mem table index phys entry) root virtualAddress =
      if pageIndices virtualAddress = path ++ [index] then some 0
      else userByte mem root virtualAddress := by
  unfold userByte
  rw [space.leafAt_linkMem low reached empty fresh framePhys links virtualAddress user]
  by_cases here : pageIndices virtualAddress = path ++ [index]
  · have frameTable := space.frame path table low.parent reached
    have notFresh := fresh.ne low.parent reached
    have tableBound := low.last_lt
    rw [if_pos here, if_pos here, map_some, links.address]
    congr 1
    unfold linkMem
    have offset : virtualAddress % 4096 < 4096 := Nat.mod_lt _ (by decide)
    rw [writeWord_outside, fill_inside _ _ _ _ _ ⟨by omega, by omega⟩]
    unfold entryAddress
    rcases frameTable.apart framePhys notFresh with before | after
    · omega
    · omega
  · rw [if_neg here, if_neg here]
    cases leaf : leafAt mem root virtualAddress with
    | none => rfl
    | some old =>
      have at_ := space.frameAt_of_leafAt user leaf
      simp only [map_some]
      rw [space.linkMem_leaf_byte low reached fresh framePhys
        (pageIndices_user virtualAddress user) (pageIndices_length virtualAddress) at_ _
        (Nat.mod_lt _ (by decide))]

end Link

section Relabel

variable {mem : Memory} {root : Nat} {path : List Nat} {table index entry : Nat}
  (space : Space mem root) (low : LowPath (path ++ [index]))
  (reached : frameAt mem root path = some table)
  (present : flagged (entryAt mem table index) ptePresent = true)
  (links : Links entry (pteAddress (entryAt mem table index)))

include space low reached present links

theorem Space.leafAt_relabel (virtualAddress : Nat) (user : virtualAddress < userTop) :
    leafAt (writeWord mem (entryAddress table index) entry) root virtualAddress =
      if pageIndices virtualAddress = path ++ [index] then some entry
      else leafAt mem root virtualAddress := by
  have pageLow := pageIndices_user virtualAddress user
  rw [pageIndices_eq] at pageLow ⊢
  unfold leafAt
  rw [space.frameAt_relabel low reached present links _ pageLow.parent]
  by_cases here : tableIndices virtualAddress ++ [leafIndex virtualAddress] = path ++ [index]
  · obtain ⟨samePath, slotEq⟩ := Trie.snoc_inj here
    rw [if_pos here, samePath, reached, slotEq, bind_some,
      entryAt_writeWord_same mem table index entry links.word]
    simp only [links.present, if_true]
  · rw [if_neg here]
    rcases eq_none_or_eq_some (frameAt mem root (tableIndices virtualAddress))
      with nothing | ⟨other, at_⟩
    · rw [nothing, bind_none, bind_none]
    · rw [at_, bind_some, bind_some,
        space.relabel_entry low reached pageLow at_ here]

theorem Space.userByte_relabel (virtualAddress : Nat) (user : virtualAddress < userTop) :
    userByte (writeWord mem (entryAddress table index) entry) root virtualAddress =
      userByte mem root virtualAddress := by
  have pageLow := pageIndices_user virtualAddress user
  have frameTable := space.frame path table low.parent reached
  have tableBound := low.last_lt
  have sameByte : ∀ frame, frameAt mem root (pageIndices virtualAddress) = some frame →
      writeWord mem (entryAddress table index) entry (frame + virtualAddress % 4096) =
        mem (frame + virtualAddress % 4096) := by
    intro frame at_
    have frameOther := space.frame _ frame pageLow at_
    have offset : virtualAddress % 4096 < 4096 := Nat.mod_lt _ (by decide)
    have notTable : frame ≠ table := by
      intro same
      subst frame
      have samePath := space.unshared _ path table pageLow low.parent at_ reached
      have short := low.length_lt
      have long := pageIndices_length virtualAddress
      rw [samePath] at long
      omega
    apply writeWord_outside
    unfold entryAddress
    rcases frameTable.apart frameOther notTable.symm with before | after
    · omega
    · omega
  unfold userByte
  rw [space.leafAt_relabel low reached present links virtualAddress user]
  by_cases here : pageIndices virtualAddress = path ++ [index]
  · have old : leafAt mem root virtualAddress = some (entryAt mem table index) := by
      rw [pageIndices_eq] at here
      obtain ⟨samePath, slotEq⟩ := Trie.snoc_inj here
      unfold leafAt
      rw [samePath, reached, slotEq, bind_some]
      simp only [present, if_true]
    rw [if_pos here, old, map_some, map_some, links.address]
    rw [sameByte _ (space.frameAt_of_leafAt user old)]
  · rw [if_neg here]
    cases leaf : leafAt mem root virtualAddress with
    | none => rfl
    | some other =>
      simp only [map_some]
      rw [sameByte _ (space.frameAt_of_leafAt user leaf)]

end Relabel

theorem SameTables.leafAt_eq {mem mem' : Memory} {root : Nat} (same : SameTables mem mem' root)
    (virtualAddress : Nat) (user : virtualAddress < userTop) :
    leafAt mem' root virtualAddress = leafAt mem root virtualAddress := by
  have pageLow := pageIndices_user virtualAddress user
  rw [pageIndices_eq] at pageLow
  unfold leafAt
  rw [same.frameAt_eq _ pageLow.parent]
  rcases eq_none_or_eq_some (frameAt mem root (tableIndices virtualAddress))
    with nothing | ⟨table, at_⟩
  · rw [nothing, bind_none, bind_none]
  · rw [at_, bind_some, bind_some, same.entry pageLow at_]

end Synx.Exec
