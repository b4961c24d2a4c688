/-
The tree of frames that a user address space is made of.
-/

import Synx.Lib.Trie
import Synx.Exec.AddressSpace

namespace Synx.Exec

open Lib Memory List
open Pmm (pageSize)
open Paging

def nextFrame (mem : Memory) (table index : Nat) : Option Nat :=
  let entry := entryAt mem table index
  if flagged entry ptePresent && !flagged entry pteLarge then some (pteAddress entry) else none

theorem nextFrame_absent {mem : Memory} {table index : Nat}
    (absent : flagged (entryAt mem table index) ptePresent = false) :
    nextFrame mem table index = none := by
  simp only [nextFrame, absent, Bool.false_and, Bool.false_eq_true, if_false]

def frameAt (mem : Memory) (root : Nat) (path : List Nat) : Option Nat :=
  Trie.descend (nextFrame mem) root path

/-- Paths of at most four indices through the lower half of the root. -/
def LowPath (path : List Nat) : Prop :=
  path.length ≤ 4 ∧ (∀ index, index ∈ path → index < 512) ∧
    ∀ index, index ∈ path.head? → index < 256

theorem lowPath_nil : LowPath [] := by
  refine ⟨by decide, ?_, ?_⟩
  · intro index member
    cases member
  · intro index member
    cases member

variable {path : List Nat} {index : Nat}

theorem LowPath.parent (low : LowPath (path ++ [index])) : LowPath path := by
  obtain ⟨short, bounded, first⟩ := low
  refine ⟨?_, ?_, ?_⟩
  · rw [length_append] at short
    omega
  · intro other member
    exact bounded other (mem_append_left [index] member)
  · intro other member
    apply first other
    cases path with
    | nil => cases member
    | cons head rest => exact member

theorem LowPath.last_lt (low : LowPath (path ++ [index])) : index < 512 :=
  low.2.1 index (mem_append_right path (mem_singleton_self index))

theorem LowPath.length_lt (low : LowPath (path ++ [index])) : path.length < 4 := by
  have short := low.1
  rw [length_append, length_singleton] at short
  omega

theorem lowPath_prefixClosed : Trie.PrefixClosed LowPath := fun _ _ low => low.parent

theorem LowPath.take (low : LowPath path) (count : Nat) : LowPath (path.take count) := by
  obtain ⟨short, bounded, first⟩ := low
  refine ⟨?_, ?_, ?_⟩
  · rw [length_take]
    omega
  · intro other member
    exact bounded other (mem_of_mem_take member)
  · intro other member
    apply first other
    cases path with
    | nil => simp at member
    | cons head rest =>
      cases count with
      | zero => cases member
      | succ count => exact member

/-- A physical frame that an entry can name. -/
structure Frame (phys : Nat) : Prop where
  aligned : phys % 4096 = 0
  nonzero : phys ≠ 0
  small : phys < 2 ^ 52

theorem Frame.apart {left right : Nat} (frameLeft : Frame left) (frameRight : Frame right)
    (different : left ≠ right) : left + 4096 ≤ right ∨ right + 4096 ≤ left := by
  have alignedLeft := frameLeft.aligned
  have alignedRight := frameRight.aligned
  omega

/-- A well-formed lower half. -/
structure Space (mem : Memory) (root : Nat) : Prop where
  frame : ∀ path phys, LowPath path → frameAt mem root path = some phys → Frame phys
  clean : ∀ path table index, LowPath (path ++ [index]) → frameAt mem root path = some table →
    flagged (entryAt mem table index) ptePresent = true →
      flagged (entryAt mem table index) pteLarge = false ∧
        flagged (entryAt mem table index) pteUser = true
  unshared : Trie.Unshared LowPath (nextFrame mem) root

theorem locateTable_eq_frameAt (mem : Memory) (table : Nat) (path : List Nat) :
    locateTable mem table path = frameAt mem table path := by
  induction path generalizing table with
  | nil => rfl
  | cons index rest ih =>
    unfold frameAt
    rw [Trie.descend_cons]
    simp only [locateTable, nextFrame]
    split
    · rw [ih]
      rfl
    · rfl

theorem frameAt_snoc_eq_some (mem : Memory) (root : Nat) (path : List Nat) (index phys : Nat) :
    frameAt mem root (path ++ [index]) = some phys ↔
      ∃ table, frameAt mem root path = some table ∧ nextFrame mem table index = some phys :=
  Trie.descend_snoc_eq_some (nextFrame mem) root path index phys

theorem Space.nextFrame_eq {mem : Memory} {root : Nat} (space : Space mem root) {table : Nat}
    (low : LowPath (path ++ [index])) (reached : frameAt mem root path = some table) :
    nextFrame mem table index =
      if flagged (entryAt mem table index) ptePresent then
        some (pteAddress (entryAt mem table index))
      else none := by
  cases present : flagged (entryAt mem table index) ptePresent with
  | false => simp only [nextFrame, present, Bool.false_and, Bool.false_eq_true, if_false]
  | true =>
    have notLarge := (space.clean path table index low reached present).1
    simp only [nextFrame, present, notLarge, Bool.not_false, Bool.and_self, if_true]

/-! ### Entries in different places -/

theorem entryAt_congr (left right : Memory) (table index : Nat) (bound : index < 512)
    (same : ∀ address, table ≤ address → address < table + 4096 → left address = right address) :
    entryAt left table index = entryAt right table index := by
  unfold entryAt
  apply readWord_congr
  intro offset small
  unfold entryAddress
  exact same _ (by omega) (by omega)

theorem entryAt_writeWord_same (mem : Memory) (table index value : Nat) (small : value < 2 ^ 64) :
    entryAt (writeWord mem (entryAddress table index) value) table index = value :=
  readWord_writeWord_of_lt mem (entryAddress table index) value small

theorem entryAt_writeWord_other (mem : Memory) (table index value other otherIndex : Nat)
    (frameTable : Frame table) (frameOther : Frame other) (bound : index < 512)
    (otherBound : otherIndex < 512) (different : (other, otherIndex) ≠ (table, index)) :
    entryAt (writeWord mem (entryAddress table index) value) other otherIndex =
      entryAt mem other otherIndex := by
  unfold entryAt
  apply readWord_writeWord_of_ne
  unfold entryAddress
  by_cases sameTable : other = table
  · subst other
    have indices : otherIndex ≠ index := fun same => different (by rw [same])
    omega
  · rcases frameTable.apart frameOther (fun same => sameTable same.symm) with before | after
    · omega
    · omega

/-! ### Growing the tree by one frame -/

/-- Flags of an entry that opens a frame to the user. -/
structure OpenFlags (flags : Nat) : Prop where
  present : flagged flags ptePresent = true
  user : flagged flags pteUser = true
  notLarge : flagged flags pteLarge = false
  noAddress : pteAddress flags = 0
  word : flags < 2 ^ 64

/-- The entry that links a frame. -/
structure Links (entry phys : Nat) : Prop where
  present : flagged entry ptePresent = true
  user : flagged entry pteUser = true
  notLarge : flagged entry pteLarge = false
  address : pteAddress entry = phys
  word : entry < 2 ^ 64

theorem Frame.links {phys flags : Nat} (frame : Frame phys) (open_ : OpenFlags flags) :
    Links (phys ||| flags) phys := by
  have small : phys < 2 ^ 64 := lt_trans frame.small (by decide)
  refine
    { present := ?_
      user := ?_
      notLarge := ?_
      address := ?_
      word := Nat.or_lt_two_pow small open_.word }
  · rw [flagged_or, open_.present, Bool.or_true]
  · rw [flagged_or, open_.user, Bool.or_true]
  · rw [flagged_or, open_.notLarge, Bool.or_false]
    exact flagged_frame_low phys 7 frame.aligned (by decide)
  · rw [pteAddress_or, open_.noAddress, Nat.or_zero]
    exact pteAddress_of_frame phys frame.aligned frame.small

theorem Links.nextFrame_eq {mem : Memory} {table entry phys : Nat} (links : Links entry phys)
    (stored : entryAt mem table index = entry) : nextFrame mem table index = some phys := by
  simp only [nextFrame, stored, links.present, links.notLarge, links.address, Bool.not_false,
    Bool.and_self, if_true]

/-- The memory after a zeroed frame has been linked at an entry. -/
def linkMem (mem : Memory) (table index phys entry : Nat) : Memory :=
  writeWord (fill mem phys 4096 0) (entryAddress table index) entry

section Link

variable {mem : Memory} {root : Nat} {path : List Nat} {table index phys entry : Nat}

def NewFrame (mem : Memory) (root phys : Nat) : Prop :=
  ∀ path, LowPath path → frameAt mem root path ≠ some phys

theorem NewFrame.ne {other : Nat} (fresh : NewFrame mem root phys) (low : LowPath path)
    (reached : frameAt mem root path = some other) : other ≠ phys := by
  intro same
  subst other
  exact fresh path low reached

theorem linkMem_outside (address : Nat) (notFrame : address < phys ∨ phys + 4096 ≤ address)
    (notEntry : address < entryAddress table index ∨ entryAddress table index + 8 ≤ address) :
    linkMem mem table index phys entry address = mem address := by
  unfold linkMem
  rw [writeWord_outside notEntry, fill_outside _ _ _ _ _ notFrame]

theorem linkMem_entry_same (word : entry < 2 ^ 64) :
    entryAt (linkMem mem table index phys entry) table index = entry :=
  entryAt_writeWord_same _ table index entry word

theorem linkMem_entry_fresh (frameTable : Frame table) (framePhys : Frame phys)
    (different : table ≠ phys) (bound : index < 512) (other : Nat) (otherBound : other < 512) :
    entryAt (linkMem mem table index phys entry) phys other = 0 := by
  unfold linkMem
  rw [entryAt_writeWord_other _ table index entry phys other frameTable framePhys bound otherBound
    (fun same => different (Prod.mk.inj same).1.symm)]
  unfold entryAt entryAddress
  exact readWord_fill_zero mem phys 4096 _ ⟨by omega, by omega⟩

theorem linkMem_entry_other (frameTable : Frame table) (framePhys : Frame phys)
    (bound : index < 512) (other otherIndex : Nat) (frameOther : Frame other)
    (otherBound : otherIndex < 512) (notFresh : other ≠ phys)
    (different : (other, otherIndex) ≠ (table, index)) :
    entryAt (linkMem mem table index phys entry) other otherIndex =
      entryAt mem other otherIndex := by
  unfold linkMem
  rw [entryAt_writeWord_other _ table index entry other otherIndex frameTable frameOther bound
    otherBound different]
  apply entryAt_congr _ _ _ _ otherBound
  intro address low high
  apply fill_outside
  rcases framePhys.apart frameOther (fun same => notFresh same.symm) with before | after
  · omega
  · omega

variable (space : Space mem root) (low : LowPath (path ++ [index]))
  (reached : frameAt mem root path = some table)
  (empty : flagged (entryAt mem table index) ptePresent = false)
  (fresh : NewFrame mem root phys) (framePhys : Frame phys) (links : Links entry phys)

include space low reached

theorem Space.slot_ne {other : List Nat} {otherTable otherIndex : Nat}
    (otherLow : LowPath (other ++ [otherIndex]))
    (otherReached : frameAt mem root other = some otherTable)
    (different : other ++ [otherIndex] ≠ path ++ [index]) :
    (otherTable, otherIndex) ≠ (table, index) := by
  rintro ⟨⟩
  cases space.unshared other path table otherLow.parent low.parent otherReached reached
  exact different rfl

include framePhys fresh

theorem Space.linkMem_entry {other : List Nat} {otherTable otherIndex : Nat}
    (otherLow : LowPath (other ++ [otherIndex]))
    (otherReached : frameAt mem root other = some otherTable)
    (different : other ++ [otherIndex] ≠ path ++ [index]) :
    entryAt (linkMem mem table index phys entry) otherTable otherIndex =
      entryAt mem otherTable otherIndex := by
  have frameTable := space.frame path table low.parent reached
  have frameOther := space.frame other otherTable otherLow.parent otherReached
  exact linkMem_entry_other frameTable framePhys low.last_lt otherTable otherIndex frameOther
    otherLow.last_lt (fresh.ne otherLow.parent otherReached)
    (space.slot_ne low reached otherLow otherReached different)

include empty links

theorem Space.frameAt_linkMem (other : List Nat) (otherLow : LowPath other) :
    frameAt (linkMem mem table index phys entry) root other =
      if other = path ++ [index] then some phys else frameAt mem root other := by
  have frameTable := space.frame path table low.parent reached
  have notFresh := fresh.ne low.parent reached
  apply Trie.descend_link lowPath_prefixClosed (nextFrame mem) _ root path index table phys
    reached _ _ _ _ other otherLow
  · rw [space.nextFrame_eq low reached, empty]
    rfl
  · exact links.nextFrame_eq (linkMem_entry_same links.word)
  · intro below belowLow
    have zero : entryAt (linkMem mem table index phys entry) phys below = 0 :=
      linkMem_entry_fresh frameTable framePhys notFresh low.last_lt below belowLow.last_lt
    simp only [nextFrame, zero]
    rfl
  · intro way below node wayLow wayReached different
    unfold nextFrame
    rw [space.linkMem_entry low reached fresh framePhys wayLow wayReached different]

theorem Space.link : Space (linkMem mem table index phys entry) root := by
  have grown := space.frameAt_linkMem low reached empty fresh framePhys links
  have frameTable := space.frame path table low.parent reached
  have notFresh := fresh.ne low.parent reached
  refine
    { frame := ?_
      clean := ?_
      unshared := Trie.unshared_link space.unshared (path ++ [index]) phys fresh grown }
  · intro other target otherLow at_
    rw [grown other otherLow] at at_
    split at at_
    · rw [← Option.some.inj at_]
      exact framePhys
    · exact space.frame other target otherLow at_
  · intro other node below otherLow at_ present
    rw [grown other otherLow.parent] at at_
    split at at_
    · -- the fresh frame has no present entry
      rw [← Option.some.inj at_, linkMem_entry_fresh frameTable framePhys notFresh low.last_lt
        below otherLow.last_lt] at present
      exact absurd present (by decide)
    · by_cases here : other ++ [below] = path ++ [index]
      · obtain ⟨rfl, rfl⟩ := Trie.snoc_inj here
        cases reached.symm.trans at_
        rw [linkMem_entry_same links.word]
        exact ⟨links.notLarge, links.user⟩
      · rw [space.linkMem_entry low reached fresh framePhys otherLow at_ here] at present ⊢
        exact space.clean other node below otherLow at_ present

end Link

/-! ### Changing flags and data -/

section Relabel

variable {mem : Memory} {root : Nat} {path : List Nat} {table index entry : Nat}
  (space : Space mem root) (low : LowPath (path ++ [index]))
  (reached : frameAt mem root path = some table)

include space low reached

theorem Space.relabel_entry {other : List Nat} {otherTable otherIndex : Nat}
    (otherLow : LowPath (other ++ [otherIndex]))
    (otherReached : frameAt mem root other = some otherTable)
    (different : other ++ [otherIndex] ≠ path ++ [index]) :
    entryAt (writeWord mem (entryAddress table index) entry) otherTable otherIndex =
      entryAt mem otherTable otherIndex := by
  have frameTable := space.frame path table low.parent reached
  have frameOther := space.frame other otherTable otherLow.parent otherReached
  exact entryAt_writeWord_other mem table index entry otherTable otherIndex frameTable frameOther
    low.last_lt otherLow.last_lt (space.slot_ne low reached otherLow otherReached different)

variable (present : flagged (entryAt mem table index) ptePresent = true)
  (links : Links entry (pteAddress (entryAt mem table index)))

include present links

theorem Space.frameAt_relabel (other : List Nat) (otherLow : LowPath other) :
    frameAt (writeWord mem (entryAddress table index) entry) root other =
      frameAt mem root other := by
  apply Trie.descend_congr lowPath_prefixClosed (nextFrame mem) _ root _ other otherLow
  intro way below node wayLow wayReached
  by_cases here : way ++ [below] = path ++ [index]
  · obtain ⟨rfl, rfl⟩ := Trie.snoc_inj here
    cases reached.symm.trans wayReached
    rw [space.nextFrame_eq low reached, present]
    exact links.nextFrame_eq (entryAt_writeWord_same mem table _ entry links.word)
  · unfold nextFrame
    rw [space.relabel_entry low reached wayLow wayReached here]

theorem Space.relabel : Space (writeWord mem (entryAddress table index) entry) root := by
  have same := space.frameAt_relabel low reached present links
  refine
    { frame := ?_
      clean := ?_
      unshared := ?_ }
  · intro other target otherLow at_
    rw [same other otherLow] at at_
    exact space.frame other target otherLow at_
  · intro other node below otherLow at_ stillPresent
    rw [same other otherLow.parent] at at_
    by_cases here : other ++ [below] = path ++ [index]
    · obtain ⟨rfl, rfl⟩ := Trie.snoc_inj here
      cases reached.symm.trans at_
      rw [entryAt_writeWord_same mem table _ entry links.word]
      exact ⟨links.notLarge, links.user⟩
    · rw [space.relabel_entry low reached otherLow at_ here] at stillPresent ⊢
      exact space.clean other node below otherLow at_ stillPresent
  · intro left right node lowLeft lowRight atLeft atRight
    change frameAt _ root left = some node at atLeft
    change frameAt _ root right = some node at atRight
    rw [same left lowLeft] at atLeft
    rw [same right lowRight] at atRight
    exact space.unshared left right node lowLeft lowRight atLeft atRight

end Relabel

/-- The memories agree on every table of the space. -/
def SameTables (mem mem' : Memory) (root : Nat) : Prop :=
  ∀ path table, LowPath path → path.length < 4 → frameAt mem root path = some table →
    ∀ address, table ≤ address → address < table + 4096 → mem' address = mem address

section SameTables

variable {mem mem' : Memory} {root : Nat} (same : SameTables mem mem' root)

include same

theorem SameTables.entry {path : List Nat} {table index : Nat} (low : LowPath (path ++ [index]))
    (reached : frameAt mem root path = some table) :
    entryAt mem' table index = entryAt mem table index :=
  entryAt_congr mem' mem table index low.last_lt
    (same path table low.parent low.length_lt reached)

theorem SameTables.frameAt_eq (path : List Nat) (low : LowPath path) :
    frameAt mem' root path = frameAt mem root path := by
  apply Trie.descend_congr lowPath_prefixClosed (nextFrame mem) _ root _ path low
  intro way below node wayLow wayReached
  unfold nextFrame
  rw [same.entry wayLow wayReached]

theorem SameTables.trans {last : Memory} (next : SameTables mem' last root) :
    SameTables mem last root := by
  intro path table low short reached address above below
  rw [next path table low short ((same.frameAt_eq path low).trans reached) address above below]
  exact same path table low short reached address above below

theorem SameTables.space (space : Space mem root) : Space mem' root := by
  have frames := same.frameAt_eq
  refine
    { frame := ?_
      clean := ?_
      unshared := ?_ }
  · intro path phys low at_
    rw [frames path low] at at_
    exact space.frame path phys low at_
  · intro path table index low at_ present
    rw [frames path low.parent] at at_
    rw [same.entry low at_] at present ⊢
    exact space.clean path table index low at_ present
  · intro left right node lowLeft lowRight atLeft atRight
    change frameAt mem' root left = some node at atLeft
    change frameAt mem' root right = some node at atRight
    rw [frames left lowLeft] at atLeft
    rw [frames right lowRight] at atRight
    exact space.unshared left right node lowLeft lowRight atLeft atRight

end SameTables

end Synx.Exec
