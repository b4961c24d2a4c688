/-
What a run of `paging::map_page` calls does to the translation.
-/

import Synx.Paging.MapPage

namespace Synx.Paging

open Lib Memory List Option
open Exec

/-! ### Trees -/

theorem tablePath_prefixClosed : Trie.PrefixClosed TablePath := fun _ _ valid => valid.front

theorem TablePath.last_lt {path : List Nat} {index : Nat} (valid : TablePath (path ++ [index])) :
    index < 512 := valid.2 index (mem_append_right _ (mem_singleton_self index))

/-- Four levels of tables, without large entries and without shared tables. -/
structure Tree (mem : Memory) (root : Nat) : Prop where
  aligned : root % 4096 = 0
  clean : ∀ path table index, TablePath (path ++ [index]) → frameAt mem root path = some table →
    flagged (entryAt mem table index) ptePresent = true →
      flagged (entryAt mem table index) pteLarge = false
  unshared : Trie.Unshared TablePath (nextFrame mem) root

/-- The entry behind a path of tables, zero where one is missing. -/
def wordAt (mem : Memory) (root : Nat) (path : List Nat) (slot : Nat) : Nat :=
  (frameAt mem root path).elim 0 (fun table => entryAt mem table slot)

def leafWord (mem : Memory) (root virt : Nat) : Nat :=
  wordAt mem root (tableIndices virt) (leafIndex virt)

section

variable {mem : Memory} {root : Nat}

variable {path : List Nat} {table index : Nat}

theorem Tree.frame_aligned (tree : Tree mem root) (reached : frameAt mem root path = some table) :
    table % 4096 = 0 := by
  induction path using List.reverseRecOn with
  | nil =>
    cases reached
    exact tree.aligned
  | append_singleton path index ih =>
    obtain ⟨parent, _, step⟩ := (frameAt_snoc_eq_some _ _ _ _ _).mp reached
    unfold nextFrame at step
    dsimp only at step
    split at step
    · rw [← some.inj step]
      exact pteAddress_aligned _
    · cases step

theorem Tree.nextFrame_present (tree : Tree mem root) (valid : TablePath (path ++ [index]))
    (reached : frameAt mem root path = some table)
    (present : flagged (entryAt mem table index) ptePresent = true) :
    nextFrame mem table index = some (pteAddress (entryAt mem table index)) := by
  simp only [nextFrame, present, tree.clean path table index valid reached present, Bool.not_false,
    Bool.and_self, if_true]

theorem entryAt_blank (table index : Nat) : entryAt (fun _ => 0) table index = 0 := by
  simp only [entryAt, readWord, readNumber, UInt8.toNat_zero, Nat.mul_zero]

theorem frameAt_blank (reached : frameAt (fun _ => 0) root path = some table) : path = [] := by
  cases path using List.reverseRecOn with
  | nil => rfl
  | append_singleton path index =>
    obtain ⟨parent, _, step⟩ := (frameAt_snoc_eq_some _ _ _ _ _).mp reached
    rw [nextFrame_absent (by rw [entryAt_blank]; decide)] at step
    cases step

theorem tree_blank (aligned : root % 4096 = 0) : Tree (fun _ => 0) root := by
  refine ⟨aligned, ?_, ?_⟩
  · intro path table index _ _ present
    rw [entryAt_blank] at present
    exact absurd present (by decide)
  · intro left right node _ _ atLeft atRight
    rw [frameAt_blank atLeft, frameAt_blank atRight]

end

theorem leafIndex_lt (virt : Nat) : leafIndex virt < 512 := Nat.mod_lt _ (by decide)

/-! ### Linking a table -/

section

variable {mem : Memory} {root : Nat} {path : List Nat} {table index phys entry : Nat}
  (tree : Tree mem root) (valid : TablePath (path ++ [index]))
  (reached : frameAt mem root path = some table)
  (absent : flagged (entryAt mem table index) ptePresent = false)
  (aligned : phys % 4096 = 0) (fresh : ¬TreeTable mem root phys)
  (present : flagged entry ptePresent = true) (notLarge : flagged entry pteLarge = false)
  (address : pteAddress entry = phys) (word : entry < 2 ^ 64)

include tree valid reached aligned fresh word

theorem Tree.entryAt_link {other : List Nat} {node slot : Nat} (otherValid : TablePath other)
    (otherReached : frameAt mem root other = some node) (bound : slot < 512)
    (different : other ++ [slot] ≠ path ++ [index]) :
    entryAt (linkMem mem table index phys entry) node slot = entryAt mem node slot := by
  rw [entryAt_linkMem (tree.frame_aligned reached) aligned (tree.frame_aligned otherReached)
    valid.last_lt bound word]
  have elsewhere : ¬(node = table ∧ slot = index) := by
    rintro ⟨rfl, rfl⟩
    apply different
    rw [tree.unshared other path node otherValid (tablePath_prefixClosed _ _ valid) otherReached
      reached]
  have old : node ≠ phys := by
    rintro rfl
    exact fresh ⟨other, otherValid, otherReached⟩
  rw [if_neg elsewhere, if_neg old]

theorem Tree.entryAt_fresh {slot : Nat} (bound : slot < 512) :
    entryAt (linkMem mem table index phys entry) phys slot = 0 := by
  rw [entryAt_linkMem (tree.frame_aligned reached) aligned aligned valid.last_lt bound word]
  have elsewhere : ¬(phys = table ∧ slot = index) := by
    rintro ⟨rfl, rfl⟩
    exact fresh ⟨path, tablePath_prefixClosed _ _ valid, reached⟩
  rw [if_neg elsewhere, if_pos rfl]

include absent present notLarge address

theorem Tree.frameAt_link (other : List Nat) (otherValid : TablePath other) :
    frameAt (linkMem mem table index phys entry) root other =
      if other = path ++ [index] then some phys else frameAt mem root other := by
  apply Trie.descend_link tablePath_prefixClosed (nextFrame mem) _ root path index table phys
    reached
    (nextFrame_absent absent) _ _ _ other otherValid
  · simp only [nextFrame, linkMem_entry_same word, present, notLarge, address, Bool.not_false,
      Bool.and_self, if_true]
  · intro below belowValid
    apply nextFrame_absent
    rw [tree.entryAt_fresh valid reached aligned fresh word belowValid.last_lt]
    decide
  · intro way below node wayValid wayReached different
    unfold nextFrame
    rw [tree.entryAt_link valid reached aligned fresh word (tablePath_prefixClosed _ _ wayValid)
      wayReached wayValid.last_lt different]

theorem Tree.link : Tree (linkMem mem table index phys entry) root := by
  have grown := tree.frameAt_link valid reached absent aligned fresh present notLarge address word
  refine ⟨tree.aligned, ?_, ?_⟩
  · intro other node slot otherValid at_ linked
    rw [grown other (tablePath_prefixClosed _ _ otherValid)] at at_
    split at at_
    · rw [← some.inj at_, tree.entryAt_fresh valid reached aligned fresh word
        otherValid.last_lt] at linked
      exact absurd linked (by decide)
    · by_cases here : other ++ [slot] = path ++ [index]
      · obtain ⟨rfl, rfl⟩ := Trie.snoc_inj here
        cases reached.symm.trans at_
        rw [linkMem_entry_same word]
        exact notLarge
      · rw [tree.entryAt_link valid reached aligned fresh word
          (tablePath_prefixClosed _ _ otherValid)
          at_ otherValid.last_lt here] at linked ⊢
        exact tree.clean other node slot otherValid at_ linked
  · refine Trie.unshared_link tree.unshared (path ++ [index]) phys ?_ grown
    intro other otherValid at_
    exact fresh ⟨other, otherValid, at_⟩

theorem Tree.wordAt_link {tables : List Nat} {slot : Nat} (tablesValid : TablePath tables)
    (three : tables.length = 3) (bound : slot < 512) :
    wordAt (linkMem mem table index phys entry) root tables slot = wordAt mem root tables slot := by
  have short := valid.1
  unfold wordAt
  rw [tree.frameAt_link valid reached absent aligned fresh present notLarge address word _
    tablesValid]
  by_cases new : tables = path ++ [index]
  · have missing : frameAt mem root tables = none := by
      rw [new]
      unfold frameAt
      rw [Trie.descend_snoc, show Trie.descend (nextFrame mem) root path = some table from reached]
      exact nextFrame_absent absent
    rw [if_pos new, missing, elim_none]
    exact tree.entryAt_fresh valid reached aligned fresh word bound
  · rw [if_neg new]
    cases found : frameAt mem root tables with
    | none => rw [elim_none, elim_none]
    | some pt =>
      refine tree.entryAt_link valid reached aligned fresh word tablesValid found bound ?_
      intro same
      have lengths := congrArg List.length same
      rw [length_append, three] at lengths
      rw [← lengths] at short
      exact absurd short (Nat.not_succ_le_self 3)

end

/-! ### One call -/

/-- A missing table gets a frame that is not in the tree. -/
def Supplied (root table index : Nat) (machine : Machine) : Prop :=
  flagged (entryAt machine.mem table index) ptePresent = false →
    ¬TreeTable machine.mem root (Pmm.allocPage machine.pmm).1

def Plain (table index : Nat) (machine : Machine) : Prop :=
  flagged (entryAt machine.mem table index) ptePresent = true → entryAt machine.mem table index <
    2 ^ 52

/-- The tree has a table at the end of a path and every page its old entry. -/
structure Opened (start : Memory) (root : Nat) (path : List Nat) (table : Nat) (machine : Machine) :
    Prop where
  tree : Tree machine.mem root
  reached : frameAt machine.mem root path = some table
  leaves : ∀ virt, leafWord machine.mem root virt = leafWord start root virt
  addressable : machine.pmm.totalPages ≤ 2 ^ 40

section

variable {start : Memory} {root table index : Nat} {path : List Nat} {machine : Machine}
    {user : Bool}

theorem Opened.step (opened : Opened start root path table machine)
    (valid : TablePath (path ++ [index])) (supplied : Supplied root table index machine)
    (plain : Plain table index machine) :
    Opened start root (path ++ [index]) (nextTable user table index machine)
      (ensureTableEntry user table index machine) := by
  have later := @ensureTableEntry_totalPages user table index machine opened.addressable
  unfold nextTable
  cases present : flagged (entryAt machine.mem table index) ptePresent with
  | true =>
    have same := @ensureTableEntry_present user table index machine present
    rw [same, (tableOf_eq_pteAddress_iff (entryAt_lt _ _ _)).mpr (plain present)]
    refine ⟨opened.tree, ?_, opened.leaves, opened.addressable⟩
    exact (frameAt_snoc_eq_some _ _ _ _ _).mpr
      ⟨table, opened.reached, opened.tree.nextFrame_present valid opened.reached present⟩
  | false =>
    have fresh := supplied present
    rcases took : Pmm.allocPage machine.pmm with ⟨phys, pmm⟩
    rw [took] at fresh
    obtain ⟨aligned, small, _⟩ := allocPage_frame opened.addressable took
    have made := made_tableFlags aligned small user
    have grown := opened.tree.frameAt_link valid opened.reached present aligned fresh made.present
      made.notLarge made.address made.word
    rw [ensureTableEntry_absent present took] at later ⊢
    refine ⟨?_, ?_, ?_, later.trans_le opened.addressable⟩
    · exact opened.tree.link valid opened.reached present aligned fresh made.present made.notLarge
        made.address made.word
    · show frameAt (linkMem _ _ _ _ _) root (path ++ [index]) = _
      rw [grown _ valid, if_pos rfl, linkMem_entry_same made.word, made.table]
    · intro virt
      rw [← opened.leaves virt]
      exact opened.tree.wordAt_link valid opened.reached present aligned fresh made.present
        made.notLarge made.address made.word (tablePath_tableIndices virt) rfl (leafIndex_lt virt)

theorem Opened.walk {rest : List Nat} (opened : Opened start root path table machine)
    (valid : TablePath (path ++ rest)) (supplied : Along (Supplied root) user table rest machine)
    (plain : Along Plain user table rest machine) :
    Opened start root (path ++ rest) (ensureTables user table rest machine).1
      (ensureTables user table rest machine).2 := by
  induction rest generalizing path table machine with
  | nil =>
    rw [append_nil]
    exact opened
  | cons index rest ih =>
    have whole : path ++ index :: rest = path ++ [index] ++ rest := by
      rw [append_assoc, singleton_append]
    rw [whole] at valid ⊢
    exact ih (opened.step valid.front supplied.1 plain.1) valid supplied.2 plain.2

/-- Every table is marked in the bitmap of the page allocator. -/
def Marked (root : Nat) (machine : Machine) : Prop :=
  ∀ table, TreeTable machine.mem root table → Pmm.bitmapGet machine.pmm.bitmap (table / 4096) = true

def Free (table index : Nat) (machine : Machine) : Prop :=
  flagged (entryAt machine.mem table index) ptePresent = false → (Pmm.allocPage machine.pmm).1 ≠ 0

theorem Marked.step (marked : Marked root machine) (opened : Opened start root path table machine)
    (valid : TablePath (path ++ [index])) (free : Free table index machine) :
    Supplied root table index machine ∧
      Marked root (ensureTableEntry user table index machine) := by
  cases present : flagged (entryAt machine.mem table index) ptePresent with
  | true =>
    rw [ensureTableEntry_present present]
    refine ⟨?_, marked⟩
    intro absent
    cases present.symm.trans absent
  | false =>
    rcases Pmm.allocPage_cases machine.pmm with ⟨full, _⟩ | ⟨page, _, clear, took⟩
    · exact absurd (congrArg Prod.fst full) (free present)
    · have page_ : page * Pmm.pageSize / 4096 = page := Nat.mul_div_cancel page (by decide)
      have fresh : ¬TreeTable machine.mem root (page * Pmm.pageSize) := by
        intro inside
        have used := marked _ inside
        rw [page_, clear] at used
        cases used
      obtain ⟨aligned, small, _⟩ := allocPage_frame opened.addressable took
      have made := made_tableFlags aligned small user
      have grown := opened.tree.frameAt_link valid opened.reached present aligned fresh made.present
        made.notLarge made.address made.word
      refine ⟨fun _ => by rw [took]; exact fresh, ?_⟩
      rw [ensureTableEntry_absent present took]
      rintro found ⟨other, otherValid, at_⟩
      rw [grown other otherValid] at at_
      rw [Pmm.take_bitmap, Pmm.bitmapGet_bitmapSetRun]
      split at at_
      · rw [← some.inj at_, page_]
        simp
      · rw [marked found ⟨other, otherValid, at_⟩, Bool.or_true]

theorem Marked.supplied {rest : List Nat} (marked : Marked root machine)
    (opened : Opened start root path table machine) (valid : TablePath (path ++ rest))
    (free : Along Free user table rest machine) (plain : Along Plain user table rest machine) :
    Along (Supplied root) user table rest machine := by
  induction rest generalizing path table machine with
  | nil => trivial
  | cons index rest ih =>
    have whole : path ++ index :: rest = path ++ [index] ++ rest := by
      rw [append_assoc, singleton_append]
    rw [whole] at valid
    obtain ⟨supplied, later⟩ := marked.step opened valid.front free.1
    exact ⟨supplied, ih later (opened.step valid.front supplied plain.1) valid free.2 plain.2⟩

theorem Tree.write_leaf {mem : Memory} (tree : Tree mem root) {tables : List Nat}
    {slot pt value : Nat} (valid : TablePath tables) (three : tables.length = 3)
    (bound : slot < 512) (reached : frameAt mem root tables = some pt) (word : value < 2 ^ 64) :
    Tree (writeWord mem (entryAddress pt slot) value) root ∧
      ∀ other otherSlot, TablePath other → otherSlot < 512 →
        wordAt (writeWord mem (entryAddress pt slot) value) root other otherSlot =
          if other = tables ∧ otherSlot = slot then value else wordAt mem root other otherSlot := by
  have entries : ∀ other node below, TablePath other → frameAt mem root other = some node →
    below < 512 →
      entryAt (writeWord mem (entryAddress pt slot) value) node below =
        if other = tables ∧ below = slot then value else entryAt mem node below := by
    intro other node below otherValid at_ small
    rw [entryAt_write (tree.frame_aligned reached) (tree.frame_aligned at_) bound small word]
    apply if_congr _ rfl rfl
    constructor
    · rintro ⟨rfl, same⟩
      exact ⟨tree.unshared other _ node otherValid valid at_ reached, same⟩
    · rintro ⟨rfl, same⟩
      exact ⟨some.inj (at_.symm.trans reached), same⟩
  have inner : ∀ way below node, TablePath (way ++ [below]) → frameAt mem root way = some node →
      entryAt (writeWord mem (entryAddress pt slot) value) node below = entryAt mem node below := by
    intro way below node wayValid at_
    rw [entries way node below (tablePath_prefixClosed _ _ wayValid) at_ wayValid.last_lt, if_neg]
    rintro ⟨rfl, _⟩
    have short := wayValid.1
    rw [length_append, three] at short
    exact absurd short (Nat.not_succ_le_self 3)
  have same : ∀ other, TablePath other →
      frameAt (writeWord mem (entryAddress pt slot) value) root other = frameAt mem root other := by
    apply Trie.descend_congr tablePath_prefixClosed
    intro way below node wayValid at_
    unfold nextFrame
    rw [inner way below node wayValid at_]
  refine ⟨⟨tree.aligned, ?_, ?_⟩, ?_⟩
  · intro way table index wayValid at_ present
    rw [same way (tablePath_prefixClosed _ _ wayValid)] at at_
    rw [inner way index table wayValid at_] at present ⊢
    exact tree.clean way table index wayValid at_ present
  · intro left right node leftValid rightValid atLeft atRight
    exact tree.unshared left right node leftValid rightValid
      ((same left leftValid).symm.trans atLeft)
      ((same right rightValid).symm.trans atRight)
  · intro other otherSlot otherValid small
    unfold wordAt
    rw [same other otherValid]
    cases found : frameAt mem root other with
    | none =>
      rw [elim_none, elim_none, if_neg]
      rintro ⟨rfl, _⟩
      cases found.symm.trans reached
    | some node => exact entries other node otherSlot otherValid found small

end

/-! ### A run of calls -/

/-- The arguments of a call. -/
structure Call where
  virt : Nat
  phys : Nat
  flags : Nat
  words : phys < 2 ^ 64 ∧ flags < 2 ^ 64

def Call.word (call : Call) : Nat := call.phys ||| call.flags

def Call.user (call : Call) : Bool := flagged call.flags pteUser

def mapAll (root : Nat) (calls : List Call) (machine : Machine) : Option Machine :=
  calls.foldlM (fun machine call => mapPage root call.virt call.phys call.flags machine) machine

/-- Every call of the run meets a condition in the state in which it is made. -/
def EachCall (condition : Call → Machine → Prop) (root : Nat) : List Call → Machine → Prop
  | [], _ => True
  | call :: rest, machine =>
    condition call machine ∧ ∀ after,
      mapPage root call.virt call.phys call.flags machine = some after →
        EachCall condition root rest after

/-- Every table on the way of a call has a property in the state in which it is met. -/
def OnWay (step : Nat → Nat → Machine → Prop) (root : Nat) (call : Call) (machine : Machine) :
    Prop :=
  Along step call.user root (tableIndices call.virt) machine

def Canonical (virt : Nat) : Prop := virt < 2 ^ 47 ∨ (2 ^ 64 - 2 ^ 47 ≤ virt ∧ virt < 2 ^ 64)

theorem samePage_iff {one two : Nat} (canonicalOne : Canonical one) (canonicalTwo : Canonical two) :
    (tableIndices one = tableIndices two ∧ leafIndex one = leafIndex two) ↔
      one / 4096 = two / 4096 := by
  unfold Canonical at canonicalOne canonicalTwo
  simp only [tableIndices, leafIndex, pageIndices, take_succ_cons, take_zero, List.cons.injEq,
    and_true]
  omega

def lastFor (virt : Nat) (calls : List Call) : Option Call :=
  calls.reverse.find? (fun call => call.virt / 4096 == virt / 4096)

theorem lastFor_cons (virt : Nat) (call : Call) (rest : List Call) :
    lastFor virt (call :: rest) =
      (lastFor virt rest).or (if call.virt / 4096 = virt / 4096 then some call else none) := by
  unfold lastFor
  rw [reverse_cons, find?_append, find?_singleton]
  simp only [beq_iff_eq]

theorem mapPage_tree {root : Nat} {call : Call} {machine after : Machine}
    (tree : Tree machine.mem root) (addressable : machine.pmm.totalPages ≤ 2 ^ 40)
    (supplied : OnWay (Supplied root) root call machine) (plain : OnWay Plain root call machine)
    (mapped : mapPage root call.virt call.phys call.flags machine = some after) :
    Tree after.mem root ∧ after.pmm.totalPages ≤ 2 ^ 40 ∧
      ∀ virt, leafWord after.mem root virt =
        if tableIndices virt = tableIndices call.virt ∧
          leafIndex virt = leafIndex call.virt then call.word
        else leafWord machine.mem root virt := by
  have begin_ : Opened machine.mem root [] root machine := ⟨tree, rfl, fun _ => rfl, addressable⟩
  obtain ⟨pt, before, walked, rfl⟩ := mapPage_some mapped
  have opened := @Opened.walk machine.mem root root [] machine _ (tableIndices call.virt) begin_
    (tablePath_tableIndices call.virt) supplied plain
  unfold Call.user at opened
  rw [walked] at opened
  obtain ⟨still, leaves⟩ := opened.tree.write_leaf (tablePath_tableIndices call.virt) rfl
    (leafIndex_lt call.virt) opened.reached (Nat.or_lt_two_pow call.words.1 call.words.2)
  refine ⟨still, opened.addressable, ?_⟩
  intro virt
  rw [← opened.leaves virt]
  exact leaves _ _ (tablePath_tableIndices virt) (leafIndex_lt virt)

/-- A run of calls for canonical pages whose table entries have no bit above the address leaves
each page with the entry of its last call, the others as they were, and a tree. -/
theorem mapAll_translates {root : Nat} {calls : List Call} {start : Machine} (set : root ≠ 0)
    (tree : Tree start.mem root) (addressable : start.pmm.totalPages ≤ 2 ^ 40)
    (supplied : EachCall (OnWay (Supplied root) root) root calls start)
    (meets : EachCall (fun call machine => Canonical call.virt ∧ OnWay Plain root call machine) root
      calls start) :
    ∃ after, mapAll root calls start = some after ∧ Tree after.mem root ∧
      ∀ virt, Canonical virt →
        leafWord after.mem root virt =
          (lastFor virt calls).elim (leafWord start.mem root virt) Call.word := by
  induction calls generalizing start with
  | nil => exact ⟨start, rfl, tree, fun _ _ => rfl⟩
  | cons call rest ih =>
    obtain ⟨next, mapped⟩ : ∃ next, mapPage root call.virt call.phys call.flags start =
      some next := by
      unfold mapPage
      rw [if_neg set]
      exact ⟨_, rfl⟩
    obtain ⟨nextTree, nextAddressable, leaves⟩ :=
      mapPage_tree tree addressable supplied.1 meets.1.2 mapped
    obtain ⟨after, ran, lastTree, last⟩ :=
      ih nextTree nextAddressable (supplied.2 next mapped) (meets.2 next mapped)
    refine ⟨after, ?_, lastTree, ?_⟩
    · unfold mapAll at ran ⊢
      rw [foldlM_cons, mapped]
      exact ran
    · intro virt canonical
      rw [last virt canonical, lastFor_cons, leaves virt]
      simp only [samePage_iff canonical meets.1.1, @eq_comm _ (virt / 4096)]
      cases lastFor virt rest with
      | some later => rfl
      | none => split <;> rfl

/-! ### Small runs -/

def smallCall : Call := ⟨0x400000, 0x5000, 3, by decide⟩

/-- The same page, with another frame. -/
def nextCall : Call := ⟨0x400000, 0x6000, 3, by decide⟩

theorem mapAll_translates_small :
    ∃ after, mapAll 4096 [smallCall, nextCall] (bootMachine (fun _ => 0) 3) = some after ∧
      leafWord after.mem 4096 0x400000 = 0x6003 ∧ leafWord after.mem 4096 0x401000 = 0 := by
  have tree : Tree (bootMachine (fun _ => 0) 3).mem 4096 := tree_blank (by decide)
  have plain : OnWay Plain 4096 smallCall (bootMachine (fun _ => 0) 3) := by
    refine ⟨?_, ?_, ?_, trivial⟩ <;> exact fun present => absurd present (by decide +kernel)
  have free : OnWay Free 4096 smallCall (bootMachine (fun _ => 0) 3) := by
    refine ⟨?_, ?_, ?_, trivial⟩ <;> exact fun _ => by decide +kernel
  have marked : Marked 4096 (bootMachine (fun _ => 0) 3) := by
    rintro table ⟨path, _, reached⟩
    rw [frameAt_blank reached] at reached
    rw [← some.inj reached]
    decide
  have supplied : OnWay (Supplied 4096) 4096 smallCall (bootMachine (fun _ => 0) 3) :=
    @Marked.supplied (fun _ => 0) 4096 4096 [] _ _ _ marked ⟨tree, rfl, fun _ => rfl, by decide⟩
      (tablePath_tableIndices _) free plain
  -- the second call finds every table
  have found : ∀ next, mapPage 4096 0x400000 0x5000 3 (bootMachine (fun _ => 0) 3) = some next →
      OnWay (Supplied 4096) 4096 nextCall next ∧ OnWay Plain 4096 nextCall next := by
    rintro _ ⟨⟩
    refine ⟨⟨?_, ?_, ?_, trivial⟩, ⟨?_, ?_, ?_, trivial⟩⟩
    iterate 3 exact fun absent => absurd absent (by decide +kernel)
    iterate 3 exact fun _ => by decide +kernel
  obtain ⟨after, ran, _, leaves⟩ := @mapAll_translates 4096 [smallCall, nextCall] _ (by decide) tree
    (by decide) ⟨supplied, fun next mapped => ⟨(found next mapped).1, fun _ _ => trivial⟩⟩
    ⟨⟨.inl (by decide), plain⟩,
      fun next mapped => ⟨⟨.inl (by decide), (found next mapped).2⟩, fun _ _ => trivial⟩⟩
  refine ⟨after, ran, ?_, ?_⟩
  · rw [leaves 0x400000 (.inl (by decide))]
    decide +kernel
  · rw [leaves 0x401000 (.inl (by decide))]
    decide +kernel

def guardedEntry : Nat := 8192 ||| ptePresent ||| pteWritable ||| pteNx

/-- A root whose first entry links an empty table and forbids execution below it. -/
def guardedMem : Memory := linkMem (fun _ => 0) 4096 0 8192 guardedEntry

theorem guarded_tables {mem : Memory}
    (first : ∀ index < 512, entryAt mem 4096 index = if index = 0 then guardedEntry else 0)
    (second : ∀ index < 512, entryAt mem 8192 index = 0) (table : Nat)
    (inside : TreeTable mem 4096 table) : table = 4096 ∨ table = 8192 := by
  obtain ⟨path, valid, reached⟩ := inside
  induction path using List.reverseRecOn generalizing table with
  | nil =>
    cases reached
    exact .inl rfl
  | append_singleton path index ih =>
    obtain ⟨parent, before, step⟩ := (frameAt_snoc_eq_some _ _ _ _ _).mp reached
    rcases ih parent valid.front before with rfl | rfl
    · by_cases zero : index = 0
      · have linked : nextFrame mem 4096 index = some 8192 := by
          simp only [nextFrame, first index valid.last_lt, if_pos zero]
          decide
        exact .inr (some.inj (step.symm.trans linked))
      · rw [nextFrame_absent (by rw [first index valid.last_lt, if_neg zero]; decide)] at step
        cases step
    · rw [nextFrame_absent (by rw [second index valid.last_lt]; decide)] at step
      cases step

theorem guardedMem_entries (table index : Nat) (aligned : table % 4096 = 0) (bound : index < 512) :
    entryAt guardedMem table index = if table = 4096 ∧ index = 0 then guardedEntry else 0 := by
  unfold guardedMem
  rw [entryAt_linkMem (by decide) (by decide) aligned (by decide) bound (by decide),
    entryAt_blank, ite_self]

theorem guardedMem_tree : Tree guardedMem 4096 := by
  refine @Tree.link _ 4096 [] 4096 0 8192 guardedEntry (tree_blank (by decide))
    ⟨by decide, by decide⟩ rfl
    (by decide) (by decide) ?_ (by decide) (by decide) (by decide) (by decide)
  rintro ⟨path, _, reached⟩
  rw [frameAt_blank reached] at reached
  cases reached

theorem guarded_supplied {table index : Nat} {machine : Machine}
    (entries : ∀ other slot, other = 4096 ∨ other = 8192 → slot < 512 →
      entryAt machine.mem other slot = entryAt guardedMem other slot)
    (took : (Pmm.allocPage machine.pmm).1 ≠ 4096 ∧ (Pmm.allocPage machine.pmm).1 ≠ 8192) :
    Supplied 4096 table index machine := by
  intro _ inside
  have known := guarded_tables ?_ ?_ _ inside
  · rcases known with first | second
    · exact took.1 first
    · exact took.2 second
  · intro slot bound
    rw [entries 4096 slot (.inl rfl) bound, guardedMem_entries 4096 slot (by decide) bound]
    simp
  · intro slot bound
    rw [entries 8192 slot (.inr rfl) bound, guardedMem_entries 8192 slot (by decide) bound]
    simp

/-- The new tables hang off another address, and the page stays unmapped. -/
theorem mapAll_misses :
    Tree guardedMem 4096 ∧
      EachCall (OnWay (Supplied 4096) 4096) 4096 [smallCall] (bootMachine guardedMem 7) ∧
      ∃ after, mapAll 4096 [smallCall] (bootMachine guardedMem 7) = some after ∧
        leafWord after.mem 4096 0x400000 = 0 ∧ smallCall.word = 0x5003 := by
  have present : flagged (entryAt (bootMachine guardedMem 7).mem 4096 0) ptePresent = true := by
    decide +kernel
  have stays := @ensureTableEntry_present smallCall.user _ _ _ present
  refine ⟨guardedMem_tree, ⟨?_, fun _ _ => trivial⟩, _, rfl, ?_, by decide⟩
  · unfold OnWay
    rw [show tableIndices smallCall.virt = [0, 0, 2] by decide]
    refine ⟨?_, ?_, ?_, trivial⟩
    · exact guarded_supplied (fun _ _ _ _ => rfl) (by decide +kernel)
    · rw [stays]
      exact guarded_supplied (fun _ _ _ _ => rfl) (by decide +kernel)
    · refine guarded_supplied ?_ (by decide +kernel)
      rw [stays, ensureTableEntry_absent (by decide +kernel) rfl]
      intro other slot known bound
      have apart : other ≠ 2 ^ 63 + 8192 ∧ other ≠ 12288 := by omega
      have next : nextTable smallCall.user 4096 0 (bootMachine guardedMem 7) = 2 ^ 63 + 8192 := by
        decide +kernel
      rw [next]
      show entryAt (linkMem guardedMem _ _ _ _) other slot = _
      rw [entryAt_linkMem (by decide) (by decide +kernel) (by omega) (by decide) bound
        (by decide +kernel), if_neg (fun same => apart.1 same.1), if_neg]
      exact apart.2
  · decide +kernel

end Synx.Paging
