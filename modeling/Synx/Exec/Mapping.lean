/-
What `map_user_page` does to the user's view of a space.
-/

import Synx.Exec.Edits

namespace Synx.Exec

open Lib Program List Option
open Pmm (pageSize bitmapGet)
open Paging

/-- The access bits of a leaf. -/
structure Access where
  writable : Bool
  noExecute : Bool
  deriving DecidableEq, Repr

def accessOf (entry : Nat) : Access := ⟨flagged entry pteWritable, flagged entry pteNx⟩

def accessAt (mem : Memory) (root virtualAddress : Nat) : Option Access :=
  (leafAt mem root virtualAddress).map accessOf

/-- The access of a page after it has been mapped with more flags. -/
def widen (old : Option Access) (flags : Nat) : Access :=
  match old with
  | none => accessOf flags
  | some access => ⟨access.writable || flagged flags pteWritable,
      access.noExecute && flagged flags pteNx⟩

/-- The user sees the same pages with the same bytes. -/
structure SameView (before after : Memory) (root : Nat) : Prop where
  leaf : ∀ address, address < userTop → leafAt after root address = leafAt before root address
  byte : ∀ address, address < userTop → userByte after root address = userByte before root address

theorem SameView.refl (mem : Memory) (root : Nat) : SameView mem mem root :=
  ⟨fun _ _ => rfl, fun _ _ => rfl⟩

variable {root entry phys : Nat} {path : List Nat} {machine after start : Machine}

theorem SameView.trans {first second third : Memory} (one : SameView first second root)
    (two : SameView second third root) : SameView first third root :=
  ⟨fun address user => (two.leaf address user).trans (one.leaf address user),
    fun address user => (two.byte address user).trans (one.byte address user)⟩

/-- The page of an address is mapped, all else is as before. -/
structure Maps (before after : Memory) (root virtualAddress flags : Nat) : Prop where
  access : ∀ address, address < userTop →
    accessAt after root address =
      if address / 4096 = virtualAddress / 4096 then
        some (widen (accessAt before root address) flags)
      else accessAt before root address
  byte : ∀ address, address < userTop →
    userByte after root address =
      if address / 4096 = virtualAddress / 4096 then
        some ((userByte before root address).getD 0)
      else userByte before root address

/-! ### Entries that are stored -/

theorem Space.links {mem : Memory} (space : Space mem root) {table index : Nat}
    (low : LowPath (path ++ [index])) (reached : frameAt mem root path = some table)
    (present : flagged (entryAt mem table index) ptePresent = true) :
    Links (entryAt mem table index) (pteAddress (entryAt mem table index)) :=
  have clean := space.clean path table index low reached present
  ⟨present, clean.2, clean.1, rfl, entryAt_lt mem table index⟩

theorem Links.or_user (links : Links entry phys) : Links (entry ||| pteUser) phys := by
  refine
    { present := ?_
      user := ?_
      notLarge := ?_
      address := ?_
      word := Nat.or_lt_two_pow links.word (by decide) }
  · rw [flagged_or, links.present, Bool.true_or]
  · rw [flagged_or, links.user, Bool.true_or]
  · rw [flagged_or, links.notLarge]
    rfl
  · rw [pteAddress_or, links.address]
    exact Nat.or_zero phys

private theorem flagged_and_writable (flags flag : Nat) (apart : pteWritable &&& flag = 0) :
    flagged (flags &&& pteWritable) flag = false := by
  unfold flagged
  rw [Nat.and_assoc, apart, Nat.and_zero]
  rfl

theorem flagged_writable_widened (leaf flags : Nat) :
    flagged (leaf ||| (flags &&& pteWritable)) pteWritable =
      (flagged leaf pteWritable || flagged flags pteWritable) := by
  rw [flagged_or]
  congr 1
  unfold flagged
  rw [Nat.and_assoc, Nat.and_self]

theorem Links.or_writable (links : Links entry phys) (flags : Nat) :
    Links (entry ||| (flags &&& pteWritable)) phys := by
  refine
    { present := ?_
      user := ?_
      notLarge := ?_
      address := ?_
      word := Nat.or_lt_two_pow links.word (lt_of_le_of_lt Nat.and_le_right (by decide)) }
  · rw [flagged_or, links.present, Bool.true_or]
  · rw [flagged_or, links.user, Bool.true_or]
  · rw [flagged_or, links.notLarge, flagged_and_writable flags pteLarge (by decide)]
    rfl
  · have none : pteAddress (flags &&& pteWritable) = 0 := by
      unfold pteAddress
      rw [Nat.and_assoc]
      exact Nat.and_zero flags
    rw [pteAddress_or, links.address, none, Nat.or_zero]

private theorem clearNx_and (entry mask : Nat) (kept : (2 ^ 64 - 1 - pteNx) &&& mask = mask) :
    clearNx entry &&& mask = entry &&& mask := by
  unfold clearNx
  rw [Nat.and_assoc, kept]

theorem flagged_clearNx (entry flag : Nat) (kept : (2 ^ 64 - 1 - pteNx) &&& flag = flag) :
    flagged (clearNx entry) flag = flagged entry flag := by
  unfold flagged
  rw [clearNx_and entry flag kept]

theorem flagged_clearNx_pteNx (entry : Nat) : flagged (clearNx entry) pteNx = false := by
  unfold flagged clearNx
  rw [Nat.and_assoc]
  exact congrArg (· != 0) (Nat.and_zero entry)

theorem Links.clearNx (links : Links entry phys) : Links (clearNx entry) phys := by
  refine
    { present := (flagged_clearNx entry _ (by decide)).trans links.present
      user := (flagged_clearNx entry _ (by decide)).trans links.user
      notLarge := (flagged_clearNx entry _ (by decide)).trans links.notLarge
      address := ?_
      word := lt_of_le_of_lt Nat.and_le_left links.word }
  rw [← links.address]
  exact clearNx_and entry pteAddressMask (by decide)

theorem Links.mergedLeaf {leaf : Nat} (links : Links leaf phys) (flags : Nat) :
    Links (mergedLeaf leaf flags) phys := by
  unfold Exec.mergedLeaf
  simp only
  split
  · exact links.or_writable flags
  · exact (links.or_writable flags).clearNx

theorem accessOf_mergedLeaf (leaf flags : Nat) :
    accessOf (mergedLeaf leaf flags) = widen (some (accessOf leaf)) flags := by
  have noExecute : flagged (leaf ||| (flags &&& pteWritable)) pteNx = flagged leaf pteNx := by
    rw [flagged_or, flagged_and_writable flags pteNx (by decide), Bool.or_false]
  unfold mergedLeaf accessOf widen
  cases nx : flagged flags pteNx with
  | true => simp only [if_true, flagged_writable_widened, noExecute, Bool.and_true]
  | false =>
    simp only [Bool.false_eq_true, if_false, flagged_clearNx_pteNx, Bool.and_false]
    rw [flagged_clearNx _ pteWritable (by decide), flagged_writable_widened]

/-- Flags that `map_user_page` may be given. -/
def LeafFlags (flags : Nat) : Prop := OpenFlags (ptePresent ||| pteUser ||| flags)

theorem accessOf_newLeaf {flags : Nat} (frame : Frame phys) :
    accessOf (phys ||| (ptePresent ||| pteUser ||| flags)) = accessOf flags := by
  have writable : flagged phys pteWritable = false :=
    flagged_frame_low phys 1 frame.aligned (by decide)
  have noExecute : flagged phys pteNx = false := flagged_frame_high phys 63 frame.small (by decide)
  unfold accessOf
  simp only [flagged_or, writable, noExecute]
  rfl

/-! ### The allocation step -/

/-- The machine between the allocation of a page and its use. -/
def Machine.zeroed (machine : Machine) (page : Nat) : Machine :=
  (({ machine with pmm := machine.pmm.take page 1 }).record (.took (page * pageSize))).zeroPage
    (page * pageSize)

/-- What `allocate_zeroed_page` returned from a machine. -/
inductive Allocated (machine : Machine) : Nat → Machine → Prop
  | none {pmm : Pmm.State} (failed : Pmm.allocPage machine.pmm = (0, pmm)) :
      Allocated machine 0 { machine with pmm := pmm }
  | page {page : Nat} (inside : page < machine.pmm.totalPages)
      (clear : bitmapGet machine.pmm.bitmap page = false) (nonzero : page ≠ 0) :
      Allocated machine (page * pageSize) (machine.zeroed page)

theorem Allocated.failed (allocated : Allocated machine phys after) (zero : phys = 0) (root : Nat) :
    Edit root machine after := by
  cases allocated with
  | none failed => exact Edit.exhausted failed
  | page inside clear nonzero =>
    unfold pageSize at zero
    omega

/-- Every page is in use. -/
def Full (machine : Machine) : Prop :=
  ∀ page < machine.pmm.totalPages, bitmapGet machine.pmm.bitmap page = true

/-- No page is left.  The address of page 0 is what the allocator returns when it fails, so
this page must have been in use from the start. -/
def Starved (start machine : Machine) : Prop :=
  bitmapGet start.pmm.bitmap 0 = true → Full machine

theorem Allocated.starved (allocated : Allocated machine phys after) (zero : phys = 0)
    (used : bitmapGet start.pmm.bitmap 0 = true → bitmapGet machine.pmm.bitmap 0 = true) :
    Starved start after := by
  cases allocated with
  | none failed =>
    intro reserved
    rcases Pmm.allocPage_cases machine.pmm with ⟨same, full⟩ | ⟨page, _, clear, taken⟩
    · rw [same] at failed
      obtain ⟨_, rfl⟩ := Prod.mk.inj failed
      exact full
    · rw [taken] at failed
      have first : page = 0 := by
        have zero := (Prod.mk.inj failed).1
        unfold pageSize at zero
        omega
      rw [first, used reserved] at clear
      cases clear
  | page inside clear nonzero =>
    unfold pageSize at zero
    omega

theorem Allocated.taken (allocated : Allocated machine phys after) (got : phys ≠ 0) :
    ∃ page, phys = page * pageSize ∧ page < machine.pmm.totalPages ∧
      bitmapGet machine.pmm.bitmap page = false ∧ page ≠ 0 ∧ after = machine.zeroed page := by
  cases allocated with
  | none failed => exact absurd rfl got
  | @page page inside clear nonzero => exact ⟨page, rfl, inside, clear, nonzero, rfl⟩

theorem allocateZeroedPage_triple {holds : Machine → Prop} {stopped : Unit → Machine → Prop} :
    Triple holds allocateZeroedPage
      (fun phys after => ∃ machine, holds machine ∧ Allocated machine phys after) stopped := by
  intro machine start
  rcases Pmm.allocPage_cases machine.pmm with ⟨failed, _⟩ | ⟨page, inside, clear, taken⟩
  · unfold Program.run allocateZeroedPage
    simp only [failed, if_true]
    exact ⟨machine, start, Allocated.none failed⟩
  · by_cases zero : page = 0
    · subst zero
      unfold Program.run allocateZeroedPage
      simp only [taken, zero_mul, if_true]
      exact ⟨machine, start, Allocated.none taken⟩
    · have got : page * pageSize ≠ 0 := Nat.mul_ne_zero zero (by decide)
      unfold Program.run allocateZeroedPage
      simp only [taken, got, if_false]
      exact ⟨machine, start, Allocated.page inside clear zero⟩

/-! ### The three upper levels -/

/-- Only tables have been added or opened since `start`. -/
def Opened (start : Machine) (root : Nat) (machine : Machine) : Prop :=
  Edits root start machine ∧ SameView start.mem machine.mem root

theorem Opened.step (opened : Opened start root machine) (edit : Edit root machine after)
    (same : SameView machine.mem after.mem root) : Opened start root after :=
  ⟨opened.1.tail edit, opened.2.trans same⟩

private theorem page_ne_table (short : path.length < 3) (index address : Nat) :
    pageIndices address ≠ path ++ [index] := by
  intro same
  have lengths := congrArg List.length same
  rw [pageIndices_length, length_append, length_singleton] at lengths
  omega

section OpenTables

variable {machine : Machine} {root : Nat} {path : List Nat} {table index : Nat}
  (live : Live machine root) (low : LowPath (path ++ [index])) (short : path.length < 3)
  (reached : frameAt machine.mem root path = some table)

include live low short reached

theorem sameView_linked {page flags : Nat}
    (empty : flagged (entryAt machine.mem table index) ptePresent = false)
    (inside : page < machine.pmm.totalPages)
    (clear : bitmapGet machine.pmm.bitmap page = false) (nonzero : page ≠ 0)
    (opens : OpenFlags flags) : SameView machine.mem
      (machine.linked table index page (page * pageSize ||| flags)).mem root := by
  have frame := frame_of_page live.addressable inside nonzero
  have fresh := live.newFrame clear
  constructor
  · intro address user
    refine (live.space.leafAt_linkMem low reached empty fresh frame (frame.links opens) address
      user).trans ?_
    rw [if_neg (page_ne_table short index address)]
  · intro address user
    refine (live.space.userByte_linkMem low reached empty fresh frame (frame.links opens) address
      user).trans ?_
    rw [if_neg (page_ne_table short index address)]

theorem sameView_relabel {entry : Nat}
    (present : flagged (entryAt machine.mem table index) ptePresent = true)
    (links : Links entry (pteAddress (entryAt machine.mem table index))) :
    SameView machine.mem (machine.writeWord (entryAddress table index) entry).mem root := by
  constructor
  · intro address user
    refine (live.space.leafAt_relabel low reached present links address user).trans ?_
    rw [if_neg (page_ne_table short index address)]
  · intro address user
    exact live.space.userByte_relabel low reached present links address user

end OpenTables

theorem openFlags_table : OpenFlags (ptePresent ||| pteWritable ||| pteUser) := by
  constructor <;> decide

theorem LowPath.initial {rest : List Nat} (low : LowPath (path ++ rest)) : LowPath path := by
  have taken := low.take path.length
  rwa [take_left] at taken

theorem openTables_triple (live : Live start root) (rest : List Nat) (path : List Nat) (table : Nat)
    (low : LowPath (path ++ rest)) (three : (path ++ rest).length = 3) : Triple
      (fun machine => Opened start root machine ∧ frameAt machine.mem root path = some table)
      (openTables table rest) (fun found machine =>
        Opened start root machine ∧ frameAt machine.mem root (path ++ rest) = some found)
      (fun _ machine => Edits root start machine ∧ Starved start machine) := by
  -- one level of the walk per round; the invariant is that only tables were touched
  induction rest generalizing path table with
  | nil =>
    apply Triple.pure
    intro machine holds
    rw [append_nil]
    exact holds
  | cons index rest ih =>
    have split : path ++ index :: rest = path ++ [index] ++ rest := by simp
    rw [split] at low three ⊢
    have lowHere : LowPath (path ++ [index]) := low.initial
    have short : path.length < 3 := by
      simp only [length_append, length_singleton] at three
      omega
    unfold openTables
    apply Triple.bind (fun entry machine =>
      (Opened start root machine ∧ frameAt machine.mem root path = some table) ∧
        entry = entryAt machine.mem table index)
    · exact Triple.gets _ (fun machine holds => ⟨holds, rfl⟩)
    intro entry
    apply Triple.ite
    · intro present
      apply Triple.ite
      · intro large
        apply Triple.stop
        rintro machine ⟨⟨opened, reached⟩, rfl⟩
        have clean := ((opened.1.live live).space.clean path table index lowHere reached present).1
        cases clean.symm.trans large
      · intro _
        apply Triple.bind (fun _ machine =>
          Opened start root machine ∧
            frameAt machine.mem root (path ++ [index]) = some (pteAddress (entry ||| pteUser)))
        · apply Triple.modify
          rintro machine ⟨⟨opened, reached⟩, rfl⟩
          have now := opened.1.live live
          have links := (now.space.links lowHere reached present).or_user
          refine ⟨opened.step (Edit.relabel lowHere reached present links)
            (sameView_relabel now lowHere short reached present links), ?_⟩
          refine (now.space.frameAt_relabel lowHere reached present links _ lowHere).trans ?_
          rw [frameAt_snoc_eq_some, links.address]
          refine ⟨table, reached, ?_⟩
          rw [now.space.nextFrame_eq lowHere reached, if_pos present]
        · intro _
          exact ih (path ++ [index]) _ low three
    · intro absent
      rw [Bool.not_eq_true] at absent
      apply Triple.bind _ allocateZeroedPage_triple
      intro phys
      apply Triple.ite
      · intro zero
        apply Triple.stop
        rintro after ⟨machine, ⟨⟨opened, _⟩, _⟩, allocated⟩
        exact ⟨opened.1.tail (allocated.failed zero root), allocated.starved zero opened.1.used⟩
      · intro got
        apply Triple.bind (fun _ machine =>
          Opened start root machine ∧
            frameAt machine.mem root (path ++ [index]) =
              some (pteAddress (phys ||| ptePresent ||| pteWritable ||| pteUser)))
        · apply Triple.modify
          rintro after ⟨machine, ⟨⟨opened, reached⟩, rfl⟩, allocated⟩
          obtain ⟨page, rfl, inside, clear, nonzero, rfl⟩ := allocated.taken got
          have now := opened.1.live live
          have flagsEq : page * pageSize ||| ptePresent ||| pteWritable ||| pteUser =
              page * pageSize ||| (ptePresent ||| pteWritable ||| pteUser) := by
            rw [Nat.or_assoc, Nat.or_assoc, Nat.or_assoc]
          rw [flagsEq]
          have links := (frame_of_page now.addressable inside nonzero).links openFlags_table
          refine ⟨opened.step
            (Edit.link lowHere reached absent inside clear nonzero openFlags_table)
            (sameView_linked now lowHere short reached absent inside clear nonzero
              openFlags_table), ?_⟩
          refine (now.frameAt_linked lowHere reached absent inside clear nonzero openFlags_table
            _ lowHere).trans ?_
          rw [if_pos rfl, links.address]
        · intro _
          exact ih (path ++ [index]) _ low three

/-! ### Mapping a page -/

theorem leafAt_page {mem : Memory} {left right : Nat}
    (same : pageIndices left = pageIndices right) :
    leafAt mem root left = leafAt mem root right := by
  rw [pageIndices_eq, pageIndices_eq] at same
  obtain ⟨tables, leaf⟩ := Trie.snoc_inj same
  unfold leafAt
  rw [tables, leaf]

theorem maps_of_leaf {before middle after : Memory} {virtualAddress flags : Nat}
    (user : virtualAddress < userTop) (same : SameView before middle root)
    (leaf : ∀ address < userTop, leafAt after root address =
      if pageIndices address = pageIndices virtualAddress then some entry
      else leafAt middle root address)
    (byte : ∀ address < userTop, userByte after root address =
      if pageIndices address = pageIndices virtualAddress then
        some ((userByte middle root address).getD 0)
      else userByte middle root address)
    (access : accessOf entry = widen ((leafAt middle root virtualAddress).map accessOf) flags) :
    Maps before after root virtualAddress flags := by
  constructor
  · intro address inside
    unfold accessAt
    rw [leaf address inside, ← same.leaf address inside]
    simp only [pageIndices_inj address virtualAddress inside user]
    by_cases here : address / 4096 = virtualAddress / 4096
    · have samePage := (pageIndices_inj address virtualAddress inside user).mpr here
      rw [if_pos here, if_pos here, map_some, access, leafAt_page samePage]
    · rw [if_neg here, if_neg here]
  · intro address inside
    rw [byte address inside, same.byte address inside]
    simp only [pageIndices_inj address virtualAddress inside user]

theorem mapUserPage_triple (live : Live start root) (virtualAddress flags : Nat)
    (user : virtualAddress < userTop) (given : LeafFlags flags) :
    Triple (· = start) (mapUserPage root virtualAddress flags)
      (fun _ machine => Edits root start machine ∧
        Maps start.mem machine.mem root virtualAddress flags)
      (fun _ machine => Edits root start machine ∧ Starved start machine) := by
  have low := pageIndices_user virtualAddress user
  rw [pageIndices_eq] at low
  unfold mapUserPage
  rw [if_neg (not_le.mpr (rootIndex_lt virtualAddress user))]
  apply Triple.bind _ ((openTables_triple live (tableIndices virtualAddress) [] root
    low.parent (tableIndices_length virtualAddress)).weaken ?_ (fun _ _ holds => holds)
    (fun _ _ holds => holds))
  swap
  · rintro machine rfl
    exact ⟨⟨.refl, .refl _ _⟩, rfl⟩
  intro table
  simp only [nil_append]
  apply Triple.bind (fun leaf machine =>
    (Opened start root machine ∧
      frameAt machine.mem root (tableIndices virtualAddress) = some table) ∧
      leaf = entryAt machine.mem table (leafIndex virtualAddress))
  · exact Triple.gets _ (fun machine holds => ⟨holds, rfl⟩)
  intro leaf
  apply Triple.ite
  · -- the page is mapped: its access is widened
    intro present
    apply Triple.modify
    rintro machine ⟨⟨opened, reached⟩, rfl⟩
    have now := opened.1.live live
    have links := (now.space.links low reached present).mergedLeaf flags
    have old : leafAt machine.mem root virtualAddress =
        some (entryAt machine.mem table (leafIndex virtualAddress)) := by
      unfold leafAt
      rw [reached, bind_some]
      exact if_pos present
    refine ⟨opened.1.tail (Edit.relabel low reached present links), maps_of_leaf user opened.2
        (now.space.leafAt_relabel low reached present links) ?_ ?_⟩
    · intro address inside
      refine (now.space.userByte_relabel low reached present links address inside).trans ?_
      split
      · rename_i here
        unfold userByte
        rw [leafAt_page here, old]
        rfl
      · rfl
    · rw [old, map_some, accessOf_mergedLeaf]
  · -- the page is new
    intro absent
    rw [Bool.not_eq_true] at absent
    apply Triple.bind _ allocateZeroedPage_triple
    intro phys
    apply Triple.ite
    · intro zero
      apply Triple.stop
      rintro after ⟨machine, ⟨⟨opened, _⟩, _⟩, allocated⟩
      exact ⟨opened.1.tail (allocated.failed zero root), allocated.starved zero opened.1.used⟩
    · intro got
      apply Triple.modify
      rintro after ⟨machine, ⟨⟨opened, reached⟩, rfl⟩, allocated⟩
      obtain ⟨page, rfl, inside, clear, nonzero, rfl⟩ := allocated.taken got
      have now := opened.1.live live
      have frame := frame_of_page now.addressable inside nonzero
      have links := frame.links given
      have flagsEq : page * pageSize ||| ptePresent ||| pteUser ||| flags =
          page * pageSize ||| (ptePresent ||| pteUser ||| flags) := by
        rw [Nat.or_assoc, Nat.or_assoc, Nat.or_assoc]
      rw [flagsEq]
      have old : leafAt machine.mem root virtualAddress = none := by
        unfold leafAt
        rw [reached, bind_some]
        simp only [absent, Bool.false_eq_true, if_false]
      refine ⟨opened.1.tail (Edit.link low reached absent inside clear nonzero given),
        maps_of_leaf user opened.2
          (now.space.leafAt_linkMem low reached absent (now.newFrame clear) frame links) ?_ ?_⟩
      · intro address user'
        refine (now.space.userByte_linkMem low reached absent (now.newFrame clear) frame links
          address user').trans ?_
        rw [← pageIndices_eq]
        split
        · rename_i here
          unfold userByte
          rw [leafAt_page here, old]
          rfl
        · rfl
      · rw [old, map_none, accessOf_newLeaf frame]
        rfl

end Synx.Exec
