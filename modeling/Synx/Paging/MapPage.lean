/-
`paging::map_page` of `mem/paging.cpp` and where it writes.
-/

import Synx.Exec.PageTree

namespace Synx.Paging

open Lib Memory List
open Exec

/-! ### The code -/

/-- `entry & ~0xFFF`, where the mask is extended to 64 bits. -/
def tableOf (entry : Nat) : Nat := entry &&& (2 ^ 64 - 4096)

def tableFlags (userAccessible : Bool) : Nat :=
  ptePresent ||| pteWritable ||| (if userAccessible then pteUser else 0)

def ensureTableEntry (userAccessible : Bool) (table index : Nat) (machine : Machine) : Machine :=
  if flagged (entryAt machine.mem table index) ptePresent then machine
  else
    let (newPhys, pmm) := Pmm.allocPage machine.pmm
    let machine := (({ machine with pmm := pmm }).record (.took newPhys)).zeroPage newPhys
    machine.writeWord (entryAddress table index) (newPhys ||| tableFlags userAccessible)

def nextTable (user : Bool) (table index : Nat) (machine : Machine) : Nat :=
  tableOf (entryAt (ensureTableEntry user table index machine).mem table index)

def ensureTables (user : Bool) : Nat → List Nat → Machine → Nat × Machine
  | table, [], machine => (table, machine)
  | table, index :: rest, machine =>
    ensureTables user (nextTable user table index machine) rest
      (ensureTableEntry user table index machine)

/-- There is no result if `pml4_base` is not set: the kernel panics. -/
def mapPage (pml4Base virt phys flags : Nat) (machine : Machine) : Option Machine :=
  if pml4Base = 0 then none
  else
    let (pt, machine) :=
      ensureTables (flagged flags pteUser) pml4Base (tableIndices virt) machine
    some (machine.writeWord (entryAddress pt (leafIndex virt)) (phys ||| flags))

variable {phys entry index other otherIndex : Nat} {machine : Machine} {mem : Memory}

theorem mapPage_some {pml4Base virt flags : Nat} {after : Machine}
    (mapped : mapPage pml4Base virt phys flags machine = some after) : ∃ pt before,
      ensureTables (flagged flags pteUser) pml4Base (tableIndices virt) machine = (pt, before) ∧
      after = before.writeWord (entryAddress pt (leafIndex virt)) (phys ||| flags) := by
  unfold mapPage at mapped
  split at mapped
  · cases mapped
  · exact ⟨_, _, rfl, (Option.some.inj mapped).symm⟩

/-! ### Entries -/

theorem tableOf_eq (word : entry < 2 ^ 64) : tableOf entry = entry / 4096 * 4096 := by
  have mask : 2 ^ 64 - 4096 = (2 ^ 52 - 1) <<< 12 := by decide
  unfold tableOf
  apply Nat.eq_of_testBit_eq
  intro position
  rw [mask, Nat.testBit_and, Nat.testBit_shiftLeft, Nat.testBit_two_pow_sub_one, mul_comm,
    show (4096 : Nat) = 2 ^ 12 by decide, Nat.testBit_two_pow_mul, Nat.testBit_div_two_pow]
  by_cases low : 12 ≤ position
  · rw [Nat.sub_add_cancel low]
    by_cases high : position - 12 < 52
    · simp [low, high]
    · have outside : entry.testBit position = false :=
        Nat.testBit_eq_false_of_lt
          (lt_of_lt_of_le word (Nat.pow_le_pow_right (by decide) (by omega)))
      simp [outside]
  · simp [low]

theorem tableOf_eq_pteAddress_iff (word : entry < 2 ^ 64) :
    tableOf entry = pteAddress entry ↔ entry < 2 ^ 52 := by
  rw [tableOf_eq word, pteAddress_eq]
  omega

/-- An entry that the kernel makes for a frame. -/
structure Made (phys entry : Nat) : Prop where
  present : flagged entry ptePresent = true
  notLarge : flagged entry pteLarge = false
  address : pteAddress entry = phys
  small : entry < 2 ^ 52

section

variable {phys entry : Nat}

theorem Made.word (made : Made phys entry) : entry < 2 ^ 64 :=
  lt_trans made.small (by decide)

theorem Made.table (made : Made phys entry) : tableOf entry = phys := by
  rw [(tableOf_eq_pteAddress_iff made.word).mpr made.small, made.address]

theorem made_tableFlags (aligned : phys % 4096 = 0) (small : phys < 2 ^ 52) (user : Bool) :
    Made phys (phys ||| tableFlags user) := by
  have few : tableFlags user < 2 ^ 52 := by cases user <;> decide
  have present : flagged (tableFlags user) ptePresent = true := by cases user <;> decide
  have large : flagged (tableFlags user) pteLarge = false := by cases user <;> decide
  have address : pteAddress (tableFlags user) = 0 := by cases user <;> decide
  refine ⟨?_, ?_, ?_, Nat.or_lt_two_pow small few⟩
  · rw [flagged_or, present, Bool.or_true]
  · rw [flagged_or, large, Bool.or_false]
    exact flagged_frame_low phys 7 aligned (by decide)
  · rw [pteAddress_or, address, Nat.or_zero]
    exact pteAddress_of_frame phys aligned small

end

theorem entryAt_write {table value : Nat} (tableAligned : table % 4096 = 0)
    (otherAligned : other % 4096 = 0) (bound : index < 512) (otherBound : otherIndex < 512)
    (word : value < 2 ^ 64) :
    entryAt (writeWord mem (entryAddress table index) value) other otherIndex =
      if other = table ∧ otherIndex = index then value else entryAt mem other otherIndex := by
  unfold entryAt
  by_cases here : other = table ∧ otherIndex = index
  · rw [if_pos here, here.1, here.2, readWord_writeWord_of_lt _ _ _ word]
  · rw [if_neg here]
    apply readWord_writeWord_of_ne
    unfold entryAddress
    omega

theorem entryAt_linkMem {table : Nat} (tableAligned : table % 4096 = 0)
    (physAligned : phys % 4096 = 0) (otherAligned : other % 4096 = 0) (bound : index < 512)
    (otherBound : otherIndex < 512) (word : entry < 2 ^ 64) :
    entryAt (linkMem mem table index phys entry) other otherIndex =
      if other = table ∧ otherIndex = index then entry
      else if other = phys then 0 else entryAt mem other otherIndex := by
  unfold linkMem
  rw [entryAt_write tableAligned otherAligned bound otherBound word]
  unfold entryAt entryAddress
  by_cases fresh : other = phys
  · rw [if_pos fresh, fresh, readWord_fill_zero mem phys 4096 _ ⟨by omega, by omega⟩]
  · rw [if_neg fresh, readWord_fill_of_ne mem phys 4096 0 _ (by omega)]

theorem allocPage_frame {pmm after : Pmm.State} (addressable : pmm.totalPages ≤ 2 ^ 40)
    (took : Pmm.allocPage pmm = (phys, after)) :
    phys % 4096 = 0 ∧ phys < 2 ^ 52 ∧ after.totalPages = pmm.totalPages := by
  rcases Pmm.allocPage_cases pmm with ⟨full, _⟩ | ⟨page, inside, _, found⟩
  · cases took.symm.trans full
    exact ⟨rfl, by decide, rfl⟩
  · cases took.symm.trans found
    unfold Pmm.pageSize
    exact ⟨by omega, by omega, rfl⟩

section

variable {user : Bool} {table index : Nat} {machine : Machine}

theorem ensureTableEntry_present (present : flagged (entryAt machine.mem table index) ptePresent =
    true) :
    ensureTableEntry user table index machine = machine := if_pos present

theorem ensureTableEntry_absent (absent : flagged (entryAt machine.mem table index) ptePresent =
    false)
    {phys : Nat} {pmm : Pmm.State} (took : Pmm.allocPage machine.pmm = (phys, pmm)) :
    ensureTableEntry user table index machine =
      { mem := linkMem machine.mem table index phys (phys ||| tableFlags user)
        pmm := pmm
        log := .wrote (entryAddress table index) 8 :: .wrote phys 4096 :: .took phys :: machine.log
          } := by
  unfold ensureTableEntry
  rw [absent, took]
  rfl

theorem ensureTableEntry_totalPages (addressable : machine.pmm.totalPages ≤ 2 ^ 40) :
    (ensureTableEntry user table index machine).pmm.totalPages = machine.pmm.totalPages := by
  cases present : flagged (entryAt machine.mem table index) ptePresent with
  | true => rw [ensureTableEntry_present present]
  | false =>
    rw [ensureTableEntry_absent present rfl]
    exact (allocPage_frame addressable rfl).2.2

end

/-! ### The walk -/

/-- Every step of the walk has a property, in the state in which it is made. -/
def Along (step : Nat → Nat → Machine → Prop) (user : Bool) : Nat → List Nat → Machine → Prop
  | _, [], _ => True
  | table, index :: rest, machine =>
    step table index machine ∧
      Along step user (nextTable user table index machine) rest
        (ensureTableEntry user table index machine)

theorem along_iff {one two : Nat → Nat → Machine → Prop} {user : Bool} {table : Nat}
    {indices : List Nat} {machine : Machine} (addressable : machine.pmm.totalPages ≤ 2 ^ 40)
    (same : ∀ table index machine, machine.pmm.totalPages ≤ 2 ^ 40 →
      (one table index machine ↔ two table index machine)) :
    Along one user table indices machine ↔ Along two user table indices machine := by
  induction indices generalizing table machine with
  | nil => exact Iff.rfl
  | cons index rest ih =>
    have later : (ensureTableEntry user table index machine).pmm.totalPages ≤ 2 ^ 40 := by
      rw [ensureTableEntry_totalPages addressable]
      exact addressable
    exact and_congr (same table index machine addressable) (ih later)

/-- The table that is walked to is the one that the processor finds behind the entry, and not
frame 0. -/
def Follows (user : Bool) (table index : Nat) (machine : Machine) : Prop :=
  nextFrame (ensureTableEntry user table index machine).mem table index =
      some (nextTable user table index machine) ∧
    nextTable user table index machine ≠ 0

/-- The entry links a table other than frame 0 and has no bit above the address, or it is not
present and there is a free frame. -/
def Clear (table index : Nat) (machine : Machine) : Prop :=
  if flagged (entryAt machine.mem table index) ptePresent then
    flagged (entryAt machine.mem table index) pteLarge = false ∧
      entryAt machine.mem table index < 2 ^ 52 ∧ 4096 ≤ entryAt machine.mem table index
  else (Pmm.allocPage machine.pmm).1 ≠ 0

theorem follows_iff {user : Bool} {table : Nat} (addressable : machine.pmm.totalPages ≤ 2 ^ 40) :
    Follows user table index machine ↔ Clear table index machine := by
  unfold Follows Clear nextTable
  cases present : flagged (entryAt machine.mem table index) ptePresent with
  | true =>
    have word := entryAt_lt machine.mem table index
    rw [ensureTableEntry_present present, if_pos rfl, ← tableOf_eq_pteAddress_iff word,
      tableOf_eq word]
    simp only [nextFrame, present, Bool.true_and]
    cases large : flagged (entryAt machine.mem table index) pteLarge with
    | true => simp
    | false =>
      simp only [Bool.not_false, if_true, Option.some.injEq, true_and]
      refine and_congr eq_comm ?_
      omega
  | false =>
    rcases takes : Pmm.allocPage machine.pmm with ⟨phys, after⟩
    obtain ⟨aligned, small, _⟩ := allocPage_frame addressable takes
    have made := made_tableFlags aligned small user
    have stored := @linkMem_entry_same machine.mem table index phys _ made.word
    rw [ensureTableEntry_absent present takes]
    simp only [nextFrame, stored, made.present, made.notLarge, made.table, made.address,
      Bool.not_false, Bool.and_self, if_true, true_and, Bool.false_eq_true, if_false]

/-! ### The writes -/

def TablePath (path : List Nat) : Prop := path.length ≤ 3 ∧ ∀ index, index ∈ path → index < 512

theorem TablePath.front {path rest : List Nat} (valid : TablePath (path ++ rest)) :
    TablePath path := by
  have short := valid.1
  rw [length_append] at short
  exact ⟨by omega, fun index member => valid.2 index (mem_append_left _ member)⟩

def TreeTable (mem : Memory) (root table : Nat) : Prop :=
  ∃ path, TablePath path ∧ frameAt mem root path = some table

/-- A page of the tree or a frame that was taken. -/
def TablePage (start : Machine) (root : Nat) (events : List FrameEvent) (table : Nat) : Prop :=
  TreeTable start.mem root table ∨ (.took table ∈ events ∧ table ≠ 0)

/-- Every write is inside a page of the tree or a frame that was taken. -/
def WritesTables (start : Machine) (root : Nat) (events : List FrameEvent) : Prop :=
  ∀ address length, .wrote address length ∈ events →
    ∃ table, TablePage start root events table ∧ table ≤ address ∧ address + length ≤ table + 4096

/-- Where the walk has got to: a table of the old tree, or one that was made on the way.  The
tables that were made link only each other. -/
structure Reached (start : Machine) (root : Nat) (events : List FrameEvent) (path : List Nat)
    (table : Nat) (machine : Machine) : Prop where
  log : machine.log = events ++ start.log
  addressable : machine.pmm.totalPages ≤ 2 ^ 40
  aligned : table % 4096 = 0
  writes : WritesTables start root events
  place : (events = [] ∧ machine.mem = start.mem ∧ frameAt start.mem root path = some table) ∨
    .took table ∈ events
  closed : ∀ frame, .took frame ∈ events → frame % 4096 = 0 ∧ frame ≠ 0 ∧
    ∀ index, index < 512 → flagged (entryAt machine.mem frame index) ptePresent = true →
      .took (tableOf (entryAt machine.mem frame index)) ∈ events

section

variable {start machine : Machine} {root table index : Nat} {events : List FrameEvent}
  {path : List Nat} {user : Bool}

theorem Reached.page (reached : Reached start root events path table machine)
    (short : TablePath path) :
    TablePage start root events table := by
  rcases reached.place with ⟨_, _, found⟩ | taken
  · exact .inl ⟨path, short, found⟩
  · exact .inr ⟨taken, (reached.closed table taken).2.1⟩

theorem WritesTables.wrote {address length : Nat} (writes : WritesTables start root events)
    (page : TablePage start root events table) (above : table ≤ address)
    (below : address + length ≤ table + 4096) :
    WritesTables start root (.wrote address length :: events) := by
  intro other size member
  rcases mem_cons.mp member with same | earlier
  · cases same
    exact ⟨table, page.imp_right (fun taken => ⟨.tail _ taken.1, taken.2⟩), above, below⟩
  · obtain ⟨found, isPage, bounds⟩ := writes other size earlier
    exact ⟨found, isPage.imp_right (fun taken => ⟨.tail _ taken.1, taken.2⟩), bounds⟩

theorem Reached.step (reached : Reached start root events path table machine)
    (short : TablePath (path ++ [index])) (follows : Follows user table index machine) :
    ∃ events, Reached start root events (path ++ [index]) (nextTable user table index machine)
      (ensureTableEntry user table index machine) := by
  have bound : index < 512 := short.2 index (mem_append_right _ (mem_singleton_self _))
  have nextAligned : nextTable user table index machine % 4096 = 0 := by
    unfold nextTable
    rw [tableOf_eq (entryAt_lt _ _ _)]
    omega
  have later : (ensureTableEntry user table index machine).pmm.totalPages ≤ 2 ^ 40 := by
    rw [ensureTableEntry_totalPages reached.addressable]
    exact reached.addressable
  cases present : flagged (entryAt machine.mem table index) ptePresent with
  | true =>
    have same := @ensureTableEntry_present user table index machine present
    refine ⟨events, ?_, later, nextAligned, reached.writes, ?_, ?_⟩
    · rw [same]
      exact reached.log
    · rcases reached.place with ⟨none_, memory, found⟩ | taken
      · refine .inl ⟨none_, by rw [same, memory], ?_⟩
        have step := follows.1
        rw [same, memory] at step
        exact (frameAt_snoc_eq_some _ _ _ _ _).mpr ⟨table, found, step⟩
      · refine .inr ?_
        unfold nextTable
        rw [same]
        exact (reached.closed table taken).2.2 index bound present
    · rw [same]
      exact reached.closed
  | false =>
    rcases took : Pmm.allocPage machine.pmm with ⟨phys, pmm⟩
    obtain ⟨aligned, small, _⟩ := allocPage_frame reached.addressable took
    have made := made_tableFlags aligned small user
    have after := @ensureTableEntry_absent user table index machine present phys pmm took
    have isNext : nextTable user table index machine = phys := by
      unfold nextTable
      rw [after, linkMem_entry_same made.word, made.table]
    have nonzero : phys ≠ 0 := by
      rw [← isNext]
      exact follows.2
    have page : TablePage start root (.took phys :: events) table :=
      (reached.page short.front).imp_right (fun taken => ⟨.tail _ taken.1, taken.2⟩)
    have inside : WritesTables start root (.took phys :: events) := by
      intro other size member
      obtain ⟨found, isPage, bounds⟩ := reached.writes other size
        ((mem_cons.mp member).resolve_left nofun)
      exact ⟨found, isPage.imp_right (fun taken => ⟨.tail _ taken.1, taken.2⟩), bounds⟩
    have cleared := inside.wrote (.inr ⟨.head _, nonzero⟩) (Nat.le_refl phys) le_rfl
    have written := @WritesTables.wrote start root table _ (entryAddress table index) 8 cleared
      (page.imp_right (fun taken => ⟨.tail _ taken.1, taken.2⟩))
      (Nat.le_add_right _ _) (by unfold entryAddress; omega)
    have mem_took : ∀ frame, FrameEvent.took frame ∈ (.wrote (entryAddress table index) 8 ::
        .wrote phys 4096 :: .took phys :: events) ↔ frame = phys ∨ .took frame ∈ events := by
      intro frame
      simp only [mem_cons, reduceCtorEq, false_or, FrameEvent.took.injEq]
    refine ⟨_, by rw [after, reached.log]; rfl, later, nextAligned, written, .inr ?_, ?_⟩
    · rw [isNext, mem_took]
      exact .inl rfl
    · intro frame member
      rw [after]
      rw [mem_took] at member
      have known : frame % 4096 = 0 ∧ frame ≠ 0 := by
        rcases member with rfl | earlier
        · exact ⟨aligned, nonzero⟩
        · exact ⟨(reached.closed frame earlier).1, (reached.closed frame earlier).2.1⟩
      refine ⟨known.1, known.2, ?_⟩
      intro slot slotBound linked
      simp only at linked ⊢
      rw [entryAt_linkMem reached.aligned aligned known.1 bound slotBound made.word] at linked ⊢
      rw [mem_took]
      -- the new link, an entry of the cleared frame, or an old one
      by_cases here : frame = table ∧ slot = index
      · rw [if_pos here, made.table]
        exact .inl rfl
      · rw [if_neg here] at linked ⊢
        by_cases fresh : frame = phys
        · rw [if_pos fresh] at linked
          exact absurd linked (by decide)
        · rw [if_neg fresh] at linked ⊢
          exact .inr ((reached.closed frame (member.resolve_left fresh)).2.2 slot slotBound linked)

theorem Reached.walk {rest : List Nat} (reached : Reached start root events path table machine)
    (short : TablePath (path ++ rest)) (follows : Along (Follows user) user table rest machine) :
    ∃ events, Reached start root events (path ++ rest) (ensureTables user table rest machine).1
      (ensureTables user table rest machine).2 := by
  induction rest generalizing path table machine events with
  | nil =>
    rw [append_nil]
    exact ⟨events, reached⟩
  | cons index rest ih =>
    have whole : path ++ index :: rest = path ++ [index] ++ rest := by
      rw [append_assoc, singleton_append]
    rw [whole] at short ⊢
    obtain ⟨later, next⟩ := reached.step short.front follows.1
    exact ih next short follows.2

end

theorem tablePath_tableIndices (virt : Nat) : TablePath (tableIndices virt) := by
  refine ⟨Nat.le_refl 3, ?_⟩
  intro index member
  simp only [tableIndices, pageIndices, take_succ_cons, take_zero, mem_cons,
    not_mem_nil, or_false] at member
  omega

/-- The call walks through page tables only, and what it writes is in them. -/
structure OnlyTables (start : Machine) (root virt flags : Nat) (after : Machine) : Prop where
  follows :
    Along (Follows (flagged flags pteUser)) (flagged flags pteUser) root (tableIndices virt) start
  writes : ∃ events, after.log = events ++ start.log ∧ WritesTables start root events

/-- The call keeps to page tables exactly if every entry on its way is clear. -/
theorem mapPage_onlyTables_iff {start after : Machine} {root virt phys flags : Nat}
    (addressable : start.pmm.totalPages ≤ 2 ^ 40) (aligned : root % 4096 = 0)
    (mapped : mapPage root virt phys flags start = some after) :
    OnlyTables start root virt flags after ↔
      Along Clear (flagged flags pteUser) root (tableIndices virt) start := by
  have both := @along_iff (Follows (flagged flags pteUser)) Clear (flagged flags pteUser) root
    (tableIndices virt) start addressable (fun _ _ _ => follows_iff)
  constructor
  · intro only
    exact both.mp only.follows
  · intro clear
    have follows := both.mpr clear
    have begin_ : Reached start root [] [] root start :=
      ⟨rfl, addressable, aligned, nofun, Or.inl ⟨rfl, rfl, rfl⟩, nofun⟩
    obtain ⟨pt, before, walked, rfl⟩ := mapPage_some mapped
    obtain ⟨events, reached⟩ :=
      @Reached.walk start start root root [] [] _ (tableIndices virt) begin_
      (tablePath_tableIndices virt) follows
    rw [walked] at reached
    refine ⟨follows, .wrote (entryAddress pt (leafIndex virt)) 8 :: events, ?_, ?_⟩
    · exact congrArg _ reached.log
    · have bound : leafIndex virt < 512 := Nat.mod_lt _ (by decide)
      refine reached.writes.wrote (reached.page (tablePath_tableIndices virt))
        (Nat.le_add_right _ _) ?_
      unfold entryAddress
      omega

/-! ### Small machines -/

/-- Eight pages and the byte of the bitmap that says which are in use. -/
def bootMachine (mem : Memory) (used : UInt8) : Machine :=
  ⟨mem, ⟨fun _ => used, 8, 6, Pmm.eight_addressable⟩, []⟩

/-- The first gigabyte is mapped by one entry to the frames from `0x40000000` on. -/
def largeMem : Memory :=
  writeWord (writeWord (fun _ => 0) (entryAddress 4096 0) 0x2003) (entryAddress 8192 0)
    0x40000083

theorem mapPage_onlyTables_boot :
    ∃ after, mapPage 4096 0 0x5000 3 (bootMachine (fun _ => 0) 3) = some after ∧
      OnlyTables (bootMachine (fun _ => 0) 3) 4096 0 3 after := by
  refine ⟨_, rfl, (mapPage_onlyTables_iff (by decide) (by decide) rfl).mpr ?_⟩
  refine ⟨?_, ?_, ?_, trivial⟩
  · show (if _ then _ else _)
    rw [if_neg (by decide +kernel)]
    decide +kernel
  · show (if _ then _ else _)
    rw [if_neg (by decide +kernel)]
    decide +kernel
  · show (if _ then _ else _)
    rw [if_neg (by decide +kernel)]
    decide +kernel

/-- A data page is written as a table, and so is frame 0 if no frame is left. -/
theorem mapPage_writes_data :
    (∃ after, mapPage 4096 0 0x5000 3 (bootMachine largeMem 7) = some after ∧
      flagged (entryAt largeMem 8192 0) pteLarge = true ∧ .wrote 0x40000000 8 ∈ after.log ∧
      ¬OnlyTables (bootMachine largeMem 7) 4096 0 3 after) ∧
    ∃ after, mapPage 4096 0 0x5000 3 (bootMachine (fun _ => 0) 255) = some after ∧
      .wrote 0 4096 ∈ after.log ∧ ¬OnlyTables (bootMachine (fun _ => 0) 255) 4096 0 3 after := by
  refine ⟨⟨_, rfl, by decide +kernel, by decide +kernel, ?_⟩, ⟨_, rfl, by decide +kernel, ?_⟩⟩
  · intro only
    exact absurd only.follows.2.1.1 (by decide +kernel)
  · intro only
    exact absurd only.follows.1.2 (by decide +kernel)

end Synx.Paging
