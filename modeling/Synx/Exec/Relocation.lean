/-
The relative relocations of `elf_exec.cpp`.
-/

import Synx.Lib.Patches
import Synx.Exec.Building

namespace Synx.Exec

open Lib Program Memory List Option
open Pmm (pageSize)
open Paging

/-! ### Reading -/

def UserHolds (mem : Memory) (root address : Nat) (bytes : List UInt8) : Prop :=
  ∀ offset (inside : offset < bytes.length),
    address + offset < userTop ∧ userByte mem root (address + offset) = some bytes[offset]

variable {mem : Memory} {root address : Nat}

theorem UserHolds.append {left right : List UInt8} (one : UserHolds mem root address left)
    (two : UserHolds mem root (address + left.length) right) :
    UserHolds mem root address (left ++ right) := by
  intro offset inside
  by_cases early : offset < left.length
  · rw [getElem_append_left early]
    exact one offset early
  · rw [getElem_append_right (by omega)]
    rw [length_append] at inside
    have later := two (offset - left.length) (by omega)
    rw [show address + left.length + (offset - left.length) = address + offset by omega] at later
    exact later

theorem userHolds_page {entry chunk : Nat} (user : address < userTop)
    (leaf : leafAt mem root address = some entry) (inside : address % 4096 + chunk ≤ 4096) :
    UserHolds mem root address (readBytes mem (pteAddress entry + address % 4096) chunk) := by
  intro offset bound
  rw [readBytes_length] at bound
  have otherUser : address + offset < userTop := by
    unfold userTop at user ⊢
    omega
  have otherLeaf : leafAt mem root (address + offset) = some entry := by
    rw [← leaf]
    exact leafAt_page ((pageIndices_inj _ _ otherUser user).mpr (by omega))
  refine ⟨otherUser, ?_⟩
  unfold userByte
  rw [otherLeaf, map_some]
  simp only [readBytes, getElem_map, getElem_range]
  rw [show (address + offset) % 4096 = address % 4096 + offset by omega, add_assoc]

theorem readChunks_eq_some (rounds copied missing : Nat) {bytes : List UInt8}
    (read : readChunks mem root address rounds copied missing = some bytes) :
    bytes.length = missing ∧ UserHolds mem root (address + copied) bytes := by
  induction rounds generalizing copied missing bytes with
  | zero =>
    cases missing with
    | zero =>
      cases read
      exact ⟨rfl, nofun⟩
    | succ missing => cases read
  | succ rounds ih =>
    cases missing with
    | zero =>
      cases read
      exact ⟨rfl, nofun⟩
    | succ missing =>
      rw [readChunks] at read
      split at read
      · cases read
      rename_i within
      split at read
      · cases read
      rename_i pte located
      dsimp only at read
      split at read
      · rename_i present
        obtain ⟨later, readLater, rfl⟩ := map_eq_some_iff.mp read
        obtain ⟨user, leaf⟩ := leafAt_of_locatePte (by omega) located present
        have pageEq : pageSize = 4096 := rfl
        rw [pageEq] at readLater ⊢
        obtain ⟨length, held⟩ := ih _ _ readLater
        refine ⟨?_, ?_⟩
        · rw [length_append, readBytes_length, length]
          omega
        · refine (userHolds_page user leaf (by omega)).append ?_
          rw [readBytes_length, add_assoc]
          exact held
      · cases read

theorem copyFromSpace_triple (address size : Nat) (start : Machine) :
    Triple (· = start) (copyFromSpace root address size)
      (fun bytes machine => machine = start ∧ bytes.length = size ∧
        UserHolds start.mem root address bytes) (fun _ machine => machine = start) := by
  refine .bind (fun mem machine => machine = start ∧ mem = start.mem) ?_ (fun mem => ?_)
  · apply Triple.gets
    rintro machine rfl
    exact ⟨rfl, rfl⟩
  · cases read : readChunks mem root address size 0 size with
    | none =>
      apply Triple.stop
      rintro machine ⟨rfl, _⟩
      rfl
    | some bytes =>
      apply Triple.pure
      rintro machine ⟨rfl, rfl⟩
      exact ⟨rfl, readChunks_eq_some size 0 size read⟩

/-! ### The dynamic table -/

/-- Tags and values up to the terminating entry. -/
def DynamicAt (mem : Memory) (root : Nat) : Nat → List (Nat × Nat) → Prop
  | position, [] =>
    ∃ bytes, bytes.length = sizeofDynamicEntry ∧ UserHolds mem root position bytes ∧
      field bytes 0 8 = dtNull
  | position, (tag, value) :: rest =>
    (∃ bytes, bytes.length = sizeofDynamicEntry ∧ UserHolds mem root position bytes ∧
      field bytes 0 8 = tag ∧ field bytes 8 8 = value ∧ tag ≠ dtNull) ∧
    DynamicAt mem root (position + sizeofDynamicEntry) rest

def lastValue (tag : Nat) (entries : List (Nat × Nat)) : Option Nat :=
  (entries.reverse.find? (fun entry => entry.1 == tag)).map Prod.snd

theorem lastValue_cons (tag : Nat) (entry : Nat × Nat) (rest : List (Nat × Nat)) :
    lastValue tag (entry :: rest) =
      (lastValue tag rest).or (if entry.1 = tag then some entry.2 else none) := by
  unfold lastValue
  rw [reverse_cons, find?_append, find?_singleton]
  cases rest.reverse.find? (fun entry => entry.1 == tag) with
  | some found => rfl
  | none => by_cases same : entry.1 = tag <;> simp [same]

def DynamicTable.note (table : DynamicTable) (entry : Nat × Nat) : DynamicTable :=
  if entry.1 = dtRela then { table with relaAddress := entry.2, hasRela := true }
  else if entry.1 = dtRelasz then { table with relaSize := entry.2, hasRelaSize := true }
  else if entry.1 = dtRelaent then { table with relaEntrySize := entry.2 }
  else table

theorem foldl_note (entries : List (Nat × Nat)) (table : DynamicTable) :
    (entries.foldl DynamicTable.note table).relaAddress =
        (lastValue dtRela entries).getD table.relaAddress ∧
      (entries.foldl DynamicTable.note table).relaSize =
        (lastValue dtRelasz entries).getD table.relaSize ∧
      (entries.foldl DynamicTable.note table).hasRela =
        (table.hasRela || (lastValue dtRela entries).isSome) ∧
      (entries.foldl DynamicTable.note table).hasRelaSize =
        (table.hasRelaSize || (lastValue dtRelasz entries).isSome) := by
  induction entries generalizing table with
  | nil => simp [lastValue]
  | cons entry rest ih =>
    rw [foldl_cons, lastValue_cons, lastValue_cons]
    obtain ⟨address, size, hasAddress, hasSize⟩ := ih (table.note entry)
    rw [address, size, hasAddress, hasSize]
    have distinct : dtRelasz ≠ dtRela ∧ dtRelaent ≠ dtRela ∧ dtRelaent ≠ dtRelasz := by decide
    unfold DynamicTable.note
    by_cases rela : entry.1 = dtRela
    · rw [rela]
      simp only [if_true, if_neg distinct.1.symm, or_none]
      cases lastValue dtRela rest <;> simp
    · by_cases relasz : entry.1 = dtRelasz
      · rw [relasz]
        simp only [if_true, if_neg distinct.1, or_none]
        cases lastValue dtRelasz rest <;> simp
      · simp only [if_neg rela, if_neg relasz, or_none]
        split <;> simp

theorem scanDynamic_triple (rounds position : Nat) (table : DynamicTable) (start : Machine) :
    Triple (· = start) (scanDynamic root rounds position table)
      (fun result machine => machine = start ∧
        ∃ entries, DynamicAt start.mem root position entries ∧
        entries.length < rounds ∧ result = entries.foldl DynamicTable.note table)
      (fun _ machine => machine = start) := by
  induction rounds generalizing position table with
  | zero => exact .stop _ (fun _ same => same)
  | succ rounds ih =>
    rw [scanDynamic]
    refine .bind _ (copyFromSpace_triple _ _ start) (fun bytes => ?_)
    extract_lets tag value
    split
    · rename_i isNull
      apply Triple.pure
      rintro machine ⟨same, length, held⟩
      exact ⟨same, [], ⟨bytes, length, held, isNull⟩, Nat.succ_pos _, rfl⟩
    · rename_i notNull
      split
      · exact .stop _ (fun _ holds => holds.1)
      · apply Triple.of_state
        rintro machine ⟨rfl, length, held⟩
        refine (ih _ (table.note (tag, value))).weaken (fun _ same => same) ?_
          (fun _ _ same => same)
        rintro result after ⟨same, entries, listed, few, result_⟩
        refine ⟨same, (tag, value) :: entries, ⟨⟨bytes, length, held, rfl, rfl, notNull⟩, listed⟩,
          Nat.succ_lt_succ few, ?_⟩
        rw [result_, foldl_cons]

/-! ### One relocation -/

structure Rela where
  offset : Nat
  info : Nat
  addend : Nat

def relaOf (bytes : List UInt8) : Rela := ⟨field bytes 0 8, field bytes 8 8, field bytes 16 8⟩

def Rela.word (bias : Nat) (rela : Rela) : List UInt8 :=
  numberBytes ((bias + rela.addend) % 2 ^ 64) 8

def Rela.patch (bias : Nat) (rela : Rela) : Patch (Option UInt8) :=
  ⟨rela.offset + bias, (rela.word bias).map some⟩

theorem Rela.length_patch (bias : Nat) (rela : Rela) : (rela.patch bias).value.length = 8 := by
  show ((rela.word bias).map some).length = 8
  rw [length_map]
  exact numberBytes_length _ _

def RelaAt (mem : Memory) (root address : Nat) (rela : Rela) : Prop :=
  ∃ bytes, bytes.length = sizeofRela ∧ UserHolds mem root address bytes ∧ rela = relaOf bytes

def InWritable (segments : List ProgramHeader) (bias address : Nat) : Prop :=
  ∃ segment, segment ∈ segments ∧ flagged segment.flags pfW = true ∧
    ∃ first last, segmentRange segment bias = some (first, last) ∧ first ≤ address ∧ address < last

theorem segmentIsWritable_covers {segments : List ProgramHeader} {length bias : Nat}
    (writable : segmentIsWritable segments address length bias = true) (other : Nat)
    (within : Within address length other) : InWritable segments bias other := by
  unfold segmentIsWritable at writable
  split at writable
  · cases writable
  · obtain ⟨segment, member, holds⟩ := any_eq_true.mp writable
    obtain ⟨flag, covers⟩ := Bool.and_eq_true_iff.mp holds
    split at covers
    · cases covers
    · rename_i first last ranged
      simp only [Bool.and_eq_true, decide_eq_true_eq] at covers
      obtain ⟨above, below⟩ := within
      exact ⟨segment, member, flag, first, last, ranged, by omega, by omega⟩

/-- The pages are where they were and only bytes of writable segments differ. -/
structure Spared (start : Machine) (root bias : Nat) (segments : List ProgramHeader)
    (machine : Machine) :
    Prop where
  edits : Edits root start machine
  leaf : ∀ address, address < userTop → leafAt machine.mem root address =
    leafAt start.mem root address
  confined : Confined start.mem machine.mem root (InWritable segments bias)

def OffTable (bias base count : Nat) (relas : List Rela) : Prop :=
  ∀ rela, rela ∈ relas → rela.offset + bias + 8 ≤ base ∨ base + sizeofRela * count ≤
    rela.offset + bias

/-- The first entries of a table have been applied. -/
structure Relocated (start : Machine) (root bias : Nat) (segments : List ProgramHeader)
    (base count : Nat) (relas : List Rela) (machine : Machine) : Prop
    extends Spared start root bias segments machine where
  table : ∀ index (bound : index < relas.length),
    RelaAt start.mem root (base + sizeofRela * index) relas[index]
  targets : OffTable bias base count relas →
    ∀ rela, rela ∈ relas → rela.offset + bias + 8 ≤ userTop
  bytes : OffTable bias base count relas →
    ∀ address, address < userTop → userByte machine.mem root address =
      Patch.applyAll (relas.map (Rela.patch bias)) (userByte start.mem root) address

section

variable {start machine : Machine} {root bias base count : Nat} {segments : List ProgramHeader}
  {relas : List Rela}

variable {address : Nat} {bytes : List UInt8}

theorem Spared.copied {after : Machine} (spared : Spared start root bias segments machine)
    (edits : Edits root machine after)
    (leaf : ∀ other < userTop, leafAt after.mem root other = leafAt machine.mem root other)
    (confined : Confined machine.mem after.mem root (Within address bytes.length))
    (writable : segmentIsWritable segments address bytes.length bias = true) :
    Spared start root bias segments after := by
  refine ⟨spared.edits.trans edits, ?_, ?_⟩
  · intro other user
    rw [leaf other user, spared.leaf other user]
  · exact spared.confined.trans (confined.imp (segmentIsWritable_covers writable)) spared.leaf

theorem userByte_isSome (mem : Memory) (root address : Nat) :
    (userByte mem root address).isSome = (leafAt mem root address).isSome := by
  unfold userByte
  rw [isSome_map]

theorem Spared.userHolds (spared : Spared start root bias segments machine)
    (held : UserHolds machine.mem root address bytes) :
    ∃ old, old.length = bytes.length ∧ UserHolds start.mem root address old := by
  have known : ∀ offset < bytes.length,
      ∃ byte, userByte start.mem root (address + offset) = some byte := by
    intro offset inside
    obtain ⟨user, found⟩ := held offset inside
    apply isSome_iff_exists.mp
    rw [userByte_isSome, ← spared.leaf _ user, ← userByte_isSome, found]
    rfl
  refine ⟨(range bytes.length).map
    (fun offset => (userByte start.mem root (address + offset)).getD 0),
    by rw [length_map, length_range], ?_⟩
  intro offset inside
  rw [length_map, length_range] at inside
  obtain ⟨byte, found⟩ := known offset inside
  refine ⟨(held offset inside).1, ?_⟩
  rw [getElem_map, getElem_range, found, getD_some]

theorem UserHolds.unique {mem : Memory} {one two : List UInt8}
    (first : UserHolds mem root address one) (second : UserHolds mem root address two)
    (length : one.length = two.length) : one = two := by
  apply ext_getElem length
  intro offset inOne inTwo
  exact some.inj ((first offset inOne).2.symm.trans (second offset inTwo).2)

theorem Rela.apply_patch (rela : Rela) (memory : Nat → Option UInt8) (other : Nat) :
    (rela.patch bias).apply memory other =
      if rela.offset + bias ≤ other ∧ other < rela.offset + bias + (rela.word bias).length then
        (rela.word bias)[other - (rela.offset + bias)]?
      else memory other := by
  have width : (rela.patch bias).value.length = (rela.word bias).length := length_map _
  by_cases covered : (rela.patch bias).Covers other
  · have inside := covered
    unfold Patch.Covers at inside
    rw [width] at inside
    have place : (rela.patch bias).address = rela.offset + bias := rfl
    rw [place] at inside
    have index : other - (rela.offset + bias) < (rela.word bias).length := by omega
    rw [if_pos inside, Patch.apply_covered covered, place, getElem?_eq_getElem index,
      getD_eq_getElem _ _ (by rw [width]; exact index)]
    exact getElem_map _
  · rw [Patch.apply_outside covered, if_neg]
    unfold Patch.Covers at covered
    exact covered

theorem Relocated.entry {old : List UInt8}
    (relocated : Relocated start root bias segments base count relas machine)
    (apart : OffTable bias base count relas) (above : base ≤ address)
    (below : address + bytes.length ≤ base + sizeofRela * count)
    (before : UserHolds start.mem root address old) (now : UserHolds machine.mem root address bytes)
    (length : old.length = bytes.length) : old = bytes := by
  refine UserHolds.unique ?_ now length
  intro offset inside
  obtain ⟨user, found⟩ := before offset inside
  refine ⟨user, ?_⟩
  rw [relocated.bytes apart _ user, ← found]
  apply Patch.applyAll_outside
  intro patch member
  obtain ⟨rela, inRelas, rfl⟩ := mem_map.mp member
  unfold Patch.Covers
  rw [rela.length_patch bias]
  have outside := apart rela inRelas
  show ¬(rela.offset + bias ≤ address + offset ∧ address + offset < rela.offset + bias + 8)
  omega

theorem applyRelocation_triple (live : Live start root)
    (relocated : Relocated start root bias segments base count relas machine)
    (more : relas.length < count) :
    Triple (· = machine) (applyRelocation root bias segments (base + sizeofRela * relas.length))
      (fun _ after => ∃ rela, Relocated start root bias segments base count (relas ++ [rela]) after)
      (fun _ after => Spared start root bias segments after) := by
  unfold applyRelocation
  refine .bind (fun bytes after => after = machine ∧ bytes.length = sizeofRela ∧
      UserHolds machine.mem root (base + sizeofRela * relas.length) bytes) ?_ (fun bytes => ?_)
  · refine (copyFromSpace_triple _ _ machine).weaken (fun _ same => same)
      (fun _ _ holds => holds) ?_
    rintro _ after rfl
    exact relocated.toSpared
  extract_lets offset info addend target
  have stop : Triple (fun after => after = machine ∧ bytes.length = sizeofRela ∧
      UserHolds machine.mem root (base + sizeofRela * relas.length) bytes) (refuse : Loader Unit)
      (fun _ after => ∃ rela, Relocated start root bias segments base count (relas ++ [rela]) after)
      (fun _ after => Spared start root bias segments after) := by
    apply Triple.stop
    rintro _ ⟨rfl, _⟩
    exact relocated.toSpared
  split
  · exact stop
  split
  · rename_i writable
    refine .of_state (fun state holds => ?_)
    obtain ⟨rfl, length, held⟩ := holds
    have width : (numberBytes ((bias + addend) % 2 ^ 64) 8).length = 8 := numberBytes_length _ _
    rw [← width] at writable
    refine (copyToSpace_triple target _ (relocated.edits.live live)).weaken
      (fun _ same => same) ?_ ?_
    · rintro _ after ⟨edits, copied⟩
      obtain ⟨old, oldLength, before⟩ := relocated.toSpared.userHolds held
      have same : OffTable bias base count relas → old = bytes := by
        intro early
        refine relocated.entry early (Nat.le_add_right _ _) ?_ before held oldLength
        rw [length]
        unfold sizeofRela
        omega
      refine ⟨relaOf old, relocated.toSpared.copied edits copied.leaf copied.confined writable, ?_,
        ?_, ?_⟩
      · intro index bound
        by_cases earlier : index < relas.length
        · rw [getElem_append_left earlier]
          exact relocated.table index earlier
        · have last : index = relas.length := by
            rw [length_append, length_singleton] at bound
            omega
          subst last
          rw [getElem_concat_length rfl]
          exact ⟨old, oldLength.trans length, before, rfl⟩
      · intro apart rela member
        have early : OffTable bias base count relas :=
          fun rela member => apart rela (mem_append_left _ member)
        rcases mem_append.mp member with earlier | last
        · exact relocated.targets early rela earlier
        · rw [mem_singleton.mp last, same early]
          exact (copied.mapped (target + 7) ⟨Nat.le_add_right _ _, by rw [width]; omega⟩).1
      · intro apart other user
        have early : OffTable bias base count relas :=
          fun rela member => apart rela (mem_append_left _ member)
        rw [same early, map_append, Patch.applyAll_append, copied.byte other user]
        show _ = (Rela.patch bias (relaOf bytes)).apply _ other
        rw [Rela.apply_patch, relocated.bytes early other user]
        rfl
    · rintro _ after ⟨edits, _, short, copied, _⟩
      refine relocated.toSpared.copied edits copied.leaf (copied.confined.imp ?_) writable
      intro other within
      rw [length_take] at within
      exact ⟨within.1, by have := within.2; omega⟩
  · exact stop

end

/-! ### The pass -/

/-- The relocations that the dynamic table names, as they stand in memory. -/
structure RelocationTable (mem : Memory) (root : Nat) (dynamic : ProgramHeader) (bias base : Nat)
    (relas : List Rela) : Prop where
  named : ∃ entries, DynamicAt mem root (dynamic.vaddr + bias) entries ∧
    sizeofDynamicEntry * (entries.length + 1) ≤ dynamic.memsz ∧
    base = (lastValue dtRela entries).getD 0 + bias ∧
    sizeofRela * relas.length = (lastValue dtRelasz entries).getD 0
  entries : ∀ index (bound : index < relas.length),
    RelaAt mem root (base + sizeofRela * index) relas[index]

/-- No target overlaps another or the table. -/
structure Separate (bias base : Nat) (relas : List Rela) : Prop where
  targets :
    relas.Pairwise (fun one two => one.offset + 8 ≤ two.offset ∨ two.offset + 8 ≤ one.offset)
  table : OffTable bias base relas.length relas

/-- Every entry has left its word and no other byte has changed. -/
structure Relocates (before after : Memory) (root bias : Nat) (relas : List Rela) : Prop where
  words : ∀ rela, rela ∈ relas → UserHolds after root (rela.offset + bias) (rela.word bias)
  others : ∀ address, address < userTop →
    (∀ rela, rela ∈ relas → ¬Within (rela.offset + bias) 8 address) →
    userByte after root address = userByte before root address

theorem DynamicAt.unique {position : Nat} {one two : List (Nat × Nat)}
    (first : DynamicAt mem root position one) (second : DynamicAt mem root position two) :
    one = two := by
  induction one generalizing position two with
  | nil =>
    obtain ⟨bytes, length, held, isLast⟩ := first
    cases two with
    | nil => rfl
    | cons entry rest =>
      obtain ⟨⟨bytes', length', held', tag, _, notLast⟩, _⟩ := second
      cases held.unique held' (length.trans length'.symm)
      exact absurd (tag.symm.trans isLast) notLast
  | cons entry rest ih =>
    obtain ⟨⟨bytes, length, held, tag, value, notLast⟩, later⟩ := first
    cases two with
    | nil =>
      obtain ⟨bytes', length', held', isLast⟩ := second
      cases held.unique held' (length.trans length'.symm)
      exact absurd (tag.symm.trans isLast) notLast
    | cons entry' rest' =>
      obtain ⟨⟨bytes', length', held', tag', value', _⟩, later'⟩ := second
      cases held.unique held' (length.trans length'.symm)
      rw [ih later later', Prod.ext (tag.symm.trans tag') (value.symm.trans value')]

/-- The memory determines the relocations. -/
theorem RelocationTable.unique {dynamic : ProgramHeader} {bias base base' : Nat}
    {relas relas' : List Rela} (first : RelocationTable mem root dynamic bias base relas)
    (second : RelocationTable mem root dynamic bias base' relas') :
    base = base' ∧ relas = relas' := by
  obtain ⟨entries, dynamicAt, _, rfl, count⟩ := first.named
  obtain ⟨entries', dynamicAt', _, rfl, count'⟩ := second.named
  cases dynamicAt.unique dynamicAt'
  refine ⟨rfl, List.ext_getElem (Nat.eq_of_mul_eq_mul_left (by decide)
    (count.trans count'.symm)) ?_⟩
  intro index inside inside'
  obtain ⟨bytes, length, held, isRela⟩ := first.entries index inside
  obtain ⟨bytes', length', held', isRela'⟩ := second.entries index inside'
  rw [isRela, isRela', held.unique held' (length.trans length'.symm)]

section

variable {start : Machine} {root bias base : Nat} {segments : List ProgramHeader}
    {relas : List Rela}

theorem Spared.refl : Spared start root bias segments start :=
  ⟨.refl, fun _ _ => rfl, .refl _ _ _⟩

theorem Relocated.none {count : Nat} : Relocated start root bias segments base count [] start :=
  ⟨.refl, nofun, fun _ => nofun, fun _ _ _ => rfl⟩

theorem triple_entries (live : Live start root) {relaAddress count : Nat}
    (below : relaAddress < userTop) (room : sizeofRela * count ≤ userTop - relaAddress) :
    Triple (· = start)
      (Program.each (fun index => applyRelocation root bias segments
        ((relaAddress + index * sizeofRela) % 2 ^ 64)) (range count))
      (fun _ after => ∃ relas, relas.length = count ∧
        Relocated start root bias segments relaAddress count relas after)
      (fun _ after => Spared start root bias segments after) := by
  have loop :=
    @Triple.each_indexed Machine Unit Nat (fun _ after => Spared start root bias segments after)
    (fun index after => ∃ relas : List Rela, relas.length = index ∧
      Relocated start root bias segments relaAddress count relas after)
    (fun index => applyRelocation root bias segments ((relaAddress + index * sizeofRela) % 2 ^ 64))
    (range count) ?_
  · rw [length_range] at loop
    refine loop.weaken ?_ (fun _ _ holds => holds) (fun _ _ holds => holds)
    rintro _ rfl
    exact ⟨[], rfl, Relocated.none⟩
  · intro index bound
    rw [length_range] at bound
    have place : (relaAddress + (range count)[index] * sizeofRela) % 2 ^ 64 =
        relaAddress + sizeofRela * index := by
      rw [getElem_range]
      unfold userTop at below room
      unfold sizeofRela at room ⊢
      omega
    rw [place]
    refine .of_state (fun machine holds => ?_)
    obtain ⟨relas, rfl, relocated⟩ := holds
    refine (applyRelocation_triple live relocated bound).weaken (fun _ same => same) ?_
      (fun _ _ spared => spared)
    rintro _ after ⟨rela, more⟩
    exact ⟨relas ++ [rela], by rw [length_append, length_singleton], more⟩

theorem applyRelocation_outside {address : Nat} (above : userTop ≤ address) :
    Triple (· = start) (applyRelocation root bias segments address) (fun _ _ => False)
      (fun _ after => after = start) := by
  unfold applyRelocation
  refine .bind_never ?_
  refine (copyFromSpace_triple address sizeofRela start).weaken (fun _ same => same) ?_
    (fun _ _ same => same)
  rintro bytes machine ⟨_, length, held⟩
  have inside := (held 0 (by rw [length]; decide)).1
  exact absurd inside (not_lt.mpr above)

theorem triple_entries_outside {relaAddress count : Nat} (above : userTop ≤ relaAddress)
    (word : relaAddress < 2 ^ 64) (some_ : 0 < count) : Triple (· = start)
      (Program.each (fun index => applyRelocation root bias segments
        ((relaAddress + index * sizeofRela) % 2 ^ 64)) (range count))
      (fun _ _ => False) (fun _ after => after = start) := by
  have loop := @Triple.each_indexed Machine Unit Nat (fun _ after => after = start)
    (fun index after => index = 0 ∧ after = start)
    (fun index => applyRelocation root bias segments ((relaAddress + index * sizeofRela) % 2 ^ 64))
    (range count) ?_
  · refine loop.weaken (fun _ same => ⟨rfl, same⟩) ?_ (fun _ _ same => same)
    intro _ _ holds
    rw [length_range] at holds
    omega
  · intro index bound
    refine .of_state (fun machine holds => ?_)
    obtain ⟨rfl, rfl⟩ := holds
    rw [getElem_range, zero_mul, add_zero, Nat.mod_eq_of_lt word]
    exact (applyRelocation_outside above).weaken (fun _ same => same)
      (fun _ _ impossible => impossible.elim)
      (fun _ _ same => same)

theorem applyRelativeRelocations_triple (live : Live start root) (dynamic : ProgramHeader) :
    Triple (· = start) (applyRelativeRelocations root dynamic bias segments)
      (fun _ after => ∃ base relas, RelocationTable start.mem root dynamic bias base relas ∧
        Relocated start root bias segments base relas.length relas after)
      (fun _ after => Spared start root bias segments after) := by
  have stop : ∀ {post : Unit → Machine → Prop}, Triple (· = start) (refuse : Loader Unit) post
      (fun _ after => Spared start root bias segments after) := by
    intro post
    apply Triple.stop
    rintro _ rfl
    exact .refl
  unfold applyRelativeRelocations
  extract_lets cursor last
  split
  · exact stop
  split
  · exact stop
  refine .bind (fun table after => after = start ∧ ∃ entries,
    DynamicAt start.mem root cursor entries ∧ entries.length < dynamic.memsz / sizeofDynamicEntry ∧
      table = entries.foldl DynamicTable.note ⟨0, 0, sizeofRela, false, false⟩) ?_ (fun table => ?_)
  · refine (scanDynamic_triple _ _ _ start).weaken (fun _ same => same) (fun _ _ holds => holds) ?_
    rintro _ after rfl
    exact .refl
  refine .of_state (fun state holds => ?_)
  obtain ⟨rfl, entries, listed, few, rfl⟩ := holds
  obtain ⟨address, size, hasAddress, hasSize⟩ :=
    foldl_note entries ⟨0, 0, sizeofRela, false, false⟩
  generalize entries.foldl DynamicTable.note ⟨0, 0, sizeofRela, false, false⟩ = table at *
  have room : sizeofDynamicEntry * (entries.length + 1) ≤ dynamic.memsz := by
    unfold sizeofDynamicEntry at few ⊢
    omega
  split
  · exact stop
  rename_i paired
  split
  · rename_i nothing
    apply Triple.pure
    rintro _ rfl
    refine ⟨(lastValue dtRela entries).getD 0 + bias, [], ⟨⟨entries, listed, room, rfl, ?_⟩, nofun⟩,
      Relocated.none⟩
    rcases nothing with absent | zero
    · have sizeless : (lastValue dtRelasz entries).isSome = false := by
        have both : table.hasRela = table.hasRelaSize :=
          not_not.mp (fun differ => paired (.inl differ))
        rw [← Bool.false_or (Option.isSome _), ← hasSize, ← both]
        simpa using absent
      rw [isSome_eq_false_iff, isNone_iff_eq_none] at sizeless
      rw [sizeless]
      rfl
    · rw [← size, zero]
      rfl
  rename_i something
  split
  · exact stop
  rename_i whole
  extract_lets relaAddress
  split
  · exact stop
  rename_i bounded
  have multiple : sizeofRela * (table.relaSize / sizeofRela) = table.relaSize := by
    unfold sizeofRela at whole ⊢
    omega
  by_cases below : relaAddress < userTop
  · refine (triple_entries live below ?_).weaken (fun _ same => same) ?_ (fun _ _ holds => holds)
    · rw [multiple]
      unfold userTop at below bounded ⊢
      omega
    · rintro _ after ⟨relas, count, relocated⟩
      refine ⟨relaAddress, relas, ⟨⟨entries, listed, room, ?_, ?_⟩, relocated.table⟩, ?_⟩
      · rw [← address]
      · rw [count, multiple, size]
      · rw [count]
        exact relocated
  · refine (triple_entries_outside (not_lt.mp below) ?_ ?_).weaken (fun _ same => same)
      (fun _ _ impossible => impossible.elim) ?_
    · unfold uint64Max at whole
      omega
    · unfold sizeofRela at multiple ⊢
      omega
    · rintro _ after rfl
      exact .refl

theorem Relocated.relocates {machine : Machine}
    (relocated : Relocated start root bias segments base relas.length relas machine)
    (separate : Separate bias base relas) : Relocates start.mem machine.mem root bias relas := by
  have patched := relocated.bytes separate.table
  have apart : (relas.map (Rela.patch bias)).Pairwise Patch.Apart := by
    rw [pairwise_map]
    refine separate.targets.imp ?_
    intro one two disjoint
    unfold Patch.Apart
    rw [Rela.length_patch, Rela.length_patch]
    show one.offset + bias + 8 ≤ two.offset + bias ∨ two.offset + bias + 8 ≤ one.offset + bias
    omega
  constructor
  · intro rela member offset inside
    have width : (rela.word bias).length = 8 := numberBytes_length _ _
    have user : rela.offset + bias + offset < userTop := by
      have := relocated.targets separate.table rela member
      omega
    have covered : (rela.patch bias).Covers (rela.offset + bias + offset) := by
      unfold Patch.Covers
      rw [rela.length_patch bias]
      exact ⟨Nat.le_add_right _ _, by show _ < rela.offset + bias + 8; omega⟩
    refine ⟨user, ?_⟩
    rw [patched _ user, Patch.applyAll_covered apart (mem_map_of_mem member) covered,
      Rela.apply_patch, if_pos ⟨Nat.le_add_right _ _, by omega⟩, Nat.add_sub_cancel_left,
      getElem?_eq_getElem inside]
  · intro address user outside
    rw [patched address user]
    apply Patch.applyAll_outside
    intro patch member
    obtain ⟨rela, inRelas, rfl⟩ := mem_map.mp member
    intro covered
    unfold Patch.Covers at covered
    exact outside rela inRelas covered

/-- Relocation touches bytes of writable segments only, and if it succeeds and no target
overlaps another or the table, it leaves every word and changes nothing else. -/
theorem applyRelativeRelocations_exact {dynamic : ProgramHeader} {outcome : Except Unit Unit}
    {after : Machine} (live : Live start root)
    (ran : (applyRelativeRelocations root dynamic bias segments).run start = (outcome, after)) :
    Confined start.mem after.mem root (InWritable segments bias) ∧
      (outcome = .ok () → ∃ base relas, RelocationTable start.mem root dynamic bias base relas ∧
        (Separate bias base relas → Relocates start.mem after.mem root bias relas)) := by
  have triple := @applyRelativeRelocations_triple start root bias segments live dynamic
  cases outcome with
  | ok _ =>
    obtain ⟨base, relas, table, relocated⟩ := triple.ok rfl ran
    exact ⟨relocated.confined, fun _ => ⟨base, relas, table, relocated.relocates⟩⟩
  | error _ => exact ⟨(triple.error rfl ran).confined, nofun⟩

end

/-! ### A small image -/

/-- A table that names one relocation, which stands behind it. -/
def smallTable : List UInt8 :=
  [dtRela, 48, dtRelasz, sizeofRela, dtNull, 0, 0x200, rX8664Relative, 0x1234].flatMap
    (fun word => numberBytes word 8)

def smallSegment : ProgramHeader :=
  { type := ptLoad, flags := pfW, offset := 0, vaddr := 0, filesz := 0x1000, memsz :=
    0x1000, align := 0x1000 }

def smallSpace : Machine :=
  ((do
    mapUserPage 8192 pieBase pteWritable
    copyToSpace 8192 pieBase smallTable : Loader Unit).run
      (Machine.zeroed ⟨fun _ => 0, ⟨fun _ => 3, 8, 6, by decide⟩, []⟩ 2)).2

theorem smallSpace_live : Live smallSpace 8192 := by
  obtain ⟨⟨events, built⟩, _⟩ := @fresh_zeroed ⟨fun _ => 0, ⟨fun _ => 3, 8, 6, by decide⟩, []⟩ 2
    (by decide) (by decide) (by decide) (by decide)
  have keeps := Keeps.bind (keeps_mapUserPage built.live pieBase pteWritable (by decide)
    (by constructor <;> decide)) (fun _ => keeps_copyToSpace built.live pieBase smallTable)
  exact (keeps.final .refl).live built.live

def smallRela : Rela := ⟨0x200, rX8664Relative, 0x1234⟩

theorem smallSpace_table :
    RelocationTable smallSpace.mem 8192 smallSegment pieBase (48 + pieBase) [smallRela] := by
  have entry : ∀ index, index < 3 → UserHolds smallSpace.mem 8192
      (pieBase + sizeofDynamicEntry * index) ((smallTable.drop (16 * index)).take 16) := by
    unfold UserHolds
    decide +kernel
  have rela : UserHolds smallSpace.mem 8192 (48 + pieBase) (smallTable.drop 48) := by
    unfold UserHolds
    decide +kernel
  refine ⟨⟨[(dtRela, 48), (dtRelasz, sizeofRela)], ⟨⟨_, by decide, entry 0 (by decide), by decide,
    by decide, by decide⟩, ⟨_, by decide, entry 1 (by decide), by decide, by decide, by decide⟩,
    _, by decide, entry 2 (by decide), by decide⟩, by decide, by decide, by decide⟩, ?_⟩
  intro index inside
  cases Nat.lt_one_iff.mp inside
  exact ⟨_, by decide, rela, rfl⟩

/-- The word at `0x200` becomes the addend plus the bias. -/
theorem applyRelativeRelocations_exact_small :
    ∃ after, (applyRelativeRelocations 8192 smallSegment pieBase [smallSegment]).run smallSpace =
      (.ok (), after) ∧
      Confined smallSpace.mem after.mem 8192 (InWritable [smallSegment] pieBase) ∧
      Relocates smallSpace.mem after.mem 8192 pieBase [smallRela] := by
  have ran := run_of_toOption (show ((applyRelativeRelocations 8192 smallSegment pieBase
    [smallSegment]).run smallSpace).1.toOption = some () by decide +kernel)
  obtain ⟨confined, relocated⟩ := applyRelativeRelocations_exact smallSpace_live ran
  obtain ⟨base, relas, table, relocates⟩ := relocated rfl
  obtain ⟨rfl, rfl⟩ := table.unique smallSpace_table
  refine ⟨_, ran, confined, relocates ⟨pairwise_singleton _ _, ?_⟩⟩
  intro rela member
  cases mem_singleton.mp member
  decide

end Synx.Exec
