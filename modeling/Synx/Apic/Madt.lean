/-
The parser of the interrupt controller table (`madt.cpp`).
-/

import Synx.Lib.Memory

namespace Synx.Madt

open Lib List

structure IoApicDesc where
  physBase : Nat
  gsiBase : Nat
  id : Nat

structure IsoEntry where
  isaIrq : Nat
  gsi : Nat
  flags : Nat

def sizeofMadtHeader : Nat := 44

def maxIoapics : Nat := 8

def maxIsos : Nat := 32

section Entries

variable (table : Memory)

def sdtLength : Nat := table.readNumber 4 4

def entryType (entry : Nat) : Nat := (table entry).toNat

def entryLength (entry : Nat) : Nat := (table (entry + 1)).toNat

def ioApicAt (entry : Nat) : IoApicDesc :=
  ⟨table.readNumber (entry + 4) 4, table.readNumber (entry + 8) 4, (table (entry + 2)).toNat⟩

def isoAt (entry : Nat) : IsoEntry :=
  ⟨(table (entry + 3)).toNat, table.readNumber (entry + 4) 4, table.readNumber (entry + 8) 2⟩

end Entries

/-- The parser between two entries.  `reads` logs the fields that it has read, each with its
first byte and its size. -/
structure Parser where
  ptr : Nat
  lapicPhysBase : Nat
  ioapics : List IoApicDesc
  isos : List IsoEntry
  reads : List (Nat × Nat)

/-- An array with a count that stops at its capacity. -/
def record {α : Type} (capacity : Nat) (items : List α) (item : α) : List α :=
  if items.length < capacity then items ++ [item] else items

/-- The fields that the switch reads, as offsets in the entry. -/
def fields (table : Memory) (now : Parser) : List (Nat × Nat) :=
  match entryType table now.ptr with
  | 0 => (4, 4) :: if table.readNumber (now.ptr + 4) 4 % 2 = 1 then [(3, 1)] else []
  | 1 => if now.ioapics.length < maxIoapics then [(4, 4), (8, 4), (2, 1)] else []
  | 2 => if now.isos.length < maxIsos then [(3, 1), (4, 4), (8, 2)] else []
  | _ => []

def parseEntry (table : Memory) (now : Parser) : Parser :=
  let entry := now.ptr
  { now with
    ptr := entry + entryLength table entry
    ioapics :=
      if entryType table entry = 1 then record maxIoapics now.ioapics (ioApicAt table entry)
      else now.ioapics
    isos := if entryType table entry = 2 then record maxIsos now.isos (isoAt table entry)
      else now.isos
    reads := now.reads ++
      ((0, 1) :: (1, 1) :: fields table now).map (fun field => (entry + field.1, field.2)) }

/-- The loop; `none` when it has not ended after so many entries. -/
def parseLoop (table : Memory) : Nat → Parser → Option Parser
  | 0, now => if now.ptr < sdtLength table then none else some now
  | fuel + 1, now =>
    if now.ptr < sdtLength table then parseLoop table fuel (parseEntry table now) else some now

def Parser.start (table : Memory) : Parser :=
  ⟨sizeofMadtHeader, table.readNumber 36 4, [], [], [(36, 4), (4, 4)]⟩

def parse (table : Memory) (fuel : Nat) : Option Parser := parseLoop table fuel (Parser.start table)

/-! ### The entries of the table -/

/-- Stepping by the length bytes leads over these entries to this position. -/
inductive Reached (table : Memory) : List Nat → Nat → Prop
  | first : Reached table [] sizeofMadtHeader
  | next {before : List Nat} {entry : Nat} (reached : Reached table before entry)
      (inside : entry < sdtLength table) :
      Reached table (before ++ [entry]) (entry + entryLength table entry)

def ofType (table : Memory) (type : Nat) (entries : List Nat) : List Nat :=
  entries.filter (fun entry => entryType table entry = type)

/-- Where the fields end that the switch reads of an entry after the given ones. -/
def fieldsEnd (table : Memory) (before : List Nat) (entry : Nat) : Nat :=
  match entryType table entry with
  | 0 => 8
  | 1 => if (ofType table 1 before).length < maxIoapics then 12 else 2
  | 2 => if (ofType table 2 before).length < maxIsos then 10 else 2
  | _ => 2

/-- The parser has recorded the first entries of each type. -/
structure Records (table : Memory) (entries : List Nat) (now : Parser) : Prop where
  reached : Reached table entries now.ptr
  ioapics : now.ioapics = ((ofType table 1 entries).take maxIoapics).map (ioApicAt table)
  isos : now.isos = ((ofType table 2 entries).take maxIsos).map (isoAt table)

/-- The loop ends, has read nothing past the table, and has recorded what the table lists first. -/
def Parses (table : Memory) : Prop :=
  ∃ fuel done entries, parse table fuel = some done ∧
    (∀ field ∈ done.reads, field.1 + field.2 ≤ sdtLength table) ∧
    sdtLength table ≤ done.ptr ∧ Records table entries done

/-- The table holds the header fields and, of every entry that is reached, the fields that are
read; no entry has length zero. -/
def WellFormed (table : Memory) : Prop :=
  40 ≤ sdtLength table ∧
    ∀ before entry, Reached table before entry → entry < sdtLength table →
      0 < entryLength table entry ∧ entry + fieldsEnd table before entry ≤ sdtLength table

section Loop

variable {table : Memory} {before : List Nat} {now done : Parser} {fuel : Nat}

theorem record_ofType {α : Type} (table : Memory) (before : List Nat) (entry type capacity : Nat)
    (read : Nat → α) :
    (if entryType table entry = type then
        record capacity (((ofType table type before).take capacity).map read) (read entry)
      else ((ofType table type before).take capacity).map read) =
      ((ofType table type (before ++ [entry])).take capacity).map read := by
  unfold record
  rw [ofType, ofType, filter_append, filter_singleton, length_map, length_take]
  by_cases same : entryType table entry = type
  · rw [if_pos same, decide_eq_true same, cond_true]
    split
    · rw [take_of_length_le (by omega), take_of_length_le (by simp; omega), map_append]
      rfl
    · rw [take_append_of_le_length (by omega)]
  · rw [if_neg same, decide_eq_false same, cond_false, append_nil]

theorem Records.step (records : Records table before now) (inside : now.ptr < sdtLength table) :
    Records table (before ++ [now.ptr]) (parseEntry table now) := by
  refine ⟨.next records.reached inside, ?_, ?_⟩
  · rw [← record_ofType, ← records.ioapics]
    rfl
  · rw [← record_ofType, ← records.isos]
    rfl

theorem Records.reads_iff (records : Records table before now) (limit : Nat) :
    (∀ field ∈ (parseEntry table now).reads, field.1 + field.2 ≤ limit) ↔
      (∀ field ∈ now.reads, field.1 + field.2 ≤ limit) ∧
        now.ptr + fieldsEnd table before now.ptr ≤ limit := by
  have ioapics := congrArg List.length records.ioapics
  have isos := congrArg List.length records.isos
  rw [length_map, length_take] at ioapics isos
  unfold parseEntry
  simp only [forall_mem_append, forall_mem_map, forall_mem_cons]
  refine and_congr_right fun _ => ?_
  unfold fields fieldsEnd
  split
  · split <;> simp <;> omega
  · split <;> split <;> simp <;> omega
  · split <;> split <;> simp <;> omega
  · simp
    omega

theorem parseLoop_step (inside : now.ptr < sdtLength table)
    (ends : parseLoop table fuel now = some done) :
    ∃ less, parseLoop table less (parseEntry table now) = some done := by
  cases fuel with
  | zero =>
    rw [parseLoop, if_pos inside] at ends
    cases ends
  | succ less =>
    rw [parseLoop, if_pos inside] at ends
    exact ⟨less, ends⟩

theorem parseLoop_stuck (fuel : Nat) {now : Parser} (inside : now.ptr < sdtLength table)
    (zero : entryLength table now.ptr = 0) : parseLoop table fuel now = none := by
  induction fuel generalizing now with
  | zero => exact if_pos inside
  | succ fuel ih =>
    have still : (parseEntry table now).ptr = now.ptr := by
      change now.ptr + entryLength table now.ptr = now.ptr
      rw [zero, add_zero]
    rw [parseLoop, if_pos inside]
    exact ih (still ▸ inside) (still ▸ zero)

theorem parseLoop_records (records : Records table before now)
    (ends : parseLoop table fuel now = some done) :
    ∃ entries, sdtLength table ≤ done.ptr ∧ Records table entries done := by
  induction fuel generalizing now before with
  | zero =>
    rw [parseLoop] at ends
    split at ends
    · cases ends
    · cases ends
      exact ⟨before, by omega, records⟩
  | succ fuel ih =>
    rw [parseLoop] at ends
    split at ends
    · exact ih (records.step (by assumption)) ends
    · cases ends
      exact ⟨before, by omega, records⟩

theorem parseLoop_reads (ends : parseLoop table fuel now = some done) :
    ∀ field ∈ now.reads, field ∈ done.reads := by
  induction fuel generalizing now with
  | zero =>
    rw [parseLoop] at ends
    split at ends
    · cases ends
    · cases ends
      exact fun _ listed => listed
  | succ fuel ih =>
    rw [parseLoop] at ends
    split at ends
    · exact fun field listed => ih ends field (mem_append_left _ listed)
    · cases ends
      exact fun _ listed => listed

theorem Records.start (table : Memory) : Records table [] (Parser.start table) :=
  ⟨.first, rfl, rfl⟩

theorem Reached.passed (ends : parse table fuel = some done) {entry : Nat}
    (reached : Reached table before entry) :
    ∃ fuel now, now.ptr = entry ∧ Records table before now ∧
      parseLoop table fuel now = some done := by
  induction reached with
  | first => exact ⟨fuel, _, rfl, .start table, ends⟩
  | next _ inside ih =>
    obtain ⟨fuel, now, rfl, records, ends⟩ := ih
    obtain ⟨less, ends⟩ := parseLoop_step inside ends
    exact ⟨less, _, rfl, records.step inside, ends⟩

theorem WellFormed.ends (wellFormed : WellFormed table) (records : Records table before now)
    (inside : ∀ field ∈ now.reads, field.1 + field.2 ≤ sdtLength table)
    (left : sdtLength table ≤ now.ptr + fuel) : ∃ done, parseLoop table fuel now = some done ∧
      ∀ field ∈ done.reads, field.1 + field.2 ≤ sdtLength table := by
  induction fuel generalizing now before with
  | zero => exact ⟨now, if_neg (by omega), inside⟩
  | succ fuel ih =>
    rw [parseLoop]
    split
    · rename_i more
      obtain ⟨moves, fits⟩ := wellFormed.2 before now.ptr records.reached more
      refine ih (records.step more) ((records.reads_iff _).mpr ⟨inside, fits⟩) ?_
      change sdtLength table ≤ now.ptr + entryLength table now.ptr + fuel
      omega
    · exact ⟨now, rfl, inside⟩

end Loop

/-- Parsing ends inside the table with the first entries recorded exactly when the table is
well formed. -/
theorem parse_inside_iff (table : Memory) : Parses table ↔ WellFormed table := by
  constructor
  · rintro ⟨fuel, done, entries, ends, inside, _⟩
    refine ⟨inside _ (parseLoop_reads ends (36, 4) (by simp [Parser.start])), ?_⟩
    intro before entry reached more
    obtain ⟨fuel, now, rfl, records, ends⟩ := reached.passed ends
    refine ⟨pos_of_ne_zero fun zero => ?_, ?_⟩
    · rw [parseLoop_stuck fuel more zero] at ends
      cases ends
    · obtain ⟨less, ends⟩ := parseLoop_step more ends
      exact ((records.reads_iff _).mp fun field listed =>
        inside field (parseLoop_reads ends field listed)).2
  · intro wellFormed
    have header := wellFormed.1
    obtain ⟨done, ends, inside⟩ :=
      @WellFormed.ends _ _ _ (sdtLength table) wellFormed (.start table)
      (by simp [Parser.start]; omega) (Nat.le_add_left _ _)
    obtain ⟨entries, last, records⟩ := parseLoop_records (.start table) ends
    exact ⟨_, done, entries, ends, inside, last, records⟩

/-- A table of 46 bytes whose one entry has length zero: the loop does not end. -/
theorem parse_never_ends :
    ∃ table, sdtLength table = 46 ∧ entryLength table 44 = 0 ∧ ∀ fuel, parse table fuel = none := by
  refine ⟨fun offset => if offset = 4 then 46 else 0, by decide, by decide, fun fuel => ?_⟩
  exact parseLoop_stuck fuel (by decide) (by decide)

end Synx.Madt
