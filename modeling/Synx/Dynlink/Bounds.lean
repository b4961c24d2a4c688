/-
What every run of the linker keeps.
-/

import Synx.Dynlink.Load

namespace Synx.Dynlink

open Lib Program Memory List
open Exec (ProgramHeader readElfHeader rangeValid uint64Max sizeofElfHeader sizeofProgramHeader
  sizeofDynamicEntry sizeofRela ptLoad ptDynamic elfIdent etDyn emX8664 dtNull dtRela dtRelasz
    dtRelaent)

variable {κ α : Type}

variable {window : Window} {layout : Layout} {holds : State κ → Prop}
    {stopped : Error → State κ → Prop}

theorem imageRange_eq_some {address length offset : Nat}
    (found : imageRange window address length = some offset) :
    window.base ≤ address ∧ offset = address - window.base ∧ offset + length ≤ window.span := by
  unfold imageRange at found
  split at found
  · cases found
  · dsimp only at found
    split at found
    · cases found
    · cases found
      omega

def Lookup.record (lookup : Lookup) : Nat := lookup.symtab + sizeofSymbol * lookup.index

/-- The record is found where the code looks for it, modulo `2 ^ 64`. -/
def Lookup.Found (window : Window) (lookup : Lookup) : Prop :=
  ∃ offset, imageRange window (lookup.record % 2 ^ 64) sizeofSymbol = some offset

def State.looked (lookup : Lookup) (state : State κ) : State κ :=
  { state with lookups := state.lookups ++ [lookup] }

/-- A property that does not depend on the context, and what is left of it after an error. -/
structure Calm (holds : State κ → Prop) (stopped : Error → State κ → Prop) : Prop where
  stops : ∀ error state, error ≠ .outOfBounds → holds state → stopped error state
  context : ∀ context state, holds state → holds { state with context := context }

namespace Calm

variable {window : Window} {holds : State κ → Prop} {stopped : Error → State κ → Prop}

variable {offset rounds : Nat} {strings : Option (Nat × Nat)}

theorem triple_look {size : Nat} (inside : offset + size ≤ window.span) (read : Memory → Nat → α) :
    Triple holds (look window offset size read) (fun _ => holds) stopped := by
  unfold look
  rw [if_pos inside]
  exact .gets _ (fun _ now => now)

variable (calm : Calm holds stopped)

include calm

theorem triple_stop {error : Error} {after : α → State κ → Prop} (checked : error ≠ .outOfBounds) :
    Triple holds (Program.stop error : Action κ α) after stopped :=
  .stop _ (fun state now => calm.stops error state checked now)

theorem triple_scanDynamic (inside : offset + rounds * sizeofDynamicEntry ≤ window.span)
    (dynamic : DynamicInfo) :
    Triple holds (scanDynamic window rounds offset dynamic) (fun _ => holds) stopped := by
  induction rounds generalizing offset dynamic with
  | zero => exact calm.triple_stop (by decide)
  | succ rounds ih =>
    rw [Nat.succ_mul] at inside
    rw [scanDynamic]
    refine .bind (fun _ => holds) (triple_look (by omega) _) (fun entry => ?_)
    exact .ite _ (fun _ => .pure _ (fun _ now => now)) (fun _ => ih (by omega) _)

theorem triple_loadNeeded (options : Options κ) (name : List UInt8) :
    Triple holds (loadNeeded options name) (fun _ => holds) stopped := by
  unfold loadNeeded
  cases options.loadDependency with
  | none => exact calm.triple_stop (by decide)
  | some load =>
    refine .bind (fun _ => holds) (.gets _ (fun _ now => now)) (fun state => ?_)
    refine .bind (fun _ => holds) (.modify _ (fun now holding => calm.context _ now holding))
      (fun _ => ?_)
    exact .ite _ (fun _ => .pure _ (fun _ now => now)) (fun _ => calm.triple_stop (by decide))

section

variable (options : Options κ)
  (table : ∀ offset size, strings = some (offset, size) → offset + size ≤ window.span)

include options table

theorem triple_visitEntry (entry : DynamicEntry) :
    Triple holds (visitEntry window options strings entry) (fun _ => holds) stopped := by
  unfold visitEntry
  refine .ite _ (fun _ => .pure _ (fun _ now => now)) (fun _ => ?_)
  cases strings with
  | none => exact calm.triple_stop (by decide)
  | some place =>
    refine .bind (fun _ => holds) (triple_look (table _ _ rfl) _) (fun bytes => ?_)
    cases boundedString bytes entry.value with
    | none => exact calm.triple_stop (by decide)
    | some name => exact calm.triple_loadNeeded options name

theorem triple_loadDependencies (inside : offset + rounds * sizeofDynamicEntry ≤ window.span) :
    Triple holds (loadDependencies window options strings rounds offset) (fun _ => holds)
      stopped := by
  induction rounds generalizing offset with
  | zero => exact .pure _ (fun _ now => now)
  | succ rounds ih =>
    rw [Nat.succ_mul] at inside
    rw [loadDependencies]
    refine .bind (fun _ => holds) (triple_look (by omega) _) (fun entry => ?_)
    refine .ite _ (fun _ => .pure _ (fun _ now => now)) (fun _ => ?_)
    exact .bind (fun _ => holds) (calm.triple_visitEntry options table entry)
      (fun _ => ih (by omega))

end

theorem triple_resolve (options : Options κ) (name : List UInt8) :
    Triple holds (resolve options name) (fun _ => holds) stopped := by
  unfold resolve
  cases options.resolveSymbol with
  | none => exact .pure _ (fun _ now => now)
  | some ask =>
    refine .bind (fun _ => holds) (.gets _ (fun _ now => now)) (fun state => ?_)
    refine .bind (fun _ => holds) (.modify _ (fun now holding => calm.context _ now holding))
      (fun _ => ?_)
    exact .pure _ (fun _ now => now)

theorem triple_symbolValue (options : Options κ) (symbol : Symbol) (name : List UInt8) :
    Triple holds (symbolValue options symbol name) (fun _ => holds) stopped := by
  unfold symbolValue
  refine .ite _ (fun _ => .pure _ (fun _ now => now)) (fun _ => ?_)
  refine .bind (fun _ => holds) (calm.triple_resolve options name) (fun answer => ?_)
  exact .ite _ (fun _ => calm.triple_stop (by decide)) (fun _ => .pure _ (fun _ now => now))

end Calm

/-- A property that every step keeps. -/
structure Kept (window : Window) (holds : State κ → Prop) (stopped : Error → State κ → Prop) : Prop
    extends Calm holds stopped where
  store : ∀ offset bytes state, offset + bytes.length ≤ window.span → holds state →
    holds { state with image := writeBytes state.image offset bytes }
  found : ∀ lookup state, lookup.Found window → holds state → holds (state.looked lookup)
  missed : ∀ lookup state, holds state → stopped .invalidDynamicTable (state.looked lookup)

namespace Kept

variable {window : Window} {holds : State κ → Prop} {stopped : Error → State κ → Prop}
  (kept : Kept window holds stopped)

include kept

theorem triple_store {offset : Nat} {bytes : List UInt8}
    (inside : offset + bytes.length ≤ window.span) :
    Triple holds (Dynlink.store window offset bytes) (fun _ => holds) stopped := by
  unfold Dynlink.store
  rw [if_pos inside]
  exact .modify _ (fun state now => kept.store offset bytes state inside now)

theorem triple_copySegment {file : List UInt8} {program : ProgramHeader}
    (sized : program.type = ptLoad → program.filesz ≤ program.memsz ∧
      program.offset + program.filesz ≤ file.length) :
    Triple holds (copySegment file window program) (fun _ => holds) stopped := by
  unfold copySegment
  apply Triple.ite
  · exact fun _ => Triple.pure _ (fun _ now => now)
  · intro loaded
    obtain ⟨fits, inFile⟩ := sized (by omega)
    cases found : imageRange window program.vaddr program.memsz with
    | none => exact kept.toCalm.triple_stop (by decide)
    | some destination =>
      dsimp only
      rw [if_pos inFile]
      apply kept.triple_store
      have inside := (imageRange_eq_some found).2.2
      rw [length_take, length_drop]
      omega

theorem triple_symbolAddress (tables : Tables) (options : Options κ) (index : Nat) :
    Triple holds (symbolAddress window tables options index) (fun _ => holds) stopped := by
  let lookup : Lookup := ⟨tables.symtab, index⟩
  unfold symbolAddress
  refine .bind (fun _ now => ∃ state, holds state ∧ now = state.looked lookup)
    (.modify _ (fun state now => ⟨state, now, rfl⟩)) (fun _ => ?_)
  have missed : Triple (fun now => ∃ state, holds state ∧ now = state.looked lookup)
      (Program.stop .invalidDynamicTable : Action κ Nat) (fun _ => holds) stopped := by
    apply Triple.stop
    rintro _ ⟨state, now, rfl⟩
    exact kept.missed lookup state now
  dsimp only
  refine .ite _ (fun _ => missed) (fun _ => ?_)
  split
  · rename_i symbolOffset stringsOffset symbolFound stringsFound
    have found : lookup.Found window := by
      refine ⟨symbolOffset, ?_⟩
      rw [← symbolFound]
      unfold Lookup.record
      rw [mul_comm sizeofSymbol, Nat.add_mod_mod]
    refine .weaken (?_ : Triple holds _ _ _) ?_ (fun _ _ now => now) (fun _ _ now => now)
    · refine .bind (fun _ => holds) (Calm.triple_look (imageRange_eq_some symbolFound).2.2 _)
        (fun symbol => ?_)
      refine .bind (fun _ => holds) (Calm.triple_look (imageRange_eq_some stringsFound).2.2 _)
        (fun strings => ?_)
      cases boundedString strings symbol.name with
      | none => exact kept.toCalm.triple_stop (by decide)
      | some name => exact kept.toCalm.triple_symbolValue options symbol name
    · rintro _ ⟨state, now, rfl⟩
      exact kept.found lookup state found now
  · exact missed

theorem triple_applyRelocation (tables : Tables) (options : Options κ) {offset : Nat}
    (inside : offset + sizeofRela ≤ window.span) :
    Triple holds (applyRelocation window tables options offset) (fun _ => holds) stopped := by
  unfold applyRelocation
  refine .bind (fun _ => holds) (Calm.triple_look inside _) (fun relocation => ?_)
  cases found : imageRange window relocation.offset 8 with
  | none => exact kept.toCalm.triple_stop (by decide)
  | some target =>
    refine .bind (fun _ => holds) ?_ (fun value => kept.triple_store ?_)
    · unfold relocationValue
      refine .ite _ (fun _ => ?_)
        (fun _ => .ite _ (fun _ => ?_) (fun _ => kept.toCalm.triple_stop (by decide)))
      · exact .ite _ (fun _ => kept.toCalm.triple_stop (by decide))
          (fun _ => .pure _ (fun _ now => now))
      · exact .bind (fun _ => holds) (kept.triple_symbolAddress tables options _)
          (fun _ => .pure _ (fun _ now => now))
    · rw [numberBytes_length]
      exact (imageRange_eq_some found).2.2

theorem triple_applyRelocations (dynamic : DynamicInfo) (options : Options κ) (address size : Nat) :
    Triple holds (applyRelocations window dynamic options address size) (fun _ => holds)
      stopped := by
  unfold applyRelocations
  refine .ite _ (fun _ => .pure _ (fun _ now => now)) (fun _ => ?_)
  split
  · rename_i symtab strtab strsz _ _ _
    refine .ite _ (fun _ => kept.toCalm.triple_stop (by decide)) (fun whole => ?_)
    cases found : imageRange window address size with
    | none => exact kept.toCalm.triple_stop (by decide)
    | some offset =>
      refine .each holds _ _ (fun index member => kept.triple_applyRelocation _ options ?_)
      have few := mem_range.mp member
      have inside := (imageRange_eq_some found).2.2
      unfold sizeofRela at few ⊢
      omega
  · exact kept.toCalm.triple_stop (by decide)

theorem triple_relocateRela (dynamic : DynamicInfo) (options : Options κ) :
    Triple holds (relocateRela window dynamic options) (fun _ => holds) stopped := by
  unfold relocateRela
  cases dynamic.relasz with
  | none => exact .pure _ (fun _ now => now)
  | some size =>
    exact .ite _ (fun _ => kept.toCalm.triple_stop (by decide))
      (fun _ => kept.triple_applyRelocations dynamic options _ _)

theorem triple_relocateJmprel (dynamic : DynamicInfo) (options : Options κ) :
    Triple holds (relocateJmprel window dynamic options) (fun _ => holds) stopped := by
  unfold relocateJmprel
  cases dynamic.pltrelsz with
  | none => exact .pure _ (fun _ now => now)
  | some size =>
    exact .ite _ (fun _ => .pure _ (fun _ now => now))
      (fun _ => .ite _ (fun _ => kept.toCalm.triple_stop (by decide))
        (fun _ => kept.triple_applyRelocations dynamic options _ _))

end Kept

theorem stringTable_cases (window : Window) (dynamic : DynamicInfo) :
    stringTable window dynamic = .error .invalidDynamicTable ∨
      ∃ strings, stringTable window dynamic = .ok strings ∧
        ∀ offset size, strings = some (offset, size) → offset + size ≤ window.span := by
  unfold stringTable
  split
  · split
    · exact .inl rfl
    · rename_i range
      refine .inr ⟨_, rfl, ?_⟩
      rintro offset size ⟨⟩
      exact (imageRange_eq_some range).2.2
  · exact .inr ⟨_, rfl, nofun⟩

theorem Kept.triple_linkImage (kept : Kept layout.window holds stopped) (options : Options κ)
    {dynamicOffset : Nat} (inside : dynamicOffset + layout.dynamicSize ≤ layout.window.span)
    (dynamic : DynamicInfo) :
    Triple holds (linkImage layout options dynamicOffset dynamic) (fun _ => holds) stopped := by
  have rounds := Nat.div_mul_le_self layout.dynamicSize sizeofDynamicEntry
  unfold linkImage
  rcases stringTable_cases layout.window dynamic with refused | ⟨strings, found, table⟩
  · rw [refused]
    exact .bind_never (kept.toCalm.triple_stop (by decide))
  · rw [found]
    refine .bind (fun value now => value = strings ∧ holds now) (fun state now => ⟨rfl, now⟩)
      (fun value => ?_)
    rintro state ⟨rfl, now⟩
    refine Triple.bind (fun _ => holds)
      (kept.toCalm.triple_loadDependencies options table (by omega)) (fun _ => ?_) state now
    refine Triple.ite _ (fun _ => kept.toCalm.triple_stop (by decide)) (fun _ => ?_)
    refine .bind (fun _ => holds) (kept.triple_relocateRela dynamic options) (fun _ => ?_)
    refine .bind (fun _ => holds) (kept.triple_relocateJmprel dynamic options) (fun _ => ?_)
    cases imageRange layout.window layout.entry 1 with
    | none => exact kept.toCalm.triple_stop (by decide)
    | some _ => exact .pure _ (fun _ now => now)

theorem Kept.triple_dynamic (kept : Kept layout.window holds stopped) (options : Options κ) :
    Triple holds (linkDynamic layout options) (fun _ => holds) stopped := by
  have rounds := Nat.div_mul_le_self layout.dynamicSize sizeofDynamicEntry
  unfold linkDynamic
  refine .ite _ (fun _ => kept.toCalm.triple_stop (by decide)) (fun _ => ?_)
  cases found : imageRange layout.window layout.dynamicAddress layout.dynamicSize with
  | none => exact kept.toCalm.triple_stop (by decide)
  | some offset =>
    have inside := (imageRange_eq_some found).2.2
    exact .bind (fun _ => holds) (kept.toCalm.triple_scanDynamic (by omega) _)
      (fun dynamic => kept.triple_linkImage options inside dynamic)

/-! ### The layout -/

def Sized (fileSize : Nat) (program : ProgramHeader) : Prop :=
  program.type = ptLoad → program.filesz ≤ program.memsz ∧ program.offset + program.filesz ≤
    fileSize

def Loaded (program : ProgramHeader) : Prop := program.type = ptLoad ∧ program.memsz ≠ 0

/-- The ends of an extent are ends of segments, where they are not those it started with. -/
structure Extent.Grows (programs : List ProgramHeader) (extent next : Extent) : Prop where
  base : next.base = extent.base ∨ ∃ program, program ∈ programs ∧ Loaded program ∧ program.vaddr =
    next.base
  last : next.last = extent.last ∨
    ∃ program, program ∈ programs ∧ Loaded program ∧ (program.vaddr + program.memsz) % 2 ^ 64 =
      next.last

theorem Extent.Grows.cons {program : ProgramHeader} {rest : List ProgramHeader}
    {extent next final : Extent} (one : extent.Grows [program] next)
    (others : next.Grows rest final) : extent.Grows (program :: rest) final := by
  constructor
  · rcases others.base with same | ⟨other, member, found⟩
    · rcases one.base with unchanged | ⟨other, member, loaded, found⟩
      · exact .inl (same.trans unchanged)
      · exact .inr ⟨program, mem_cons_self, mem_singleton.mp member ▸ loaded,
          mem_singleton.mp member ▸ found.trans same.symm⟩
    · exact .inr ⟨other, mem_cons_of_mem _ member, found⟩
  · rcases others.last with same | ⟨other, member, found⟩
    · rcases one.last with unchanged | ⟨other, member, loaded, found⟩
      · exact .inl (same.trans unchanged)
      · exact .inr ⟨program, mem_cons_self, mem_singleton.mp member ▸ loaded,
          mem_singleton.mp member ▸ found.trans same.symm⟩
    · exact .inr ⟨other, mem_cons_of_mem _ member, found⟩

theorem Extent.note_cases (fileSize : Nat) (extent : Extent) (program : ProgramHeader) :
    extent.note fileSize program = .error .invalidElf ∨
      ∃ next, extent.note fileSize program = .ok next ∧ Sized fileSize program ∧
        extent.Grows [program] next := by
  have same : extent.Grows [program] extent := ⟨.inl rfl, .inl rfl⟩
  unfold Extent.note
  split
  · rename_i load
    dsimp only
    split
    · exact .inl rfl
    · rename_i checked
      simp only [rangeValid, not_or, Bool.not_eq_true', Bool.not_eq_false, Bool.and_eq_true,
        decide_eq_true_eq] at checked
      have sized : Sized fileSize program := fun _ => ⟨by omega, by omega⟩
      split
      · exact .inr ⟨_, rfl, sized, same⟩
      · rename_i nonempty
        refine .inr ⟨_, rfl, sized, ?_, ?_⟩
        · dsimp only
          split
          · exact .inr ⟨program, mem_singleton_self _, ⟨load, nonempty⟩, rfl⟩
          · exact .inl rfl
        · dsimp only
          split
          · exact .inr ⟨program, mem_singleton_self _, ⟨load, nonempty⟩, rfl⟩
          · exact .inl rfl
  · rename_i other
    have sized : Sized fileSize program := fun load => absurd load other
    split
    · exact .inr ⟨_, rfl, sized, .inl rfl, .inl rfl⟩
    · exact .inr ⟨_, rfl, sized, same⟩

theorem foldlM_note_cases (fileSize : Nat) (programs : List ProgramHeader) (extent : Extent) :
    programs.foldlM (Extent.note fileSize) extent = .error .invalidElf ∨
      ∃ final, programs.foldlM (Extent.note fileSize) extent = .ok final ∧
        (∀ program ∈ programs, Sized fileSize program) ∧ extent.Grows programs final := by
  induction programs generalizing extent with
  | nil => exact .inr ⟨extent, rfl, nofun, .inl rfl, .inl rfl⟩
  | cons program rest ih =>
    rw [foldlM_cons]
    rcases extent.note_cases fileSize program with refused | ⟨next, noted, sized, grows⟩
    · rw [refused]
      exact .inl rfl
    · rw [noted]
      rcases ih next with refused | ⟨final, ran, others, later⟩
      · exact .inl refused
      · refine .inr ⟨final, ran, ?_, grows.cons later⟩
        intro other member
        rcases mem_cons.mp member with rfl | inRest
        · exact sized
        · exact others other inRest

theorem mapM_programAt {file : List UInt8} {header : Exec.ElfHeader}
    (inside : header.phoff + header.phnum * sizeofProgramHeader ≤ file.length) :
    (range header.phnum).mapM
      (fun index => programAt file (header.phoff + index * sizeofProgramHeader)) =
      .ok (Exec.programHeaders file header) := by
  unfold Exec.programHeaders
  have each : ∀ index ∈ range header.phnum,
      programAt file (header.phoff + index * sizeofProgramHeader) =
        .ok (Exec.readProgramHeader file (header.phoff + index * sizeofProgramHeader)) := by
    intro index member
    have few := mem_range.mp member
    unfold sizeofProgramHeader at inside
    exact if_pos (by unfold sizeofProgramHeader; omega)
  generalize range header.phnum = indices at each
  induction indices with
  | nil => rfl
  | cons index rest ih =>
    rw [mapM_cons, each index (.head _), ih (fun other member => each other (.tail _ member))]
    rfl

/-- The window goes from the first address of a segment to the end of one. -/
structure Window.Reached (window : Window) (programs : List ProgramHeader) : Prop where
  base : ∃ program, program ∈ programs ∧ Loaded program ∧ program.vaddr = window.base
  last : ∃ program, program ∈ programs ∧ Loaded program ∧
    (program.vaddr + program.memsz) % 2 ^ 64 = window.base + window.span

structure Layout.Sound (input : Input) (layout : Layout) : Prop where
  window : layout.window.base + layout.window.span < 2 ^ 64
  capacity : layout.window.span ≤ input.capacity
  programs : layout.programs = Exec.programHeaders input.file (readElfHeader input.file)
  entry : layout.entry = (readElfHeader input.file).entry
  sized : ∀ program, program ∈ layout.programs → Sized input.file.length program
  reached : layout.window.Reached layout.programs

theorem checkHeader_cases (header : Exec.ElfHeader) (fileSize : Nat) :
    (∃ error, checkHeader header fileSize = .error error ∧ error ≠ .outOfBounds) ∨
      checkHeader header fileSize = .ok () ∧ header.phoff + header.phnum * sizeofProgramHeader ≤
        fileSize := by
  unfold checkHeader
  split
  · exact .inl ⟨_, rfl, by decide⟩
  · split
    · exact .inl ⟨_, rfl, by decide⟩
    · split
      · exact .inl ⟨_, rfl, by decide⟩
      · rename_i ranged
        simp only [rangeValid, Bool.not_eq_true', Bool.not_eq_false, Bool.and_eq_true,
          decide_eq_true_eq] at ranged
        exact .inr ⟨rfl, by omega⟩

theorem readLayout_cases (input : Input) :
    (∃ error, readLayout input = .error error ∧ error ≠ .outOfBounds) ∨
      ∃ layout, readLayout input = .ok layout ∧ layout.Sound input := by
  unfold readLayout
  split
  · exact .inl ⟨_, rfl, by decide⟩
  · dsimp only
    rcases checkHeader_cases (readElfHeader input.file) input.file.length with
      ⟨error, refused, checked⟩ | ⟨accepted, inside⟩
    · rw [refused]
      exact .inl ⟨error, rfl, checked⟩
    · rw [accepted, mapM_programAt inside]
      simp only [bind, Except.bind]
      rcases foldlM_note_cases input.file.length
        (Exec.programHeaders input.file (readElfHeader input.file))
        ⟨uint64Max, 0, none⟩ with refused | ⟨extent, ran, sized, grows⟩
      · rw [refused]
        exact .inl ⟨_, rfl, by decide⟩
      · rw [ran]
        dsimp only
        unfold placeImage
        split
        · exact .inl ⟨_, rfl, by decide⟩
        · split
          · exact .inl ⟨_, rfl, by decide⟩
          · dsimp only
            split
            · exact .inl ⟨_, rfl, by decide⟩
            · rename_i bounded _
              have base := grows.base.resolve_left (fun same => bounded (.inl same))
              obtain ⟨program, member, loaded, isLast⟩ := grows.last.resolve_left
                (fun same => bounded (.inr (by rw [same]; exact zero_le)))
              have last : extent.last < 2 ^ 64 := isLast ▸ Nat.mod_lt _ (by decide)
              refine .inr ⟨_, rfl, ?_, ?_, rfl, rfl, sized, base, program, member, loaded, ?_⟩
              · dsimp only
                omega
              · dsimp only
                omega
              · dsimp only
                omega

/-! ### The whole run -/

theorem triple_loadElf64 (input : Input) (options : Options κ) {begins : State κ → Prop}
    {holds : Layout → State κ → Prop} {stopped : Error → State κ → Prop}
    (zeroed : ∀ layout, readLayout input = .ok layout → ∀ state, begins state →
      holds layout { state with image := fill state.image 0 layout.window.span 0 })
    (refused : ∀ error state, error ≠ .outOfBounds → begins state → stopped error state)
    (kept : ∀ layout, readLayout input = .ok layout → Kept layout.window (holds layout) stopped) :
    Triple begins (loadElf64 input options)
      (fun _ now => ∃ layout, readLayout input = .ok layout ∧ layout.Sound input ∧ holds layout now)
        stopped := by
  unfold loadElf64
  rcases readLayout_cases input with ⟨error, laid, checked⟩ | ⟨layout, laid, sound⟩
  · rw [laid]
    exact .bind_never (.stop error (fun state now => refused error state checked now))
  · rw [laid]
    have keeps := kept layout laid
    refine .bind (fun value now => value = layout ∧ begins now) (fun state now => ⟨rfl, now⟩)
      (fun value => ?_)
    rintro state ⟨rfl, now⟩
    refine Triple.bind (fun _ => holds value)
      (Triple.modify _ (fun state now => zeroed value laid state now))
      (fun _ => ?_) state now
    refine Triple.bind (fun _ => holds value)
      (.each _ _ _ (fun program member => keeps.triple_copySegment (sound.sized program member)))
        (fun _ => ?_)
    have linked : Triple (holds value) _ (fun _ => holds value) stopped :=
      keeps.triple_dynamic options
    exact linked.weaken (fun _ now => now) (fun _ _ now => ⟨value, rfl, sound, now⟩)
      (fun _ _ now => now)

/-! ### Looking up symbols -/

/-- The record is in the image at its address, computed without wrapping. -/
def Lookup.Inside (window : Window) (lookup : Lookup) : Prop :=
  window.base ≤ lookup.record ∧ lookup.record + sizeofSymbol ≤ window.base + window.span

theorem Lookup.inside_iff (small : window.base + window.span < 2 ^ 64) {lookup : Lookup}
    (found : lookup.Found window) : lookup.Inside window ↔ lookup.record < 2 ^ 64 := by
  obtain ⟨offset, range⟩ := found
  obtain ⟨above, same, inside⟩ := imageRange_eq_some range
  unfold Lookup.Inside
  constructor
  · omega
  · intro unwrapped
    rw [Nat.mod_eq_of_lt unwrapped] at above same
    omega

/-- Where a load ends in an error, every symbol was found but perhaps the last one, which the
error is about. -/
def Settled (input : Input) (error : Error) (lookups : List Lookup) : Prop :=
  ∀ layout, readLayout input = .ok layout → ∀ lookup ∈ lookups, lookup.Found layout.window ∨
    (error = .invalidDynamicTable ∧ lookups.getLast? = some lookup)

theorem kept_found {input : Input} {layout : Layout} (laid : readLayout input = .ok layout) :
    Kept layout.window (fun state : State κ => ∀ lookup ∈ state.lookups, lookup.Found layout.window)
      (fun error state => Settled input error state.lookups) where
  stops := by
    intro error state _ now other again lookup member
    rw [laid] at again
    cases again
    exact .inl (now lookup member)
  store := fun _ _ _ _ now => now
  context := fun _ _ now => now
  missed := by
    intro lookup state now other again found member
    rw [laid] at again
    cases again
    rcases mem_append.mp member with earlier | last
    · exact .inl (now found earlier)
    · rw [mem_singleton.mp last]
      exact .inr ⟨rfl, List.getLast?_concat⟩
  found := by
    intro lookup state found now other member
    rcases mem_append.mp member with earlier | last
    · exact now other earlier
    · rw [mem_singleton.mp last]
      exact found

/-- In a load that succeeds, the record of a symbol is inside the image exactly if its
address does not leave 64 bits.  In a load that ends in an error this holds but for a last
symbol, which is not in the image and which the error is about. -/
theorem loadElf64_inside_iff {input : Input} {options : Options κ} {before after : State κ}
    {outcome : Except Error (Nat × Nat)} (fresh : before.lookups = [])
    (ran : (loadElf64 input options).run before = (outcome, after)) :
    (∀ result, outcome = .ok result → ∃ layout, readLayout input = .ok layout ∧
      ∀ lookup, lookup ∈ after.lookups → (lookup.Inside layout.window ↔ lookup.record < 2 ^ 64)) ∧
    ∀ error, outcome = .error error → ∀ layout, readLayout input = .ok layout →
      ∀ lookup, lookup ∈ after.lookups → (lookup.Inside layout.window ↔ lookup.record < 2 ^ 64) ∨
        (error = .invalidDynamicTable ∧ after.lookups.getLast? = some lookup) := by
  have triple := @triple_loadElf64 κ input options (fun state => state.lookups = [])
    (fun layout state => ∀ lookup, lookup ∈ state.lookups → lookup.Found layout.window)
    (fun error state => Settled input error state.lookups)
    (fun _ _ state none _ member => by simp [none] at member)
    (fun _ _ _ none _ _ _ member => by simp [none] at member) (fun layout laid => kept_found laid)
  constructor
  · rintro result rfl
    obtain ⟨layout, laid, sound, found⟩ := triple.ok fresh ran
    exact ⟨layout, laid, fun lookup member => Lookup.inside_iff sound.window (found lookup member)⟩
  · rintro error rfl layout laid lookup member
    rcases readLayout_cases input with ⟨_, refused, _⟩ | ⟨other, again, sound⟩
    · rw [laid] at refused
      cases refused
    · rw [laid] at again
      cases again
      exact (triple.error fresh ran layout laid lookup member).imp_left
        (Lookup.inside_iff sound.window)

/-! ### A small image -/

/-- One segment with everything in it: the dynamic table at 176, one relocation at 304,
one symbol at 328, and the string table at 352.  The relocation sets the word at 360. -/
def sampleFile (table : List (Nat × Nat)) (info : Nat) : List UInt8 :=
  elfIdent ++ numberBytes 0 9 ++ numberBytes etDyn 2 ++ numberBytes emX8664 2 ++
    numberBytes 1 4 ++ numberBytes 0 8 ++ numberBytes 64 8 ++ numberBytes 0 12 ++
    numberBytes sizeofElfHeader 2 ++ numberBytes sizeofProgramHeader 2 ++ numberBytes 2 2 ++
    numberBytes 0 6 ++
    [(ptLoad, 0, 368), (ptDynamic, 176, 128)].flatMap (fun (type, place, size) =>
      numberBytes type 8 ++
        [place, place, place, size, size, 0].flatMap (fun word => numberBytes word 8)) ++
    table.flatMap (fun (tag, value) => numberBytes tag 8 ++ numberBytes value 8) ++
    numberBytes 360 8 ++ numberBytes info 8 ++ numberBytes 0 8 ++
    numberBytes 0 6 ++ numberBytes shnAbs 2 ++ numberBytes 0x1234 16 ++
    numberBytes 0 16

def sampleTable (symtab : Nat) : List (Nat × Nat) :=
  [(dtStrtab, 352), (dtStrsz, 1), (dtSymtab, symtab), (dtSyment, sizeofSymbol), (dtRela, 304),
    (dtRelasz, sizeofRela), (dtRelaent, sizeofRela), (dtNull, 0)]

def sampleInput (symtab index : Nat) : Input where
  file := (sampleFile (sampleTable symtab) (index * 2 ^ 32 + rX8664GlobDat)).take 368
  capacity := 4096
  apart := by
    rw [length_take]
    omega

def sampleOptions : Options Unit := ⟨0, none, none⟩

def sampleState : State Unit := ⟨fun _ => 0, (), []⟩

theorem loadElf64_inside_sample :
    ∃ after, (loadElf64 (sampleInput 304 1) sampleOptions).run sampleState = (.ok (0, 368), after) ∧
      ∃ layout, readLayout (sampleInput 304 1) = .ok layout ∧
        ∀ lookup, lookup ∈ after.lookups →
          (lookup.Inside layout.window ↔ lookup.record < 2 ^ 64) := by
  have ran :=
    run_of_toOption
      (show ((loadElf64 (sampleInput 304 1) sampleOptions).run sampleState).1.toOption =
    some (0, 368) by decide +kernel)
  exact ⟨_, ran, (loadElf64_inside_iff rfl ran).1 _ rfl⟩

/-- The address of record 100 is `2 ^ 64 + 328`, and the load uses the record at 328. -/
theorem loadElf64_wraps :
    ∃ after, (loadElf64 (sampleInput (2 ^ 64 - 2072) 100) sampleOptions).run sampleState =
      (.ok (0, 368), after) ∧
      after.lookups = [⟨2 ^ 64 - 2072, 100⟩] ∧ readWord after.image 360 = 0x1234 ∧
      (readLayout (sampleInput (2 ^ 64 - 2072) 100)).toOption.map (fun layout => layout.window) =
        some ⟨0, 368⟩ ∧
      ¬Lookup.Inside ⟨0, 368⟩ ⟨2 ^ 64 - 2072, 100⟩ := by
  have outcome : (fun run : Except Error (Nat × Nat) × State Unit =>
      (run.1.toOption, run.2.lookups, readWord run.2.image 360))
      ((loadElf64 (sampleInput (2 ^ 64 - 2072) 100) sampleOptions).run sampleState) =
        (some (0, 368), [⟨2 ^ 64 - 2072, 100⟩], 0x1234) := by decide +kernel
  obtain ⟨ran, looked, word⟩ := Prod.mk.inj outcome |>.imp_right Prod.mk.inj
  refine ⟨_, run_of_toOption ran, looked, word, by decide +kernel, ?_⟩
  intro inside
  exact absurd inside.2 (by decide)

end Synx.Dynlink
