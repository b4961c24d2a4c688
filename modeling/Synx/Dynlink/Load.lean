/-
`proc/dynlink.cpp`: the linker of position-independent images.
-/

import Synx.Exec.Image

namespace Synx.Dynlink

open Lib Program Memory
open Exec (ElfHeader ProgramHeader readElfHeader readProgramHeader rangeValid elfIdent uint64Max
  sizeofElfHeader sizeofProgramHeader sizeofDynamicEntry sizeofRela etDyn emX8664 ptLoad ptDynamic
  dtNull dtNeeded dtPltrelsz dtRela dtRelasz dtRelaent dtRel dtRelsz dtPltrel dtJmprel
    rX8664Relative)

def shnUndef : Nat := 0
def shnAbs : Nat := 0xFFF1
def stbWeak : Nat := 2
def dtStrtab : Nat := 5
def dtSymtab : Nat := 6
def dtStrsz : Nat := 10
def dtSyment : Nat := 11
def rX8664Word : Nat := 1
def rX8664GlobDat : Nat := 6
def rX8664JumpSlot : Nat := 7
def sizeofSymbol : Nat := 24

inductive Error
  | invalidArgument
  | invalidElf
  | unsupported
  | insufficientMemory
  | invalidDynamicTable
  | dependencyError
  | unresolvedSymbol
  | unsupportedRelocation
  | outOfBounds
  deriving DecidableEq

/-- The callbacks get the name and their context, and may look at the image. -/
structure Options (κ : Type) where
  loadBias : Nat
  loadDependency : Option (Memory → List UInt8 → κ → Bool × κ)
  resolveSymbol : Option (Memory → List UInt8 → Nat → κ → Bool × Nat × κ)

/-- The file and the buffer do not overlap, so that both fit in the addresses. -/
structure Input where
  file : List UInt8
  capacity : Nat
  apart : file.length + capacity ≤ 2 ^ 64

structure Lookup where
  symtab : Nat
  index : Nat
  deriving DecidableEq

structure State (κ : Type) where
  image : Memory
  context : κ
  lookups : List Lookup

abbrev Action (κ α : Type) := Program (State κ) Error α

variable {κ α : Type}

/-! ### The image -/

/-- `image_base` and `image_span`. -/
structure Window where
  base : Nat
  span : Nat
  deriving DecidableEq

def imageRange (window : Window) (address length : Nat) : Option Nat :=
  if address < window.base then none
  else
    let relative := address - window.base
    if window.span < relative ∨ window.span - relative < length ∨ uint64Max < relative then none
    else some relative

/-- Reads `size` bytes of the image. -/
def look (window : Window) (offset size : Nat) (read : Memory → Nat → α) : Action κ α :=
  if offset + size ≤ window.span then gets (fun state => read state.image offset) else stop
    .outOfBounds

def store (window : Window) (offset : Nat) (bytes : List UInt8) : Action κ Unit :=
  if offset + bytes.length ≤ window.span then
    modify (fun state => { state with image := writeBytes state.image offset bytes })
  else stop .outOfBounds

structure DynamicEntry where
  tag : Nat
  value : Nat
  deriving DecidableEq

structure Rela where
  offset : Nat
  info : Nat
  addend : Nat
  deriving DecidableEq

structure Symbol where
  name : Nat
  info : Nat
  sectionIndex : Nat
  value : Nat

def readEntry (image : Memory) (offset : Nat) : DynamicEntry :=
  ⟨readNumber image offset 8, readNumber image (offset + 8) 8⟩

def readRela (image : Memory) (offset : Nat) : Rela :=
  ⟨readNumber image offset 8, readNumber image (offset + 8) 8,
    readNumber image (offset + 16) 8⟩

def readSymbol (image : Memory) (offset : Nat) : Symbol :=
  ⟨readNumber image offset 4, readNumber image (offset + 4) 1,
    readNumber image (offset + 6) 2, readNumber image (offset + 8) 8⟩

def terminated : List UInt8 → Option (List UInt8)
  | [] => none
  | byte :: rest => if byte = 0 then some [] else (terminated rest).map (byte :: ·)

def boundedString (strings : List UInt8) (offset : Nat) : Option (List UInt8) :=
  if strings.length ≤ offset then none else terminated (strings.drop offset)

/-! ### The headers -/

def checkHeader (header : ElfHeader) (fileSize : Nat) : Except Error Unit :=
  if header.ident.take 7 ≠ elfIdent ∨ header.version ≠ 1 ∨ header.ehsize ≠ sizeofElfHeader ∨
      header.phentsize ≠ sizeofProgramHeader ∨ header.phnum = 0 then .error .invalidElf
  else if header.type ≠ etDyn ∨ header.machine ≠ emX8664 then .error .unsupported
  else if !rangeValid header.phoff (header.phnum * sizeofProgramHeader) fileSize then .error
    .invalidElf
  else .ok ()

def programAt (file : List UInt8) (offset : Nat) : Except Error ProgramHeader :=
  if offset + sizeofProgramHeader ≤ file.length then .ok (readProgramHeader file offset)
  else .error .outOfBounds

/-- What the first loop over the program headers collects. -/
structure Extent where
  base : Nat
  last : Nat
  dynamic : Option (Nat × Nat)

def Extent.note (fileSize : Nat) (extent : Extent) (program : ProgramHeader) :
    Except Error Extent :=
  if program.type = ptLoad then
    let last := (program.vaddr + program.memsz) % 2 ^ 64
    if program.memsz < program.filesz ∨ !rangeValid program.offset program.filesz fileSize ∨
        last < program.vaddr then .error .invalidElf
    else if program.memsz = 0 then .ok extent
    else .ok { extent with
      base := if program.vaddr < extent.base then program.vaddr else extent.base
      last := if extent.last < last then last else extent.last }
  else if program.type =
    ptDynamic then .ok { extent with dynamic := some (program.vaddr, program.memsz) }
  else .ok extent

/-- What the checks before the first write leave. -/
structure Layout where
  entry : Nat
  programs : List ProgramHeader
  window : Window
  dynamicAddress : Nat
  dynamicSize : Nat

def placeImage (capacity entry : Nat) (programs : List ProgramHeader) (extent : Extent) :
    Except Error Layout :=
  match extent.dynamic with
  | none => .error .invalidElf
  | some (dynamicAddress, dynamicSize) =>
    if extent.base = uint64Max ∨ extent.last ≤ extent.base then .error .invalidElf
    else
      let span := extent.last - extent.base
      if capacity < span ∨ uint64Max < span then .error .insufficientMemory
      else .ok ⟨entry, programs, ⟨extent.base, span⟩, dynamicAddress, dynamicSize⟩

def readLayout (input : Input) : Except Error Layout :=
  if input.file.length < sizeofElfHeader then .error .invalidArgument
  else do
    let header := readElfHeader input.file
    checkHeader header input.file.length
    let programs ← (List.range header.phnum).mapM (fun index =>
      programAt input.file (header.phoff + index * sizeofProgramHeader))
    let extent ← programs.foldlM (Extent.note input.file.length) ⟨uint64Max, 0, none⟩
    placeImage input.capacity header.entry programs extent

/-- One round of the second loop over the program headers. -/
def copySegment (file : List UInt8) (window : Window) (program : ProgramHeader) : Action κ Unit :=
  if program.type ≠ ptLoad ∨ program.memsz = 0 then pure ()
  else
    match imageRange window program.vaddr program.memsz with
    | none => stop .invalidElf
    | some destination =>
      if program.offset + program.filesz ≤ file.length then
        store window destination ((file.drop program.offset).take program.filesz)
      else stop .outOfBounds

/-! ### The dynamic table -/

/-- A field of the source and its `has_` flag are one field here. -/
structure DynamicInfo where
  strtab : Option Nat
  strsz : Option Nat
  symtab : Option Nat
  syment : Option Nat
  rela : Option Nat
  relasz : Option Nat
  relaent : Option Nat
  jmprel : Option Nat
  pltrelsz : Option Nat
  pltrel : Option Nat
  relsz : Nat

def DynamicInfo.none : DynamicInfo :=
  ⟨.none, .none, .none, .none, .none, .none, .none, .none, .none, .none, 0⟩

def DynamicInfo.note (dynamic : DynamicInfo) (entry : DynamicEntry) : DynamicInfo :=
  if entry.tag = dtStrtab then { dynamic with strtab := some entry.value }
  else if entry.tag = dtStrsz then { dynamic with strsz := some entry.value }
  else if entry.tag = dtSymtab then { dynamic with symtab := some entry.value }
  else if entry.tag = dtSyment then { dynamic with syment := some entry.value }
  else if entry.tag = dtRela then { dynamic with rela := some entry.value }
  else if entry.tag = dtRelasz then { dynamic with relasz := some entry.value }
  else if entry.tag = dtRelaent then { dynamic with relaent := some entry.value }
  else if entry.tag = dtJmprel then { dynamic with jmprel := some entry.value }
  else if entry.tag = dtPltrelsz then { dynamic with pltrelsz := some entry.value }
  else if entry.tag = dtPltrel then { dynamic with pltrel := some entry.value }
  else if entry.tag = dtRel ∨ entry.tag = dtRelsz then
    { dynamic with relsz := if entry.tag = dtRelsz then entry.value else 1 }
  else dynamic

/-- The first loop over the table.  It must end at `DT_NULL`. -/
def scanDynamic (window : Window) : Nat → Nat → DynamicInfo → Action κ DynamicInfo
  | 0, _, _ => stop .invalidDynamicTable
  | rounds + 1, offset, dynamic => do
      let entry ← look window offset sizeofDynamicEntry readEntry
      if entry.tag = dtNull then pure dynamic
      else scanDynamic window rounds (offset + sizeofDynamicEntry) (dynamic.note entry)

def loadNeeded (options : Options κ) (name : List UInt8) : Action κ Unit :=
  match options.loadDependency with
  | none => stop .dependencyError
  | some load => do
      let state ← gets id
      let (loaded, context) := load state.image name state.context
      modify (fun state => { state with context := context })
      if loaded then pure () else stop .dependencyError

/-- One entry in the second loop, with the string table or without one. -/
def visitEntry (window : Window) (options : Options κ) (strings : Option (Nat × Nat))
    (entry : DynamicEntry) :
    Action κ Unit :=
  if entry.tag ≠ dtNeeded then pure ()
  else
    match strings with
    | none => stop .invalidDynamicTable
    | some (stringsOffset, strsz) => do
        let bytes ← look window stringsOffset strsz (fun image start => readBytes image start strsz)
        match boundedString bytes entry.value with
        | none => stop .invalidDynamicTable
        | some name => loadNeeded options name

def loadDependencies (window : Window) (options : Options κ) (strings : Option (Nat × Nat)) :
    Nat → Nat → Action κ Unit
  | 0, _ => pure ()
  | rounds + 1, offset => do
      let entry ← look window offset sizeofDynamicEntry readEntry
      if entry.tag = dtNull then pure ()
      else do
        visitEntry window options strings entry
        loadDependencies window options strings rounds (offset + sizeofDynamicEntry)

def stringTable (window : Window) (dynamic : DynamicInfo) : Except Error (Option (Nat × Nat)) :=
  match dynamic.strtab, dynamic.strsz with
  | some strtab, some strsz =>
    match imageRange window strtab strsz with
    | none => .error .invalidDynamicTable
    | some offset => .ok (some (offset, strsz))
  | _, _ => .ok none

/-! ### Relocations -/

/-- The tables that a relocation reads. -/
structure Tables where
  symtab : Nat
  strtab : Nat
  strsz : Nat

def resolve (options : Options κ) (name : List UInt8) : Action κ (Bool × Nat) :=
  match options.resolveSymbol with
  | none => pure (false, 0)
  | some ask => do
      let state ← gets id
      let (found, address, context) := ask state.image name 0 state.context
      modify (fun state => { state with context := context })
      pure (found, address)

def symbolValue (options : Options κ) (symbol : Symbol) (name : List UInt8) : Action κ Nat :=
  if symbol.sectionIndex ≠ shnUndef then
    pure (if symbol.sectionIndex = shnAbs then symbol.value else (options.loadBias + symbol.value) %
      2 ^ 64)
  else do
    let (found, address) ← resolve options name
    if !found ∧ symbol.info / 16 ≠ stbWeak then stop .unresolvedSymbol else pure address

def symbolAddress (window : Window) (tables : Tables) (options : Options κ) (symbolIndex : Nat) :
    Action κ Nat := do
  modify (fun state => { state with lookups := state.lookups ++ [⟨tables.symtab, symbolIndex⟩] })
  let symbolDelta := symbolIndex * sizeofSymbol % 2 ^ 64
  if symbolDelta / sizeofSymbol ≠ symbolIndex then stop .invalidDynamicTable
  else
    match imageRange window ((tables.symtab + symbolDelta) % 2 ^ 64) sizeofSymbol,
      imageRange window tables.strtab tables.strsz with
    | some symbolOffset, some stringsOffset => do
        let symbol ← look window symbolOffset sizeofSymbol readSymbol
        let strings ← look window stringsOffset tables.strsz
          (fun image start => readBytes image start tables.strsz)
        match boundedString strings symbol.name with
        | none => stop .invalidDynamicTable
        | some name => symbolValue options symbol name
    | _, _ => stop .invalidDynamicTable

def relocationValue (window : Window) (tables : Tables) (options : Options κ) (relocation : Rela) :
    Action κ Nat :=
  let type := relocation.info % 2 ^ 32
  let symbolIndex := relocation.info / 2 ^ 32
  if type = rX8664Relative then
    if symbolIndex ≠ 0 then stop .invalidDynamicTable
    else pure ((options.loadBias + relocation.addend) % 2 ^ 64)
  else if type = rX8664Word ∨ type = rX8664GlobDat ∨ type = rX8664JumpSlot then do
    let address ← symbolAddress window tables options symbolIndex
    pure (if type = rX8664Word then (address + relocation.addend) % 2 ^ 64 else address)
  else stop .unsupportedRelocation

/-- One round of the loop of `apply_relocations`. -/
def applyRelocation (window : Window) (tables : Tables) (options : Options κ) (offset : Nat) :
    Action κ Unit := do
  let relocation ← look window offset sizeofRela readRela
  match imageRange window relocation.offset 8 with
  | none => stop .invalidDynamicTable
  | some target => do
      let value ← relocationValue window tables options relocation
      store window target (numberBytes value 8)

def applyRelocations (window : Window) (dynamic : DynamicInfo) (options : Options κ)
    (relaAddress relaSize : Nat) : Action κ Unit :=
  if relaSize = 0 then pure ()
  else
    match dynamic.symtab, dynamic.strtab, dynamic.strsz with
    | some symtab, some strtab, some strsz =>
      if relaSize % sizeofRela ≠ 0 ∨ dynamic.syment ≠
        some sizeofSymbol then stop .invalidDynamicTable
      else
        match imageRange window relaAddress relaSize with
        | none => stop .invalidDynamicTable
        | some relaOffset =>
          each (fun index => applyRelocation window ⟨symtab, strtab, strsz⟩ options
            (relaOffset + index * sizeofRela)) (List.range (relaSize / sizeofRela))
    | _, _, _ => stop .invalidDynamicTable

/-- The entries of `DT_RELA`. -/
def relocateRela (window : Window) (dynamic : DynamicInfo) (options : Options κ) : Action κ Unit :=
  match dynamic.relasz with
  | none => pure ()
  | some relasz =>
    if relasz ≠ 0 ∧
      (dynamic.rela = none ∨ dynamic.relaent ≠ some sizeofRela) then stop .invalidDynamicTable
    else applyRelocations window dynamic options (dynamic.rela.getD 0) relasz

/-- The entries of `DT_JMPREL`. -/
def relocateJmprel (window : Window) (dynamic : DynamicInfo) (options : Options κ) :
    Action κ Unit :=
  match dynamic.pltrelsz with
  | none => pure ()
  | some pltrelsz =>
    if pltrelsz = 0 then pure ()
    else if dynamic.jmprel = none ∨ dynamic.pltrel ≠ some dtRela then stop .unsupported
    else applyRelocations window dynamic options (dynamic.jmprel.getD 0) pltrelsz

/-! ### The linker -/

/-- The part that follows the dynamic table.  The result is `*entry_point` and
`*image_size`. -/
def linkImage (layout : Layout) (options : Options κ) (dynamicOffset : Nat)
    (dynamic : DynamicInfo) :
    Action κ (Nat × Nat) := do
  let strings ← lift (stringTable layout.window dynamic)
  loadDependencies layout.window options strings (layout.dynamicSize / sizeofDynamicEntry)
    dynamicOffset
  if dynamic.relsz ≠ 0 then stop .unsupported
  else do
    relocateRela layout.window dynamic options
    relocateJmprel layout.window dynamic options
    match imageRange layout.window layout.entry 1 with
    | none => stop .invalidElf
    | some _ => pure ((options.loadBias + layout.entry) % 2 ^ 64, layout.window.span)

/-- The part that follows the copies of the segments. -/
def linkDynamic (layout : Layout) (options : Options κ) : Action κ (Nat × Nat) :=
  if layout.dynamicSize < sizeofDynamicEntry then stop .invalidDynamicTable
  else
    match imageRange layout.window layout.dynamicAddress layout.dynamicSize with
    | none => stop .invalidDynamicTable
    | some dynamicOffset => do
        let dynamic ← scanDynamic layout.window (layout.dynamicSize / sizeofDynamicEntry)
          dynamicOffset .none
        linkImage layout options dynamicOffset dynamic

def loadElf64 (input : Input) (options : Options κ) : Action κ (Nat × Nat) := do
  let layout ← lift (readLayout input)
  modify (fun state => { state with image := fill state.image 0 layout.window.span 0 })
  each (copySegment input.file layout.window) layout.programs
  linkDynamic layout options

end Synx.Dynlink
