/-
The ELF side of `proc/elf_exec.cpp`: the checks on a file, the mapping of its
segments, its relative relocations, and the initial stack.
-/

import Synx.Exec.AddressSpace

namespace Synx.Exec

open Lib
open Pmm (pageSize)
open Paging

def uint64Max : Nat := 2 ^ 64 - 1

def etExec : Nat := 2
def etDyn : Nat := 3
def emX8664 : Nat := 62
def ptLoad : Nat := 1
def ptDynamic : Nat := 2
def ptInterp : Nat := 3
def ptPhdr : Nat := 6
def ptTls : Nat := 7
def pfX : Nat := 1
def pfW : Nat := 2
def pieBase : Nat := 0x0000000040000000
def userStackTop : Nat := 0x00007FFFFFFF0000
def userStackPages : Nat := 8
def maxProgramHeaders : Nat := 128
def maxExecFileSize : Nat := 64 * 1024 * 1024
def maxStackStrings : Nat := 16 * 1024
def sizeofElfHeader : Nat := 64
def sizeofProgramHeader : Nat := 56
def sizeofDynamicEntry : Nat := 16
def sizeofRela : Nat := 24

def stackBottom : Nat := userStackTop - userStackPages * pageSize

structure ElfHeader where
  ident : List UInt8
  type : Nat
  machine : Nat
  version : Nat
  entry : Nat
  phoff : Nat
  ehsize : Nat
  phentsize : Nat
  phnum : Nat

structure ProgramHeader where
  type : Nat
  flags : Nat
  offset : Nat
  vaddr : Nat
  filesz : Nat
  memsz : Nat
  align : Nat
  deriving DecidableEq

def field (file : List UInt8) (offset width : Nat) : Nat :=
  Memory.readNumber (fun index => file.getD index 0) offset width

def readElfHeader (file : List UInt8) : ElfHeader :=
  { ident := file.take 16
    type := field file 16 2
    machine := field file 18 2
    version := field file 20 4
    entry := field file 24 8
    phoff := field file 32 8
    ehsize := field file 52 2
    phentsize := field file 54 2
    phnum := field file 56 2 }

def readProgramHeader (file : List UInt8) (offset : Nat) : ProgramHeader :=
  { type := field file offset 4
    flags := field file (offset + 4) 4
    offset := field file (offset + 8) 8
    vaddr := field file (offset + 16) 8
    filesz := field file (offset + 32) 8
    memsz := field file (offset + 40) 8
    align := field file (offset + 48) 8 }

/-! ### Checks -/

def rangeValid (offset length total : Nat) : Bool :=
  offset ≤ total && length ≤ total - offset

def elfIdent : List UInt8 := [0x7F, 0x45, 0x4C, 0x46, 2, 1, 1]

def headerValid (header : ElfHeader) (fileSize : Nat) : Bool :=
  header.ident.take 7 == elfIdent && header.version == 1 &&
    header.ehsize == sizeofElfHeader && header.phentsize == sizeofProgramHeader &&
    header.phnum != 0 && header.phnum ≤ maxProgramHeaders &&
    rangeValid header.phoff (header.phnum * sizeofProgramHeader) fileSize &&
    (header.type == etExec || header.type == etDyn) && header.machine == emX8664

def alignedValid (segment : ProgramHeader) : Bool :=
  if segment.align ≤ 1 then true
  else if segment.align &&& (segment.align - 1) ≠ 0 then false
  else segment.vaddr &&& (segment.align - 1) == segment.offset &&& (segment.align - 1)

/-- The biased address range of a segment, if it may be mapped. -/
def segmentRange (segment : ProgramHeader) (bias : Nat) : Option (Nat × Nat) :=
  if uint64Max - bias < segment.vaddr then none
  else
    let start := segment.vaddr + bias
    if uint64Max - start < segment.memsz then none
    else
      let last := start + segment.memsz
      if last ≤ userTop ∧ (segment.memsz = 0 ∨ pageSize ≤ start) ∧
          (segment.memsz = 0 ∨ last ≤ stackBottom) then some (start, last)
      else none

def overlaps (start last otherStart otherLast : Nat) : Bool :=
  start < otherLast && otherStart < last

/-- What the pass over the program headers collects. -/
structure Scan where
  segments : List ProgramHeader
  dynamic : Option ProgramHeader
  hasInterpreter : Bool
  hasTls : Bool

def scanProgramHeader (fileSize : Nat) (scan : Scan) (program : ProgramHeader) : Option Scan :=
  let scan := { scan with
    hasInterpreter := scan.hasInterpreter || program.type == ptInterp
    hasTls := scan.hasTls || program.type == ptTls }
  if program.type = ptDynamic then
    if scan.dynamic.isSome ∨ program.memsz < program.filesz ∨
        !rangeValid program.offset program.filesz fileSize then none
    else some { scan with dynamic := some program }
  else if program.type = ptLoad then
    if scan.segments.length = maxProgramHeaders then none
    else some { scan with segments := scan.segments ++ [program] }
  else some scan

def scanProgramHeaders (fileSize : Nat) (programs : List ProgramHeader) : Option Scan :=
  programs.foldlM (scanProgramHeader fileSize) ⟨[], none, false, false⟩

/-- The checks on one segment that both passes over the segments make. -/
def segmentChecked (segment : ProgramHeader) (fileSize bias : Nat) : Option (Nat × Nat) :=
  if segment.memsz < segment.filesz ∨ !rangeValid segment.offset segment.filesz fileSize ∨
      !alignedValid segment then none
  else
    match segmentRange segment bias with
    | none => none
    | some range => if segment.flags &&& (pfW ||| pfX) = (pfW ||| pfX) then none else some range

/-- The inner loop of the validation: the segment against those before it. -/
def clearOf (segment : ProgramHeader) (range : Nat × Nat) (bias : Nat)
    (earlier : List ProgramHeader) : Bool :=
  earlier.all (fun other =>
    match segmentRange other bias with
    | none => false
    | some (otherStart, otherLast) =>
      !(segment.memsz != 0 && other.memsz != 0 &&
        overlaps range.1 range.2 otherStart otherLast))

/-- The validation loop.  The result says whether the entry point lies in an
executable segment. -/
def validateSegments (fileSize bias entry : Nat) :
    List ProgramHeader → List ProgramHeader → Option Bool
  | _, [] => some false
  | earlier, segment :: rest =>
    match segmentChecked segment fileSize bias with
    | none => none
    | some range =>
      if clearOf segment range bias earlier then
        (validateSegments fileSize bias entry (earlier ++ [segment]) rest).map
          (fun later => (segment.memsz != 0 && flagged segment.flags pfX &&
            range.1 ≤ entry && entry < range.2) || later)
      else none

/-- A file that has passed every check. -/
structure Plan where
  header : ElfHeader
  programs : List ProgramHeader
  segments : List ProgramHeader
  dynamic : Option ProgramHeader
  bias : Nat
  entry : Nat

def biasOf (header : ElfHeader) : Nat := if header.type = etDyn then pieBase else 0

def programHeaders (file : List UInt8) (header : ElfHeader) : List ProgramHeader :=
  (List.range header.phnum).map (fun index =>
    readProgramHeader file (header.phoff + index * sizeofProgramHeader))

def parseImage (file : List UInt8) : Option Plan :=
  let header := readElfHeader file
  let bias := biasOf header
  let programs := programHeaders file header
  if !headerValid header file.length then none
  else if uint64Max - bias < header.entry then none
  else
    match scanProgramHeaders file.length programs with
    | none => none
    | some scan =>
      if scan.hasInterpreter ∨ scan.hasTls ∨ scan.segments = [] ∨
          (header.type = etExec ∧ scan.dynamic.isSome) then none
      else
        let entry := header.entry + bias
        match validateSegments file.length bias entry [] scan.segments with
        | some true => some ⟨header, programs, scan.segments, scan.dynamic, bias, entry⟩
        | _ => none

/-! ### Segments -/

/-- The pages from one page address up to another. -/
def pagesFrom (pageStart pageEnd : Nat) : List Nat :=
  (List.range ((pageEnd - pageStart) / pageSize)).map (fun index => pageStart + index * pageSize)

def segmentFlags (segment : ProgramHeader) (nxEnabled : Bool) : Nat :=
  (if flagged segment.flags pfW then pteWritable else 0) |||
    (if nxEnabled && !flagged segment.flags pfX then pteNx else 0)

def mapSegment (root : Nat) (file : List UInt8) (bias : Nat) (nxEnabled : Bool)
    (segment : ProgramHeader) : Loader Unit :=
  match segmentChecked segment file.length bias with
  | none => refuse
  | some (start, last) =>
    if segment.memsz = 0 then pure ()
    else if uint64Max - (pageSize - 1) < last then refuse
    else do
      let pageStart := start / pageSize * pageSize
      let pageEnd := (last + pageSize - 1) / pageSize * pageSize
      let flags := segmentFlags segment nxEnabled
      Program.each (fun page => mapUserPage root page flags) (pagesFrom pageStart pageEnd)
      copyToSpace root start ((file.drop segment.offset).take segment.filesz)

/-! ### Relocations -/

def segmentIsWritable (segments : List ProgramHeader) (address length bias : Nat) : Bool :=
  if uint64Max - address < length then false
  else segments.any (fun segment =>
    flagged segment.flags pfW &&
      match segmentRange segment bias with
      | none => false
      | some (start, last) => start ≤ address && address + length ≤ last)

def dtNull : Nat := 0
def dtNeeded : Nat := 1
def dtPltrelsz : Nat := 2
def dtRela : Nat := 7
def dtRelasz : Nat := 8
def dtRelaent : Nat := 9
def dtRel : Nat := 17
def dtRelsz : Nat := 18
def dtPltrel : Nat := 20
def dtTextrel : Nat := 22
def dtJmprel : Nat := 23
def rX8664Relative : Nat := 8

def unsupportedTags : List Nat :=
  [dtNeeded, dtRel, dtRelsz, dtTextrel, dtJmprel, dtPltrelsz, dtPltrel]

structure DynamicTable where
  relaAddress : Nat
  relaSize : Nat
  relaEntrySize : Nat
  hasRela : Bool
  hasRelaSize : Bool

/-- The loop over the dynamic entries.  It refuses when no entry terminates the
table. -/
def scanDynamic (root : Nat) : Nat → Nat → DynamicTable → Loader DynamicTable
  | 0, _, _ => refuse
  | rounds + 1, position, table => do
      let bytes ← copyFromSpace root position sizeofDynamicEntry
      let tag := field bytes 0 8
      let value := field bytes 8 8
      if tag = dtNull then pure table
      else if tag ∈ unsupportedTags then refuse
      else
        let table :=
          if tag = dtRela then { table with relaAddress := value, hasRela := true }
          else if tag = dtRelasz then { table with relaSize := value, hasRelaSize := true }
          else if tag = dtRelaent then { table with relaEntrySize := value }
          else table
        scanDynamic root rounds (position + sizeofDynamicEntry) table

def applyRelocation (root bias : Nat) (segments : List ProgramHeader) (address : Nat) :
    Loader Unit := do
  let bytes ← copyFromSpace root address sizeofRela
  let offset := field bytes 0 8
  let info := field bytes 8 8
  let addend := field bytes 16 8
  if info % 2 ^ 32 ≠ rX8664Relative ∨ info / 2 ^ 32 ≠ 0 ∨ uint64Max - bias < offset then refuse
  else
    let target := offset + bias
    if segmentIsWritable segments target 8 bias then
      copyToSpace root target (Memory.numberBytes ((bias + addend) % 2 ^ 64) 8)
    else refuse

def applyRelativeRelocations (root : Nat) (dynamic : ProgramHeader) (bias : Nat)
    (segments : List ProgramHeader) : Loader Unit :=
  if dynamic.memsz < sizeofDynamicEntry ∨ uint64Max - bias < dynamic.vaddr then refuse
  else
    let cursor := dynamic.vaddr + bias
    let last := (cursor + dynamic.memsz) % 2 ^ 64
    if last < cursor ∨ userTop < last then refuse
    else do
      let table ← scanDynamic root (dynamic.memsz / sizeofDynamicEntry) cursor
        ⟨0, 0, sizeofRela, false, false⟩
      if table.hasRela ≠ table.hasRelaSize ∨ table.relaEntrySize ≠ sizeofRela then refuse
      else if !table.hasRela ∨ table.relaSize = 0 then pure ()
      else if table.relaSize % sizeofRela ≠ 0 ∨ uint64Max - bias < table.relaAddress then refuse
      else
        let relaAddress := table.relaAddress + bias
        -- the bound is a 64-bit difference and may wrap
        if (userTop + 2 ^ 64 - relaAddress) % 2 ^ 64 < table.relaSize then refuse
        else
          Program.each
            (fun index => applyRelocation root bias segments
              ((relaAddress + index * sizeofRela) % 2 ^ 64))
            (List.range (table.relaSize / sizeofRela))

/-! ### The initial stack -/

structure ExecImage where
  rootPhys : Nat
  entry : Nat
  stack : Nat
  argc : Nat
  argv : Nat
  envp : Nat
  deriving DecidableEq, Repr

/-- Where the next string goes and how many bytes the strings have taken. -/
structure StringArea where
  cursor : Nat
  total : Nat

def pushString (root : Nat) (area : StringArea) (string : List UInt8) : Loader StringArea :=
  let length := string.length + 1
  if maxStackStrings - area.total < length ∨ area.cursor - stackBottom < length then refuse
  else do
    let cursor := area.cursor - length
    copyToSpace root cursor (string ++ [0])
    pure ⟨cursor, area.total + length⟩

/-- The last string is pushed first; the addresses come back in order. -/
def pushStrings (root : Nat) (area : StringArea) :
    List (List UInt8) → Loader (List Nat × StringArea)
  | [] => pure ([], area)
  | string :: rest => do
      let (addresses, area) ← pushStrings root area rest
      let area ← pushString root area string
      pure (area.cursor :: addresses, area)

def pushWords (root : Nat) : Nat → List Nat → Loader Unit
  | _, [] => pure ()
  | address, word :: rest => do
      copyToSpace root address (Memory.numberBytes word 8)
      pushWords root (address + 8) rest

/-- The auxiliary vector: program headers, page size, interpreter base, entry
and the name of the executable. -/
def auxv (phdr phentsize phnum entry execfn : Nat) : List Nat :=
  [3, phdr, 4, phentsize, 5, phnum, 6, pageSize, 7, 0, 9, entry, 31, execfn, 0, 0]

def stackFlags (nxEnabled : Bool) : Nat := pteWritable ||| (if nxEnabled then pteNx else 0)

def mapUserStack (root : Nat) (nxEnabled : Bool) (argv envp : List (List UInt8))
    (path : List UInt8) (phdr phentsize phnum entry : Nat) : Loader ExecImage := do
  Program.each (fun page => mapUserPage root page (stackFlags nxEnabled))
    (pagesFrom stackBottom userStackTop)
  let (envpAddresses, area) ← pushStrings root ⟨userStackTop, 0⟩ envp
  let (argvAddresses, area) ← pushStrings root area argv
  let area ← pushString root area path
  let words := [argv.length] ++ argvAddresses ++ [0] ++ envpAddresses ++ [0] ++
    auxv phdr phentsize phnum entry area.cursor
  if (area.cursor - stackBottom) / 8 < words.length then refuse
  else
    let stackPointer := (area.cursor - words.length * 8) / 16 * 16
    if stackPointer < stackBottom then refuse
    else do
      pushWords root stackPointer words
      pure
        { rootPhys := root
          entry := entry
          stack := stackPointer
          argc := argv.length
          argv := stackPointer + 8
          envp := stackPointer + (1 + argv.length + 1) * 8 }

/-! ### The whole image -/

/-- The address of the program headers in memory.  `none` is a header whose
address leaves 64 bits, which makes the loader fail. -/
def programHeaderAddress (plan : Plan) : Option Nat :=
  let tableSize := plan.header.phnum * sizeofProgramHeader
  let fallback :=
    match plan.segments.find? (fun segment =>
      decide (segment.offset ≤ plan.header.phoff) && decide (tableSize ≤ segment.filesz) &&
        decide (plan.header.phoff - segment.offset ≤ segment.filesz - tableSize) &&
        decide (segment.vaddr ≤ uint64Max - plan.bias - (plan.header.phoff - segment.offset))) with
    | none => 0
    | some segment => plan.bias + segment.vaddr + (plan.header.phoff - segment.offset)
  match plan.programs.find? (fun program => program.type == ptPhdr) with
  | none => some fallback
  | some program =>
    if uint64Max - plan.bias < program.vaddr then none
    else if program.vaddr + plan.bias = 0 then some fallback
    else some (program.vaddr + plan.bias)

def relocate (root : Nat) (plan : Plan) : Loader Unit :=
  match plan.dynamic with
  | none => pure ()
  | some dynamic =>
    if plan.header.type = etDyn then
      applyRelativeRelocations root dynamic plan.bias plan.segments
    else refuse

/-- Everything between the creation of the space and its hand-over. -/
def buildImage (root : Nat) (file : List UInt8) (plan : Plan) (nxEnabled : Bool)
    (argv envp : List (List UInt8)) (path : List UInt8) : Loader ExecImage := do
  Program.each (mapSegment root file plan.bias nxEnabled) plan.segments
  relocate root plan
  match programHeaderAddress plan with
  | none => refuse
  | some phdr =>
    mapUserStack root nxEnabled argv envp path phdr plan.header.phentsize plan.header.phnum
      plan.entry

end Synx.Exec
