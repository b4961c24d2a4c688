/-
The bytes of an archive that `initramfs_load` reads.
-/

import Mathlib.Data.UInt
import Synx.Fs.NewcDecode
import Synx.Lib.Cursor

namespace Synx.Initramfs

open Lib List Option
open Vfs

/-! ### The reads of one header -/

/-- `parse_hex` on the next bytes with the value so far; the first byte that is no digit
ends the loop. -/
def parseHexFrom : Nat → Nat → List UInt8 → Option (Option Nat)
  | 0, value, _ => some (some value)
  | _ + 1, _, [] => none
  | count + 1, value, c :: rest =>
    match hexDigit c with
    | none => some none
    | some nibble => parseHexFrom count (word (value * 16) ||| nibble) rest

/-- The loop of `normalize_path` over leading `./`.  The second byte is read if the first is
a dot. -/
def stripFrom : List UInt8 → Option (List UInt8)
  | [] => none
  | [first] => if first = dot then none else some [first]
  | first :: second :: rest =>
    if first = dot ∧ second = slash then stripFrom rest else some (first :: second :: rest)

/-- The end of `normalize_path`: the path `.` or a copy that may be cut. -/
def copyPath (path : List UInt8) : Option Name :=
  path.head?.bind fun first =>
    (if first = dot then path.tail.head?.map (· == 0) else some false).bind fun alone =>
      if alone then some [] else (Cursor.text path).map (·.take 255)

def normalizeFrom (raw : List UInt8) : Option Name :=
  (stripFrom raw).bind fun stripped =>
    stripped.head?.bind fun first =>
      copyPath (if first = slash then stripped.tail else stripped)

/-- The offsets that a header gives. -/
structure Layout where
  namesize : Nat
  nameOffset : Nat
  dataOffset : Nat
  filesize : Nat
  nextOffset : Nat

def layoutOf (size offset namesize filesize : Nat) : Option Layout :=
  let nameOffset := word (offset + cpioHeaderSize)
  let nameEnd := word (nameOffset + namesize)
  let dataOffset := cpioAlign4 nameEnd
  let dataEnd := word (dataOffset + filesize)
  let nextOffset := cpioAlign4 dataEnd
  if nameOffset < offset ∨ nameEnd < nameOffset ∨ dataOffset < nameEnd ∨ nextOffset < dataEnd ∨
      namesize = 0 ∨ size < nameEnd ∨ size < dataEnd ∨ size < nextOffset then none
  else some ⟨namesize, nameOffset, dataOffset, filesize, nextOffset⟩

/-- The checks on a header before its name is printed; `some none` is the error return. -/
def scanHeader (archive : List UInt8) (offset : Nat) : Option (Option Layout) := do
  if !(← Cursor.agrees (archive.drop offset) cpioNewcMagic) then some none
  else
    match ← parseHexFrom 8 0 (archive.drop (offset + cpioOffNamesize)) with
    | none => some none
    | some namesize =>
      match ← parseHexFrom 8 0 (archive.drop (offset + cpioOffFilesize)) with
      | none => some none
      | some filesize => some (layoutOf archive.length offset namesize filesize)

/-- What the loop does next. -/
inductive Turn
  | refuse
  | finish
  | skip (nextOffset : Nat)
  | create (entry : Entry) (nextOffset : Nat)

/-- One turn of the loop.  The data of a regular file is read, whether or not the tree then
takes the file. -/
def scanTurn (archive : List UInt8) (offset : Nat) : Option Turn := do
  match ← scanHeader archive offset with
  | none => some .refuse
  | some layout => do
      let rawName := archive.drop layout.nameOffset
      -- the log line
      let _ ← Cursor.text rawName
      let last ← archive[layout.nameOffset + layout.namesize - 1]?
      if last ≠ 0 then some .refuse
      else if ← Cursor.sameText rawName cpioTrailer then some .finish
      else do
        let path ← normalizeFrom rawName
        if path = [] then some (.skip layout.nextOffset)
        else
          match ← parseHexFrom 8 0 (archive.drop (offset + cpioOffMode)) with
          | none => some .refuse
          | some mode => do
              let data := (archive.drop layout.dataOffset).take layout.filesize
              if mode % 2 ^ 32 &&& cpioSIfmt = cpioSIfreg then
                let _ ← Cursor.copy layout.filesize (archive.drop layout.dataOffset)
              some (.create ⟨path, mode, data⟩ layout.nextOffset)

/-! ### The loop -/

/-- How the loop ends, or that it has not ended yet. -/
inductive Halt
  | complete
  | malformed
  | overrun
  | running
  deriving DecidableEq

def scanFrom (archive : List UInt8) : Nat → Nat → List Entry × Halt
  | 0, _ => ([], .running)
  | rounds + 1, offset =>
    if archive.length < word (offset + cpioHeaderSize) then ([], .complete)
    else
      match scanTurn archive offset with
      | none => ([], .overrun)
      | some .refuse => ([], .malformed)
      | some .finish => ([], .complete)
      | some (.skip nextOffset) => scanFrom archive rounds nextOffset
      | some (.create entry nextOffset) =>
        let later := scanFrom archive rounds nextOffset
        (entry :: later.1, later.2)

/-- `initramfs_load` as a reader of its archive, for as many turns as the archive has bytes. -/
def scan (archive : List UInt8) : List Entry × Halt :=
  if archive.length < cpioHeaderSize then ([], .malformed)
  else scanFrom archive archive.length 0

/-! ### Reads inside -/

theorem parseHexFrom_eq (value : Nat) {count : Nat} {cursor : List UInt8}
    (enough : count ≤ cursor.length) :
    parseHexFrom count value cursor = some (parseHex value (cursor.take count)) := by
  induction cursor generalizing count value with
  | nil =>
    rw [Nat.le_zero.mp enough]
    rfl
  | cons c rest ih =>
    cases count with
    | zero => rfl
    | succ count =>
      rw [parseHexFrom, take_succ_cons, parseHex]
      cases hexDigit c with
      | none => rfl
      | some nibble => exact ih _ (Nat.le_of_succ_le_succ enough)

theorem parseHexFrom_field {archive : List UInt8} {offset field : Nat}
    (inside : offset + cpioHeaderSize ≤ archive.length) (early : field + 8 ≤ cpioHeaderSize) :
    parseHexFrom 8 0 (archive.drop (offset + field)) =
      some (readHexField archive (offset + field) 8) := by
  refine parseHexFrom_eq 0 ?_
  rw [length_drop]
  omega

theorem stripFrom_append {name : Name} (noNul : 0 ∉ name) (rest : List UInt8) :
    stripFrom (name ++ 0 :: rest) = some (stripDots name ++ 0 :: rest) := by
  induction name using stripDots.induct with
  | case1 first second more both ih =>
    obtain ⟨rfl, rfl⟩ := both
    rw [stripDots, if_pos ⟨rfl, rfl⟩]
    simp only [mem_cons, not_or] at noNul
    exact ih noNul.2.2
  | case2 first second more other =>
    rw [stripDots, if_neg other]
    exact if_neg other
  | case3 path short =>
    cases path with
    | nil =>
      cases rest with
      | nil => rfl
      | cons _ _ => rfl
    | cons first others =>
      cases others with
      | nil => exact if_neg (fun both => absurd both.2 (by decide))
      | cons second more => exact absurd rfl (short first second more)

theorem nul_not_mem_stripDots {name : Name} (noNul : 0 ∉ name) : 0 ∉ stripDots name := by
  induction name using stripDots.induct with
  | case1 first second more both ih =>
    rw [stripDots, if_pos both]
    simp only [mem_cons, not_or] at noNul
    exact ih noNul.2.2
  | case2 first second more other =>
    rw [stripDots, if_neg other]
    exact noNul
  | case3 path short =>
    rw [stripDots]
    · exact noNul
    · exact short

theorem copyPath_append {path : Name} (noNul : 0 ∉ path) (rest : List UInt8) :
    copyPath (path ++ 0 :: rest) = some (if path = [dot] then [] else path.take 255) := by
  unfold copyPath
  rw [Cursor.text_append noNul]
  match path, noNul with
  | [], _ => rfl
  | [first], _ =>
    by_cases isDot : first = dot
    · simp [isDot]
    · simp [isDot]
  | first :: second :: more, noNul =>
    have nonzero : (second == 0) = false := by
      simp only [mem_cons, not_or] at noNul
      simpa using fun isZero : second = 0 => noNul.2.1 isZero.symm
    by_cases isDot : first = dot
    · simp [isDot, nonzero]
    · simp [isDot]

theorem normalizeFrom_append {name : Name} (noNul : 0 ∉ name) (rest : List UInt8) :
    normalizeFrom (name ++ 0 :: rest) = some (normalizePath name) := by
  have noNulStripped := nul_not_mem_stripDots noNul
  unfold normalizeFrom normalizePath
  rw [stripFrom_append noNul, bind_some]
  cases stripped : stripDots name with
  | nil => exact @copyPath_append [] (by simp) rest
  | cons first more =>
    rw [stripped] at noNulStripped
    by_cases isSlash : first = slash
    · simp only [cons_append, head?_cons, bind_some, tail_cons, if_pos isSlash,
        some.injEq]
      exact copyPath_append (fun inside => noNulStripped (.tail _ inside)) rest
    · simp only [cons_append, head?_cons, bind_some, if_neg isSlash,
        some.injEq]
      exact copyPath_append noNulStripped rest

/-! ### Records -/

def up4 (n : Nat) : Nat := (n + 3) / 4 * 4

/-- Where the data of a record starts, and where the next record does. -/
def dataAfter (offset namesize : Nat) : Nat := up4 (offset + cpioHeaderSize + namesize)

def nextAfter (offset namesize filesize : Nat) : Nat := up4 (dataAfter offset namesize + filesize)

/-- A record with the sizes of its header that ends inside the archive. -/
structure Record (archive : List UInt8) (offset namesize filesize : Nat) : Prop where
  magic : (archive.drop offset).take 6 = cpioNewcMagic
  name : readHexField archive (offset + cpioOffNamesize) 8 = some namesize
  data : readHexField archive (offset + cpioOffFilesize) 8 = some filesize
  named : 0 < namesize
  fits : nextAfter offset namesize filesize ≤ archive.length

theorem nextAfter_far (offset namesize filesize : Nat) :
    offset + cpioHeaderSize ≤ nextAfter offset namesize filesize ∧
      offset + cpioHeaderSize + namesize ≤ dataAfter offset namesize ∧
      dataAfter offset namesize + filesize ≤ nextAfter offset namesize filesize := by
  unfold nextAfter dataAfter up4
  omega

theorem cpioAlign4_eq {n : Nat} (small : n + 3 < 2 ^ 64) : cpioAlign4 n = up4 n := by
  unfold cpioAlign4 word up4
  rw [Nat.mod_eq_of_lt small]

theorem layoutOf_eq {size offset namesize filesize : Nat} (object : size ≤ 2 ^ 63)
    (inside : offset + cpioHeaderSize ≤ size) (shortName : namesize < 2 ^ 32)
    (shortData : filesize < 2 ^ 32) :
    layoutOf size offset namesize filesize =
      if 0 < namesize ∧ nextAfter offset namesize filesize ≤ size then
        some ⟨namesize, offset + cpioHeaderSize, dataAfter offset namesize, filesize,
          nextAfter offset namesize filesize⟩
      else none := by
  have nameOffset : word (offset + cpioHeaderSize) = offset + cpioHeaderSize :=
    Nat.mod_eq_of_lt (by omega)
  have nameEnd : word (offset + cpioHeaderSize + namesize) = offset + cpioHeaderSize + namesize :=
    Nat.mod_eq_of_lt (by omega)
  have dataOffset : cpioAlign4 (offset + cpioHeaderSize + namesize) = dataAfter offset namesize :=
    cpioAlign4_eq (by omega)
  have near : dataAfter offset namesize ≤ offset + cpioHeaderSize + namesize + 3 := by
    unfold dataAfter up4
    omega
  have dataEnd : word (dataAfter offset namesize + filesize) =
    dataAfter offset namesize + filesize :=
    Nat.mod_eq_of_lt (by omega)
  have nextOffset : cpioAlign4 (dataAfter offset namesize + filesize) =
      nextAfter offset namesize filesize := cpioAlign4_eq (by omega)
  obtain ⟨far, after, ends⟩ := nextAfter_far offset namesize filesize
  unfold layoutOf
  simp only [nameOffset, nameEnd, dataOffset, dataEnd, nextOffset]
  by_cases accepted : 0 < namesize ∧ nextAfter offset namesize filesize ≤ size
  · rw [if_pos accepted, if_neg (by omega)]
  · rw [if_neg accepted, if_pos (by omega)]

section

variable {archive : List UInt8} {offset : Nat}

def layoutAt (archive : List UInt8) (offset : Nat) : Option Layout :=
  if (archive.drop offset).take 6 = cpioNewcMagic then
    (readHexField archive (offset + cpioOffNamesize) 8).bind fun namesize =>
      (readHexField archive (offset + cpioOffFilesize) 8).bind fun filesize =>
        layoutOf archive.length offset namesize filesize
  else none

theorem scanHeader_eq (inside : offset + cpioHeaderSize ≤ archive.length) :
    scanHeader archive offset = some (layoutAt archive offset) := by
  have magic : Cursor.agrees (archive.drop offset) cpioNewcMagic =
      some (decide ((archive.drop offset).take 6 = cpioNewcMagic)) := by
    refine Cursor.agrees_eq ?_
    rw [length_drop, length_cpioNewcMagic]
    unfold cpioHeaderSize at inside
    omega
  have name := @parseHexFrom_field _ _ cpioOffNamesize inside (by decide)
  have data := @parseHexFrom_field _ _ cpioOffFilesize inside (by decide)
  unfold scanHeader layoutAt
  simp only [magic, name, data, bind_eq_bind, bind_some]
  split
  · rename_i differs
    rw [if_neg (by simpa using differs)]
  rename_i agrees
  rw [if_pos (by simpa using agrees)]
  cases readHexField archive (offset + cpioOffNamesize) 8 with
  | none => rfl
  | some namesize =>
    cases readHexField archive (offset + cpioOffFilesize) 8 with
    | none => rfl
    | some filesize => rfl

theorem headerAt_eq (archive : List UInt8) (offset : Nat) :
    headerAt archive offset =
      match layoutAt archive offset with
      | none => some none
      | some layout =>
        if 0 ∈ archive.drop layout.nameOffset then
          some (some
            { name := (archive.drop layout.nameOffset).takeWhile (· != 0)
              terminated := archive.getD (layout.nameOffset + layout.namesize - 1) 0 == 0
              dataOffset := layout.dataOffset
              filesize := layout.filesize
              nextOffset := layout.nextOffset })
        else none := by
  unfold headerAt layoutAt layoutOf
  by_cases magic : (archive.drop offset).take 6 = cpioNewcMagic
  · rw [if_neg (not_not.mpr magic), if_pos magic]
    cases readHexField archive (offset + cpioOffNamesize) 8 with
    | none => rfl
    | some namesize =>
      cases readHexField archive (offset + cpioOffFilesize) 8 with
      | none => rfl
      | some filesize =>
        simp only [bind_some]
        split
        · rfl
        · rfl
  · rw [if_pos magic, if_neg magic]

theorem layoutAt_cases (object : archive.length ≤ 2 ^ 63)
    (inside : offset + cpioHeaderSize ≤ archive.length) : (layoutAt archive offset = none ∧
        ∀ namesize filesize, ¬Record archive offset namesize filesize) ∨
      ∃ namesize filesize, Record archive offset namesize filesize ∧
        layoutAt archive offset = some ⟨namesize, offset + cpioHeaderSize,
          dataAfter offset namesize, filesize, nextAfter offset namesize filesize⟩ := by
  unfold layoutAt
  by_cases magic : (archive.drop offset).take 6 = cpioNewcMagic
  swap
  · exact .inl ⟨if_neg magic, fun _ _ record => magic record.magic⟩
  rw [if_pos magic]
  cases name : readHexField archive (offset + cpioOffNamesize) 8 with
  | none =>
    refine .inl ⟨rfl, fun _ _ record => ?_⟩
    cases name.symm.trans record.name
  | some namesize =>
    cases data : readHexField archive (offset + cpioOffFilesize) 8 with
    | none =>
      refine .inl ⟨rfl, fun _ _ record => ?_⟩
      cases data.symm.trans record.data
    | some filesize =>
      rw [bind_some, bind_some,
        layoutOf_eq object inside (readHexField_lt name) (readHexField_lt data)]
      by_cases accepted : 0 < namesize ∧ nextAfter offset namesize filesize ≤ archive.length
      · exact .inr ⟨namesize, filesize, ⟨magic, name, data, accepted.1, accepted.2⟩,
          if_pos accepted⟩
      · refine .inl ⟨if_neg accepted, fun otherName otherData record => ?_⟩
        cases name.symm.trans record.name
        cases data.symm.trans record.data
        exact accepted ⟨record.named, record.fits⟩

/-! ### One turn -/

def nameAt (archive : List UInt8) (offset : Nat) : Name :=
  (archive.drop (offset + cpioHeaderSize)).takeWhile (· != 0)

/-- What one turn does with a record whose name ends inside the archive. -/
def turnAt (archive : List UInt8) (offset namesize filesize : Nat) : Turn :=
  if archive.getD (offset + cpioHeaderSize + namesize - 1) 0 ≠ 0 then .refuse
  else if nameAt archive offset = cpioTrailer then .finish
  else if normalizePath (nameAt archive offset) = [] then
    .skip (nextAfter offset namesize filesize)
  else
    match readHexField archive (offset + cpioOffMode) 8 with
    | none => .refuse
    | some mode =>
      .create ⟨normalizePath (nameAt archive offset), mode,
        (archive.drop (dataAfter offset namesize)).take filesize⟩
        (nextAfter offset namesize filesize)

theorem scanTurn_refused (object : archive.length ≤ 2 ^ 63)
    (inside : offset + cpioHeaderSize ≤ archive.length)
    (noRecord : ∀ namesize filesize, ¬Record archive offset namesize filesize) :
    scanTurn archive offset = some .refuse := by
  unfold scanTurn
  rw [scanHeader_eq inside]
  rcases layoutAt_cases object inside with ⟨refused, _⟩ | ⟨_, _, record, _⟩
  · rw [refused]
    rfl
  · exact absurd record (noRecord _ _)

variable {namesize filesize : Nat}

section

variable (record : Record archive offset namesize filesize) (object : archive.length ≤ 2 ^ 63)

include record object

theorem Record.layout : offset + cpioHeaderSize ≤ archive.length ∧
    layoutAt archive offset = some ⟨namesize, offset + cpioHeaderSize,
          dataAfter offset namesize, filesize, nextAfter offset namesize filesize⟩ := by
  have inside := le_trans (nextAfter_far offset namesize filesize).1 record.fits
  refine ⟨inside, ?_⟩
  rcases layoutAt_cases object inside with ⟨_, noRecord⟩ | ⟨_, _, same, found⟩
  · exact absurd record (noRecord _ _)
  · cases same.name.symm.trans record.name
    cases same.data.symm.trans record.data
    exact found

theorem Record.overrun (endless : 0 ∉ archive.drop (offset + cpioHeaderSize)) :
    scanTurn archive offset = none := by
  obtain ⟨inside, layout⟩ := record.layout object
  unfold scanTurn
  rw [scanHeader_eq inside, layout]
  simp only [bind_eq_bind, bind_some, Cursor.text_none endless, bind_none]

theorem Record.turn (ends : 0 ∈ archive.drop (offset + cpioHeaderSize)) :
    scanTurn archive offset = some (turnAt archive offset namesize filesize) := by
  obtain ⟨inside, layout⟩ := record.layout object
  obtain ⟨far, after, dataEnd⟩ := nextAfter_far offset namesize filesize
  have fits := record.fits
  have named := record.named
  have last : archive[offset + cpioHeaderSize + namesize - 1]? =
      some (archive.getD (offset + cpioHeaderSize + namesize - 1) 0) := by
    rw [getD_eq_getElem?_getD, getElem?_eq_getElem (by omega)]
    rfl
  have copied : Cursor.copy filesize (archive.drop (dataAfter offset namesize)) =
      some ((archive.drop (dataAfter offset namesize)).take filesize) := by
    refine Cursor.copy_eq ?_
    rw [length_drop]
    omega
  have mode := @parseHexFrom_field _ _ cpioOffMode inside (by decide)
  obtain ⟨noNul, rest, split_⟩ : 0 ∉ nameAt archive offset ∧
      ∃ rest, archive.drop (offset + cpioHeaderSize) = nameAt archive offset ++ 0 :: rest :=
    Cursor.split_text ends
  have printed := Cursor.text_append noNul rest
  have trailer := @Cursor.sameText_append _ _ _ _ cpioTrailer noNul (by decide) rest
  have path := normalizeFrom_append noNul rest
  rw [← split_] at printed trailer path
  unfold scanTurn turnAt
  rw [scanHeader_eq inside, layout]
  simp only [bind_eq_bind, bind_some, printed, last, trailer, path, mode, copied]
  split
  · rfl
  by_cases isTrailer : nameAt archive offset = cpioTrailer
  · rw [if_pos isTrailer, if_pos (decide_eq_true isTrailer)]
  rw [if_neg isTrailer, if_neg (by simpa using isTrailer)]
  by_cases empty : normalizePath (nameAt archive offset) = []
  · rw [if_pos empty, if_pos empty]
  rw [if_neg empty, if_neg empty]
  cases readHexField archive (offset + cpioOffMode) 8 with
  | none => rfl
  | some mode =>
    simp only
    split
    · rfl
    · rfl

end

/-- One record leads to the next. -/
structure RecordLeads (archive : List UInt8) (offset namesize filesize next : Nat) : Prop where
  record : Record archive offset namesize filesize
  terminated : archive.getD (offset + cpioHeaderSize + namesize - 1) 0 = 0
  notTrailer : nameAt archive offset ≠ cpioTrailer
  known : normalizePath (nameAt archive offset) = [] ∨
    (readHexField archive (offset + cpioOffMode) 8).isSome
  next : next = nextAfter offset namesize filesize

/-- The loop of the loader comes to an offset. -/
inductive Visited (archive : List UInt8) : Nat → Prop
  | start : Visited archive 0
  | step {offset namesize filesize next : Nat} (earlier : Visited archive offset)
      (leads : RecordLeads archive offset namesize filesize next) : Visited archive next

theorem RecordLeads.ends {namesize filesize next : Nat}
    (leads : RecordLeads archive offset namesize filesize next) :
    0 ∈ archive.drop (offset + cpioHeaderSize) := by
  have fits := leads.record.fits
  have named := leads.record.named
  obtain ⟨_, after, dataEnd⟩ := nextAfter_far offset namesize filesize
  have last : (archive.drop (offset + cpioHeaderSize))[namesize - 1]? = some 0 := by
    have position : offset + cpioHeaderSize + (namesize - 1) =
        offset + cpioHeaderSize + namesize - 1 := by omega
    have terminated := leads.terminated
    rw [getD_eq_getElem?_getD, getElem?_eq_getElem (by omega)] at terminated
    rw [getElem?_drop, position, getElem?_eq_getElem (by omega)]
    exact congrArg some terminated
  exact mem_of_getElem? last

theorem RecordLeads.turn {next : Nat} (leads : RecordLeads archive offset namesize filesize next)
    (object : archive.length ≤ 2 ^ 63) : scanTurn archive offset = some (.skip next) ∨
      ∃ entry, scanTurn archive offset = some (.create entry next) := by
  rw [leads.record.turn object leads.ends, leads.next]
  unfold turnAt
  rw [if_neg (not_not.mpr leads.terminated), if_neg leads.notTrailer]
  by_cases empty : normalizePath (nameAt archive offset) = []
  · rw [if_pos empty]
    exact .inl rfl
  · obtain ⟨mode, isMode⟩ := isSome_iff_exists.mp (leads.known.resolve_left empty)
    rw [if_neg empty, isMode]
    exact .inr ⟨_, rfl⟩

theorem scanTurn_cases (object : archive.length ≤ 2 ^ 63)
    (inside : offset + cpioHeaderSize ≤ archive.length) :
    (scanTurn archive offset = none ∧ ∃ namesize filesize,
        Record archive offset namesize filesize ∧ 0 ∉ archive.drop (offset + cpioHeaderSize)) ∨
      scanTurn archive offset = some .refuse ∨ scanTurn archive offset = some .finish ∨
      ∃ namesize filesize next, RecordLeads archive offset namesize filesize next ∧
        (scanTurn archive offset = some (.skip next) ∨
          ∃ entry, scanTurn archive offset = some (.create entry next)) := by
  rcases layoutAt_cases object inside with ⟨_, noRecord⟩ | ⟨namesize, filesize, record, _⟩
  · exact .inr (.inl (scanTurn_refused object inside noRecord))
  by_cases ends : 0 ∈ archive.drop (offset + cpioHeaderSize)
  swap
  · exact .inl ⟨record.overrun object ends, namesize, filesize, record, ends⟩
  have turn := record.turn object ends
  by_cases terminated : archive.getD (offset + cpioHeaderSize + namesize - 1) 0 = 0
  swap
  · rw [turnAt, if_pos terminated] at turn
    exact .inr (.inl turn)
  by_cases isTrailer : nameAt archive offset = cpioTrailer
  · rw [turnAt, if_neg (not_not.mpr terminated), if_pos isTrailer] at turn
    exact .inr (.inr (.inl turn))
  by_cases known : normalizePath (nameAt archive offset) = [] ∨
      (readHexField archive (offset + cpioOffMode) 8).isSome
  · have leads : RecordLeads archive offset namesize filesize _ :=
      ⟨record, terminated, isTrailer, known, rfl⟩
    exact .inr (.inr (.inr ⟨namesize, filesize, _, leads, leads.turn object⟩))
  · rw [not_or, not_isSome_iff_eq_none] at known
    rw [turnAt, if_neg (not_not.mpr terminated), if_neg isTrailer, if_neg known.1, known.2] at turn
    exact .inr (.inl turn)

/-! ### The loop stays inside -/

theorem guard_iff (object : archive.length ≤ 2 ^ 63) (near : offset ≤ archive.length) :
    archive.length < word (offset + cpioHeaderSize) ↔ archive.length < offset + cpioHeaderSize := by
  have fits : word (offset + cpioHeaderSize) = offset + cpioHeaderSize :=
    Nat.mod_eq_of_lt (by unfold cpioHeaderSize; omega)
  rw [fits]

theorem scanFrom_leads {next : Nat} (leads : RecordLeads archive offset namesize filesize next)
    (object : archive.length ≤ 2 ^ 63) (rounds : Nat) :
    (scanFrom archive (rounds + 1) offset).2 = (scanFrom archive rounds next).2 := by
  have inside := (leads.record.layout object).1
  rw [scanFrom, if_neg]
  · rcases leads.turn object with turn | ⟨entry, turn⟩
    · rw [turn]
    · rw [turn]
  · rw [guard_iff object (by omega)]
    omega

theorem scanFrom_ends (object : archive.length ≤ 2 ^ 63) (rounds offset : Nat)
    (near : offset ≤ archive.length) (enough : archive.length < offset + cpioHeaderSize * rounds) :
    (scanFrom archive rounds offset).2 ≠ .running := by
  induction rounds generalizing offset with
  | zero => omega
  | succ rounds ih =>
    by_cases inside : offset + cpioHeaderSize ≤ archive.length
    swap
    · rw [scanFrom, if_pos ((guard_iff object near).mpr (by omega))]
      nofun
    have goes : ¬archive.length < word (offset + cpioHeaderSize) := by
      rw [guard_iff object near]
      omega
    rcases scanTurn_cases object inside with ⟨turn, _⟩ | turn | turn | ⟨_, _, next, leads, _⟩
    · rw [scanFrom, if_neg goes, turn]
      nofun
    · rw [scanFrom, if_neg goes, turn]
      nofun
    · rw [scanFrom, if_neg goes, turn]
      nofun
    · rw [scanFrom_leads leads object]
      have fits := leads.record.fits
      obtain ⟨far, _⟩ := nextAfter_far offset _ _
      rw [← leads.next] at fits far
      refine ih next fits ?_
      rw [Nat.mul_succ] at enough
      omega

theorem scanFrom_overrun (object : archive.length ≤ 2 ^ 63) (rounds offset : Nat)
    (near : offset ≤ archive.length) (visited : Visited archive offset)
    (overruns : (scanFrom archive rounds offset).2 = .overrun) :
    ∃ at_ namesize filesize, Visited archive at_ ∧ Record archive at_ namesize filesize ∧
      0 ∉ archive.drop (at_ + cpioHeaderSize) := by
  induction rounds generalizing offset with
  | zero => cases overruns
  | succ rounds ih =>
    by_cases inside : offset + cpioHeaderSize ≤ archive.length
    swap
    · rw [scanFrom, if_pos ((guard_iff object near).mpr (by omega))] at overruns
      cases overruns
    have goes : ¬archive.length < word (offset + cpioHeaderSize) := by
      rw [guard_iff object near]
      omega
    rcases scanTurn_cases object inside with
      ⟨_, namesize, filesize, record, endless⟩ | turn | turn |
      ⟨_, _, next, leads, _⟩
    · exact ⟨offset, namesize, filesize, visited, record, endless⟩
    · rw [scanFrom, if_neg goes, turn] at overruns
      cases overruns
    · rw [scanFrom, if_neg goes, turn] at overruns
      cases overruns
    · rw [scanFrom_leads leads object] at overruns
      have fits := leads.record.fits
      rw [← leads.next] at fits
      exact ih next fits (visited.step leads) overruns

theorem Visited.overruns (visited : Visited archive offset) (object : archive.length ≤ 2 ^ 63)
    (bad : ∀ rounds, (scanFrom archive rounds offset).2 = .overrun ∨
      (scanFrom archive rounds offset).2 = .running) (rounds : Nat) :
    (scanFrom archive rounds 0).2 = .overrun ∨ (scanFrom archive rounds 0).2 = .running := by
  induction visited with
  | start => exact bad rounds
  | step _ leads ih =>
    refine ih (fun rounds => ?_)
    cases rounds with
    | zero => exact .inr rfl
    | succ rounds =>
      rw [scanFrom_leads leads object]
      exact bad rounds

theorem Record.overruns (record : Record archive offset namesize filesize)
    (object : archive.length ≤ 2 ^ 63) (endless : 0 ∉ archive.drop (offset + cpioHeaderSize))
    (rounds : Nat) :
    (scanFrom archive rounds offset).2 = .overrun ∨ (scanFrom archive rounds offset).2 =
      .running := by
  cases rounds with
  | zero => exact .inr rfl
  | succ rounds =>
    have inside := (record.layout object).1
    rw [scanFrom, if_neg, record.overrun object endless]
    · exact .inl rfl
    · rw [guard_iff object (by omega)]
      omega

/-! ### The loader -/

def Halt.ending : Halt → Ending
  | .complete => .complete
  | .malformed => .malformed
  | .overrun => .overrun
  | .running => .complete

theorem decodeFrom_eq_scanFrom (object : archive.length ≤ 2 ^ 63) (rounds offset : Nat)
    (near : offset ≤ archive.length) : decodeFrom archive rounds offset =
      ((scanFrom archive rounds offset).1, (scanFrom archive rounds offset).2.ending) := by
  induction rounds generalizing offset with
  | zero => rfl
  | succ rounds ih =>
    rw [decodeFrom, scanFrom]
    by_cases inside : offset + cpioHeaderSize ≤ archive.length
    swap
    · have stops := (guard_iff object near).mpr (by omega)
      rw [if_pos stops, if_pos stops]
      rfl
    have goes : ¬archive.length < word (offset + cpioHeaderSize) := by
      rw [guard_iff object near]
      omega
    rw [if_neg goes, if_neg goes, headerAt_eq]
    rcases layoutAt_cases object inside with
      ⟨refused, noRecord⟩ | ⟨namesize, filesize, record, found⟩
    · rw [refused, scanTurn_refused object inside noRecord]
      rfl
    rw [found]
    by_cases ends : 0 ∈ archive.drop (offset + cpioHeaderSize)
    swap
    · simp only
      rw [if_neg ends, record.overrun object ends]
      rfl
    simp only
    rw [if_pos ends, record.turn object ends]
    have later := ih _ record.fits
    unfold turnAt
    by_cases terminated : archive.getD (offset + cpioHeaderSize + namesize - 1) 0 = 0
    swap
    · rw [if_pos terminated]
      simp only [beq_eq_false_iff_ne.mpr terminated]
      rfl
    rw [if_neg (not_not.mpr terminated)]
    simp only [beq_iff_eq.mpr terminated]
    change (if nameAt archive offset = cpioTrailer then _ else _) = _
    by_cases isTrailer : nameAt archive offset = cpioTrailer
    · rw [if_pos isTrailer, if_pos isTrailer]
      rfl
    rw [if_neg isTrailer, if_neg isTrailer]
    change (if normalizePath (nameAt archive offset) = [] then _ else _) = _
    by_cases empty : normalizePath (nameAt archive offset) = []
    · rw [if_pos empty, if_pos empty]
      exact later
    rw [if_neg empty, if_neg empty]
    cases readHexField archive (offset + cpioOffMode) 8 with
    | none => rfl
    | some mode =>
      simp only [later]
      rfl

/-- The loop over pointers finds the entries that the decoder of whole archives finds, and
it ends the same way. -/
theorem decode_eq_scan (object : archive.length ≤ 2 ^ 63) :
    decode archive = ((scan archive).1, (scan archive).2.ending) := by
  unfold decode scan
  split
  · rfl
  · exact decodeFrom_eq_scanFrom object _ 0 zero_le

/-- The loop of `initramfs_load` ends in every archive.  It reads only bytes of the archive
exactly if every record that it comes to has a NUL after the start of its name. -/
theorem scan_inside_iff (archive : List UInt8) (object : archive.length ≤ 2 ^ 63) :
    (scan archive).2 ≠ .running ∧
      ((scan archive).2 = .complete ∨ (scan archive).2 = .malformed ↔
        ∀ offset namesize filesize, Visited archive offset →
          Record archive offset namesize filesize →
          0 ∈ archive.drop (offset + cpioHeaderSize)) := by
  by_cases tiny : archive.length < cpioHeaderSize
  · have refused : scan archive = ([], .malformed) := if_pos tiny
    rw [refused]
    refine ⟨nofun, iff_of_true (Or.inr rfl) ?_⟩
    intro offset namesize filesize _ record
    have inside := (record.layout object).1
    omega
  have loop : scan archive = scanFrom archive archive.length 0 := if_neg tiny
  have ended : (scanFrom archive archive.length 0).2 ≠ .running := by
    refine scanFrom_ends object _ 0 zero_le ?_
    unfold cpioHeaderSize at tiny ⊢
    omega
  rw [loop]
  refine ⟨ended, ?_, ?_⟩
  · intro good offset namesize filesize visited record
    by_contra endless
    rcases visited.overruns object (record.overruns object endless) archive.length with bad | bad
    · rw [bad] at good
      simp at good
    · exact ended bad
  · intro terminated
    cases halt : (scanFrom archive archive.length 0).2 with
    | complete => exact Or.inl rfl
    | malformed => exact Or.inr rfl
    | overrun =>
      obtain ⟨offset, namesize, filesize, visited, record, endless⟩ :=
        scanFrom_overrun object _ 0 zero_le .start halt
      exact absurd (terminated offset namesize filesize visited record) endless
    | running => exact absurd halt ended

end

/-- The archive of one file of two bytes. -/
def oneMember : List UInt8 := newcArchive [{ path := [97], body := some [1, 2] }] []

theorem scan_inside_member :
    (scan oneMember).2 = .complete ∧ (scan oneMember).1.length = 1 ∧
      ∀ offset namesize filesize, Visited oneMember offset →
        Record oneMember offset namesize filesize →
        0 ∈ oneMember.drop (offset + cpioHeaderSize) := by
  have completes : (scan oneMember).2 = .complete := by decide +kernel
  exact ⟨completes, by decide +kernel,
    (scan_inside_iff oneMember (by decide +kernel)).2.mp (.inl completes)⟩

/-- A header and the name `ab` without a NUL, at the end of an archive of 112 bytes. -/
def openNamed : List UInt8 := newcHeader false {} cpioSIfreg 0 2 ++ [97, 98]

theorem decode_eq_scan_openNamed : openNamed.length = 112 ∧
    decode openNamed = ((scan openNamed).1, (scan openNamed).2.ending) :=
  ⟨by decide +kernel, decode_eq_scan (by decide +kernel)⟩

theorem openNamed_overruns : openNamed.length = 112 ∧ (scan openNamed).2 = .overrun := by
  decide +kernel

end Synx.Initramfs
