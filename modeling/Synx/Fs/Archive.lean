/-
An archive as the list of its entries.  What `initramfs_load` reads from the
archive does not depend on the tree it fills, so a load is a loop over the
entries that the archive decodes to.
-/

import Synx.Fs.Initramfs

namespace Synx.Initramfs

open Lib Program
open Vfs
open Ramfs

/-- One entry with its normalised path. -/
structure Entry where
  path : Name
  mode : Nat
  data : List UInt8

/-- How the loop over the headers ends: at the trailer or the end of the archive,
at a header that is refused, or with a read past the end. -/
inductive Ending
  | complete
  | malformed
  | overrun
  deriving DecidableEq

/-- `parse_header` without the tree: `none` is a read past the end. -/
def headerAt (archive : List UInt8) (offset : Nat) : Option (Option Header) :=
  let size := archive.length
  if (archive.drop offset).take 6 ≠ cpioNewcMagic then some none
  else
    match readHexField archive (offset + cpioOffNamesize) 8,
        readHexField archive (offset + cpioOffFilesize) 8 with
    | some namesize, some filesize =>
      let nameOffset := word (offset + cpioHeaderSize)
      let nameEnd := word (nameOffset + namesize)
      let dataOffset := cpioAlign4 nameEnd
      let dataEnd := word (dataOffset + filesize)
      let nextOffset := cpioAlign4 dataEnd
      if nameOffset < offset ∨ nameEnd < nameOffset ∨ dataOffset < nameEnd ∨
          nextOffset < dataEnd ∨ namesize = 0 ∨ size < nameEnd ∨ size < dataEnd ∨
          size < nextOffset then
        some none
      else if 0 ∈ archive.drop nameOffset then
        some (some
          { name := (archive.drop nameOffset).takeWhile (· != 0)
            terminated := archive.getD (nameOffset + namesize - 1) 0 == 0
            dataOffset := dataOffset
            filesize := filesize
            nextOffset := nextOffset })
      else none
    | _, _ => some none

def decodeFrom (archive : List UInt8) : Nat → Nat → List Entry × Ending
  | 0, _ => ([], .complete)
  | rounds + 1, offset =>
    if archive.length < word (offset + cpioHeaderSize) then ([], .complete)
    else
      match headerAt archive offset with
      | none => ([], .overrun)
      | some none => ([], .malformed)
      | some (some header) =>
        if !header.terminated then ([], .malformed)
        else if header.name = cpioTrailer then ([], .complete)
        else
          let path := normalizePath header.name
          if path = [] then decodeFrom archive rounds header.nextOffset
          else
            match readHexField archive (offset + cpioOffMode) 8 with
            | none => ([], .malformed)
            | some mode =>
              let data := (archive.drop header.dataOffset).take header.filesize
              let later := decodeFrom archive rounds header.nextOffset
              (⟨path, mode, data⟩ :: later.1, later.2)

/-- The entries of an archive, up to where its loop ends. -/
def decode (archive : List UInt8) : List Entry × Ending :=
  if archive.length < cpioHeaderSize then ([], .malformed)
  else decodeFrom archive archive.length 0

/-! ### The size of an entry -/

theorem hexDigit_lt {c : UInt8} {nibble : Nat} (isDigit : hexDigit c = some nibble) :
    nibble < 16 := by
  unfold hexDigit at isDigit
  split at isDigit
  · rename_i decimal
    have high := UInt8.le_iff_toNat_le.mp decimal.2
    simp only [UInt8.reduceToNat] at high
    cases isDigit
    omega
  · split at isDigit
    · rename_i upper
      have high := UInt8.le_iff_toNat_le.mp upper.2
      simp only [UInt8.reduceToNat] at high
      cases isDigit
      omega
    · split at isDigit
      · rename_i lower
        have high := UInt8.le_iff_toNat_le.mp lower.2
        simp only [UInt8.reduceToNat] at high
        cases isDigit
        omega
      · cases isDigit

variable {value offset : Nat} {archive : List UInt8}

theorem parseHex_lt {result bits : Nat} {digits : List UInt8} (small : value < 2 ^ bits)
    (parsed : parseHex value digits = some result) : result < 2 ^ (bits + 4 * digits.length) := by
  induction digits generalizing value bits with
  | nil =>
    cases parsed
    exact small
  | cons digit rest ih =>
    unfold parseHex at parsed
    cases isDigit : hexDigit digit with
    | none =>
      rw [isDigit] at parsed
      cases parsed
    | some nibble =>
      rw [isDigit] at parsed
      have shifted : word (value * 16) < 2 ^ (bits + 4) := by
        have reduced : word (value * 16) ≤ value * 16 := Nat.mod_le _ _
        rw [Nat.pow_add]
        omega
      have digitSmall : nibble < 2 ^ (bits + 4) :=
        lt_of_lt_of_le (hexDigit_lt isDigit)
          (Nat.pow_le_pow_right Nat.two_pos (Nat.le_add_left 4 bits))
      have later := ih (Nat.or_lt_two_pow shifted digitSmall) parsed
      rw [List.length_cons]
      exact Nat.lt_of_lt_of_eq later (congrArg (2 ^ ·) (by omega))

theorem readHexField_lt (read : readHexField archive offset 8 = some value) : value < 2 ^ 32 := by
  have bounded := parseHex_lt (Nat.two_pow_pos 0) read
  refine lt_of_lt_of_le bounded (Nat.pow_le_pow_right (by decide) ?_)
  rw [List.length_take]
  omega

theorem headerAt_filesize {header : Header} (found : headerAt archive offset = some (some header)) :
    header.filesize < 2 ^ 32 := by
  unfold headerAt at found
  simp only at found
  split at found
  · cases found
  split at found
  · rename_i namesize filesize _ isSize
    split at found
    · cases found
    split at found
    · cases found
      exact readHexField_lt isSize
    · cases found
  · cases found

theorem decodeFrom_sizes (archive : List UInt8) (rounds offset : Nat) :
    ∀ entry ∈ (decodeFrom archive rounds offset).1, entry.data.length ≤ 2 ^ 32 := by
  induction rounds generalizing offset with
  | zero => nofun
  | succ rounds ih =>
    unfold decodeFrom
    split
    · nofun
    cases found : headerAt archive offset with
    | none => nofun
    | some checked =>
      cases checked with
      | none => nofun
      | some header =>
        simp only
        split
        · nofun
        split
        · nofun
        split
        · exact ih header.nextOffset
        split
        · nofun
        intro entry member
        rcases List.mem_cons.mp member with rfl | later
        · have small := headerAt_filesize found
          simp only
          rw [List.length_take]
          omega
        · exact ih header.nextOffset entry later

theorem decode_sizes (archive : List UInt8) :
    ∀ entry ∈ (decode archive).1, entry.data.length ≤ 2 ^ 32 := by
  unfold decode
  split
  · nofun
  · exact decodeFrom_sizes archive archive.length 0

section

variable {τ : Type} (heap : Heap τ)

/-- `loadEntry` for an entry that has been read. -/
def createEntry (entry : Entry) : Call τ Bool := do
  match ← ensureParentDir heap entry.path with
  | none => pure false
  | some parent => do
      let type := entry.mode % 2 ^ 32 &&& cpioSIfmt
      let inode ←
        if type = cpioSIfdir then createDir heap parent (baseName entry.path)
        else if type = cpioSIfreg then createFile heap parent (baseName entry.path) entry.data
        else pure none
      dput heap ramfs parent
      pure inode.isSome

/-- The loop over the entries with the number of those counted so far. -/
def loadEntries : List Entry → Ending → Int → Call τ Int
  | [], .complete, count => pure count
  | [], .malformed, _ => pure (-1)
  | [], .overrun, _ => crash .outOfBounds
  | entry :: rest, ending, count => do
      let counted ← createEntry heap entry
      loadEntries rest ending (if counted then count + 1 else count)

theorem loadEntry_eq (archive : List UInt8) (header : Header) (path : Name) (mode : Nat) :
    loadEntry heap archive header path mode =
      createEntry heap ⟨path, mode, (archive.drop header.dataOffset).take header.filesize⟩ := rfl

theorem run_parseHeader (archive : List UInt8) (offset : Nat) (fs : Fs τ) :
    (parseHeader archive offset).run fs =
      match headerAt archive offset with
      | none => (.error (.fault .outOfBounds), fs)
      | some header => (.ok header, fs) := by
  unfold parseHeader headerAt
  simp only
  by_cases magic : (archive.drop offset).take 6 ≠ cpioNewcMagic
  · rw [if_pos magic, if_pos magic]
    rfl
  rw [if_neg magic, if_neg magic]
  cases readHexField archive (offset + cpioOffNamesize) 8 with
  | none => rfl
  | some namesize =>
    cases readHexField archive (offset + cpioOffFilesize) 8 with
    | none => rfl
    | some filesize =>
      simp only
      split
      · rfl
      · unfold stringAt
        split
        · rfl
        · rfl

theorem run_loadFrom (archive : List UInt8) (rounds offset : Nat) (count : Int) (fs : Fs τ) :
    (loadFrom heap archive rounds offset count).run fs =
      (loadEntries heap (decodeFrom archive rounds offset).1 (decodeFrom archive rounds offset).2
        count).run fs := by
  induction rounds generalizing offset count fs with
  | zero => rfl
  | succ rounds ih =>
    unfold loadFrom decodeFrom
    by_cases ends : archive.length < word (offset + cpioHeaderSize)
    · rw [if_pos ends, if_pos ends]
      rfl
    rw [if_neg ends, if_neg ends, run_bind, run_parseHeader]
    cases headerAt archive offset with
    | none => rfl
    | some parsed =>
      cases parsed with
      | none => rfl
      | some header =>
        simp only
        by_cases open_ : (!header.terminated) = true
        · rw [if_pos open_, if_pos open_]
          rfl
        rw [if_neg open_, if_neg open_]
        by_cases trailer : header.name = cpioTrailer
        · rw [if_pos trailer, if_pos trailer]
          rfl
        rw [if_neg trailer, if_neg trailer]
        by_cases empty : normalizePath header.name = []
        · rw [if_pos empty, if_pos empty]
          exact ih header.nextOffset count fs
        rw [if_neg empty, if_neg empty]
        cases readHexField archive (offset + cpioOffMode) 8 with
        | none => rfl
        | some mode =>
          simp only
          rw [loadEntry_eq]
          unfold loadEntries
          rw [run_bind, run_bind]
          split
          · exact ih _ _ _
          · rfl

theorem run_initramfsLoad (archive : List UInt8) (fs : Fs τ) : (initramfsLoad heap archive).run fs =
      (loadEntries heap (decode archive).1 (decode archive).2 0).run fs := by
  unfold initramfsLoad decode
  split
  · rfl
  · exact run_loadFrom heap archive _ _ _ fs

end

end Synx.Initramfs
