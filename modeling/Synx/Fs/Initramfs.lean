/-
The boot archive loader of `fs/initramfs.cpp`: a parser of cpio archives in the
newc format that fills ramfs entry by entry.
-/

import Synx.Fs.Ramfs

namespace Synx.Initramfs

open Lib
open Vfs
open Ramfs

def cpioHeaderSize : Nat := 110
def cpioOffMode : Nat := 14
def cpioOffFilesize : Nat := 54
def cpioOffNamesize : Nat := 94

/-- `070701`. -/
def cpioNewcMagic : List UInt8 := [48, 55, 48, 55, 48, 49]

/-- `TRAILER!!!`. -/
def cpioTrailer : Name := [84, 82, 65, 73, 76, 69, 82, 33, 33, 33]

def cpioSIfmt : Nat := 0o170000
def cpioSIfdir : Nat := 0o040000
def cpioSIfreg : Nat := 0o100000

/-- Arithmetic of `size_t`. -/
def word (value : Nat) : Nat := value % 2 ^ 64

def cpioAlign4 (n : Nat) : Nat := word (n + 3) / 4 * 4

def hexDigit (c : UInt8) : Option Nat :=
  if 48 ≤ c ∧ c ≤ 57 then some (c.toNat - 48)
  else if 65 ≤ c ∧ c ≤ 70 then some (c.toNat - 65 + 10)
  else if 97 ≤ c ∧ c ≤ 102 then some (c.toNat - 97 + 10)
  else none

/-- `parse_hex` with the value so far; eight digits never leave 64 bits. -/
def parseHex : Nat → List UInt8 → Option Nat
  | value, [] => some value
  | value, c :: rest =>
    match hexDigit c with
    | none => none
    | some nibble => parseHex (word (value * 16) ||| nibble) rest

def readHexField (archive : List UInt8) (offset length : Nat) : Option Nat :=
  parseHex 0 ((archive.drop offset).take length)

/-- Leading `./` are dropped, then one slash; `.` alone is the empty path. -/
def stripDots : Name → Name
  | first :: second :: rest =>
    if first = dot ∧ second = slash then stripDots rest else first :: second :: rest
  | path => path

def normalizePath (raw : Name) : Name :=
  let stripped := stripDots raw
  let path := if stripped.head? = some slash then stripped.tail else stripped
  if path = [dot] then [] else path.take 255

section

variable {τ : Type} (heap : Heap τ)

def stringAt (archive : List UInt8) (offset : Nat) : Call τ Name :=
  if 0 ∈ archive.drop offset then pure ((archive.drop offset).takeWhile (· != 0))
  else crash .outOfBounds

/-- A resolved dentry.  An error pointer is not null and would be followed. -/
def mustWalk (path : Name) : Call τ Nat := do
  match ← Program.attempt (pathWalk heap ramfs path) with
  | .ok dentry => pure dentry
  | .error _ => crash .badPointer

/-- The fallback of `ensure_parent_dir`: walk the tokens and create what is
missing.  Every round consumes a byte. -/
def makeParents : Nat → Nat → Name → Call τ (Option Nat)
  | _, current, [] => pure (some current)
  | 0, current, _ :: _ => pure (some current)
  | rounds + 1, current, byte :: rest => do
      let token := byte :: rest
      let name := nextComponent token
      let child ← do
        match ← dLookup current name with
        | some child => pure (some child)
        | none => do
            match ← createDir heap current name with
            | none => pure none
            | some _ => dLookup current name
      match child with
      | none => do
          dput heap ramfs current
          pure none
      | some child => do
          dget child
          dput heap ramfs current
          makeParents rounds child (token.drop (name.length + 1))

def ensureParentDir (path : Name) : Call τ (Option Nat) :=
  if path.length = 0 ∨ 256 ≤ path.length then pure none
  else if slash ∈ path then do
    let above := dirName path
    match ← Program.attempt (pathWalk heap ramfs (slash :: above)) with
    | .ok parent => pure (some parent)
    | .error _ => do
        let root ← mustWalk heap [slash]
        makeParents heap above.length root above
  else do
    let root ← mustWalk heap [slash]
    pure (some root)

/-- What one header says. -/
structure Header where
  name : Name
  terminated : Bool
  dataOffset : Nat
  filesize : Nat
  nextOffset : Nat

/-- The checks on the header at an offset; `none` is the error return. -/
def parseHeader (archive : List UInt8) (offset : Nat) : Call τ (Option Header) :=
  let size := archive.length
  if (archive.drop offset).take 6 ≠ cpioNewcMagic then pure none
  else
    match readHexField archive (offset + cpioOffNamesize) 8,
        readHexField archive (offset + cpioOffFilesize) 8 with
    | some namesize, some filesize => do
        let nameOffset := word (offset + cpioHeaderSize)
        let nameEnd := word (nameOffset + namesize)
        let dataOffset := cpioAlign4 nameEnd
        let dataEnd := word (dataOffset + filesize)
        let nextOffset := cpioAlign4 dataEnd
        if nameOffset < offset ∨ nameEnd < nameOffset ∨ dataOffset < nameEnd ∨
            nextOffset < dataEnd ∨ namesize = 0 ∨ size < nameEnd ∨ size < dataEnd ∨
            size < nextOffset then
          pure none
        else do
          -- the name is printed before its terminator is checked
          let name ← stringAt archive nameOffset
          pure (some
            { name := name
              terminated := archive.getD (nameOffset + namesize - 1) 0 == 0
              dataOffset := dataOffset
              filesize := filesize
              nextOffset := nextOffset })
    | _, _ => pure none

/-- Creates one entry; the result says whether it is counted. -/
def loadEntry (archive : List UInt8) (header : Header) (path : Name) (mode : Nat) :
    Call τ Bool := do
  match ← ensureParentDir heap path with
  | none => pure false
  | some parent => do
      let type := mode % 2 ^ 32 &&& cpioSIfmt
      let base := baseName path
      let inode ←
        if type = cpioSIfdir then createDir heap parent base
        else if type = cpioSIfreg then
          createFile heap parent base ((archive.drop header.dataOffset).take header.filesize)
        else pure none
      dput heap ramfs parent
      pure inode.isSome

/-- The loop of `initramfs_load`.  Every round moves past a header. -/
def loadFrom (archive : List UInt8) : Nat → Nat → Int → Call τ Int
  | 0, _, count => pure count
  | rounds + 1, offset, count =>
    if archive.length < word (offset + cpioHeaderSize) then pure count
    else do
      match ← parseHeader archive offset with
      | none => pure (-1)
      | some header =>
        if !header.terminated then pure (-1)
        else if header.name = cpioTrailer then pure count
        else
          let path := normalizePath header.name
          if path = [] then loadFrom archive rounds header.nextOffset count
          else
            match readHexField archive (offset + cpioOffMode) 8 with
            | none => pure (-1)
            | some mode => do
                let counted ← loadEntry heap archive header path mode
                loadFrom archive rounds header.nextOffset (if counted then count + 1 else count)

def initramfsLoad (archive : List UInt8) : Call τ Int :=
  if archive.length < cpioHeaderSize then pure (-1)
  else loadFrom heap archive archive.length 0 0

end

end Synx.Initramfs
