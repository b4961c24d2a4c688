/-
The newc format of cpio archives, as an archiver writes it: a header of hex
fields, the name and its NUL, padding, the data, padding, and at the end the
trailer.
-/

import Synx.Fs.Archive

namespace Synx.Initramfs

open Lib
open Vfs

/-- The header fields that a load does not look at, and the permission bits. -/
structure Attributes where
  ino : Nat := 0
  permissions : Nat := 0
  uid : Nat := 0
  gid : Nat := 0
  nlink : Nat := 1
  mtime : Nat := 0
  devmajor : Nat := 0
  devminor : Nat := 0
  rdevmajor : Nat := 0
  rdevminor : Nat := 0
  check : Nat := 0

/-- What an archiver is given: the path with a number of `./` before it, and the
contents of a file; a directory has none.  Hex digits may be of either case. -/
structure Member where
  dots : Nat := 0
  path : Name
  body : Option (List UInt8)
  upper : Bool := false
  attributes : Attributes := {}

def hexChar (upper : Bool) (digit : Nat) : UInt8 :=
  UInt8.ofNat (if digit < 10 then 48 + digit else if upper then 55 + digit else 87 + digit)

/-- The lowest digits of a number, the most significant one first. -/
def hexDigits (upper : Bool) : Nat → Nat → List UInt8
  | 0, _ => []
  | width + 1, value => hexDigits upper width (value / 16) ++ [hexChar upper (value % 16)]

def padding (length : Nat) : List UInt8 := List.replicate ((4 - length % 4) % 4) 0

def newcHeader (upper : Bool) (attributes : Attributes) (mode filesize namesize : Nat) :
    List UInt8 :=
  cpioNewcMagic ++
    [attributes.ino, mode, attributes.uid, attributes.gid, attributes.nlink, attributes.mtime,
      filesize, attributes.devmajor, attributes.devminor, attributes.rdevmajor,
      attributes.rdevminor, namesize, attributes.check].flatMap (hexDigits upper 8)

def newcRecord (upper : Bool) (attributes : Attributes) (mode : Nat) (name : Name)
    (data : List UInt8) : List UInt8 :=
  newcHeader upper attributes mode data.length (name.length + 1) ++ name ++ [0] ++
    padding (cpioHeaderSize + name.length + 1) ++ data ++ padding data.length

namespace Member

def data (member : Member) : List UInt8 := member.body.getD []

def mode (member : Member) : Nat :=
  (if member.body.isNone then cpioSIfdir else cpioSIfreg) + member.attributes.permissions % 4096

def name (member : Member) : Name :=
  (List.replicate member.dots [dot, slash]).flatten ++ member.path

def record (member : Member) : List UInt8 :=
  newcRecord member.upper member.attributes member.mode member.name member.data

end Member

/-- An archive of the members, with anything after its trailer. -/
def newcArchive (members : List Member) (tail : List UInt8) : List UInt8 :=
  members.flatMap Member.record ++ newcRecord false {} 0 cpioTrailer [] ++ tail

end Synx.Initramfs
