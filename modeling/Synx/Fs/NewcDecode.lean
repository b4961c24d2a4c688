/-
Decoding an archive in the newc format gives its members back: hex fields,
offsets and their alignment, and the normalised paths.
-/

import Synx.Fs.Newc

namespace Synx.Initramfs

open Lib List
open Vfs

/-! ### Hex fields -/

theorem length_hexDigits (upper : Bool) (width value : Nat) :
    (hexDigits upper width value).length = width := by
  induction width generalizing value with
  | zero => rfl
  | succ width ih =>
    unfold hexDigits
    rw [length_append, ih]
    rfl

variable {digit front : Nat} {archive rest : List UInt8} {path : Name}

theorem hexDigit_hexChar (upper : Bool) (small : digit < 16) :
    hexDigit (hexChar upper digit) = some digit := by
  have all : ∀ upper, ∀ digit < 16, hexDigit (hexChar upper digit) = some digit := by decide
  exact all upper digit small

theorem parseHex_append (value : Nat) (digits : List UInt8) (last : UInt8) :
    parseHex value (digits ++ [last]) = (parseHex value digits).bind (fun front =>
        (hexDigit last).map (fun nibble => word (front * 16) ||| nibble)) := by
  induction digits generalizing value with
  | nil =>
    rw [nil_append, parseHex, parseHex, Option.bind_some]
    cases hexDigit last <;> rfl
  | cons digit rest ih =>
    rw [cons_append, parseHex, parseHex]
    cases hexDigit digit with
    | none => rfl
    | some nibble => exact ih _

theorem shift_or_digit (small : front < 16 ^ 15) (isDigit : digit < 16) :
    word (front * 16) ||| digit = front * 16 + digit := by
  have fits : word (front * 16) = front * 16 := Nat.mod_eq_of_lt (by omega)
  have shifted : front * 16 = 2 ^ 4 * front := by omega
  rw [fits, shifted, Nat.two_pow_add_eq_or_of_lt isDigit]

theorem parseHex_hexDigits (upper : Bool) {width : Nat} (narrow : width ≤ 15) (value : Nat) :
    parseHex 0 (hexDigits upper width value) = some (value % 16 ^ width) := by
  induction width generalizing value with
  | zero =>
    rw [Nat.pow_zero, Nat.mod_one]
    rfl
  | succ width ih =>
    have isDigit : value % 16 < 16 := Nat.mod_lt _ (by omega)
    have front : value / 16 % 16 ^ width < 16 ^ 15 :=
      lt_of_lt_of_le (Nat.mod_lt _ (Nat.pow_pos (by omega)))
        (Nat.pow_le_pow_right (by omega) (by omega))
    unfold hexDigits
    rw [parseHex_append, ih (by omega), Option.bind_some, hexDigit_hexChar upper isDigit,
      Option.map_some, shift_or_digit front isDigit, Nat.pow_succ', Nat.mod_mul]
    congr 1
    omega

theorem flatMap_field (upper : Bool) (fields : List Nat) (rest : List UInt8) {index value : Nat}
    (found : fields[index]? = some value) :
    ((fields.flatMap (hexDigits upper 8) ++ rest).drop (8 * index)).take 8 =
      hexDigits upper 8 value := by
  induction fields generalizing index with
  | nil => cases found
  | cons field later ih =>
    rw [flatMap_cons, append_assoc]
    have width := length_hexDigits upper 8 field
    cases index with
    | zero =>
      cases found
      rw [Nat.mul_zero, drop_zero, take_left' width]
    | succ index =>
      rw [Nat.mul_succ, add_comm, ← drop_drop, drop_left' width]
      exact ih found

theorem length_cpioNewcMagic : cpioNewcMagic.length = 6 := rfl

theorem readHexField_header (upper : Bool) (attributes : Attributes) (mode filesize namesize : Nat)
    {front : List UInt8}
    (split_ : archive = front ++ (newcHeader upper attributes mode filesize namesize ++ rest)) :
    readHexField archive (front.length + cpioOffMode) 8 = some (mode % 2 ^ 32) ∧
      readHexField archive (front.length + cpioOffFilesize) 8 = some (filesize % 2 ^ 32) ∧
      readHexField archive (front.length + cpioOffNamesize) 8 = some (namesize % 2 ^ 32) := by
  have field : ∀ index value, [attributes.ino, mode, attributes.uid, attributes.gid,
      attributes.nlink, attributes.mtime, filesize, attributes.devmajor, attributes.devminor,
      attributes.rdevmajor, attributes.rdevminor, namesize, attributes.check][index]? = some value →
      readHexField archive (front.length + (6 + 8 * index)) 8 = some (value % 2 ^ 32) := by
    intro index value found
    unfold readHexField
    rw [split_, drop_length_add_append, newcHeader, append_assoc, ← drop_drop,
      drop_left' length_cpioNewcMagic, flatMap_field upper _ rest found,
      parseHex_hexDigits upper (by omega)]
    rfl
  exact ⟨field 1 mode rfl, field 6 filesize rfl, field 11 namesize rfl⟩

theorem length_newcHeader (upper : Bool) (attributes : Attributes) (mode filesize namesize : Nat) :
    (newcHeader upper attributes mode filesize namesize).length = 110 := by
  simp [newcHeader, cpioNewcMagic, length_hexDigits]

/-! ### One record -/

theorem length_padding (length : Nat) : (padding length).length = (4 - length % 4) % 4 :=
  length_replicate

theorem length_newcRecord (upper : Bool) (attributes : Attributes) (mode : Nat) (name : Name)
    (data : List UInt8) : (newcRecord upper attributes mode name data).length =
      110 + name.length + 1 + (padding (110 + name.length + 1)).length + data.length +
        (padding data.length).length := by
  simp only [newcRecord, length_append, length_newcHeader, cpioHeaderSize, length_singleton]

theorem cpioAlign4_padding {offset : Nat} (small : offset + (padding offset).length < 2 ^ 64) :
    cpioAlign4 offset = offset + (padding offset).length := by
  rw [length_padding] at small ⊢
  have fits : word (offset + 3) = offset + 3 := Nat.mod_eq_of_lt (by omega)
  rw [cpioAlign4, fits]
  omega

theorem padding_shift (aligned : front % 4 = 0) (length : Nat) :
    padding (front + length) = padding length := by
  unfold padding
  congr 2
  omega

theorem headerAt_record (upper : Bool) (attributes : Attributes) (mode : Nat) (name : Name)
    (data : List UInt8) {front : List UInt8}
    (split_ : archive = front ++ (newcRecord upper attributes mode name data ++ rest))
    (aligned : front.length % 4 = 0) (small : archive.length < 2 ^ 64) (noNul : 0 ∉ name)
    (shortName : name.length + 1 < 2 ^ 32) (shortData : data.length < 2 ^ 32) :
    headerAt archive front.length = some (some
      { name := name
        terminated := true
        dataOffset := front.length + (110 + name.length + 1 +
          (padding (110 + name.length + 1)).length)
        filesize := data.length
        nextOffset := front.length + (newcRecord upper attributes mode name data).length }) := by
  have total : archive.length = front.length +
      ((newcRecord upper attributes mode name data).length + rest.length) := by
    rw [split_, length_append, length_append]
  have parts := length_newcRecord upper attributes mode name data
  have header := length_newcHeader upper attributes mode data.length (name.length + 1)
  -- the record from its name on
  have named : archive = front ++ (newcHeader upper attributes mode data.length (name.length + 1) ++
      (name ++ 0 :: (padding (110 + name.length + 1) ++ data ++ padding data.length ++ rest))) := by
    rw [split_, newcRecord]
    simp only [append_assoc, cons_append, nil_append, cpioHeaderSize]
  obtain ⟨_, filesize, namesize⟩ := readHexField_header upper attributes mode data.length
    (name.length + 1) named
  rw [Nat.mod_eq_of_lt shortData] at filesize
  rw [Nat.mod_eq_of_lt shortName] at namesize
  have magic : (archive.drop front.length).take 6 = cpioNewcMagic := by
    rw [named, drop_left, newcHeader, append_assoc,
      take_left' length_cpioNewcMagic]
  have atName : archive.drop (front.length + 110) =
      name ++ 0 :: (padding (110 + name.length + 1) ++ data ++ padding data.length ++ rest) := by
    rw [named, drop_length_add_append, drop_left' header]
  have nameOffset : word (front.length + cpioHeaderSize) = front.length + 110 :=
    Nat.mod_eq_of_lt (by rw [cpioHeaderSize]; omega)
  have nameEnd : word (front.length + 110 + (name.length + 1)) =
      front.length + (110 + name.length + 1) := by
    rw [word, Nat.mod_eq_of_lt (by omega)]
    omega
  have dataOffset : cpioAlign4 (front.length + (110 + name.length + 1)) =
      front.length + (110 + name.length + 1 + (padding (110 + name.length + 1)).length) := by
    rw [cpioAlign4_padding (by rw [padding_shift aligned]; omega), padding_shift aligned]
    omega
  have alignedData : (front.length + (110 + name.length + 1 +
      (padding (110 + name.length + 1)).length)) % 4 = 0 := by
    rw [length_padding]
    omega
  have dataEnd : word (front.length + (110 + name.length + 1 +
      (padding (110 + name.length + 1)).length) + data.length) =
      front.length + (110 + name.length + 1 + (padding (110 + name.length + 1)).length) +
        data.length := Nat.mod_eq_of_lt (by omega)
  have nextOffset : cpioAlign4 (front.length + (110 + name.length + 1 +
      (padding (110 + name.length + 1)).length) + data.length) =
      front.length + (newcRecord upper attributes mode name data).length := by
    rw [cpioAlign4_padding (by rw [padding_shift alignedData]; omega), padding_shift alignedData,
      parts]
    omega
  have last : archive.getD (front.length + 110 + (name.length + 1) - 1) 0 = 0 := by
    have position : front.length + 110 + (name.length + 1) - 1 =
      front.length + 110 + name.length := by
      omega
    rw [position, getD_eq_getElem?_getD, ← getElem?_drop, atName,
      getElem?_append_right le_rfl, Nat.sub_self]
    rfl
  have string : (name ++ 0 :: (padding (110 + name.length + 1) ++ data ++ padding data.length ++
      rest)).takeWhile (· != 0) = name := by
    rw [takeWhile_append_of_pos (fun byte member => by
      simpa using fun isZero : byte = 0 => noNul (isZero ▸ member))]
    simp
  unfold headerAt
  rw [if_neg (fun differs => differs magic), namesize, filesize]
  simp only [nameOffset, nameEnd, dataOffset, dataEnd, nextOffset, atName, last, string]
  rw [if_neg (by omega), if_pos (by simp)]
  rfl

theorem data_of_record (upper : Bool) (attributes : Attributes) (mode : Nat) (name : Name)
    (data front rest : List UInt8) :
    ((front ++ (newcRecord upper attributes mode name data ++ rest)).drop (front.length +
      (110 + name.length + 1 + (padding (110 + name.length + 1)).length))).take data.length =
        data := by
  have before : (newcHeader upper attributes mode data.length (name.length + 1) ++ name ++ [0] ++
      padding (cpioHeaderSize + name.length + 1)).length =
      110 + name.length + 1 + (padding (110 + name.length + 1)).length := by
    simp only [length_append, length_newcHeader, cpioHeaderSize, length_singleton]
  rw [drop_length_add_append, newcRecord, append_assoc _ data, append_assoc _ (data ++ _),
    drop_left' before, append_assoc, take_left' rfl]

/-! ### Members -/

/-- A relative path as an archiver is given: components that are not empty and not
`.` or `..`, and at most 254 bytes, without a NUL.  The name of the trailer is
reserved. -/
structure ProperPath (path : Name) : Prop where
  components : ∀ name ∈ path.splitOn slash, name ≠ [] ∧ name ≠ [dot] ∧ name ≠ [dot, dot]
  short : path.length ≤ 254
  noNul : 0 ∉ path
  notTrailer : path ≠ cpioTrailer

/-- A member whose sizes fit the fields of the header. -/
structure Member.Proper (member : Member) : Prop where
  path : ProperPath member.path
  name : member.name.length + 1 < 2 ^ 32
  data : member.data.length < 2 ^ 32

theorem ProperPath.nonempty (proper : ProperPath path) : path ≠ [] := by
  rintro rfl
  exact (proper.components [] (by simp)).1 rfl

theorem ProperPath.head (proper : ProperPath path) : path.head? ≠ some slash := by
  intro start
  cases path with
  | nil => cases start
  | cons byte rest =>
    cases start
    refine (proper.components [] ?_).1 rfl
    have split_ := @splitOn_append_cons_self _ _ _ slash [] rest
    rw [nil_append] at split_
    rw [split_]
    simp

theorem stripDots_proper (proper : ProperPath path) : stripDots path = path := by
  match path, proper with
  | [], _ => rfl
  | [_], _ => rfl
  | first :: second :: rest, proper =>
    rw [stripDots, if_neg]
    rintro ⟨rfl, rfl⟩
    refine (proper.components [dot] ?_).2.1 rfl
    have split_ := @splitOn_append_cons_self _ _ _ slash [dot] rest
    rw [singleton_append] at split_
    rw [split_]
    exact mem_append_left _ (by decide)

section

variable (member : Member) (proper : ProperPath member.path)

include member proper

theorem stripDots_name : stripDots member.name = member.path := by
  unfold Member.name
  induction member.dots with
  | zero => exact stripDots_proper proper
  | succ dots ih =>
    rw [replicate_succ, flatten_cons]
    change stripDots (dot :: slash :: _) = _
    rw [stripDots, if_pos ⟨rfl, rfl⟩]
    exact ih

theorem normalizePath_name : normalizePath member.name = member.path := by
  have single : member.path ≠ [dot] := by
    intro same
    refine (proper.components [dot] ?_).2.1 rfl
    rw [same]
    decide
  unfold normalizePath
  simp only [stripDots_name member proper]
  rw [if_neg proper.head, if_neg single, take_of_length_le]
  have short := proper.short
  omega

theorem name_ne_trailer : member.name ≠ cpioTrailer := by
  unfold Member.name
  cases member.dots with
  | zero => exact proper.notTrailer
  | succ dots =>
    intro same
    have head := congrArg List.head? same
    simp [replicate_succ, dot, cpioTrailer] at head

theorem nul_not_mem_name : 0 ∉ member.name := by
  unfold Member.name
  intro inside
  rcases mem_append.mp inside with front | back
  · obtain ⟨part, isPart, inPart⟩ := mem_flatten.mp front
    rw [eq_of_mem_replicate isPart] at inPart
    exact absurd inPart (by decide)
  · exact proper.noNul back

end

def Member.entry (member : Member) : Entry := ⟨member.path, member.mode % 2 ^ 32, member.data⟩

/-! ### Whole archives -/

theorem length_record_mod (upper : Bool) (attributes : Attributes) (mode : Nat) (name : Name)
    (data : List UInt8) : (newcRecord upper attributes mode name data).length % 4 = 0 := by
  rw [length_newcRecord, length_padding, length_padding]
  omega

theorem decodeFrom_archive (members : List Member) (proper : ∀ member ∈ members, member.Proper)
    (tail : List UInt8) {archive front : List UInt8}
    (split_ : archive = front ++ newcArchive members tail) (aligned : front.length % 4 = 0)
    (small : archive.length < 2 ^ 64) (rounds : Nat) (enough : members.length < rounds) :
    decodeFrom archive rounds front.length = (members.map Member.entry, .complete) := by
  induction members generalizing front rounds with
  | nil =>
    cases rounds with
    | zero => exact absurd enough (not_lt_zero)
    | succ rounds =>
      have trailer : archive = front ++ (newcRecord false {} 0 cpioTrailer [] ++ tail) := split_
      have size := length_newcRecord false {} 0 cpioTrailer []
      have total : archive.length = front.length +
          ((newcRecord false {} 0 cpioTrailer []).length + tail.length) := by
        rw [trailer, length_append, length_append]
      have header := headerAt_record false {} 0 cpioTrailer [] trailer aligned small (by decide)
        (by decide) (by decide)
      have inside : ¬archive.length < word (front.length + cpioHeaderSize) := by
        rw [word, cpioHeaderSize, Nat.mod_eq_of_lt (by omega)]
        omega
      unfold decodeFrom
      rw [if_neg inside, header]
      rfl
  | cons member later ih =>
    cases rounds with
    | zero => exact absurd enough (not_lt_zero)
    | succ rounds =>
      have fits := proper member (.head _)
      have first : archive = front ++ (member.record ++ newcArchive later tail) := by
        rw [split_]
        simp only [newcArchive, flatMap_cons, append_assoc]
      have size := length_newcRecord member.upper member.attributes member.mode member.name
        member.data
      have total : archive.length = front.length +
          (member.record.length + (newcArchive later tail).length) := by
        rw [first, length_append, length_append]
      have header := headerAt_record member.upper member.attributes member.mode member.name
        member.data first aligned small (nul_not_mem_name member fits.path) fits.name fits.data
      have inside : ¬archive.length < word (front.length + cpioHeaderSize) := by
        rw [Member.record] at total
        rw [word, cpioHeaderSize, Nat.mod_eq_of_lt (by omega)]
        omega
      have named : archive = front ++ (newcHeader member.upper member.attributes member.mode
          member.data.length (member.name.length + 1) ++ (member.name ++ [0] ++
          padding (cpioHeaderSize + member.name.length + 1) ++ member.data ++
          padding member.data.length ++ newcArchive later tail)) := by
        rw [first, Member.record, newcRecord]
        simp only [append_assoc]
      have modeField := (readHexField_header member.upper member.attributes member.mode
        member.data.length (member.name.length + 1) named).1
      have next := @ih (fun other isLater => proper other (.tail _ isLater))
        (front ++ member.record) (by rw [first, append_assoc])
        (by
          have multiple := length_record_mod member.upper member.attributes member.mode
            member.name member.data
          rw [length_append, Member.record]
          omega)
        rounds (by
          rw [length_cons] at enough
          omega)
      rw [length_append] at next
      unfold decodeFrom
      rw [if_neg inside, header]
      simp only [Bool.not_true, Bool.false_eq_true, if_false]
      rw [if_neg (name_ne_trailer member fits.path), normalizePath_name member fits.path,
        if_neg fits.path.nonempty, modeField]
      simp only
      rw [← Member.record, next, first, Member.record, data_of_record]
      rfl

theorem decode_newcArchive (members : List Member) (proper : ∀ member ∈ members, member.Proper)
    (tail : List UInt8) (small : (newcArchive members tail).length < 2 ^ 64) :
    decode (newcArchive members tail) = (members.map Member.entry, .complete) := by
  have trailer := length_newcRecord false {} 0 cpioTrailer []
  have count : members.length ≤ (members.flatMap Member.record).length := by
    clear proper small
    induction members with
    | nil => exact le_rfl
    | cons member later ih =>
      have size := length_newcRecord member.upper member.attributes member.mode member.name
        member.data
      rw [flatMap_cons, length_append, length_cons, Member.record]
      omega
  have total : (newcArchive members tail).length = (members.flatMap Member.record).length +
      (newcRecord false {} 0 cpioTrailer []).length + tail.length := by
    rw [newcArchive, length_append, length_append]
  unfold decode
  rw [if_neg (by rw [cpioHeaderSize]; omega)]
  exact @decodeFrom_archive members proper tail _ [] rfl rfl small _ (by omega)

end Synx.Initramfs
