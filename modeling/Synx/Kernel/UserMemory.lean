/-
Access to the memory of the running program, as in `proc/syscall_user.cpp`: the
page walk of `translate_user`, copies in both directions, and the paths and
string vectors that system calls take.
-/

import Mathlib.Data.UInt
import Synx.Exec.UserView
import Synx.Kernel.State
import Synx.Lib.Buffer

namespace Synx.Kernel

open Lib Program Memory List Option
open Pmm (pageSize)
open Exec
open Paging
open Vfs (Fault)

def errFault : Int := -14
def errNoent : Int := -2
def errNametoolong : Int := -36
def err2big : Int := -7

/-- The walk of `translate_user`: every entry on the way must be present and open
to the user. -/
def userLeaf (mem : Memory) : Nat → List Nat → Option Nat
  | _, [] => none
  | table, index :: rest =>
    let entry := entryAt mem table index
    if flagged entry ptePresent && flagged entry pteUser then
      match rest with
      | [] => some entry
      | _ :: _ => userLeaf mem (pteAddress entry) rest
    else none

def translateUser (mem : Memory) (cr3 address : Nat) (writeAccess : Bool) : Option Nat :=
  if userTop ≤ address then none
  else (userLeaf mem (pteAddress cr3) (pageIndices address)).bind (fun entry =>
    if writeAccess && !flagged entry pteWritable then none
    else some (pteAddress entry + address % pageSize))

/-- The loop of `copy_user` out of user memory, with the bytes still to read. -/
def readUserChunks (mem : Memory) (cr3 userAddress : Nat) :
    Nat → Nat → Nat → Option (List UInt8)
  | _, _, 0 => some []
  | 0, _, _ + 1 => none
  | rounds + 1, copied, missing + 1 =>
    match translateUser mem cr3 (userAddress + copied) false with
    | none => none
    | some place =>
      let chunk := min (pageSize - (userAddress + copied) % pageSize) (missing + 1)
      (readUserChunks mem cr3 userAddress rounds (copied + chunk) (missing + 1 - chunk)).map
        (fun later => readBytes mem place chunk ++ later)

def copyFromUser (mem : Memory) (cr3 userAddress size : Nat) : Option (List UInt8) :=
  if size = 0 then some []
  else if userTop ≤ userAddress ∨ userTop - userAddress < size then none
  else readUserChunks mem cr3 userAddress size 0 size

/-- The loop of `copy_user` into user memory.  The result says whether all bytes
were copied. -/
def writeUserChunks (userAddress : Nat) : Nat → Nat → List UInt8 → Action Bool
  | _, _, [] => pure true
  | 0, _, _ :: _ => pure false
  | rounds + 1, copied, byte :: rest => do
      let bytes := byte :: rest
      let kernel ← Program.gets id
      match translateUser kernel.mem kernel.cr3 (userAddress + copied) true with
      | none => pure false
      | some place => do
          let chunk := min (pageSize - (userAddress + copied) % pageSize) bytes.length
          Program.modify (fun kernel =>
            { kernel with mem := writeBytes kernel.mem place (bytes.take chunk) })
          writeUserChunks userAddress rounds (copied + chunk) (bytes.drop chunk)

def copyToUser (userAddress : Nat) (bytes : List UInt8) : Action Bool :=
  if bytes.length = 0 then pure true
  else if userTop ≤ userAddress ∨ userTop - userAddress < bytes.length then pure false
  else writeUserChunks userAddress bytes.length 0 bytes

/-! ### Kernel buffers -/

/-- A result that may be an error code or a fault. -/
abbrev Checked (α : Type) := Except (Stop Fault) α

def refuse {α : Type} (code : Int) : Checked α := .error (.code code)

def putBuffer (buffer : List UInt8) (index : Nat) (bytes : List UInt8) : Checked (List UInt8) :=
  match Buffer.put buffer index bytes with
  | some stored => .ok stored
  | none => .error (.fault .outOfBounds)

/-- The string that `strlen` measures. -/
def cString (buffer : List UInt8) : Checked (List UInt8) :=
  match Buffer.string buffer with
  | some text => .ok text
  | none => .error (.fault .outOfBounds)

/-- Stores a pointer in the next place of an array. -/
def pushPointer (size : Nat) (pointers : List Nat) (pointer : Nat) : Checked (List Nat) :=
  if pointers.length < size then .ok (pointers ++ [pointer]) else .error (.fault .outOfBounds)

def getBuffer (buffer : List UInt8) (index size : Nat) : Checked (List UInt8) :=
  if index + size ≤ buffer.length then .ok ((buffer.drop index).take size)
  else .error (.fault .outOfBounds)

/-- A buffer before anything is stored in it.  It has no zero, so that a string
that was not terminated has no end. -/
def freshBuffer (size : Nat) : List UInt8 := replicate size 0xCC

/-! ### Paths and vectors -/

/-- The loop of `copy_user_path` from position `index`. -/
def copyUserPathFrom (mem : Memory) (cr3 userPath : Nat) :
    Nat → Nat → List UInt8 → Checked (List UInt8)
  | 0, _, _ => refuse errNametoolong
  | rounds + 1, index, path =>
    if userTop ≤ userPath ∨ userTop - userPath ≤ index then refuse errFault
    else
      match copyFromUser mem cr3 (userPath + index) 1 with
      | none => refuse errFault
      | some bytes => do
          let path ← putBuffer path index bytes
          if bytes.getD 0 0 = 0 then (if index = 0 then refuse errNoent else pure path)
          else copyUserPathFrom mem cr3 userPath rounds (index + 1) path

/-- The path in a buffer with room for `capacity` bytes. -/
def copyUserPath (mem : Memory) (cr3 userPath capacity : Nat) (path : List UInt8) :
    Checked (List UInt8) :=
  copyUserPathFrom mem cr3 userPath capacity 0 path

/-- The arrays `strings` and `storage` of the caller of `copy_user_vector` and its variable
`storage_used`.  A pointer is its offset in the storage. -/
structure Buffers where
  strings : Nat → Nat
  storage : Memory
  storageUsed : Nat

abbrev Filling (α : Type) := Program Buffers Int α

/-- Bytes go to the storage behind what is used of it. -/
def Buffers.stored (bytes : List UInt8) (now : Buffers) : Buffers :=
  { now with
    storage := now.storage.writeBytes now.storageUsed bytes
    storageUsed := now.storageUsed + bytes.length }

def Buffers.pointed (index : Nat) (now : Buffers) : Buffers :=
  { now with strings := Function.update now.strings index now.storageUsed }

/-- The inner loop.  Every round uses a byte of the storage. -/
def copyUserString (mem : Memory) (cr3 storageCapacity userString : Nat) : Nat → Nat → Filling Unit
  | 0, _ => Program.stop err2big
  | rounds + 1, length => do
    let used ← Program.gets Buffers.storageUsed
    if storageCapacity ≤ used then Program.stop err2big
    else if userTop ≤ userString ∨ userTop - userString ≤ length then Program.stop errFault
    else
      match copyFromUser mem cr3 (userString + length) 1 with
      | none => Program.stop errFault
      | some bytes => do
        Program.modify (Buffers.stored [bytes.getD 0 0])
        if bytes.getD 0 0 = 0 then pure ()
        else copyUserString mem cr3 storageCapacity userString rounds (length + 1)

def copyUserVectorFrom (mem : Memory) (cr3 userVector capacity storageCapacity : Nat) :
    Nat → Nat → Filling Nat
  | 0, _ => Program.stop err2big
  | rounds + 1, index =>
    let slotOffset := index * 8
    if userTop ≤ userVector ∨ userTop - userVector < slotOffset ∨
        userTop - userVector - slotOffset < 8 then Program.stop errFault
    else
      match copyFromUser mem cr3 (userVector + slotOffset) 8 with
      | none => Program.stop errFault
      | some bytes =>
        let userString := field bytes 0 8
        if userString = 0 then pure index
        else if index = capacity then Program.stop err2big
        else do
          Program.modify (Buffers.pointed index)
          copyUserString mem cr3 storageCapacity userString (storageCapacity + 1) 0
          copyUserVectorFrom mem cr3 userVector capacity storageCapacity rounds (index + 1)

/-- The array has room for `capacity` pointers. -/
def copyUserVector (mem : Memory) (cr3 userVector capacity storageCapacity : Nat) : Filling Nat :=
  if userVector = 0 then pure 0
  else copyUserVectorFrom mem cr3 userVector capacity storageCapacity (capacity + 1) 0

/-- The strings that the pointers from `index` on lead to. -/
def Buffers.texts (storageCapacity : Nat) (now : Buffers) : Nat → Nat → Checked (List (List UInt8))
  | 0, _ => pure []
  | count + 1, index => do
    let offset := now.strings index
    let text ← cString (readBytes now.storage offset (storageCapacity - offset))
    let rest ← now.texts storageCapacity count (index + 1)
    pure (text :: rest)

/-! ### What the program has in memory -/

/-- The byte that the program sees at an address. -/
def userRead (mem : Memory) (cr3 address : Nat) : Option UInt8 :=
  (translateUser mem cr3 address false).map mem

def UserBytes (mem : Memory) (cr3 address : Nat) (bytes : List UInt8) : Prop :=
  ∀ offset (inside : offset < bytes.length), userRead mem cr3 (address + offset) =
    some bytes[offset]

/-- A C string. -/
structure UserString (mem : Memory) (cr3 address : Nat) (string : List UInt8) : Prop where
  bytes : UserBytes mem cr3 address (string ++ [0])
  nonzero : ∀ byte, byte ∈ string → byte ≠ 0

/-- Pointers to C strings, one after another, up to a null pointer. -/
inductive UserPointers (mem : Memory) (cr3 : Nat) : Nat → List (List UInt8) → Prop
  | last {address : Nat} (null : UserBytes mem cr3 address (numberBytes 0 8)) :
      UserPointers mem cr3 address []
  | next {address pointer : Nat} {string : List UInt8} {strings : List (List UInt8)}
      (here : UserBytes mem cr3 address (numberBytes pointer 8)) (nonzero : pointer ≠ 0)
      (points : UserString mem cr3 pointer string)
      (later : UserPointers mem cr3 (address + 8) strings) :
      UserPointers mem cr3 address (string :: strings)

def UserVector (mem : Memory) (cr3 address : Nat) (strings : List (List UInt8)) : Prop :=
  (address = 0 ∧ strings = []) ∨ (address ≠ 0 ∧ UserPointers mem cr3 address strings)

/-! ### Reading -/

section Reading

variable {mem : Memory} {cr3 : Nat}

variable {address : Nat} {bytes : List UInt8}

variable {place offset userAddress : Nat} {writeAccess : Bool} {storage : List UInt8}

theorem translateUser_user (found : translateUser mem cr3 address writeAccess = some place) :
    address < userTop := by
  unfold translateUser at found
  split at found
  · cases found
  · omega

theorem translateUser_page (found : translateUser mem cr3 address writeAccess = some place)
    (inside : address % 4096 + offset < 4096) :
    translateUser mem cr3 (address + offset) writeAccess = some (place + offset) := by
  have user := translateUser_user found
  have userTopEq : userTop = 34359738368 * 4096 := by decide
  have samePage : (address + offset) / 4096 = address / 4096 := by omega
  have user' : address + offset < userTop := by omega
  have indices := (pageIndices_inj (address + offset) address user' user).mpr samePage
  unfold translateUser at found ⊢
  rw [if_neg (by omega)] at found ⊢
  rw [indices]
  obtain ⟨entry, leaf, placed⟩ := bind_eq_some_iff.mp found
  rw [leaf, bind_some]
  split at placed
  · cases placed
  · rename_i allowed
    rw [if_neg allowed, ← some.inj placed]
    unfold pageSize
    congr 1
    omega

theorem readUserChunks_bytes {rounds copied missing : Nat}
    (read : readUserChunks mem cr3 userAddress rounds copied missing = some bytes) :
    bytes.length = missing ∧ UserBytes mem cr3 (userAddress + copied) bytes := by
  induction rounds generalizing copied missing bytes with
  | zero =>
    cases missing with
    | zero =>
      cases read
      exact ⟨rfl, fun offset inside => absurd inside (Nat.not_lt_zero offset)⟩
    | succ missing => cases read
  | succ rounds ih =>
    cases missing with
    | zero =>
      cases read
      exact ⟨rfl, fun offset inside => absurd inside (Nat.not_lt_zero offset)⟩
    | succ missing =>
      unfold readUserChunks at read
      cases found : translateUser mem cr3 (userAddress + copied) false with
      | none => simp [found] at read
      | some place =>
        simp only [found] at read
        obtain ⟨later, readLater, rfl⟩ := map_eq_some_iff.mp read
        obtain ⟨length, holds⟩ := ih readLater
        have pageEq : pageSize = 4096 := rfl
        have chunkBound : min (pageSize - (userAddress + copied) % pageSize) (missing + 1) ≤
            missing + 1 := min_le_right _ _
        have chunkPage : min (pageSize - (userAddress + copied) % pageSize) (missing + 1) ≤
            4096 - (userAddress + copied) % 4096 := min_le_left _ _
        generalize min (pageSize - (userAddress + copied) % pageSize) (missing + 1) = chunk
          at *
        refine ⟨by rw [length_append, readBytes_length]; omega, ?_⟩
        intro offset inside
        by_cases early : offset < chunk
        · rw [getElem_append_left (by rw [readBytes_length]; exact early)]
          unfold userRead
          rw [translateUser_page found (by omega)]
          simp [readBytes]
        · rw [getElem_append_right (by rw [readBytes_length]; omega)]
          rw [length_append, readBytes_length] at inside
          have rest := holds (offset - chunk) (by omega)
          simp only [readBytes_length]
          rw [← rest]
          congr 1
          omega

theorem copyFromUser_bytes {size : Nat}
    (read : copyFromUser mem cr3 userAddress size = some bytes) :
    bytes.length = size ∧ UserBytes mem cr3 userAddress bytes := by
  unfold copyFromUser at read
  split at read
  · rename_i empty
    cases read
    exact ⟨empty.symm, fun offset inside => absurd inside (Nat.not_lt_zero offset)⟩
  · split at read
    · cases read
    · exact readUserChunks_bytes read

theorem userRead_outside (outside : userTop ≤ address ∨ userTop - address ≤ offset) :
    userRead mem cr3 (address + offset) = none := by
  unfold userRead translateUser
  rw [if_pos (by omega)]
  rfl

theorem copyFromUser_byte :
    copyFromUser mem cr3 address 1 = (userRead mem cr3 address).map (fun byte => [byte]) := by
  unfold copyFromUser
  rw [if_neg Nat.one_ne_zero]
  split
  · have outside : userRead mem cr3 (address + 0) = none := userRead_outside (by omega)
    rw [add_zero] at outside
    rw [outside]
    rfl
  · unfold readUserChunks userRead
    rw [add_zero]
    cases translateUser mem cr3 address false with
    | none => rfl
    | some place =>
      have one : min (pageSize - address % pageSize) 1 = 1 := by
        have := Nat.mod_lt address (show 0 < pageSize by decide)
        omega
      simp [one, readUserChunks, readBytes]

theorem UserString.cons {address : Nat} {value : UInt8} {string : List UInt8}
    (first : userRead mem cr3 address = some value) (nonzero : value ≠ 0)
    (rest : UserString mem cr3 (address + 1) string) :
    UserString mem cr3 address (value :: string) := by
  constructor
  · intro offset inside
    cases offset with
    | zero => exact first
    | succ offset =>
      have later := rest.bytes offset (by simpa using inside)
      rw [show address + (offset + 1) = address + 1 + offset by omega, later]
      rfl
  · intro byte member
    rcases mem_cons.mp member with rfl | inRest
    · exact nonzero
    · exact rest.nonzero byte inRest

theorem UserString.empty (first : userRead mem cr3 address = some 0) :
    UserString mem cr3 address [] := by
  constructor
  · intro offset inside
    have zero : offset = 0 := by
      simp only [nil_append, length_singleton] at inside
      omega
    subst zero
    exact first
  · intro byte member
    cases member

theorem putBuffer_append {front back bytes : List UInt8} (fits : bytes.length ≤ back.length) :
    putBuffer (front ++ back) front.length bytes =
      .ok (front ++ bytes ++ back.drop bytes.length) := by
  unfold putBuffer
  rw [Buffer.put_append fits]

theorem cString_append {text rest : List UInt8} (nonzero : 0 ∉ text) :
    cString (text ++ 0 :: rest) = .ok text := by
  unfold cString
  rw [Buffer.string_append nonzero]

theorem putBuffer_byte (front back : List UInt8) (old byte : UInt8) :
    putBuffer (front ++ old :: back) front.length [byte] = .ok (front ++ byte :: back) := by
  rw [putBuffer_append (by simp)]
  simp

theorem copyUserPathFrom_step (userPath rounds : Nat) (front back : List UInt8) (old : UInt8) :
    copyUserPathFrom mem cr3 userPath (rounds + 1) front.length (front ++ old :: back) =
      match userRead mem cr3 (userPath + front.length) with
      | none => refuse errFault
      | some byte =>
        if byte = 0 then (if front.length = 0 then refuse errNoent else .ok (front ++ byte :: back))
        else copyUserPathFrom mem cr3 userPath rounds (front.length + 1)
          (front ++ byte :: back) := by
  rw [copyUserPathFrom, copyFromUser_byte]
  split
  · rw [userRead_outside (by assumption)]
  · cases userRead mem cr3 (userPath + front.length) with
    | none => rfl
    | some byte =>
      dsimp only [map_some]
      rw [putBuffer_byte]
      rfl

theorem copyUserPathFrom_graceful {userPath : Nat} (front back : List UInt8) :
    Graceful (fun path => ∃ string rest, path = front ++ string ++ 0 :: rest ∧
        path.length = (front ++ back).length ∧ front ++ string ≠ [] ∧
        UserString mem cr3 (userPath + front.length) string)
      (copyUserPathFrom mem cr3 userPath back.length front.length (front ++ back)) := by
  induction back generalizing front with
  | nil => exact (by decide : errNametoolong < 0)
  | cons old back ih =>
    rw [length_cons, copyUserPathFrom_step]
    cases read : userRead mem cr3 (userPath + front.length) with
    | none => exact (by decide : errFault < 0)
    | some byte =>
      dsimp only
      split
      · rename_i zero
        subst zero
        split
        · exact (by decide : errNoent < 0)
        · rename_i nonempty
          exact ⟨[], back, by simp, by simp, by simpa using nonempty, .empty read⟩
      · rename_i nonzero
        have next := ih (front ++ [byte])
        have oneMore : (front ++ [byte]).length = front.length + 1 := length_append
        rw [append_assoc, singleton_append, oneMore] at next
        refine next.imp ?_
        rintro _ ⟨string, rest, rfl, length, _, holds⟩
        exact ⟨byte :: string, rest, by
          simp, by simpa using length, by simp, .cons read nonzero holds⟩

theorem copyUserPath_graceful {userPath capacity : Nat} {path : List UInt8}
    (room : path.length = capacity) :
    Graceful (fun path => path.length = capacity ∧ ∃ string, cString path = .ok string ∧
        string ≠ [] ∧ UserString mem cr3 userPath string)
      (copyUserPath mem cr3 userPath capacity path) := by
  have copied := @copyUserPathFrom_graceful mem cr3 userPath [] path
  unfold copyUserPath
  rw [← room]
  refine Graceful.imp copied ?_
  rintro _ ⟨string, rest, rfl, length, nonempty, holds⟩
  exact ⟨length, string, cString_append (fun member => holds.nonzero 0 member rfl), nonempty, holds⟩

theorem copyFromUser_word (read : copyFromUser mem cr3 address 8 = some bytes) :
    UserBytes mem cr3 address (numberBytes (field bytes 0 8) 8) := by
  obtain ⟨length, holds⟩ := copyFromUser_bytes read
  have same : numberBytes (field bytes 0 8) 8 = bytes := by
    unfold field
    rw [numberBytes_readNumber]
    apply ext_getElem
    · rw [readBytes_length, length]
    · intro index _ inside
      simp [readBytes, getD_eq_getElem?_getD, inside]
  rw [same]
  exact holds

end Reading

end Synx.Kernel
