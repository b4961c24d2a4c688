/-
The copies between the kernel and the running program, `copy_user`.
-/

import Synx.Exec.Copying
import Synx.Kernel.UserMemory

namespace Synx.Kernel

open Lib Program Memory List Option
open Pmm (pageSize)
open Exec
open Paging

/-! ### The copy in both directions -/

/-- Physical memory, the buffer of the kernel and, as a ghost, the physical ranges
that `memcpy` was given on the side of the program. -/
structure Copy where
  mem : Memory
  buffer : List UInt8
  touched : List (Nat × Nat)

/-- One `memcpy` of the loop. -/
def Copy.chunk (copy : Copy) (toUser : Bool) (copied place size : Nat) : Copy :=
  if toUser then
    { copy with
      mem := writeBytes copy.mem place ((copy.buffer.drop copied).take size)
      touched := (place, size) :: copy.touched }
  else
    { copy with
      buffer := copy.buffer.take copied ++ readBytes copy.mem place size ++
        copy.buffer.drop (copied + size)
      touched := (place, size) :: copy.touched }

/-- The loop of `copy_user`.  Every round copies at least one byte. -/
def copyUserLoop (cr3 userAddress size : Nat) (toUser : Bool) : Nat → Nat → Copy → Bool × Copy
  | 0, _, copy => (false, copy)
  | rounds + 1, copied, copy =>
    if size ≤ copied then (true, copy)
    else
      match translateUser copy.mem cr3 (userAddress + copied) toUser with
      | none => (false, copy)
      | some place =>
        let chunk := min (pageSize - (userAddress + copied) % pageSize) (size - copied)
        copyUserLoop cr3 userAddress size toUser rounds (copied + chunk)
          (copy.chunk toUser copied place chunk)

def copyUser (cr3 userAddress size : Nat) (toUser : Bool) (copy : Copy) : Bool × Copy :=
  if size = 0 then (true, copy)
  else if userTop ≤ userAddress ∨ userTop - userAddress < size then (false, copy)
  else copyUserLoop cr3 userAddress size toUser (size + 1) 0 copy

theorem chunk_bounds (address : Nat) {left : Nat} (positive : 0 < left) :
    1 ≤ min (pageSize - address % pageSize) left ∧
      min (pageSize - address % pageSize) left ≤ left ∧
      address % 4096 + min (pageSize - address % pageSize) left ≤ 4096 := by
  have pageEq : pageSize = 4096 := rfl
  have small : address % pageSize < pageSize := Nat.mod_lt _ (by decide)
  rw [pageEq] at small ⊢
  omega

/-! ### The two directions in the model of the system calls -/

private theorem readUserChunks_loop {cr3 userAddress size rounds copied : Nat} {copy : Copy}
    (whole : copy.buffer.length = size) (inside : copied ≤ size) (enough : size - copied ≤ rounds) :
    match readUserChunks copy.mem cr3 userAddress rounds copied (size - copied) with
    | some bytes =>
      (copyUserLoop cr3 userAddress size false (rounds + 1) copied copy).1 = true ∧
        (copyUserLoop cr3 userAddress size false (rounds + 1) copied copy).2.buffer =
          copy.buffer.take copied ++ bytes
    | none => (copyUserLoop cr3 userAddress size false (rounds + 1) copied copy).1 = false := by
  induction rounds generalizing copied copy with
  | zero =>
    have done : copied = size := by omega
    subst done
    rw [Nat.sub_self]
    simp only [readUserChunks, copyUserLoop, Nat.le_refl, if_true, append_nil, true_and]
    rw [take_of_length_le (le_of_eq whole)]
  | succ rounds ih =>
    cases missing : size - copied with
    | zero =>
      have done : copied = size := by omega
      subst done
      simp only [readUserChunks, copyUserLoop, Nat.le_refl, if_true, append_nil, true_and]
      rw [take_of_length_le (le_of_eq whole)]
    | succ left =>
      rw [copyUserLoop, if_neg (by omega), readUserChunks]
      cases found : translateUser copy.mem cr3 (userAddress + copied) false with
      | none => rfl
      | some place =>
        simp only
        rw [missing]
        have bounds := chunk_bounds (userAddress + copied) (Nat.succ_pos left)
        generalize min (pageSize - (userAddress + copied) % pageSize) (left + 1) = chunk at *
        have items := readBytes_length copy.mem place chunk
        have buffer : (copy.chunk false copied place chunk).buffer =
            copy.buffer.take copied ++ readBytes copy.mem place chunk ++
              copy.buffer.drop (copied + chunk) := rfl
        have front : (copy.buffer.take copied ++ readBytes copy.mem place chunk).length =
            copied + chunk := by
          rw [length_append, length_take, items]
          omega
        have stored : (copy.chunk false copied place chunk).buffer.length = size := by
          rw [buffer, length_append, front, length_drop]
          omega
        have taken : (copy.chunk false copied place chunk).buffer.take (copied + chunk) =
            copy.buffer.take copied ++ readBytes copy.mem place chunk := by
          rw [buffer, ← front, take_left]
        have later := @ih (copied + chunk) (copy.chunk false copied place chunk) stored
          (by omega) (by omega)
        rw [show size - (copied + chunk) = left + 1 - chunk by omega, taken] at later
        change match (readUserChunks copy.mem cr3 userAddress rounds (copied + chunk)
          (left + 1 - chunk)) with | some bytes => _ | none => _ at later
        cases read : readUserChunks copy.mem cr3 userAddress rounds (copied + chunk)
            (left + 1 - chunk) with
        | none =>
          rw [read] at later
          exact later
        | some bytes =>
          rw [read] at later
          refine ⟨later.1, ?_⟩
          rw [later.2, append_assoc]

theorem copyFromUser_eq (mem : Memory) (cr3 userAddress : Nat) (buffer : List UInt8) :
    copyFromUser mem cr3 userAddress buffer.length =
      let outcome := copyUser cr3 userAddress buffer.length false ⟨mem, buffer, []⟩
      if outcome.1 then some outcome.2.buffer else none := by
  unfold copyFromUser copyUser
  by_cases empty : buffer.length = 0
  · rw [if_pos empty, if_pos empty, length_eq_zero_iff.mp empty]
    rfl
  rw [if_neg empty, if_neg empty]
  by_cases beyond : userTop ≤ userAddress ∨ userTop - userAddress < buffer.length
  · rw [if_pos beyond, if_pos beyond]
    rfl
  rw [if_neg beyond, if_neg beyond]
  have loop := @readUserChunks_loop cr3 userAddress buffer.length buffer.length 0
    ⟨mem, buffer, []⟩ rfl zero_le (Nat.sub_le _ _)
  rw [Nat.sub_zero] at loop
  cases read : readUserChunks mem cr3 userAddress buffer.length 0 buffer.length with
  | none =>
    rw [read] at loop
    simp only
    rw [loop]
    rfl
  | some bytes =>
    rw [read] at loop
    simp only
    rw [loop.1, if_pos rfl, loop.2]
    rfl

private theorem writeUserChunks_loop {userAddress rounds copied : Nat} {copy : Copy}
    (kernel : State) (inside : copied ≤ copy.buffer.length)
    (enough : copy.buffer.length - copied ≤ rounds) :
    (writeUserChunks userAddress rounds copied (copy.buffer.drop copied)).run
        { kernel with mem := copy.mem } =
      let outcome := copyUserLoop kernel.cr3 userAddress copy.buffer.length true (rounds + 1) copied
        copy
      (.ok outcome.1, { kernel with mem := outcome.2.mem }) := by
  induction rounds generalizing copied copy with
  | zero =>
    rw [copyUserLoop, if_pos (by omega), drop_of_length_le (by omega)]
    rfl
  | succ rounds ih =>
    rw [copyUserLoop]
    by_cases done : copy.buffer.length ≤ copied
    · rw [if_pos done, drop_of_length_le done]
      rfl
    · rw [if_neg done]
      cases rest : copy.buffer.drop copied with
      | nil =>
        have length := congrArg List.length rest
        rw [length_drop, length_nil] at length
        omega
      | cons byte later =>
        have length := congrArg List.length rest
        rw [length_drop] at length
        rw [writeUserChunks, run_bind_ok (run_gets _ _)]
        simp only [id]
        cases found : translateUser copy.mem kernel.cr3 (userAddress + copied) true with
        | none => rfl
        | some place =>
          simp only
          rw [← length, ← rest]
          have bounds := chunk_bounds (userAddress + copied)
            (show 0 < copy.buffer.length - copied by omega)
          generalize min (pageSize - (userAddress + copied) % pageSize)
            (copy.buffer.length - copied) = chunk at *
          rw [run_bind_ok (run_modify _ _), drop_drop]
          exact @ih (copied + chunk) (copy.chunk true copied place chunk)
            (by change copied + chunk ≤ copy.buffer.length; omega)
            (by change copy.buffer.length - (copied + chunk) ≤ rounds; omega)

theorem copyToUser_eq (kernel : State) (userAddress : Nat) (bytes : List UInt8) :
    (copyToUser userAddress bytes).run kernel =
      let outcome := copyUser kernel.cr3 userAddress bytes.length true ⟨kernel.mem, bytes, []⟩
      (.ok outcome.1, { kernel with mem := outcome.2.mem }) := by
  unfold copyToUser copyUser
  by_cases empty : bytes.length = 0
  · rw [if_pos empty, if_pos empty]
    rfl
  rw [if_neg empty, if_neg empty]
  by_cases beyond : userTop ≤ userAddress ∨ userTop - userAddress < bytes.length
  · rw [if_pos beyond, if_pos beyond]
    rfl
  rw [if_neg beyond, if_neg beyond]
  exact @writeUserChunks_loop userAddress bytes.length 0 ⟨kernel.mem, bytes, []⟩ kernel
    zero_le (Nat.sub_le _ _)

/-! ### The program's view of a well-formed space -/

variable {mem : Memory} {root address : Nat} {machine : Machine}

theorem Space.userLeaf_eq (space : Space mem root) (middle : List Nat) (done : List Nat)
    (table last : Nat) (low : LowPath (done ++ middle ++ [last]))
    (reached : frameAt mem root done = some table) :
    userLeaf mem table (middle ++ [last]) = (frameAt mem table middle).bind (fun below =>
      if flagged (entryAt mem below last) ptePresent then some (entryAt mem below last)
      else none) := by
  induction middle generalizing done table with
  | nil =>
    rw [append_nil] at low
    change (if flagged (entryAt mem table last) ptePresent &&
      flagged (entryAt mem table last) pteUser then some (entryAt mem table last) else none) =
      if flagged (entryAt mem table last) ptePresent then some (entryAt mem table last) else none
    cases present : flagged (entryAt mem table last) ptePresent with
    | false => rfl
    | true => rw [(space.clean done table last low reached present).2, Bool.and_self]
  | cons index rest ih =>
    have split_ : done ++ index :: rest ++ [last] = done ++ [index] ++ rest ++ [last] := by simp
    rw [split_] at low
    have lowIndex : LowPath (done ++ [index]) := (low.parent).initial
    have next := space.nextFrame_eq lowIndex reached
    have walk : frameAt mem table (index :: rest) =
        (nextFrame mem table index).bind (fun below => frameAt mem below rest) := by
      unfold frameAt
      rw [Trie.descend_cons]
    rw [walk, next]
    have unfolded : userLeaf mem table (index :: rest ++ [last]) =
        if flagged (entryAt mem table index) ptePresent &&
          flagged (entryAt mem table index) pteUser then
          userLeaf mem (pteAddress (entryAt mem table index)) (rest ++ [last])
        else none := by
      cases rest <;> rfl
    rw [unfolded]
    cases present : flagged (entryAt mem table index) ptePresent with
    | false => rfl
    | true =>
      rw [(space.clean done table index lowIndex reached present).2]
      simp only [Bool.and_self, if_true, bind_some]
      apply ih (done ++ [index]) _ low
      rw [frameAt_snoc_eq_some]
      exact ⟨table, reached, by rw [next, if_pos present]⟩

theorem Space.translateUser_eq (space : Space mem root) (user : address < userTop)
    (writeAccess : Bool) :
    translateUser mem root address writeAccess =
      (leafAt mem root address).bind (fun entry =>
        if writeAccess && !flagged entry pteWritable then none
        else some (pteAddress entry + address % 4096)) := by
  have frame := space.frame [] root lowPath_nil rfl
  have low := pageIndices_user address user
  have leaf : userLeaf mem root (pageIndices address) = leafAt mem root address := by
    exact Space.userLeaf_eq space (tableIndices address) [] root (leafIndex address) low rfl
  unfold translateUser
  rw [if_neg (by omega), pteAddress_of_frame root frame.aligned frame.small, leaf]
  rfl

theorem Space.userRead_eq (space : Space mem root) (user : address < userTop) :
    userRead mem root address = userByte mem root address := by
  unfold userRead userByte
  rw [Space.translateUser_eq space user]
  cases leafAt mem root address with
  | none => rfl
  | some entry => rfl

/-- The page tables of the lower half map an address for the user: every table on
the way is present and open to the user, and so is the page, which is writable if
the access is a write. -/
structure Mapped (mem : Memory) (root : Nat) (writeAccess : Bool) (address place : Nat) : Prop where
  user : address < userTop
  tables : ∀ path index table, path ++ [index] <+: tableIndices address →
    frameAt mem root path = some table → flagged (entryAt mem table index) pteUser = true
  leaf : ∃ entry, leafAt mem root address = some entry ∧ flagged entry pteUser = true ∧
    (writeAccess = true → flagged entry pteWritable = true) ∧
    place = pteAddress entry + address % 4096

section Space

variable {mem : Memory} {root : Nat} (space : Space mem root)

include space

theorem Space.leafAt_user {address entry : Nat} (user : address < userTop)
    (leaf : leafAt mem root address = some entry) : flagged entry pteUser = true := by
  have low := pageIndices_user address user
  unfold leafAt at leaf
  obtain ⟨table, reached, present⟩ := bind_eq_some_iff.mp leaf
  simp only at present
  split at present
  · rename_i on
    rw [← some.inj present]
    exact (space.clean _ table _ low reached on).2
  · cases present

theorem Space.mapped_iff (writeAccess : Bool) (address place : Nat) :
    Mapped mem root writeAccess address place ↔
      translateUser mem root address writeAccess = some place := by
  constructor
  · rintro ⟨user, _, entry, leaf, _, writable, rfl⟩
    rw [Space.translateUser_eq space user, leaf, bind_some]
    cases writeAccess with
    | false => rfl
    | true =>
      rw [writable rfl]
      rfl
  · intro found
    have user := translateUser_user found
    rw [Space.translateUser_eq space user] at found
    obtain ⟨entry, leaf, placed⟩ := bind_eq_some_iff.mp found
    have low := pageIndices_user address user
    rw [pageIndices_eq] at low
    refine ⟨user, ?_, entry, leaf, Space.leafAt_user space user leaf, ?_, ?_⟩
    · rintro path index table ⟨rest, whole⟩ reached
      unfold leafAt at leaf
      obtain ⟨last, reachedLast, _⟩ := bind_eq_some_iff.mp leaf
      rw [← whole] at reachedLast low
      unfold frameAt at reachedLast
      rw [Trie.descend_append] at reachedLast
      obtain ⟨next, reachedNext, _⟩ := bind_eq_some_iff.mp reachedLast
      obtain ⟨same, reachedSame, entered⟩ := (frameAt_snoc_eq_some mem root path index next).mp
        reachedNext
      rw [reached] at reachedSame
      cases reachedSame
      have lowIndex : LowPath (path ++ [index]) := low.parent.initial
      refine (space.clean path table index lowIndex reached ?_).2
      by_contra absent
      rw [space.nextFrame_eq lowIndex reached, if_neg absent] at entered
      cases entered
    · intro write
      rw [write] at placed
      cases writable : flagged entry pteWritable with
      | true => rfl
      | false =>
        rw [writable] at placed
        cases placed
    · split at placed
      · cases placed
      · exact (some.inj placed).symm

theorem Space.translateUser_inj {left right place : Nat} {writeAccess : Bool}
    (atLeft : translateUser mem root left writeAccess = some place)
    (atRight : translateUser mem root right writeAccess = some place) : left = right := by
  obtain ⟨userLeft, _, entryLeft, leafLeft, _, _, placeLeft⟩ :=
    (Space.mapped_iff space writeAccess left place).mpr atLeft
  obtain ⟨userRight, _, entryRight, leafRight, _, _, placeRight⟩ :=
    (Space.mapped_iff space writeAccess right place).mpr atRight
  have alignedLeft := pteAddress_aligned entryLeft
  have alignedRight := pteAddress_aligned entryRight
  have sameFrame : pteAddress entryLeft = pteAddress entryRight := by omega
  have reachedLeft := space.frameAt_of_leafAt userLeft leafLeft
  have reachedRight := space.frameAt_of_leafAt userRight leafRight
  rw [sameFrame] at reachedLeft
  have samePath := space.unshared _ _ _ (pageIndices_user left userLeft)
    (pageIndices_user right userRight) reachedLeft reachedRight
  have samePage := (pageIndices_inj left right userLeft userRight).mp samePath
  omega

theorem Space.mapped_outside {path : List Nat} {table address place : Nat} {writeAccess : Bool}
    (low : LowPath path) (short : path.length < 4) (reached : frameAt mem root path = some table)
    (mapped : Mapped mem root writeAccess address place) :
    place < table ∨ table + 4096 ≤ place := by
  obtain ⟨user, _, entry, leaf, _, _, rfl⟩ := mapped
  have reachedLeaf := space.frameAt_of_leafAt user leaf
  have lowLeaf := pageIndices_user address user
  have different : pteAddress entry ≠ table := by
    intro same
    rw [same] at reachedLeaf
    have samePath := space.unshared _ _ _ lowLeaf low reachedLeaf reached
    have long := pageIndices_length address
    rw [samePath] at long
    omega
  rcases (space.frame _ _ lowLeaf reachedLeaf).apart (space.frame _ _ low reached) different
    with before | after
  · omega
  · omega

end Space

theorem translateUser_sameTables {mem' : Memory} (space : Space mem root)
    (same : SameTables mem mem' root) (address : Nat) (writeAccess : Bool) :
    translateUser mem' root address writeAccess = translateUser mem root address writeAccess := by
  by_cases user : address < userTop
  · rw [Space.translateUser_eq (same.space space) user, Space.translateUser_eq space user,
      same.leafAt_eq address user]
  · unfold translateUser
    rw [if_pos (by omega), if_pos (by omega)]

/-! ### What has been copied -/

/-- The first `count` bytes of the range have been copied, and nothing else has
changed or been touched. -/
structure Moved (mem : Memory) (root : Nat) (toUser : Bool) (userAddress : Nat)
    (buffer : List UInt8) (count : Nat) (after : Copy) : Prop where
  mapped : ∀ index, index < count → ∃ place, Mapped mem root toUser (userAddress + index) place
  touched : ∀ range, range ∈ after.touched → ∀ offset, offset < range.2 →
    ∃ index, index < count ∧ Mapped mem root toUser (userAddress + index) (range.1 + offset)
  delivered : toUser = true → ∀ index place, index < count →
    Mapped mem root toUser (userAddress + index) place → buffer[index]? = some (after.mem place)
  elsewhere : ∀ place, (toUser = true → ∀ index, index < count →
    ¬Mapped mem root toUser (userAddress + index) place) → after.mem place = mem place
  received : toUser = false → ∀ index place, index < count →
    Mapped mem root toUser (userAddress + index) place → after.buffer[index]? = some (mem place)
  rest : ∀ index, (toUser = false → count ≤ index) → after.buffer[index]? = buffer[index]?
  length : after.buffer.length = buffer.length

theorem Moved.nothing (mem : Memory) (root : Nat) (toUser : Bool) (userAddress : Nat)
    (buffer : List UInt8) : Moved mem root toUser userAddress buffer 0 ⟨mem, buffer, []⟩ := by
  refine ⟨?_, ?_, ?_, ?_, ?_, ?_, rfl⟩
  · intro index impossible
    omega
  · intro range member
    cases member
  · intro _ index place impossible
    omega
  · intro place _
    rfl
  · intro _ index place impossible
    omega
  · intro index _
    rfl

section Loop

variable {mem : Memory} {root : Nat} (space : Space mem root) {toUser : Bool} {userAddress : Nat}
  {buffer : List UInt8} {copied : Nat} {copy : Copy}

include space

theorem Moved.sameTables (moved : Moved mem root toUser userAddress buffer copied copy) :
    SameTables mem copy.mem root := by
  intro path table low short reached address above below
  apply moved.elsewhere
  intro _ index _ mapped
  have outside := Space.mapped_outside space low short reached mapped
  omega

theorem Moved.chunk (moved : Moved mem root toUser userAddress buffer copied copy)
    {place size : Nat} (found : translateUser mem root (userAddress + copied) toUser = some place)
    (inPage : (userAddress + copied) % 4096 + size ≤ 4096)
    (inside : copied + size ≤ buffer.length) :
    Moved mem root toUser userAddress buffer (copied + size)
      (copy.chunk toUser copied place size) := by
  have here : ∀ offset < size,
      Mapped mem root toUser (userAddress + (copied + offset)) (place + offset) := by
    intro offset small
    rw [Space.mapped_iff space, ← add_assoc]
    exact translateUser_page found (by omega)
  have only : ∀ index other, Mapped mem root toUser (userAddress + index) other → copied ≤ index →
      index < copied + size → other = place + (index - copied) := by
    intro index other isMapped low high
    have there := here (index - copied) (by omega)
    rw [show copied + (index - copied) = index by omega] at there
    rw [Space.mapped_iff space] at isMapped there
    rw [isMapped] at there
    exact some.inj there
  have apart : ∀ index other, index < copied →
      Mapped mem root toUser (userAddress + index) other → other < place ∨ place + size ≤
        other := by
    intro index other early isMapped
    by_contra overlap
    have there := here (other - place) (by omega)
    rw [show place + (other - place) = other by omega] at there
    rw [Space.mapped_iff space] at isMapped there
    have same := Space.translateUser_inj space isMapped there
    omega
  have mapped : ∀ index < copied + size,
      ∃ other, Mapped mem root toUser (userAddress + index) other := by
    intro index below
    by_cases early : index < copied
    · exact moved.mapped index early
    · have there := here (index - copied) (by omega)
      rw [show copied + (index - copied) = index by omega] at there
      exact ⟨_, there⟩
  have touched : ∀ range, range ∈ (place, size) :: copy.touched → ∀ offset < range.2,
      ∃ index < copied + size,
        Mapped mem root toUser (userAddress + index) (range.1 + offset) := by
    intro range member offset small
    rcases mem_cons.mp member with rfl | old
    · exact ⟨copied + offset, by omega, here offset small⟩
    · obtain ⟨index, below, isMapped⟩ := moved.touched range old offset small
      exact ⟨index, by omega, isMapped⟩
  cases toUser with
  | true =>
    have same : ∀ index, copy.buffer[index]? = buffer[index]? :=
      fun index => moved.rest index (by intro impossible; cases impossible)
    have bytes : ∀ offset < size,
        buffer[copied + offset]? = ((copy.buffer.drop copied).take size)[offset]? := by
      intro offset small
      rw [getElem?_take_of_lt small, getElem?_drop, same]
    have length : ((copy.buffer.drop copied).take size).length = size := by
      have equal : copy.buffer = buffer := ext_getElem? same
      rw [length_take, length_drop, equal]
      omega
    refine ⟨mapped, touched, ?_, ?_, ?_, ?_, moved.length⟩
    · intro _ index other below isMapped
      change _ = some (writeBytes copy.mem place _ other)
      by_cases early : index < copied
      · rw [writeBytes_outside _ _ _ _ (by
          rw [length]
          exact apart index other early isMapped)]
        exact moved.delivered rfl index other early isMapped
      · have at_ := only index other isMapped (by omega) below
        have byte := bytes (index - copied) (by omega)
        rw [show copied + (index - copied) = index by omega] at byte
        rw [byte, at_, writeBytes_inside _ _ _ _ (by omega)]
        exact getElem?_eq_getElem _
    · intro other outside
      change writeBytes copy.mem place _ other = mem other
      rw [writeBytes_outside]
      · apply moved.elsewhere
        intro toUser index early
        exact outside toUser index (by omega)
      · rw [length]
        by_contra overlap
        have there := here (other - place) (by omega)
        rw [show place + (other - place) = other by omega] at there
        exact outside rfl (copied + (other - place)) (by omega) there
    · intro impossible
      cases impossible
    · intro index _
      exact same index
  | false =>
    have unchanged : copy.mem = mem := by
      funext other
      apply moved.elsewhere
      intro impossible
      cases impossible
    have stored : ∀ index, (copy.chunk false copied place size).buffer[index]? =
        if copied ≤ index ∧ index < copied + size then
          (readBytes mem place size)[index - copied]?
        else copy.buffer[index]? := by
      intro index
      have items := readBytes_length mem place size
      have written := @Buffer.getElem?_stored _ copy.buffer (readBytes mem place size)
        copied (by rw [items, moved.length]; exact inside) index
      rw [items] at written
      change (copy.buffer.take copied ++ readBytes copy.mem place size ++
        copy.buffer.drop (copied + size))[index]? = _
      rw [unchanged]
      exact written
    refine ⟨mapped, touched, ?_, ?_, ?_, ?_, ?_⟩
    · intro impossible
      cases impossible
    · intro other _
      exact congrFun unchanged other
    · intro _ index other below isMapped
      rw [stored]
      by_cases early : index < copied
      · rw [if_neg (by omega)]
        exact moved.received rfl index other early isMapped
      · have at_ := only index other isMapped (by omega) below
        rw [if_pos ⟨by omega, below⟩, at_, readBytes, getElem?_map,
          getElem?_range (by omega)]
        rfl
    · intro index late
      have beyond := late rfl
      rw [stored, if_neg (by omega)]
      exact moved.rest index (fun _ => by omega)
    · change (copy.buffer.take copied ++ readBytes copy.mem place size ++
        copy.buffer.drop (copied + size)).length = buffer.length
      rw [length_append, length_append, length_take, length_drop,
        readBytes_length, moved.length]
      omega

theorem copyUserLoop_moved (rounds : Nat)
    (moved : Moved mem root toUser userAddress buffer copied copy)
    (inside : copied ≤ buffer.length) (enough : buffer.length - copied < rounds)
    (boundary : copied = 0 ∨ copied = buffer.length ∨ (userAddress + copied) % 4096 = 0) :
    match copyUserLoop root userAddress buffer.length toUser rounds copied copy with
    | (true, after) => Moved mem root toUser userAddress buffer buffer.length after
    | (false, after) => ∃ count < buffer.length,
        (count = 0 ∨ (userAddress + count) % 4096 = 0) ∧
        Moved mem root toUser userAddress buffer count after ∧
        ∀ place, ¬Mapped mem root toUser (userAddress + count) place := by
  induction rounds generalizing copied copy with
  | zero => omega
  | succ rounds ih =>
    unfold copyUserLoop
    by_cases done : buffer.length ≤ copied
    · rw [if_pos done]
      have whole : copied = buffer.length := by omega
      rw [whole] at moved
      exact moved
    · rw [if_neg done, translateUser_sameTables space (moved.sameTables space)]
      cases found : translateUser mem root (userAddress + copied) toUser with
      | none =>
        refine ⟨copied, by omega, by omega, moved, ?_⟩
        intro place isMapped
        rw [Space.mapped_iff space, found] at isMapped
        cases isMapped
      | some place =>
        have pageEq : pageSize = 4096 := rfl
        simp only
        generalize chunkSize : min (pageSize - (userAddress + copied) % pageSize)
          (buffer.length - copied) = chunk
        rw [pageEq] at chunkSize
        apply ih (moved.chunk space found (by omega) (by omega)) (by omega) (by omega)
        omega

/-- What a copy has done when it ends with the given result. -/
structure CopyEnds (mem : Memory) (root : Nat) (toUser : Bool) (userAddress : Nat)
    (buffer : List UInt8) (outcome : Bool × Copy) : Prop where
  iff_mapped : outcome.1 = true ↔ ∀ index, index < buffer.length →
    ∃ place, Mapped mem root toUser (userAddress + index) place
  whole : outcome.1 = true → Moved mem root toUser userAddress buffer buffer.length outcome.2
  part : outcome.1 = false → ∃ count, count < buffer.length ∧
    (count = 0 ∨ (userAddress + count) % 4096 = 0) ∧
    Moved mem root toUser userAddress buffer count outcome.2

omit space in
theorem CopyEnds.refused {count : Nat} (inside : count < buffer.length)
    (boundary : count = 0 ∨ (userAddress + count) % 4096 = 0)
    (moved : Moved mem root toUser userAddress buffer count copy) {index : Nat}
    (below : index < buffer.length)
    (absent : ∀ place, ¬Mapped mem root toUser (userAddress + index) place) :
    CopyEnds mem root toUser userAddress buffer (false, copy) := by
  refine ⟨⟨fun impossible => ?_, fun all => ?_⟩, fun impossible => ?_, fun _ => ?_⟩
  · cases impossible
  · obtain ⟨place, isMapped⟩ := all index below
    exact absurd isMapped (absent place)
  · cases impossible
  · exact ⟨count, inside, boundary, moved⟩

omit space in
theorem CopyEnds.completed (moved : Moved mem root toUser userAddress buffer buffer.length copy) :
    CopyEnds mem root toUser userAddress buffer (true, copy) := by
  refine ⟨⟨fun _ => moved.mapped, fun _ => rfl⟩, fun _ => moved, fun impossible => ?_⟩
  cases impossible

theorem copyUser_ends (userAddress : Nat) (buffer : List UInt8) :
    CopyEnds mem root toUser userAddress buffer
      (copyUser root userAddress buffer.length toUser ⟨mem, buffer, []⟩) := by
  have nothing := Moved.nothing mem root toUser userAddress buffer
  unfold copyUser
  by_cases empty : buffer.length = 0
  · rw [if_pos empty]
    apply CopyEnds.completed
    rw [empty]
    exact nothing
  rw [if_neg empty]
  by_cases beyond : userTop ≤ userAddress ∨ userTop - userAddress < buffer.length
  · rw [if_pos beyond]
    refine CopyEnds.refused (by omega) (.inl rfl) nothing
      (Nat.sub_lt (pos_of_ne_zero empty) one_pos) ?_
    intro place isMapped
    have user := isMapped.user
    omega
  · rw [if_neg beyond]
    have ends := copyUserLoop_moved space (buffer.length + 1) nothing zero_le
      (by omega) (.inl rfl)
    split at ends
    · rename_i after ran
      rw [ran]
      exact CopyEnds.completed ends
    · rename_i after ran
      rw [ran]
      obtain ⟨count, inside, boundary, moved, absent⟩ := ends
      exact CopyEnds.refused inside boundary moved inside absent

theorem Space.translateUser_iff_locatePte (address place : Nat) (writeAccess : Bool) :
    translateUser mem root address writeAccess = some place ↔
      address < userTop ∧ ∃ pte, locatePte mem root address = some pte ∧
        flagged (readWord mem pte) ptePresent = true ∧
        (writeAccess = true → flagged (readWord mem pte) pteWritable = true) ∧
        place = pteAddress (readWord mem pte) + address % 4096 := by
  rw [← Space.mapped_iff space]
  constructor
  · rintro ⟨user, _, entry, leaf, _, writable, placed⟩
    rw [leafAt_eq_locatePte mem root address user] at leaf
    obtain ⟨pte, located, present⟩ := bind_eq_some_iff.mp leaf
    split at present
    · rename_i on
      cases present
      exact ⟨user, pte, located, on, writable, placed⟩
    · cases present
  · rintro ⟨user, pte, located, present, writable, placed⟩
    have leaf : leafAt mem root address = some (readWord mem pte) := by
      rw [leafAt_eq_locatePte mem root address user, located, bind_some, if_pos present]
    rw [Space.mapped_iff space, Space.translateUser_eq space user, leaf, bind_some, placed]
    cases writeAccess with
    | false => rfl
    | true =>
      rw [writable rfl]
      rfl

end Loop

section

variable {mem : Memory} {root address offset : Nat}

theorem UserBytes.user {bytes : List UInt8} (holds : UserBytes mem root address bytes)
    (inside : offset < bytes.length) : address + offset < userTop := by
  have read := holds offset inside
  obtain ⟨place, found, _⟩ := map_eq_some_iff.mp read
  exact translateUser_user found

theorem copyFromUser_of_bytes (space : Space mem root) {bytes : List UInt8}
    (holds : UserBytes mem root address bytes) :
    copyFromUser mem root address bytes.length = some bytes := by
  have mapped : ∀ index < bytes.length, ∃ place, Mapped mem root false (address + index) place := by
    intro index inside
    obtain ⟨place, found, _⟩ := map_eq_some_iff.mp (holds index inside)
    exact ⟨place, (Space.mapped_iff space _ _ _).mpr found⟩
  have ends := @copyUser_ends mem root space false address bytes
  have done := ends.iff_mapped.mpr mapped
  have read := copyFromUser_eq mem root address bytes
  simp only [done, if_true] at read
  obtain ⟨length, same⟩ := copyFromUser_bytes read
  rw [read]
  congr 1
  refine ext_getElem length ?_
  intro index left right
  exact some.inj ((same index left).symm.trans (holds index right))

theorem UserBytes.slice {bytes : List UInt8} (holds : UserBytes mem root address bytes)
    (start size : Nat) : UserBytes mem root (address + start) ((bytes.drop start).take size) := by
  intro offset inside
  rw [length_take, length_drop] at inside
  rw [add_assoc, holds (start + offset) (by omega), getElem_take, getElem_drop]

end

/-- User copies in an address space of the loader: the loop touches only bytes
that the space maps for the user, succeeds exactly when the whole range is mapped,
copies exactly that range or a part that ends at a page, and resolves addresses as
`locate_pte` does. -/
theorem copyUser_confined (kernelRoot : Nat) (start : Machine)
    (addressable : start.pmm.totalPages ≤ 2 ^ 40) (aligned : kernelRoot % 4096 = 0)
    (root : Nat) (machine : Machine) (built : LoaderSpace kernelRoot start root machine)
    (userAddress : Nat) (buffer : List UInt8) (toUser : Bool) :
    let outcome := copyUser root userAddress buffer.length toUser ⟨machine.mem, buffer, []⟩
    (∀ range, range ∈ outcome.2.touched → ∀ offset, offset < range.2 →
      ∃ index, index < buffer.length ∧
        Mapped machine.mem root toUser (userAddress + index) (range.1 + offset)) ∧
    CopyEnds machine.mem root toUser userAddress buffer outcome ∧
    ∀ address place writeAccess,
      translateUser machine.mem root address writeAccess = some place ↔
        address < userTop ∧ ∃ pte, locatePte machine.mem root address = some pte ∧
          flagged (readWord machine.mem pte) ptePresent = true ∧
          (writeAccess = true → flagged (readWord machine.mem pte) pteWritable = true) ∧
          place = pteAddress (readWord machine.mem pte) + address % 4096 := by
  intro outcome
  have space := (built.live addressable aligned).space
  have ends : CopyEnds machine.mem root toUser userAddress buffer outcome :=
    copyUser_ends space userAddress buffer
  refine ⟨?_, ends, Space.translateUser_iff_locatePte space⟩
  intro range member offset small
  cases result : outcome.1 with
  | true => exact (ends.whole result).touched range member offset small
  | false =>
    obtain ⟨count, inside, _, moved⟩ := ends.part result
    obtain ⟨index, below, mapped⟩ := moved.touched range member offset small
    exact ⟨index, by omega, mapped⟩

/-- A copy into a mapped page ends as it should. -/
theorem copyUser_confined_tiny :
    LoaderSpace 4096 tinyMachine 8192 mappedMachine ∧
      CopyEnds mappedMachine.mem 8192 true 0x400000 [1, 2, 3, 4]
        (copyUser 8192 0x400000 4 true ⟨mappedMachine.mem, [1, 2, 3, 4], []⟩) :=
  ⟨mappedMachine_built, (copyUser_confined 4096 tinyMachine (by decide) (by decide) 8192 _
    mappedMachine_built 0x400000 [1, 2, 3, 4] true).2.1⟩

end Synx.Kernel
