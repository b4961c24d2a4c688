/-
Reads of regular files.
-/

import Synx.Kernel.Delivery
import Synx.Kernel.TransferCalls

namespace Synx.Kernel

open Lib Program List
open Exec
open Ramfs (ramfs contents)
open Vfs (oWronly)

/-- A descriptor of a regular file of ramfs with its bytes. -/
structure OpenRegular (kernel : State) (fd id : Nat) (file : Vfs.File) (bytes : List UInt8) :
    Prop where
  inside : fd < maxOpenFiles
  slot : kernel.openFiles fd = some id
  live : kernel.vfs.files id = some file
  stored : ∃ dentry inode object, kernel.vfs.dentries file.dentry = some dentry ∧
    dentry.inode = some inode ∧ kernel.vfs.inodes inode = some object ∧
    object.type = .regular ∧ contents object = bytes ∧ object.size = bytes.length
  /-- The bytes are an object of the address space. -/
  object : bytes.length ≤ 2 ^ 63

section

variable {now : State} {fd id : Nat} {file : Vfs.File} {bytes : List UInt8}

theorem OpenRegular.moved (opened : OpenRegular now fd id file bytes) (mem : Memory)
    (offset : Nat) :
    OpenRegular (now.moved id file offset mem) fd id { file with offset := offset } bytes :=
  { inside := opened.inside
    slot := opened.slot
    live := Vfs.store_same
    stored := opened.stored
    object := opened.object }

theorem OpenRegular.openSlot (opened : OpenRegular now fd id file bytes) :
    openSlot now fd = .ok id := by
  unfold Kernel.openSlot
  rw [if_neg (not_le.mpr opened.inside), slotOf_inside opened.inside, opened.slot]
  rfl

theorem OpenRegular.readChunk (opened : OpenRegular now fd id file bytes)
    (readable : file.flags &&& oWronly = 0) {amount : Nat} (small : amount ≤ chunkSize)
    {items : List UInt8} (isItems : items = (bytes.drop file.offset).take amount) :
    (readChunk id amount).run now =
      (.ok (items.length, items ++ (freshBuffer chunkSize).drop items.length),
        now.moved id file (file.offset + items.length) now.mem) := by
  obtain ⟨dentry, inode, content, liveDentry, points, liveInode, regular, holds, size⟩ :=
    opened.stored
  have far := opened.object
  have short : amount ≤ 128 := small
  have ran :=
    @Ramfs.run_readFile _ now.fs id inode file dentry content opened.live liveDentry points
    liveInode readable regular (by rw [holds, size]) amount (fun inside => by omega)
  rw [holds, ← isItems] at ran
  have room : items.length ≤ (freshBuffer chunkSize).length := by
    rw [length_freshBuffer, isItems, length_take]
    omega
  unfold Kernel.readChunk
  rw [run_bind_ok (run_onFs ran)]
  simp only
  rw [putBuffer_front room, run_bind_ok (run_lift _ _)]
  rfl

/-! ### The loop over the chunks -/

/-- How a read ends that has still to deliver the rest: everything is delivered, or some bytes
have been taken from the file that were not. -/
def ReadEnds (now : State) (id : Nat) (file : Vfs.File) (buffer readCount : Nat) (rest : List UInt8)
    (outcome : Except (Stop Vfs.Fault) Nat × State) : Prop :=
  (Writable now.mem now.cr3 (buffer + readCount) rest.length ∧ ∃ mem,
      outcome = (.ok (readCount + rest.length), now.moved id file (file.offset + rest.length) mem) ∧
      Delivered now.mem now.cr3 (range' (buffer + readCount) rest.length) rest mem) ∨
    (¬Writable now.mem now.cr3 (buffer + readCount) rest.length ∧ ∃ mem done lost,
      0 < lost ∧ done + lost ≤ rest.length ∧
      outcome = (partialResult (readCount + done) errFault).run
        (now.moved id file (file.offset + (done + lost)) mem))

theorem ReadEnds.nothing (live : now.vfs.files id = some file) (buffer readCount : Nat) :
    ReadEnds now id file buffer readCount [] (.ok readCount, now) := by
  refine .inl ⟨nofun, now.mem, ?_, Delivered.nothing _ _⟩
  rw [length_nil, add_zero, add_zero, State.moved_back live]

theorem ReadEnds.after {buffer readCount : Nat} {items rest : List UInt8} {mem : Memory}
    {outcome : Except (Stop Vfs.Fault) Nat × State} (space : Space now.mem now.cr3)
    (writable : Writable now.mem now.cr3 (buffer + readCount) items.length)
    (delivered : Delivered now.mem now.cr3 (range' (buffer + readCount) items.length)
      items mem)
    (later : ReadEnds (now.moved id file (file.offset + items.length) mem) id
      { file with offset := file.offset + items.length } buffer (readCount + items.length) rest
      outcome) : ReadEnds now id file buffer readCount (items ++ rest) outcome := by
  have same : ∀ size, Writable mem now.cr3 (buffer + (readCount + items.length)) size ↔
      Writable now.mem now.cr3 (buffer + readCount + items.length) size := by
    intro size
    rw [add_assoc]
    exact Space.writable_sameTables space delivered.tables _ size
  unfold ReadEnds
  rw [length_append]
  rcases later with
    ⟨ready, last, ended, further⟩ | ⟨refused, last, done, lost, some_, inside, ended⟩
  · refine .inl ⟨writable.append ((same _).mp ready), last, ?_, ?_⟩
    · rw [ended, State.moved_moved, add_assoc, add_assoc]
    · rw [← length_append]
      rw [← add_assoc] at further
      exact delivered.follow further
  · refine .inr ⟨fun ready => refused ((same _).mpr ready.split.2), last, items.length + done, lost,
      some_, by omega, ?_⟩
    rw [ended, State.moved_moved]
    simp only [add_assoc]

theorem getBuffer_front (text rest : List UInt8) :
    getBuffer (text ++ rest) 0 text.length = .ok text := by
  unfold getBuffer
  rw [if_pos (by rw [length_append]; omega), drop_zero, take_left]

theorem readChunks_ends (opened : OpenRegular now fd id file bytes)
    (readable : file.flags &&& oWronly = 0) (space : Space now.mem now.cr3)
    (buffer count rounds : Nat) {readCount : Nat} (near : buffer + readCount < 2 ^ 64)
    (enough : count ≤ readCount + rounds) :
    ReadEnds now id file buffer readCount ((bytes.drop file.offset).take (count - readCount))
      ((readChunks id buffer count rounds readCount).run now) := by
  induction rounds generalizing now file readCount with
  | zero =>
    have none_ : count - readCount = 0 := by omega
    rw [none_, take_zero]
    exact ReadEnds.nothing opened.live buffer readCount
  | succ rounds ih =>
    unfold readChunks
    by_cases done : count ≤ readCount
    · have none_ : count - readCount = 0 := by omega
      rw [if_pos done, none_, take_zero]
      exact ReadEnds.nothing opened.live buffer readCount
    rw [if_neg done]
    simp only
    generalize isAmount : min chunkSize (count - readCount) = amount
    generalize isItems : (bytes.drop file.offset).take amount = items
    have small : amount ≤ chunkSize := by omega
    have positive : 0 < amount := by
      unfold chunkSize at isAmount
      omega
    have length : items.length = min amount (bytes.length - file.offset) := by
      rw [← isItems, length_take, length_drop]
    -- the bytes of this chunk, and those after it
    have split_ : (bytes.drop file.offset).take (count - readCount) =
        items ++
          (bytes.drop (file.offset + items.length)).take (count - readCount - items.length) := by
      have front : items = (bytes.drop file.offset).take items.length := by
        rw [← isItems, length_take, ← take_eq_take_min]
      have whole : count - readCount = items.length + (count - readCount - items.length) := by omega
      rw [whole, take_add, ← front, drop_drop, ← whole]
    have ran := opened.readChunk readable small isItems.symm
    rw [run_bind_ok ran]
    simp only
    rw [if_neg (by omega)]
    by_cases ended : items.length = 0
    · have nothing : (bytes.drop file.offset).take (count - readCount) = [] := by
        rw [drop_eq_nil_of_le (by omega), take_nil]
      rw [if_pos (by omega), nothing, ended, add_zero, State.moved_back opened.live]
      exact ReadEnds.nothing opened.live buffer readCount
    rw [if_neg (by omega), Int.toNat_natCast, getBuffer_front, run_bind_ok (run_lift _ _)]
    have address : wrap (buffer + readCount) = buffer + readCount := Nat.mod_eq_of_lt near
    rw [address]
    rcases copyToUser_cases (now.moved id file (file.offset + items.length) now.mem) space
      (buffer + readCount) items with ⟨writable, mem, copied, delivered⟩ | ⟨unwritable, mem, copied⟩
    · rw [run_bind_ok copied, if_pos rfl, split_]
      refine ReadEnds.after space writable delivered ?_
      by_cases short : items.length < amount
      · have nothing : bytes.drop (file.offset + items.length) = [] :=
          drop_eq_nil_of_le (by omega)
        rw [if_pos short, nothing, take_nil]
        exact ReadEnds.nothing (opened.moved mem _).live buffer _
      · have user := writable.user (by omega)
        have top : userTop = 2 ^ 47 := by decide
        rw [if_neg short, Nat.sub_sub]
        have further : count ≤ readCount + items.length + rounds := by omega
        exact ih (opened.moved mem (file.offset + items.length)) readable
          (delivered.tables.space space) (by omega) further
    · rw [run_bind_ok copied, if_neg Bool.false_ne_true]
      refine .inr ⟨?_, mem, 0, items.length, by omega, ?_, ?_⟩
      · intro writable
        rw [split_, length_append] at writable
        exact unwritable writable.split.1
      · rw [split_, length_append]
        omega
      · rw [add_zero, zero_add]
        rfl

/-! ### The call -/

def requested (bytes : List UInt8) (offset count : Nat) : List UInt8 :=
  (bytes.drop offset).take count

theorem length_requested (bytes : List UInt8) (offset count : Nat) :
    (requested bytes offset count).length = min count (bytes.length - offset) := by
  unfold requested
  rw [length_take, length_drop]

theorem OpenRegular.run_sysRead (opened : OpenRegular now fd id file bytes) (ordinary : 3 ≤ fd)
    (buffer count : Nat) :
    (sysRead fd buffer count).run now =
      Program.run (if count = 0 then pure (some 0)
        else if maxIoSize < count then fail errInval
        else do
          let result ← readChunks id buffer count count 0
          pure (some result)) now := by
  unfold sysRead
  rw [run_bind_ok (run_gets _ _), if_neg (by omega), if_neg (by omega), id_eq,
    opened.openSlot, run_bind_ok (run_lift _ _)]

theorem OpenRegular.sysRead_cases (opened : OpenRegular now fd id file bytes)
    (readable : file.flags &&& oWronly = 0) (space : Space now.mem now.cr3) (ordinary : 3 ≤ fd)
    {buffer count : Nat} (word : 0 < count → buffer < 2 ^ 64) (allowed : count ≤ maxIoSize) :
    (Writable now.mem now.cr3 buffer (requested bytes file.offset count).length ∧ ∃ mem,
        (sysRead fd buffer count).run now =
          (.ok (some (requested bytes file.offset count).length),
            now.moved id file (file.offset + (requested bytes file.offset count).length) mem) ∧
        Delivered now.mem now.cr3 (range' buffer (requested bytes file.offset count).length)
          (requested bytes file.offset count) mem) ∨
      (¬Writable now.mem now.cr3 buffer (requested bytes file.offset count).length ∧
        ∃ mem done lost, 0 < lost ∧ done + lost ≤ (requested bytes file.offset count).length ∧
        (sysRead fd buffer count).run now =
          (if done ≠ 0 then .ok (some done) else .error (.code errFault),
            now.moved id file (file.offset + (done + lost)) mem)) := by
  rw [opened.run_sysRead ordinary]
  by_cases none_ : count = 0
  · have nothing : requested bytes file.offset count = [] := by
      rw [none_]
      exact take_zero
    rw [if_pos none_, nothing]
    refine .inl ⟨nofun, now.mem, ?_, Delivered.nothing _ _⟩
    rw [length_nil, add_zero, State.moved_back opened.live]
    rfl
  rw [if_neg none_, if_neg (not_lt.mpr allowed)]
  have ends := readChunks_ends opened readable space buffer count count
    (word (by omega) : buffer + 0 < 2 ^ 64) (Nat.le_add_left count 0)
  rw [Nat.sub_zero] at ends
  change ReadEnds now id file buffer 0 (requested bytes file.offset count) _ at ends
  unfold ReadEnds at ends
  rw [add_zero, zero_add] at ends
  rcases ends with
    ⟨writable, mem, ran, delivered⟩ | ⟨unwritable, mem, done, lost, some_, inside, ran⟩
  · rw [run_bind_ok ran]
    exact .inl ⟨writable, mem, rfl, delivered⟩
  · refine .inr ⟨unwritable, mem, done, lost, some_, inside, ?_⟩
    unfold partialResult at ran
    rw [zero_add] at ran
    by_cases first : done ≠ 0
    · rw [if_pos first] at ran ⊢
      rw [run_bind_ok ran]
      rfl
    · rw [if_neg first] at ran ⊢
      rw [run_bind_error ran]

end

end Synx.Kernel
