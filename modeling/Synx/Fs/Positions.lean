/-
The position of open files, for any file system.
-/

import Synx.Fs.AccessMode

namespace Synx.Vfs

open Lib Program

section

variable {τ : Type}

/-- The operations leave the open files alone and transfer bytes at positions of 64 bits. -/
structure Transfers (ops : FileSystem τ) : Prop where
  leaves : Leaves (fun file => file) ops
  read : ∀ read, ops.read = some read → ∀ file size offset fs count bytes after,
    (read file size offset).run fs = (.ok (count, bytes), after) →
      0 < count → offset + count.toNat < 2 ^ 64
  write : ∀ write, ops.write = some write → ∀ file bytes offset fs count after,
    (write file bytes offset).run fs = (.ok count, after) →
      0 < count → offset + count.toNat < 2 ^ 64

def IsAt (fs : Fs τ) (id offset : Nat) : Prop :=
  ∃ file, fs.vfs.files id = some file ∧ file.offset = offset

def Contains (fs : Fs τ) (id offset : Nat) : Prop :=
  ∃ file size, fs.vfs.files id = some file ∧ fileSize fs file = some size ∧ offset ≤ size

variable {heap : Heap τ} {ops : FileSystem τ}

theorem InSession.positions {session : Session τ} (leaves : Leaves (fun file => file) ops)
    (reached : InSession heap ops session) :
    EachFile (fun file => file) (fun _ file => file.offset < 2 ^ 64) session.fs := by
  have stable : Stable (fun file => file) (fun _ file => file.offset < 2 ^ 64) :=
    { offset := fun _ _ _ _ => Nat.mod_lt _ (by decide)
      flags := fun _ _ _ now => now
      refCount := fun _ _ _ now => now }
  have opens : ∀ path flags,
    Triple (EachFile (fun file => file) (fun _ file => file.offset < 2 ^ 64))
      (openFile heap ops path flags)
      (fun _ => EachFile (fun file => file) (fun _ file => file.offset < 2 ^ 64))
      (fun _ => EachFile (fun file => file) (fun _ file => file.offset < 2 ^ 64)) := by
    intro path flags
    refine leaves.indifferent.openFile_triple path flags (fun fs id address dentry each => ?_)
    refine each.setFile id _ (fun object new => ?_)
    cases new
    exact Nat.two_pow_pos 64
  induction reached with
  | start fs closed =>
    intro id file live
    rw [closed id] at live
    cases live
  | step _ next ih =>
    cases next with
    | opened ran => exact (opens _ _).ok ih ran
    | refused ran => exact (opens _ _).error ih ran
    | used use => exact (perform_each leaves stable use).final ih

variable {fs after : Fs τ} {id : Nat} {file : File}

theorem Leaves.same {α : Type} {call : Call τ α} {value : α}
    (keeps : ∀ table, Keeps (fun fs => viewed (fun file => file) fs.vfs = table) call)
    (ran : call.run fs = (.ok value, after)) : after.vfs.files = fs.vfs.files := by
  have same : viewed (fun file => file) after.vfs = viewed (fun file => file) fs.vfs :=
    (keeps _).ok rfl ran
  unfold viewed at same
  simpa only [Option.map_id'] using same

theorem readFile_transfer {size : Nat} {count : Int} {bytes : List UInt8}
    (transfers : Transfers ops) (live : fs.vfs.files id = some file)
    (ran : (readFile ops id size).run fs = (.ok (count, bytes), after)) (some_ : 0 < count) :
    file.offset + count.toNat < 2 ^ 64 ∧
      after.vfs.files id = some { file with offset := (file.offset + count.toNat) % 2 ^ 64 } := by
  unfold readFile at ran
  rw [run_bind_ok (run_fileOf live)] at ran
  split at ran
  · cases ran
    exact absurd some_ (by decide)
  · cases reads : ops.read with
    | none =>
      rw [reads] at ran
      cases ran
      exact absurd some_ (by decide)
    | some read =>
      rw [reads] at ran
      obtain ⟨⟨moved, data⟩, middle, first, rest⟩ := run_bind_eq_ok ran
      have kept := Leaves.same (transfers.leaves.read read reads id size file.offset) first
      have still : middle.vfs.files id = some file := by
        rw [kept]
        exact live
      simp only at rest
      split at rest
      · rename_i positive
        rw [run_bind_ok (run_fileOf still)] at rest
        cases rest
        exact ⟨transfers.read read reads _ _ _ _ _ _ _ first positive, store_same⟩
      · rename_i nothing
        cases rest
        exact absurd some_ nothing

theorem extend_contains {start : Nat} {count moved : Int} (bounded : start + count.toNat < 2 ^ 64)
    (ran : (do
      let dentry ← dentryOf file.dentry
      let (inodeId, inode) ← inodeOf dentry
      if inode.size < (start + count.toNat) % 2 ^ 64 then do
        update (·.setInode inodeId (some { inode with size := (start + count.toNat) % 2 ^ 64 }))
        pure count
      else pure count : Call τ Int).run fs = (.ok moved, after)) :
    moved = count ∧ after.vfs.files = fs.vfs.files ∧
      ∃ size, fileSize after file = some size ∧ start + count.toNat ≤ size := by
  obtain ⟨dentry, _, first, located⟩ := run_bind_eq_ok ran
  obtain ⟨live, rfl⟩ := fetch_eq_ok first
  obtain ⟨⟨inode, object⟩, _, second, extended⟩ := run_bind_eq_ok located
  obtain ⟨points, there, rfl⟩ := inodeOf_eq_ok second
  simp only at extended
  rw [Nat.mod_eq_of_lt bounded] at extended
  split at extended
  · cases extended
    exact ⟨rfl, rfl, _, fileSize_eq live points (store_same), le_rfl⟩
  · rename_i longer
    cases extended
    exact ⟨rfl, rfl, _, fileSize_eq live points there, Nat.le_of_not_lt longer⟩

theorem writeFile_transfer {bytes : List UInt8} {count : Int} (transfers : Transfers ops)
    (live : fs.vfs.files id = some file)
    (ran : (writeFile ops id bytes).run fs = (.ok count, after)) (some_ : 0 < count) :
    ∃ start, position fs file = some start ∧ start + count.toNat < 2 ^ 64 ∧
      after.vfs.files id = some { file with offset := (file.offset + count.toNat) % 2 ^ 64 } ∧
      Contains after id (start + count.toNat) := by
  unfold writeFile at ran
  rw [run_bind_ok (run_fileOf live)] at ran
  split at ran
  · cases ran
    exact absurd some_ (by decide)
  · cases writes : ops.write with
    | none =>
      rw [writes] at ran
      cases ran
      exact absurd some_ (by decide)
    | some write =>
      rw [writes] at ran
      obtain ⟨start, before, placed, written⟩ := run_bind_eq_ok ran
      rw [run_writeOffset] at placed
      split at placed
      · rename_i offset at_
        cases placed
        refine ⟨start, at_, ?_⟩
        obtain ⟨moved, middle, first, rest⟩ := run_bind_eq_ok written
        have kept := Leaves.same (transfers.leaves.write write writes id bytes start) first
        have still : middle.vfs.files id = some file := by
          rw [kept]
          exact live
        split at rest
        · rename_i positive
          have bounded := transfers.write write writes _ _ _ _ _ _ first positive
          rw [run_bind_ok (run_fileOf still), run_bind_ok (run_update _ _)] at rest
          obtain ⟨rfl, files, size, ends, reaches⟩ := extend_contains bounded rest
          have now : after.vfs.files id =
              some { file with offset := (file.offset + count.toNat) % 2 ^ 64 } := by
            rw [files]
            exact store_same
          exact ⟨bounded, now, _, size, now, ends, reaches⟩
        · rename_i nothing
          cases rest
          exact absurd some_ nothing
      · cases placed

end

/-- In every session, a read that transfers bytes leaves the file at the end of these bytes.
A write leaves it there exactly if the position before it was the one it wrote at. -/
theorem position_follows_iff {τ : Type} {heap : Heap τ} {ops : FileSystem τ}
    (transfers : Transfers ops) {session : Session τ} (reached : InSession heap ops session)
    {id : Nat} {file : File} (live : session.fs.vfs.files id = some file) :
    (∀ size count bytes after,
        (readFile ops id size).run session.fs = (.ok (count, bytes), after) → 0 < count →
          IsAt after id (file.offset + count.toNat)) ∧
      ∀ bytes count after,
        (writeFile ops id bytes).run session.fs = (.ok count, after) → 0 < count →
          ∃ start, position session.fs file = some start ∧
            ((IsAt after id (start + count.toNat) ∧ Contains after id (start + count.toNat)) ↔
              (file.flags &&& oAppend ≠ 0 → fileSize session.fs file = some file.offset)) := by
  refine ⟨?_, ?_⟩
  · intro size count bytes after ran some_
    obtain ⟨bounded, now⟩ := readFile_transfer transfers live ran some_
    exact ⟨_, now, Nat.mod_eq_of_lt bounded⟩
  · intro bytes count after ran some_
    obtain ⟨start, at_, bounded, now, reaches⟩ := writeFile_transfer transfers live ran some_
    refine ⟨start, at_, ?_, ?_⟩
    · rintro ⟨⟨object, found, ends⟩, _⟩ appends
      rw [now] at found
      cases found
      have small := reached.positions transfers.leaves id file live
      have same : file.offset = start := by
        simp only at ends small
        omega
      unfold position at at_
      rw [if_pos appends] at at_
      rw [same]
      exact at_
    · intro aligned
      have same : file.offset = start := by
        unfold position at at_
        split at at_
        · rename_i appends
          rw [aligned appends] at at_
          exact Option.some.inj at_
        · exact Option.some.inj at_
      refine ⟨⟨_, now, ?_⟩, reaches⟩
      rw [← same] at bounded ⊢
      exact Nat.mod_eq_of_lt bounded

theorem takingFs_transfers : Transfers takingFs where
  leaves := takingFs_leaves _
  read := by
    rintro _ ⟨⟩ file size offset fs count bytes after ran positive
    cases ran
    exact absurd positive (by decide)
  write := by
    rintro _ ⟨⟩ file bytes offset fs count after ran positive
    rw [run_ite] at ran
    split at ran
    · rename_i bounded
      cases ran
      exact bounded
    · cases ran
      exact absurd positive (by decide)

/-- One byte is written to a file that was opened without `O_APPEND`. -/
theorem position_follows_write :
    IsAt ((writeFile takingFs 2 [0]).run (openedSession oWronly).fs).2 2 1 ∧
      Contains ((writeFile takingFs 2 [0]).run (openedSession oWronly).fs).2 2 1 := by
  have reached : InSession Ramfs.endless takingFs (openedSession oWronly) :=
    openedSession_inSession (by decide +kernel)
  have live : (openedSession oWronly).fs.vfs.files 2 = some ⟨0, 1, 0, oWronly, 1⟩ := rfl
  have ran : ((writeFile takingFs 2 [0]).run (openedSession oWronly).fs).1.toOption = some 1 := by
    decide +kernel
  obtain ⟨start, at_, follows⟩ := (position_follows_iff takingFs_transfers reached live).2 [0] 1 _
    (run_of_toOption ran) (by decide)
  cases at_
  exact follows.mpr (fun appends => absurd rfl appends)

/-- The file `a` after one byte was appended and its start was sought. -/
def rewound : Session Nat :=
  let appended := (perform Ramfs.endless takingFs (.write 2 [0])).run
    (openedSession (oWronly ||| oAppend)).fs
  ⟨((perform Ramfs.endless takingFs (.seek 2 0)).run appended.2).2,
    (openedSession (oWronly ||| oAppend)).openedWith⟩

/-- The second append starts at 1 and leaves the file at 1. -/
theorem append_leaves_position :
    InSession Ramfs.endless takingFs rewound ∧
      rewound.fs.vfs.files 2 = some ⟨0, 1, 0, oWronly ||| oAppend, 1⟩ ∧
      position rewound.fs ⟨0, 1, 0, oWronly ||| oAppend, 1⟩ = some 1 ∧
      ((writeFile takingFs 2 [0]).run rewound.fs).1.toOption = some 1 ∧
      ¬IsAt ((writeFile takingFs 2 [0]).run rewound.fs).2 2 (1 + 1) := by
  refine ⟨?_, rfl, rfl, by decide +kernel, ?_⟩
  · have reached : InSession Ramfs.endless takingFs (openedSession (oWronly ||| oAppend)) :=
      openedSession_inSession (by decide +kernel)
    exact .step (.step reached (.used _ (.write 2 [0]))) (.used _ (.seek 2 0))
  · rintro ⟨file, live, ends⟩
    cases live
    revert ends
    decide

end Synx.Vfs
