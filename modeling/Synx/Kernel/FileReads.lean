/-
`sys_read` as a read of an open file.
-/

import Synx.Kernel.Keys
import Synx.Kernel.Reachable

namespace Synx.Kernel

open Lib Program Option
open Exec
open Paging (pteWritable)
open Vfs (oWronly)

/-- The call reads as many bytes as are asked for and are left, stores them in the buffer and
nowhere else, and moves the position of the file behind them. -/
def ReadsExactly (kernel : State) (fd id : Nat) (file : Vfs.File) (bytes : List UInt8)
    (buffer count : Nat) : Prop :=
  ∃ mem, (sysRead fd buffer count).run kernel =
      (.ok (some (min count (bytes.length - file.offset))),
        kernel.moved id file (file.offset + min count (bytes.length - file.offset)) mem) ∧
    Delivered kernel.mem kernel.cr3 (List.range' buffer (min count (bytes.length - file.offset)))
      (requested bytes file.offset count) mem

section

variable {kernel : State} {fd id : Nat} {file : Vfs.File} {bytes : List UInt8} {buffer count : Nat}

theorem run_sysRead_console (standard : fd = 1 ∨ fd = 2) (buffer count : Nat) :
    (sysRead fd buffer count).run kernel = (.error (.code errBadf), kernel) := by
  unfold sysRead
  rw [run_bind_ok (run_gets _ _), if_neg (by omega), if_pos (by omega)]
  rfl

theorem run_sysRead_none (buffer : Nat) :
    (sysRead 0 buffer 0).run kernel = (.ok (some 0), kernel) := by
  unfold sysRead
  rw [run_bind_ok (run_gets _ _), if_pos rfl, if_pos rfl]
  rfl

theorem keyboard_not_exact (live : kernel.vfs.files id = some file)
    (space : Space kernel.mem kernel.cr3) (some_ : 0 < count) (allowed : count ≤ maxIoSize)
    (writable : Writable kernel.mem kernel.cr3 buffer count) :
    ¬ReadsExactly kernel 0 id file bytes buffer count := by
  have user := writable.user some_
  have top : userTop = 2 ^ 47 := by decide
  have ends := sysRead_keyboard space (by omega) writable some_ allowed
  rintro ⟨mem, ran, _⟩
  rw [ran] at ends
  unfold KeysEnd at ends
  cases line : lineLength count (typed kernel.keyboard) with
  | none =>
    rw [line] at ends
    obtain ⟨_, same⟩ := ends
    cases congrArg Prod.fst same
  | some taken =>
    rw [line] at ends
    obtain ⟨last, left, same, _⟩ := ends
    have returned : min count (bytes.length - file.offset) = 0 + taken :=
      some.inj (Except.ok.inj (congrArg Prod.fst same))
    have positive := (lineLength_bounds line).2.2 some_
    have files := congrArg (fun outcome => outcome.2.vfs.files id) same
    simp only [State.moved_file, live] at files
    have offset := congrArg Vfs.File.offset (some.inj files)
    simp only at offset
    omega

/-- A read of an open regular file into a writable buffer is exact by the descriptors that are
files, and by no others, unless nothing is asked of the keyboard. -/
theorem read_exact_iff (opened : OpenRegular kernel fd id file bytes)
    (readable : file.flags &&& oWronly = 0) (space : Space kernel.mem kernel.cr3)
    (allowed : count ≤ maxIoSize) (writable : Writable kernel.mem kernel.cr3 buffer count) :
    ReadsExactly kernel fd id file bytes buffer count ↔ 3 ≤ fd ∨ (fd = 0 ∧ count = 0) := by
  constructor
  · intro reads
    by_contra other
    by_cases keyboard : fd = 0
    · subst keyboard
      exact keyboard_not_exact opened.live space (by omega) allowed writable reads
    · obtain ⟨mem, ran, _⟩ := reads
      rw [run_sysRead_console (by omega)] at ran
      cases congrArg Prod.fst ran
  · rintro (ordinary | ⟨rfl, rfl⟩)
    · have word : 0 < count → buffer < 2 ^ 64 := by
        intro some_
        have user := writable.user some_
        have top : userTop = 2 ^ 47 := by decide
        omega
      have length := length_requested bytes file.offset count
      rcases opened.sysRead_cases readable space ordinary word allowed with
        ⟨_, mem, ran, delivered⟩ | ⟨unwritable, _⟩
      · rw [length] at ran delivered
        exact ⟨mem, ran, delivered⟩
      · refine absurd (fun index inside => writable index ?_) unwritable
        omega
    · refine ⟨kernel.mem, ?_, ?_⟩
      · rw [run_sysRead_none, Nat.zero_min, add_zero, State.moved_back opened.live]
      · rw [Nat.zero_min]
        exact Delivered.nothing _ _

end

/-! ### A small machine -/

theorem mappedMachine_space : Space mappedMachine.mem 8192 :=
  (mappedMachine_built.live (by decide) (by decide)).space

theorem mappedMachine_page : translateUser mappedMachine.mem 8192 0x400000 true = some 24576 := by
  decide +kernel

theorem mappedMachine_writable {size : Nat} (small : size ≤ 4096) :
    Writable mappedMachine.mem 8192 0x400000 size := by
  intro index inside
  refine ⟨24576 + index, (Space.mapped_iff mappedMachine_space _ _ _).mpr ?_⟩
  exact translateUser_page mappedMachine_page (by omega)

/-- The program has opened its own file as descriptor 3, and has a page for a buffer. -/
def readingKernel : State := { openedKernel with mem := mappedMachine.mem }

theorem readingKernel_reachable : Reachable [] smallTree.vfs readingKernel :=
  openedKernel_reachable.other _ _ _ _ _ _

theorem AtStart.opened {kernel : State} {fd : Nat} (start : AtStart kernel fd)
    (inside : fd < maxOpenFiles) :
    ∃ file, OpenRegular kernel fd 7 file smallProgram ∧ file.offset = 0 ∧ file.flags = 0 := by
  obtain ⟨slot, isFile, isDentry, isInode⟩ := start
  obtain ⟨file, live, fields⟩ := map_eq_some_iff.mp isFile
  obtain ⟨dentry, liveDentry, points⟩ := bind_eq_some_iff.mp isDentry
  obtain ⟨inode, liveInode, contents⟩ := map_eq_some_iff.mp isInode
  simp only [Prod.mk.injEq] at fields contents
  obtain ⟨onDentry, offset, flags⟩ := fields
  obtain ⟨type, size, bytes⟩ := contents
  have length : smallProgram.length = 123 := by decide +kernel
  refine ⟨file, ⟨inside, slot, live, ?_, ?_⟩, offset, flags⟩
  · exact ⟨dentry, 2, inode, by rw [onDentry, liveDentry], points, liveInode, type, bytes,
      by rw [size, length]⟩
  · rw [length]
    decide

theorem AtStart.setMem {kernel : State} {fd : Nat} (start : AtStart kernel fd ∧ kernel.cr3 = 8192)
    (mem : Memory) : AtStart { kernel with mem := mem } fd ∧ { kernel with mem := mem }.cr3 =
      8192 :=
  start

theorem readingKernel_start : AtStart readingKernel 3 ∧ readingKernel.cr3 = 8192 :=
  AtStart.setMem openedKernel_start mappedMachine.mem

theorem read_exact_small : ∃ file, OpenRegular readingKernel 3 7 file smallProgram ∧
    ReadsExactly readingKernel 3 7 file smallProgram 0x400000 4 := by
  obtain ⟨start, root⟩ := readingKernel_start
  obtain ⟨file, opened, _, flags⟩ := start.opened (by decide)
  refine ⟨file, opened, (read_exact_iff opened ?_ ?_ (by decide) ?_).mpr (Or.inl (by decide))⟩
  · rw [flags]
    decide
  · rw [root]
    exact mappedMachine_space
  · rw [root]
    exact mappedMachine_writable (by decide)

/-- The file is descriptor 0 as well, and a line `k` has been typed. -/
def typingKernel : State :=
  { ((syscallDispatch [] (callFrame .dup2 3 0 0)).run readingKernel).2 with
    mem := mappedMachine.mem
    keyboard := [⟨true, 107⟩, ⟨true, newline⟩] }

theorem typingKernel_reachable : Reachable [] smallTree.vfs typingKernel :=
  (readingKernel_reachable.called (callFrame .dup2 3 0 0)).other _ _ _ _ _ _

theorem typingKernel_start : AtStart typingKernel 0 ∧ typingKernel.cr3 = 8192 := by decide +kernel

/-- Four bytes of the file are asked for, and the line is returned. -/
theorem read_takes_keys : ∃ file, OpenRegular typingKernel 0 7 file smallProgram ∧
    file.flags &&& oWronly = 0 ∧ Space typingKernel.mem typingKernel.cr3 ∧
    Writable typingKernel.mem typingKernel.cr3 0x400000 4 ∧
    ((sysRead 0 0x400000 4).run typingKernel).1 = .ok (some 2) ∧
    ¬ReadsExactly typingKernel 0 7 file smallProgram 0x400000 4 := by
  obtain ⟨start, root⟩ := typingKernel_start
  obtain ⟨file, opened, _, flags⟩ := start.opened (by decide)
  have space : Space typingKernel.mem typingKernel.cr3 := by
    rw [root]
    exact mappedMachine_space
  have writable : Writable typingKernel.mem typingKernel.cr3 0x400000 4 := by
    rw [root]
    exact mappedMachine_writable (by decide)
  have line : lineLength 4 (typed typingKernel.keyboard) = some 2 := by
    have keys : typingKernel.keyboard = [⟨true, 107⟩, ⟨true, newline⟩] := rfl
    rw [keys]
    decide
  have ends := sysRead_keyboard space (by decide) writable (by decide) (by decide)
  unfold KeysEnd at ends
  rw [line] at ends
  obtain ⟨mem, left, ran, _⟩ := ends
  refine ⟨file, opened, ?_, space, writable, ?_, ?_⟩
  · rw [flags]
    decide
  · rw [ran]
  · exact keyboard_not_exact opened.live space (by decide) (by decide) writable

end Synx.Kernel
