/-
Copies through the page tables are inverse and local.
-/

import Synx.Exec.Relocation

namespace Synx.Exec

open Lib Program
open Pmm (pageSize)
open Paging

/-- Every page of the range is mapped, below the end of user space. -/
def Mapped (mem : Memory) (root address length : Nat) : Prop :=
  ∀ other, Within address length other → other < userTop ∧ ∃ entry,
    leafAt mem root other = some entry

section

variable {mem mem' : Memory} {root address : Nat} {bytes : List UInt8}

theorem readChunks_mapped {rounds copied missing : Nat} (enough : missing ≤ rounds)
    (mapped : Mapped mem root (address + copied) missing) :
    ∃ bytes, readChunks mem root address rounds copied missing = some bytes := by
  induction rounds generalizing copied missing with
  | zero =>
    rw [Nat.le_zero.mp enough]
    exact ⟨[], rfl⟩
  | succ rounds ih =>
    cases missing with
    | zero => exact ⟨[], rfl⟩
    | succ missing =>
      obtain ⟨user, entry, leaf⟩ := mapped (address + copied) ⟨le_rfl, by omega⟩
      rw [leafAt_eq_locatePte _ _ _ user] at leaf
      obtain ⟨pte, located, found⟩ := Option.bind_eq_some_iff.mp leaf
      obtain ⟨present, _⟩ := Option.ite_none_right_eq_some.mp found
      have inPage := Nat.mod_lt (address + copied) (show 0 < pageSize by decide)
      obtain ⟨later, read⟩ :=
        @ih (copied + min (pageSize - (address + copied) % pageSize) (missing + 1))
        (missing + 1 - min (pageSize - (address + copied) % pageSize) (missing + 1)) (by omega)
        (fun other within => mapped other (by unfold Within at within ⊢; omega))
      rw [readChunks, if_neg (by omega), located]
      dsimp only
      rw [if_pos present, read]
      exact ⟨_, rfl⟩

theorem UserHolds.mapped (holds : UserHolds mem root address bytes) :
    Mapped mem root address bytes.length := by
  intro other within
  unfold Within at within
  obtain ⟨user, byte⟩ := holds (other - address) (by omega)
  rw [Nat.add_sub_cancel' within.1] at user byte
  obtain ⟨entry, leaf, _⟩ := Option.map_eq_some_iff.mp byte
  exact ⟨user, entry, leaf⟩

theorem readChunks_iff {size : Nat} : readChunks mem root address size 0 size = some bytes ↔
    bytes.length = size ∧ UserHolds mem root address bytes := by
  constructor
  · exact readChunks_eq_some size 0 size
  · rintro ⟨rfl, holds⟩
    obtain ⟨others, read⟩ := @readChunks_mapped mem root address _ 0 _ le_rfl holds.mapped
    obtain ⟨length, same⟩ := readChunks_eq_some _ 0 _ read
    rw [read, holds.unique same length.symm]

theorem run_copyFromSpace (root address size : Nat) (machine : Machine) :
    (copyFromSpace root address size).run machine =
      ((readChunks machine.mem root address size 0 size).elim (.error ()) .ok, machine) := by
  unfold copyFromSpace
  rw [run_bind_ok (run_gets _ _)]
  cases readChunks machine.mem root address size 0 size <;> rfl

theorem Copied.holds (copied : Copied mem mem' root address bytes) :
    UserHolds mem' root address bytes := by
  intro offset inside
  obtain ⟨user, _⟩ := copied.mapped (address + offset) ⟨by omega, by omega⟩
  refine ⟨user, ?_⟩
  rw [copied.byte _ user, if_pos ⟨by omega, by omega⟩, Nat.add_sub_cancel_left,
    List.getElem?_eq_getElem inside]

theorem Copied.elsewhere (copied : Copied mem mem' root address bytes) {other : Nat}
    {read : List UInt8} (apart : other + read.length ≤ address ∨ address + bytes.length ≤ other) :
    UserHolds mem' root other read ↔ UserHolds mem root other read := by
  unfold UserHolds
  refine forall₂_congr (fun offset inside => and_congr_right fun user => ?_)
  rw [copied.byte _ user, if_neg (by omega)]

end

/-- A copy into the space succeeds exactly on mapped ranges; reading it back gives the bytes, and
reading a disjoint range gives what it gave before. -/
theorem copyToSpace_inverse {kernelRoot root : Nat} {start machine : Machine}
    (addressable : start.pmm.totalPages ≤ 2 ^ 40) (aligned : kernelRoot % 4096 = 0)
    (built : LoaderSpace kernelRoot start root machine) (address : Nat) (bytes : List UInt8) :
    let ran := (copyToSpace root address bytes).run machine
    (ran.1 = .ok () ↔ Mapped machine.mem root address bytes.length) ∧
      (ran.1 = .ok () →
        (copyFromSpace root address bytes.length).run ran.2 = (.ok bytes, ran.2) ∧
        ∀ other size, other + size ≤ address ∨ address + bytes.length ≤ other →
          ((copyFromSpace root other size).run ran.2).1 =
            ((copyFromSpace root other size).run machine).1) := by
  have triple := copyToSpace_triple address bytes (built.live addressable aligned)
  dsimp only
  cases ran : (copyToSpace root address bytes).run machine with
  | mk result after =>
    cases result with
    | error reason =>
      obtain ⟨_, count, short, _, unmapped⟩ := triple.error rfl ran
      refine ⟨⟨nofun, fun mapped => ?_⟩, nofun⟩
      obtain ⟨user, entry, leaf⟩ := mapped (address + count) ⟨by omega, by omega⟩
      rw [unmapped user] at leaf
      cases leaf
    | ok _ =>
      obtain ⟨_, copied⟩ := triple.ok rfl ran
      refine ⟨⟨fun _ => copied.mapped, fun _ => rfl⟩, fun _ => ⟨?_, fun other size apart => ?_⟩⟩
      · rw [run_copyFromSpace, readChunks_iff.mpr ⟨rfl, copied.holds⟩]
        rfl
      · rw [run_copyFromSpace, run_copyFromSpace]
        have same : readChunks after.mem root other size 0 size =
          readChunks machine.mem root other size 0 size := by
          refine Option.ext fun read => ?_
          rw [readChunks_iff, readChunks_iff]
          refine and_congr_right fun length => copied.elsewhere ?_
          omega
        rw [same]

theorem copyToSpace_inverse_small :
    LoaderSpace 4096 tinyMachine 8192 mappedMachine ∧
      ((copyToSpace 8192 0x400000 [7, 8]).run mappedMachine).1 = .ok () ∧
      Mapped mappedMachine.mem 8192 0x400000 2 := by
  have copied : ((copyToSpace 8192 0x400000 [7, 8]).run mappedMachine).1 = .ok () :=
    ok_of_toOption (by decide +kernel)
  exact ⟨mappedMachine_built, copied, (copyToSpace_inverse (by decide) (by decide)
    mappedMachine_built 0x400000 [7, 8]).1.mp copied⟩

end Synx.Exec
