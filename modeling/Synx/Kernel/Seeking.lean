/-
Positions of open files and `lseek`.
-/

import Synx.Kernel.Reachable

namespace Synx.Kernel

open Lib Program Option
open Initramfs (TreeBuilt)
open Vfs (Fs)

/-! ### Signed arithmetic -/

/-- The value of a signed operation of 64 bits; an overflow has none. -/
def int64 (value : Int) : Option Int :=
  if -2 ^ 63 ≤ value ∧ value ≤ int64Max then some value else none

theorem int64_exact {value : Int} (low : -2 ^ 63 ≤ value) (high : value ≤ int64Max) :
    int64 value = some value := if_pos ⟨low, high⟩

/-- The test `offset > 0 && base > INT64_MAX - offset`, with its subtraction checked. -/
def aboveRange (base offset : Int) : Option Bool :=
  if 0 < offset then (int64 (int64Max - offset)).map (fun room => decide (room < base))
  else some false

/-- The test `offset < 0 && (offset == INT64_MIN || base < -offset)`, with its negation checked. -/
def belowRange (base offset : Int) : Option Bool :=
  if offset < 0 then
    if offset = -2 ^ 63 then some true
    else (int64 (-offset)).map (fun back => decide (base < back))
  else some false

/-- The tests and the sum of `sys_lseek`, with every signed operation checked.  The second test
is not made if the first holds. -/
def seekTarget64 (base offset : Int) : Option (Checked Nat) :=
  (aboveRange base offset).bind fun above =>
    (if above then some true else belowRange base offset).bind fun outside =>
      if outside then some (refuse errRange)
      else (int64 (base + offset)).map fun result =>
        if result < 0 then refuse errInval else pure result.toNat

variable {base offset : Int} {vfs : Vfs.State}

theorem aboveRange_eq (high : offset ≤ int64Max) :
    aboveRange base offset = some (decide (0 < offset ∧ int64Max - offset < base)) := by
  unfold aboveRange
  by_cases forward : 0 < offset
  · have room := @int64_exact (int64Max - offset) (by omega) (by omega)
    rw [if_pos forward, room]
    simp [forward]
  · rw [if_neg forward]
    simp [forward]

theorem belowRange_eq (low : -2 ^ 63 ≤ offset) : belowRange base offset =
      some (decide (offset < 0 ∧ (offset = -2 ^ 63 ∨ base < -offset))) := by
  unfold belowRange
  by_cases back : offset < 0
  · rw [if_pos back]
    by_cases least : offset = -2 ^ 63
    · rw [if_pos least, decide_eq_true ⟨back, .inl least⟩]
    · have negated := @int64_exact (-offset) (by omega) (by unfold int64Max; omega)
      rw [if_neg least, negated, map_some]
      congr 2
      exact propext ⟨fun below => ⟨back, .inr below⟩,
        fun ⟨_, below⟩ => below.resolve_left least⟩
  · rw [if_neg back]
    simp [back]

theorem seekTarget64_eq (nonneg : 0 ≤ base) (bounded : base ≤ int64Max) (low : -2 ^ 63 ≤ offset)
    (high : offset ≤ int64Max) : seekTarget64 base offset = some (seekTarget base offset) := by
  unfold seekTarget64 seekTarget
  rw [aboveRange_eq high, belowRange_eq low, bind_some]
  by_cases above : 0 < offset ∧ int64Max - offset < base
  · rw [if_pos (Or.inl above), decide_eq_true above]
    rfl
  rw [decide_eq_false above, if_neg Bool.false_ne_true, bind_some]
  by_cases below : offset < 0 ∧ (offset = -2 ^ 63 ∨ base < -offset)
  · rw [if_pos (Or.inr below), decide_eq_true below, if_pos rfl]
  · have sum := @int64_exact (base + offset) (by omega) (by omega)
    rw [decide_eq_false below, if_neg Bool.false_ne_true, if_neg (not_or.mpr ⟨above, below⟩), sum,
      map_some]

theorem seekTarget_eq (nonneg : 0 ≤ base) (low : -2 ^ 63 ≤ offset) (bounded : base ≤ int64Max) :
    (0 ≤ base + offset ∧ base + offset ≤ int64Max ∧
        seekTarget base offset = .ok (base + offset).toNat) ∨
      (¬(0 ≤ base + offset ∧ base + offset ≤ int64Max) ∧
        ∃ code < 0, seekTarget base offset = refuse code) := by
  unfold seekTarget
  by_cases outside : (0 < offset ∧ int64Max - offset < base) ∨
      (offset < 0 ∧ (offset = -2 ^ 63 ∨ base < -offset))
  · rw [if_pos outside]
    refine .inr ⟨?_, errRange, by decide, rfl⟩
    unfold int64Max at outside bounded ⊢
    omega
  · rw [if_neg outside, if_neg (by omega)]
    exact .inl ⟨by omega, by omega, rfl⟩

theorem signed_range (value : Nat) : -2 ^ 63 ≤ signed value ∧ signed value ≤ int64Max := by
  have small := Nat.mod_lt value (Nat.two_pow_pos 64)
  unfold signed int64Max
  split
  · omega
  · omega

/-! ### Directories in memory -/

/-- The dentries lie apart in an address space of 64 bits.  The model of the allocator has
numbers instead of addresses, so this is said here. -/
def FitsMemory (vfs : Vfs.State) : Prop :=
  {id | (vfs.dentries id).isSome}.ncard * Vfs.sizeofDentry ≤ 2 ^ 64

theorem live_finite (tree : Vfs.Tree vfs) :
    {id | (vfs.dentries id).isSome} ⊆ {id | id < vfs.nextId} := by
  intro id live
  obtain ⟨dentry, found⟩ := isSome_iff_exists.mp live
  exact tree.known id dentry found

theorem fits_of_few (tree : Vfs.Tree vfs) (few : vfs.nextId * Vfs.sizeofDentry ≤ 2 ^ 64) :
    FitsMemory vfs := by
  have count := Set.ncard_le_ncard (live_finite tree) (Set.finite_lt_nat vfs.nextId)
  have all : {id | id < vfs.nextId} = (Finset.range vfs.nextId : Set Nat) := by
    ext id
    simp
  rw [all, Set.ncard_coe_finset, Finset.card_range] at count
  exact le_trans (Nat.mul_le_mul_right _ count) few

theorem roomy_of_fits (tree : Vfs.Tree vfs) (memory : FitsMemory vfs) : Roomy vfs.shape := by
  have finite := (Set.finite_lt_nat vfs.nextId).subset (live_finite tree)
  intro id shaped live
  obtain ⟨dentry, found, rfl⟩ := Vfs.State.of_shape live
  have inside : (dentry.children.toFinset : Set Nat) ⊆ {id | (vfs.dentries id).isSome} := by
    intro child member
    obtain ⟨below, liveChild, _⟩ :=
      tree.child id dentry child found (List.mem_toFinset.mp member)
    exact isSome_iff_exists.mpr ⟨below, liveChild⟩
  have count := Set.ncard_le_ncard inside finite
  rw [Set.ncard_coe_finset, List.toFinset_card_of_nodup (tree.distinct id dentry found)] at count
  unfold FitsMemory Vfs.sizeofDentry at memory
  unfold int64Max
  simp only
  omega

/-! ### Seeking -/

def seekOrigin (vfs : Vfs.State) (file : Vfs.File) : Nat → Option Int
  | 0 => some 0
  | 1 => some file.offset
  | 2 => (vfs.dentries file.dentry).bind (fun dentry =>
    (dentry.inode.bind vfs.inodes).map (fun inode => (inode.size : Int)))
  | _ => none

section

variable {stamp : List UInt8} {memory : Pages} {modules : List (Option (List UInt8))}
  {start fs : Fs Pages} {kernel : State}

theorem seekBase_origin {tree : Vfs.State} (sound : Sound tree kernel) (roomy : Roomy tree)
    {fd id : Nat} {file : Vfs.File} (points : kernel.openFiles fd = some id)
    (live : kernel.vfs.files id = some file) {whence : Nat} (known : whence ≤ 2) :
    ∃ base, seekOrigin kernel.vfs file whence = some base ∧
      seekBase kernel.vfs file whence = .ok base ∧ 0 ≤ base ∧ base ≤ int64Max := by
  obtain ⟨same, dentry, inode, object, liveSame, liveDentry, pointsInode, liveInode⟩ :=
    sound.slot points
  rw [live] at liveSame
  cases liveSame
  have position := (sound.offset id file live).signed roomy
  have size := (sound.fits inode object liveInode).2
  match whence with
  | 0 => exact ⟨0, rfl, rfl, Int.le_refl 0, by decide⟩
  | 1 =>
    refine ⟨file.offset, rfl, ?_, Int.natCast_nonneg _, position⟩
    unfold seekBase
    rw [if_neg (Int.not_lt.mpr position)]
    rfl
  | 2 =>
    have bounded : (object.size : Int) ≤ int64Max := by
      unfold int64Max
      omega
    refine ⟨object.size, ?_, ?_, Int.natCast_nonneg _, bounded⟩
    · unfold seekOrigin
      rw [liveDentry, bind_some, pointsInode, bind_some, liveInode]
      rfl
    · unfold seekBase
      rw [follow_live liveDentry]
      simp only [bind, Except.bind, pointsInode]
      rw [follow_live liveInode]
      simp only
      rw [if_neg (Int.not_lt.mpr bounded)]
      rfl
  | more + 3 => omega

/-- In every reachable state the positions are signed numbers, and `lseek` is exact. -/
theorem lseek_exact (built : TreeBuilt Pages.heap memory modules start fs)
    (fits : FitsMemory fs.vfs) (reached : Reachable stamp fs.vfs kernel) :
    (∀ id file, kernel.vfs.files id = some file → (file.offset : Int) ≤ int64Max) ∧
      ∀ fd id file rawOffset whence, kernel.openFiles fd = some id →
        kernel.vfs.files id = some file → whence ≤ 2 →
        ∃ base, seekOrigin kernel.vfs file whence = some base ∧
          seekTarget64 base (signed rawOffset) = some (seekTarget base (signed rawOffset)) ∧
          (0 ≤ base + signed rawOffset ∧ base + signed rawOffset ≤ int64Max →
            (sysLseek fd rawOffset whence).run kernel =
              (.ok (base + signed rawOffset).toNat,
                kernel.moved id file (base + signed rawOffset).toNat kernel.mem)) ∧
          (¬(0 ≤ base + signed rawOffset ∧ base + signed rawOffset ≤ int64Max) →
            ∃ code, code < 0 ∧
              (sysLseek fd rawOffset whence).run kernel = (.error (.code code), kernel)) := by
  have sound := reached.sound built.fresh
  have roomy := roomy_of_fits built.fresh.tree fits
  refine ⟨fun id file live => (sound.offset id file live).signed roomy, ?_⟩
  intro fd id file rawOffset whence points live known
  have inside := (sound.accounts.slot fd id points).1
  obtain ⟨low, high⟩ := signed_range rawOffset
  obtain ⟨base, origin, found, nonneg, bounded⟩ := seekBase_origin sound roomy points live known
  have slot : openSlot kernel fd = .ok id := by
    unfold openSlot
    rw [if_neg (not_le.mpr inside), slotOf_inside inside, points]
    rfl
  have ran : (sysLseek fd rawOffset whence).run kernel =
      (lift (seekTarget base (signed rawOffset)) >>= fun position => do
        setOffset id position
        pure position).run kernel := by
    unfold sysLseek
    rw [run_bind_ok (run_gets _ _)]
    simp only [id_eq]
    rw [slot, run_bind_ok (run_lift _ _), follow_live live,
      run_bind_ok (run_lift _ _), found, run_bind_ok (run_lift _ _)]
  refine ⟨base, origin, seekTarget64_eq nonneg bounded low high, ?_, ?_⟩
  · intro position
    rcases seekTarget_eq nonneg low bounded with ⟨_, _, target⟩ | ⟨outside, _⟩
    · rw [ran, target, run_bind_ok (run_lift _ _),
        run_bind_ok (setOffset_run live _), run_pure]
      rfl
    · exact absurd position outside
  · intro outside
    rcases seekTarget_eq nonneg low bounded with ⟨first, second, _⟩ | ⟨_, code, negative, refused⟩
    · exact absurd ⟨first, second⟩ outside
    · refine ⟨code, negative, ?_⟩
      rw [ran, refused]
      rfl

end

theorem smallTree_fits : FitsMemory smallTree.vfs :=
  fits_of_few smallTree_built.fresh.tree (by decide +kernel)

/-- One byte before the end of the program of 123 bytes. -/
theorem lseek_exact_small :
    ∃ id file, openedKernel.openFiles 3 = some id ∧ openedKernel.vfs.files id = some file ∧
      (file.offset : Int) ≤ int64Max ∧
      (sysLseek 3 (2 ^ 64 - 1) 2).run openedKernel =
        (.ok 122, openedKernel.moved id file 122 openedKernel.mem) := by
  obtain ⟨⟨points, isFile, isDentry, isInode⟩, _⟩ := openedKernel_start
  obtain ⟨file, live, fields⟩ := map_eq_some_iff.mp isFile
  obtain ⟨dentry, liveDentry, onInode⟩ := bind_eq_some_iff.mp isDentry
  obtain ⟨inode, liveInode, contents⟩ := map_eq_some_iff.mp isInode
  simp only [Prod.mk.injEq] at fields contents
  have origin : seekOrigin openedKernel.vfs file 2 = some 123 := by
    simp only [seekOrigin]
    rw [fields.1, liveDentry, bind_some, onInode, bind_some, liveInode,
      map_some, contents.2.1]
    rfl
  obtain ⟨offsets, seeks⟩ := lseek_exact smallTree_built smallTree_fits openedKernel_reachable
  obtain ⟨base, isBase, _, exact_, _⟩ :=
    seeks 3 7 file (2 ^ 64 - 1) 2 points live (Nat.le_refl 2)
  rw [origin] at isBase
  cases isBase
  exact ⟨7, file, points, live, offsets 7 file live, exact_ (by decide)⟩

end Synx.Kernel
