/-
Copies between the kernel and a user space, chunk by chunk through the page
tables, and the creation of an empty space.
-/

import Synx.Exec.Mapping

namespace Synx.Exec

open Lib Program Memory List Option
open Pmm (pageSize bitmapGet)
open Paging

/-- Exactly the bytes of one range have been replaced. -/
structure Wrote (before after : Memory) (root address : Nat) (bytes : List UInt8) : Prop where
  leaf : ∀ other, other < userTop → leafAt after root other = leafAt before root other
  byte : ∀ other, other < userTop →
    userByte after root other =
      if address ≤ other ∧ other < address + bytes.length then bytes[other - address]?
      else userByte before root other

theorem Wrote.nothing (mem : Memory) (root address : Nat) : Wrote mem mem root address [] := by
  refine ⟨fun _ _ => rfl, ?_⟩
  intro other _
  rw [if_neg]
  simp only [length_nil]
  omega

variable {first second third mem : Memory} {root address virtualAddress : Nat} {bytes : List UInt8}
  {start machine : Machine}

variable {left right : List UInt8} {inside : Nat → Prop} {entry phys index kernelRoot : Nat}
  {after : Machine}

theorem Wrote.append (one : Wrote first second root address left)
    (two : Wrote second third root (address + left.length) right) :
    Wrote first third root address (left ++ right) := by
  refine ⟨fun other user => (two.leaf other user).trans (one.leaf other user), ?_⟩
  intro other user
  rw [two.byte other user, one.byte other user, length_append]
  by_cases inRight : address + left.length ≤ other ∧ other < address + left.length + right.length
  · rw [if_pos inRight, if_pos (by omega), getElem?_append_right (by omega)]
    congr 1
    omega
  · rw [if_neg inRight]
    by_cases inLeft : address ≤ other ∧ other < address + left.length
    · rw [if_pos inLeft, if_pos (by omega), getElem?_append_left (by omega)]
    · rw [if_neg inLeft, if_neg (by omega)]

def Backs (mem : Memory) (root address place : Nat) : Prop :=
  address < userTop ∧
    ∃ entry, leafAt mem root address = some entry ∧ place = pteAddress entry + address % 4096

/-- Only places behind given user addresses differ. -/
def Confined (before after : Memory) (root : Nat) (inside : Nat → Prop) : Prop :=
  ∀ place, after place ≠ before place → ∃ address, inside address ∧ Backs before root address place

theorem Confined.refl (mem : Memory) (root : Nat) (inside : Nat → Prop) :
    Confined mem mem root inside :=
  fun _ changed => absurd rfl changed

theorem Confined.trans (one : Confined first second root inside)
    (two : Confined second third root inside)
    (leaf : ∀ address < userTop, leafAt second root address = leafAt first root address) :
    Confined first third root inside := by
  intro place changed
  by_cases later : third place = second place
  · exact one place (by rwa [← later])
  · obtain ⟨address, within, user, entry, found, place_⟩ := two place later
    exact ⟨address, within, user, entry, (leaf address user).symm.trans found, place_⟩

theorem Confined.imp {before after : Memory} {wider : Nat → Prop}
    (confined : Confined before after root inside)
    (enough : ∀ address, inside address → wider address) :
    Confined before after root wider := by
  intro place changed
  obtain ⟨address, within, backs⟩ := confined place changed
  exact ⟨address, enough address within, backs⟩

def Within (address length other : Nat) : Prop := address ≤ other ∧ other < address + length

/-- The bytes of a mapped range have been replaced, and nothing else in memory. -/
structure Copied (before after : Memory) (root address : Nat) (bytes : List UInt8) : Prop
    extends Wrote before after root address bytes where
  confined : Confined before after root (Within address bytes.length)
  mapped : ∀ other, Within address bytes.length other →
    other < userTop ∧ ∃ entry, leafAt before root other = some entry

theorem Copied.nothing (mem : Memory) (root address : Nat) : Copied mem mem root address [] := by
  refine ⟨Wrote.nothing mem root address, .refl _ _ _, ?_⟩
  intro other within
  exact absurd within.2 (not_lt.mpr within.1)

theorem Copied.append (one : Copied first second root address left)
    (two : Copied second third root (address + left.length) right) :
    Copied first third root address (left ++ right) := by
  refine ⟨one.toWrote.append two.toWrote, ?_, ?_⟩
  · rw [length_append]
    refine (one.confined.imp ?_).trans (two.confined.imp ?_) one.leaf
    · exact fun other within => ⟨within.1, by have := within.2; omega⟩
    · exact fun other within => ⟨by have := within.1; omega, by have := within.2; omega⟩
  · intro other within
    rw [length_append] at within
    by_cases early : other < address + left.length
    · exact one.mapped other ⟨within.1, early⟩
    · obtain ⟨user, entry, leaf⟩ := two.mapped other ⟨by omega, by have := within.2; omega⟩
      exact ⟨user, entry, (one.leaf other user).symm.trans leaf⟩

theorem Space.wrote_chunk (space : Space mem root) (user : virtualAddress < userTop)
    (leaf : leafAt mem root virtualAddress = some entry)
    (inside : virtualAddress % 4096 + bytes.length ≤ 4096) :
    Wrote mem (writeBytes mem (pteAddress entry + virtualAddress % 4096) bytes) root
      virtualAddress bytes := by
  have reached := space.frameAt_of_leafAt user leaf
  have low := pageIndices_user virtualAddress user
  have same := space.sameTables_writeBytes low (pageIndices_length virtualAddress) reached inside
  refine ⟨same.leafAt_eq, ?_⟩
  intro other otherUser
  unfold userByte
  rw [same.leafAt_eq other otherUser]
  by_cases samePage : pageIndices other = pageIndices virtualAddress
  · have pages := (pageIndices_inj other virtualAddress otherUser user).mp samePage
    rw [leafAt_page samePage, leaf, map_some, map_some]
    by_cases within : virtualAddress ≤ other ∧ other < virtualAddress + bytes.length
    · have offset : other - virtualAddress < bytes.length := by omega
      have place : pteAddress entry + other % 4096 =
          pteAddress entry + virtualAddress % 4096 + (other - virtualAddress) := by omega
      rw [if_pos within, place, writeBytes_inside _ _ _ _ offset,
        getElem?_eq_getElem offset]
    · rw [if_neg within, writeBytes_outside _ _ _ _ (by omega)]
  · have pages : ¬other / 4096 = virtualAddress / 4096 := fun equal =>
      samePage ((pageIndices_inj other virtualAddress otherUser user).mpr equal)
    rw [if_neg (by omega)]
    rcases eq_none_or_eq_some (leafAt mem root other) with nothing | ⟨otherEntry, otherLeaf⟩
    · rw [nothing]
      rfl
    · have otherReached := space.frameAt_of_leafAt otherUser otherLeaf
      have otherLow := pageIndices_user other otherUser
      have different : pteAddress entry ≠ pteAddress otherEntry := by
        intro equal
        rw [← equal] at otherReached
        exact samePage (space.unshared _ _ _ otherLow low otherReached reached)
      have frame := space.frame _ _ low reached
      have otherFrame := space.frame _ _ otherLow otherReached
      rw [otherLeaf, map_some, map_some, writeBytes_outside]
      rcases frame.apart otherFrame different with before | after
      · omega
      · omega

theorem Space.copied_chunk (space : Space mem root) (user : virtualAddress < userTop)
    (leaf : leafAt mem root virtualAddress = some entry)
    (inside : virtualAddress % 4096 + bytes.length ≤ 4096) :
    Copied mem (writeBytes mem (pteAddress entry + virtualAddress % 4096) bytes) root
      virtualAddress bytes := by
  have samePage : ∀ other, Within virtualAddress bytes.length other →
      other < userTop ∧ leafAt mem root other = some entry := by
    intro other within
    obtain ⟨above, below⟩ := within
    have otherUser : other < userTop := by
      unfold userTop at user ⊢
      omega
    refine ⟨otherUser, ?_⟩
    rw [← leaf]
    exact leafAt_page ((pageIndices_inj other virtualAddress otherUser user).mpr (by omega))
  refine ⟨space.wrote_chunk user leaf inside, ?_, ?_⟩
  · intro place changed
    have hit : Within (pteAddress entry + virtualAddress % 4096) bytes.length place := by
      by_contra missed
      unfold Within at missed
      exact changed (writeBytes_outside _ _ _ _ (by omega))
    obtain ⟨above, below⟩ := hit
    have within : Within virtualAddress bytes.length
        (virtualAddress + (place - (pteAddress entry + virtualAddress % 4096))) := by
      unfold Within
      omega
    obtain ⟨otherUser, otherLeaf⟩ := samePage _ within
    exact ⟨_, within, otherUser, entry, otherLeaf, by omega⟩
  · intro other within
    obtain ⟨otherUser, otherLeaf⟩ := samePage other within
    exact ⟨otherUser, entry, otherLeaf⟩

theorem leafAt_of_locatePte {pte : Nat} (user : virtualAddress ≤ userTop)
    (found : locatePte mem root virtualAddress = some pte)
    (present : flagged (readWord mem pte) ptePresent = true) :
    virtualAddress < userTop ∧ leafAt mem root virtualAddress = some (readWord mem pte) := by
  have inside : virtualAddress < userTop := by
    by_contra above
    have top : virtualAddress = userTop := by omega
    rw [top] at found
    simp only [locatePte, userTop] at found
    exact absurd found (by simp)
  refine ⟨inside, ?_⟩
  rw [leafAt_eq_locatePte mem root virtualAddress inside, found, bind_some, if_pos present]

/-- A copy stops at the first byte that is not mapped. -/
def Halted (before after : Memory) (root address : Nat) (bytes : List UInt8) : Prop :=
  ∃ count, count < bytes.length ∧ Copied before after root address (bytes.take count) ∧
    (address + count < userTop → leafAt before root (address + count) = none)

theorem Halted.atOnce (some_ : 0 < bytes.length)
    (unmapped : address < userTop → leafAt mem root address = none) :
    Halted mem mem root address bytes :=
  ⟨0, some_, Copied.nothing _ _ _, unmapped⟩

theorem Copied.halted {chunk : Nat} (one : Copied first second root address (bytes.take chunk))
    (short : chunk ≤ bytes.length)
    (two : Halted second third root (address + chunk) (bytes.drop chunk)) :
    Halted first third root address bytes := by
  obtain ⟨count, below, copied, unmapped⟩ := two
  have taken : (bytes.take chunk).length = chunk := length_take_of_le short
  rw [length_drop] at below
  refine ⟨chunk + count, by omega, ?_, ?_⟩
  · rw [take_add]
    refine one.append ?_
    rw [taken]
    exact copied
  · intro user
    rw [← add_assoc] at user ⊢
    rw [← one.leaf _ user]
    exact unmapped user

theorem copyChunks_triple (rounds copied : Nat) (bytes : List UInt8)
    (enough : bytes.length ≤ rounds) (live : Live start root) :
    Triple (· = start) (copyChunks root address rounds copied bytes)
      (fun _ machine => Edits root start machine ∧
        Copied start.mem machine.mem root (address + copied) bytes)
      (fun _ machine => Edits root start machine ∧
        Halted start.mem machine.mem root (address + copied) bytes) := by
  induction rounds generalizing copied bytes start with
  | zero =>
    have none : bytes = [] := length_eq_zero_iff.mp (by omega)
    subst none
    apply Triple.pure
    rintro machine rfl
    exact ⟨.refl, Copied.nothing _ _ _⟩
  | succ rounds ih =>
    cases bytes with
    | nil =>
      apply Triple.pure
      rintro machine rfl
      exact ⟨.refl, Copied.nothing _ _ _⟩
    | cons byte rest =>
      unfold copyChunks
      apply Triple.ite
      · intro outside
        apply Triple.stop
        rintro machine rfl
        refine ⟨.refl, Halted.atOnce (Nat.succ_pos _) ?_⟩
        intro user
        omega
      intro within
      apply Triple.bind (fun mem machine => machine = start ∧ mem = start.mem)
      · apply Triple.gets
        rintro machine rfl
        exact ⟨rfl, rfl⟩
      intro mem
      -- the walk either fails, which changes nothing, or finds a leaf
      cases located : locatePte mem root (address + copied) with
      | none =>
        apply Triple.stop
        rintro machine ⟨rfl, rfl⟩
        refine ⟨.refl, Halted.atOnce (Nat.succ_pos _) ?_⟩
        intro user
        rw [leafAt_eq_locatePte _ _ _ user, located, bind_none]
      | some pte =>
        apply Triple.ite
        · intro present
          generalize whole : byte :: rest = bytes at enough ⊢
          set chunk := min (pageSize - (address + copied) % pageSize) bytes.length
            with chunkDef
          have positive : 0 < bytes.length := by rw [← whole]; exact Nat.succ_pos _
          have pageEq : pageSize = 4096 := rfl
          have chunkPositive : 0 < chunk := by
            have := Nat.mod_lt (address + copied) (show 0 < pageSize by decide)
            omega
          apply Triple.bind (fun _ machine => mem = start.mem ∧ machine =
            start.writeBytes (pteAddress (readWord mem pte) +
              (address + copied) % pageSize) (bytes.take chunk))
          · apply Triple.modify
            rintro machine ⟨rfl, same⟩
            exact ⟨same, rfl⟩
          intro _
          apply Triple.of_state
          rintro machine ⟨same, rfl⟩
          subst same
          obtain ⟨user, leaf⟩ := leafAt_of_locatePte (by omega) located present
          have takeLength : (bytes.take chunk).length = chunk := by
            rw [length_take]
            omega
          have inside : (address + copied) % 4096 + (bytes.take chunk).length ≤ 4096 := by
            have sameOffset : (address + copied) % pageSize = (address + copied) % 4096 := rfl
            rw [takeLength]
            omega
          have edit : Edit root start (start.writeBytes (pteAddress
              (readWord start.mem pte) + (address + copied) % pageSize)
              (bytes.take chunk)) :=
            Edit.data (pageIndices_user _ user) (pageIndices_length _)
              (live.space.frameAt_of_leafAt user leaf) inside
          have first := live.space.copied_chunk user leaf inside
          have later := ih (copied + chunk) (bytes.drop chunk)
            (by rw [length_drop]; omega) (edit.live live)
          refine later.weaken (fun _ holds => holds) ?_ ?_
          · rintro _ after ⟨edits, second⟩
            refine ⟨.head edit edits, ?_⟩
            rw [← take_append_drop chunk bytes]
            refine first.append ?_
            rw [takeLength, add_assoc]
            exact second
          · rintro _ after ⟨edits, second⟩
            refine ⟨.head edit edits, first.halted (by omega) ?_⟩
            rw [add_assoc]
            exact second
        · intro absent
          apply Triple.stop
          rintro machine ⟨rfl, rfl⟩
          refine ⟨.refl, Halted.atOnce (Nat.succ_pos _) ?_⟩
          intro user
          rw [leafAt_eq_locatePte _ _ _ user, located, bind_some, if_neg absent]

theorem copyToSpace_triple (address : Nat) (source : List UInt8) (live : Live start root) :
    Triple (· = start) (copyToSpace root address source)
      (fun _ machine => Edits root start machine ∧
        Copied start.mem machine.mem root address source)
          (fun _ machine => Edits root start machine ∧
        Halted start.mem machine.mem root address source) :=
  copyChunks_triple source.length 0 source le_rfl live

/-! ### An empty space -/

def BlankRoot (mem : Memory) (root : Nat) : Prop :=
  ∀ index, index < 256 → entryAt mem root index = 0

theorem BlankRoot.frameAt_eq_some (blank : BlankRoot mem root) {path : List Nat}
    (low : LowPath path) (reached : frameAt mem root path = some phys) :
    path = [] ∧ phys = root := by
  cases path with
  | nil => exact ⟨rfl, (some.inj reached).symm⟩
  | cons index rest =>
    have nothing : nextFrame mem root index = none := by
      unfold nextFrame
      rw [blank index (low.2.2 index rfl)]
      rfl
    unfold frameAt at reached
    rw [Trie.descend_cons, nothing] at reached
    cases reached

theorem BlankRoot.reaches_iff (blank : BlankRoot mem root) (phys : Nat) :
    Reaches mem root phys ↔ phys = root := by
  constructor
  · rintro ⟨path, low, reached⟩
    exact (blank.frameAt_eq_some low reached).2
  · rintro rfl
    exact reaches_root mem phys

theorem BlankRoot.space (blank : BlankRoot mem root) (frame : Frame root) : Space mem root := by
  refine
    { frame := ?_
      clean := ?_
      unshared := ?_ }
  · intro path phys low reached
    rw [(blank.frameAt_eq_some low reached).2]
    exact frame
  · intro path table index low reached present
    obtain ⟨rfl, rfl⟩ := blank.frameAt_eq_some low.parent reached
    rw [blank index (low.2.2 index rfl)] at present
    exact absurd present (by decide)
  · intro left right node lowLeft lowRight atLeft atRight
    rw [(blank.frameAt_eq_some lowLeft atLeft).1, (blank.frameAt_eq_some lowRight atRight).1]

theorem BlankRoot.leafAt_eq_none (blank : BlankRoot mem root) (address : Nat)
    (user : address < userTop) : leafAt mem root address = none := by
  have low := pageIndices_user address user
  unfold leafAt
  rcases eq_none_or_eq_some (frameAt mem root (tableIndices address))
    with nothing | ⟨table, reached⟩
  · rw [nothing, bind_none]
  · have short := (blank.frameAt_eq_some low.parent reached).1
    have long := tableIndices_length address
    rw [short] at long
    cases long

/-- The space at `root` is empty and was built from `start`. -/
structure Fresh (start : Machine) (root : Nat) (machine : Machine) : Prop where
  built : ∃ events, Built start root events machine
  blank : BlankRoot machine.mem root

theorem fresh_zeroed {start : Machine} {page : Nat} (addressable : start.pmm.totalPages ≤ 2 ^ 40)
    (inside : page < start.pmm.totalPages) (clear : bitmapGet start.pmm.bitmap page = false)
    (nonzero : page ≠ 0) :
    Fresh start (page * pageSize) (start.zeroed page) := by
  have frame := frame_of_page addressable inside nonzero
  have blank : BlankRoot (start.zeroed page).mem (page * pageSize) := by
    intro index bound
    have pageEq : pageSize = 4096 := rfl
    exact readWord_fill_zero start.mem _ _ _
      ⟨by unfold entryAddress; omega, by unfold entryAddress; omega⟩
  refine ⟨⟨[.wrote (page * pageSize) pageSize, .took (page * pageSize)], ?_⟩, blank⟩
  refine
    { live := ⟨blank.space frame, ?_, addressable⟩
      log := rfl
      kept := by
        intro phys gave
        simp at gave
      reaches := by
        intro phys
        rw [blank.reaches_iff]
        simp [takenIn]
      once := nodup_singleton _
      wasFree := by
        intro phys member
        rw [mem_singleton.mp member, page_mul_div]
        exact clear
      writes := ?_
      memory := ?_
      totalPages := rfl
      used := ?_ }
  · intro phys reaches
    rw [(blank.reaches_iff phys).mp reaches, page_mul_div]
    refine ⟨inside, ?_⟩
    change bitmapGet (start.pmm.take page 1).bitmap page = true
    rw [bitmapGet_take_one]
    simp
  · intro address length wrote
    simp only [mem_cons, FrameEvent.wrote.injEq, reduceCtorEq, not_mem_nil, or_false]
      at wrote
    obtain ⟨rfl, rfl⟩ := wrote
    exact ⟨page * pageSize, mem_singleton_self _, le_rfl, le_rfl⟩
  · intro address changed
    by_cases outside : address < page * pageSize ∨ page * pageSize + 4096 ≤ address
    · exact absurd (fill_outside _ _ _ _ _ outside) changed
    · exact ⟨page * pageSize, mem_singleton_self _, by omega, by omega⟩
  · intro other used
    change bitmapGet (start.pmm.take page 1).bitmap other = true
    rw [bitmapGet_take_one, used, Bool.true_or]

theorem Fresh.copyEntry (fresh : Fresh start root machine) {value : Nat}
    (upper : 256 ≤ index ∧ index < 512) :
    Fresh start root (machine.writeWord (entryAddress root index) value) := by
  obtain ⟨events, built⟩ := fresh.built
  have frame := built.live.rootFrame
  have blank : BlankRoot (machine.writeWord (entryAddress root index) value).mem root := by
    intro other bound
    rw [← fresh.blank other bound]
    apply readWord_writeWord_of_ne
    unfold entryAddress
    omega
  refine ⟨⟨_, built.write _ (entryAddress root index) 8 root ?_ ?_ (reaches_root _ _) ?_ ?_
    (fun other outside => writeWord_outside outside)⟩, blank⟩
  · refine ⟨blank.space frame, ?_, built.live.addressable⟩
    intro phys reaches
    rw [(blank.reaches_iff phys).mp reaches]
    exact built.live.held root (reaches_root _ _)
  · intro phys
    rw [fresh.blank.reaches_iff]
    exact blank.reaches_iff phys
  · unfold entryAddress
    omega
  · unfold entryAddress
    omega

def InUse (machine : Machine) (phys : Nat) : Prop :=
  bitmapGet machine.pmm.bitmap (phys / pageSize) = true

theorem Live.frameOf (live : Live machine root) (reaches : Reaches machine.mem root phys) :
    Frame phys := by
  obtain ⟨path, low, reached⟩ := reaches
  exact live.space.frame path phys low reached

section InUse

variable {start machine : Machine} {root : Nat} {events : List FrameEvent}
  (built : Built start root events machine)

include built

theorem Built.taken_frame {phys : Nat} (taken : phys ∈ takenIn events) :
    ¬InUse start phys ∧ Frame phys := by
  refine ⟨?_, built.live.frameOf ((built.reaches phys).mp taken)⟩
  unfold InUse
  rw [built.wasFree phys taken]
  exact Bool.false_ne_true

theorem Built.taken_apart {table phys : Nat} (inUse : InUse start table)
    (aligned : table % 4096 = 0) (taken : phys ∈ takenIn events) :
    phys + 4096 ≤ table ∨ table + 4096 ≤ phys := by
  obtain ⟨notInUse, frame⟩ := built.taken_frame taken
  have physAligned := frame.aligned
  have different : phys ≠ table := by
    rintro rfl
    exact notInUse inUse
  omega

theorem Built.untouched {table address : Nat} (inUse : InUse start table)
    (aligned : table % 4096 = 0) (above : table ≤ address) (below : address < table + 4096) :
    machine.mem address = start.mem address := by
  by_contra changed
  obtain ⟨phys, taken, low, high⟩ := built.memory address changed
  have := built.taken_apart inUse aligned taken
  omega

theorem Built.kernelEntry {kernelRoot index : Nat} (aligned : kernelRoot % 4096 = 0)
    (inUse : InUse start kernelRoot) (bound : index < 512) :
    entryAt machine.mem kernelRoot index = entryAt start.mem kernelRoot index :=
  entryAt_congr _ _ _ _ bound (fun _ above below => built.untouched inUse aligned above below)

end InUse

theorem copyKernelEntries_triple (start : Machine) (aligned : kernelRoot % 4096 = 0)
    (done : Nat → Prop) (doneBound : ∀ index, done index → index < 512) (items : List Nat)
    (upper : ∀ index ∈ items, 256 ≤ index ∧ index < 512) {stopped : Unit → Machine → Prop} :
    Triple (fun machine => Fresh start root machine ∧
        (InUse start kernelRoot → ∀ index, done index →
          entryAt machine.mem root index = entryAt start.mem kernelRoot index))
      (each (copyKernelEntry kernelRoot root) items)
      (fun _ machine => Fresh start root machine ∧
        (InUse start kernelRoot → ∀ index, done index ∨ index ∈ items →
          entryAt machine.mem root index = entryAt start.mem kernelRoot index)) stopped := by
  induction items generalizing done with
  | nil =>
    apply Triple.pure
    rintro machine ⟨fresh, copied⟩
    exact ⟨fresh, fun inUse index at_ => copied inUse index (by simpa using at_)⟩
  | cons item rest ih =>
    have itemUpper := upper item (.head _)
    have later := ih (fun index => done index ∨ index = item)
      (by
        rintro index (old | rfl)
        · exact doneBound index old
        · exact itemUpper.2)
      (fun index member => upper index (.tail item member))
    refine .bind _ (.modify _ ?_)
      (fun _ => later.weaken (fun _ holds => holds) ?_ (fun _ _ holds => holds))
    · rintro machine ⟨fresh, copied⟩
      refine ⟨fresh.copyEntry itemUpper, ?_⟩
      intro inUse index at_
      obtain ⟨_, built⟩ := fresh.built
      by_cases here : index = item
      · subst index
        rw [← built.kernelEntry aligned inUse itemUpper.2]
        exact entryAt_writeWord_same _ _ _ _ (entryAt_lt _ _ _)
      · rw [← copied inUse index (at_.resolve_right here)]
        have bound := doneBound index (at_.resolve_right here)
        have frame := built.live.rootFrame
        apply entryAt_writeWord_other _ _ _ _ _ _ frame frame itemUpper.2 bound
        intro same
        exact here (Prod.mk.inj same).2
    · rintro _ machine ⟨fresh, copied⟩
      refine ⟨fresh, ?_⟩
      intro inUse index at_
      apply copied inUse index
      rcases at_ with old | member
      · exact .inl (.inl old)
      · rcases mem_cons.mp member with same | later
        · exact .inl (.inr same)
        · exact .inr later

def NothingTaken (start machine : Machine) : Prop :=
  machine = start ∨
    ∃ pmm, Pmm.allocPage start.pmm = (0, pmm) ∧ machine = { start with pmm := pmm }

def SharesKernel (start : Memory) (kernelRoot root : Nat) (mem : Memory) : Prop :=
  ∀ index, 256 ≤ index → index < 512 → entryAt mem root index = entryAt start kernelRoot index

theorem createAddressSpace_triple {start : Machine} {kernelRoot : Nat}
    (addressable : start.pmm.totalPages ≤ 2 ^ 40) (aligned : kernelRoot % 4096 = 0) :
    Triple (· = start) (createAddressSpace kernelRoot)
      (fun root machine => Fresh start root machine ∧
        (InUse start kernelRoot → SharesKernel start.mem kernelRoot root machine.mem))
      (fun _ machine => NothingTaken start machine) := by
  unfold createAddressSpace
  apply Triple.ite
  · intro _
    exact .stop () (fun machine same => .inl same)
  intro _
  apply Triple.bind _ allocateZeroedPage_triple
  intro phys
  apply Triple.ite
  · intro zero
    apply Triple.stop
    rintro after ⟨machine, rfl, allocated⟩
    right
    cases allocated with
    | none failed => exact ⟨_, failed, rfl⟩
    | page _ _ nonzero =>
      unfold pageSize at zero
      omega
  · intro got
    refine .bind _ ((copyKernelEntries_triple start aligned (fun _ => False)
      (fun _ impossible => impossible.elim) upperHalf
      (fun index member => (mem_upperHalf index).mp member)).weaken ?_
      (fun _ _ holds => holds) (fun _ _ holds => holds)) (fun _ => .pure phys ?_)
    · rintro after ⟨machine, rfl, allocated⟩
      obtain ⟨page, rfl, inside, clear, nonzero, rfl⟩ := allocated.taken got
      exact ⟨fresh_zeroed addressable inside clear nonzero,
        fun _ _ impossible => impossible.elim⟩
    · rintro machine ⟨fresh, copied⟩
      refine ⟨fresh, ?_⟩
      intro inUse index low high
      exact copied inUse index (.inr ((mem_upperHalf index).mpr ⟨low, high⟩))

/-! ### The upper half under edits -/

theorem Edit.upper (edit : Edit root machine after) (live : Live machine root) (high : 256 ≤ index)
    (bound : index < 512) : entryAt after.mem root index = entryAt machine.mem root index := by
  have rootFrame := live.rootFrame
  -- an entry of the lower half is not an entry of the root's upper half
  have entryElsewhere : ∀ (mem : Memory) (path : List Nat) (table slot value : Nat),
      LowPath (path ++ [slot]) → frameAt machine.mem root path = some table →
        entryAt (writeWord mem (entryAddress table slot) value) root index =
          entryAt mem root index := by
    intro mem path table slot value low reached
    apply entryAt_writeWord_other _ _ _ _ _ _ (live.space.frame path table low.parent reached)
      rootFrame low.last_lt bound
    intro same
    obtain ⟨sameTable, sameSlot⟩ := Prod.mk.inj same
    rw [← sameTable] at reached
    have atRoot : path = [] :=
      live.space.unshared path [] root low.parent lowPath_nil reached rfl
    subst atRoot
    have lowSlot := low.2.2 slot rfl
    omega
  cases edit with
  | exhausted none => rfl
  | @link path table slot page flags low reached empty inside clear nonzero opens =>
    refine (entryElsewhere _ path table slot _ low reached).trans ?_
    apply entryAt_congr _ _ _ _ bound
    intro address above below
    have frame := frame_of_page live.addressable inside nonzero
    have fresh := (live.newFrame clear).ne lowPath_nil rfl
    apply fill_outside
    rcases rootFrame.apart frame fresh with before | after
    · omega
    · omega
  | @relabel path table slot entry low reached present links =>
    exact entryElsewhere _ path table slot _ low reached
  | @data path phys offset bytes low leaf reached inside =>
    apply entryAt_congr _ _ _ _ bound
    intro address above below
    exact live.space.sameTables_writeBytes low leaf reached inside [] root lowPath_nil
      (by decide) rfl address above below

theorem Edits.sharesKernel {start : Memory} (edits : Edits root machine after)
    (live : Live machine root) (shares : SharesKernel start kernelRoot root machine.mem) :
    SharesKernel start kernelRoot root after.mem := by
  induction edits with
  | refl => exact shares
  | tail earlier edit ih =>
    intro index high bound
    rw [edit.upper (Edits.live earlier live) high bound]
    exact ih index high bound

/-! ### Address spaces of the loader -/

/-- An address space as the loader makes it: a new root, and pages that are mapped
one after another.  A call may fail for want of memory.  The flags of a page carry
no address and no size bit; the loader passes `PTE_WRITABLE` and `PTE_NX`. -/
inductive LoaderSpace (kernelRoot : Nat) (start : Machine) (root : Nat) : Machine → Prop
  | create {machine : Machine}
      (made : (createAddressSpace kernelRoot).run start = (.ok root, machine)) :
      LoaderSpace kernelRoot start root machine
  | map {machine after : Machine} {result : Except Unit Unit} (virtualAddress flags : Nat)
      (earlier : LoaderSpace kernelRoot start root machine) (given : LeafFlags flags)
      (called : (mapUserPage root virtualAddress flags).run machine = (result, after)) :
      LoaderSpace kernelRoot start root after

theorem mapUserPage_mod (root virtualAddress flags : Nat) :
    mapUserPage root virtualAddress flags = mapUserPage root (virtualAddress % 2 ^ 48) flags := by
  have top : virtualAddress % 2 ^ 48 / 2 ^ 39 % 512 = virtualAddress / 2 ^ 39 % 512 := by omega
  have leaf : leafIndex (virtualAddress % 2 ^ 48) = leafIndex virtualAddress := by
    unfold leafIndex
    omega
  have tables : tableIndices (virtualAddress % 2 ^ 48) = tableIndices virtualAddress := by
    simp only [tableIndices, pageIndices, take_succ_cons, take_zero, List.cons.injEq,
      and_true]
    omega
  unfold mapUserPage
  rw [top, leaf, tables]

theorem mapUserPage_edits {after : Machine} (live : Live machine root) {virtualAddress flags : Nat}
    (given : LeafFlags flags) {result : Except Unit Unit}
    (called : (mapUserPage root virtualAddress flags).run machine = (result, after)) :
    Edits root machine after := by
  rw [mapUserPage_mod] at called
  by_cases user : virtualAddress % 2 ^ 48 < userTop
  · have mapped := mapUserPage_triple live (virtualAddress % 2 ^ 48) flags user given
    cases result with
    | ok _ => exact (mapped.ok rfl called).1
    | error _ => exact (mapped.error rfl called).1
  · have high : 256 ≤ virtualAddress % 2 ^ 48 / 2 ^ 39 % 512 := by
      unfold userTop at user
      omega
    unfold mapUserPage at called
    rw [if_pos high] at called
    cases called
    exact .refl

theorem LoaderSpace.live {kernelRoot : Nat} {start : Machine}
    (addressable : start.pmm.totalPages ≤ 2 ^ 40) (aligned : kernelRoot % 4096 = 0)
    (built : LoaderSpace kernelRoot start root machine) : Live machine root := by
  induction built with
  | create made =>
    obtain ⟨⟨events, built⟩, _⟩ := ((createAddressSpace_triple addressable aligned).ok rfl made).1
    exact built.live
  | map _ _ _ given called ih => exact (mapUserPage_edits ih given called).live ih

/-! ### A small machine -/

/-- Eight pages, of which the first two are in use. -/
def tinyMachine : Machine := ⟨fun _ => 0, ⟨fun _ => 3, 8, 6, Pmm.eight_addressable⟩, []⟩

theorem tinyMachine_creates :
    ∃ machine, (createAddressSpace 4096).run tinyMachine = (.ok 8192, machine) :=
  ⟨_, run_of_toOption (by decide +kernel)⟩

/-- A space with a page at 4 MiB. -/
def mappedMachine : Machine :=
  ((mapUserPage 8192 0x400000 pteWritable).run ((createAddressSpace 4096).run tinyMachine).2).2

theorem mappedMachine_built : LoaderSpace 4096 tinyMachine 8192 mappedMachine := by
  obtain ⟨created, made⟩ := tinyMachine_creates
  unfold mappedMachine
  rw [made]
  exact .map 0x400000 pteWritable (.create made) (by constructor <;> decide) rfl

-- unification must not run the calls
attribute [irreducible] mappedMachine

end Synx.Exec
