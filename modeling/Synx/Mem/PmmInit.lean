/-
The boot-time setup of the physical page allocator, `pmm::init`.
-/

import Synx.Mem.PmmOwnership

namespace Synx.Pmm

open Lib List

/-- The range types of the boot loader's memory map, in the order of their
numbers. -/
inductive MemmapType
  | usable
  | reserved
  | acpiReclaimable
  | acpiNvs
  | badMemory
  | bootloaderReclaimable
  | executableAndModules
  | framebuffer
  | reservedMapped
  deriving DecidableEq

structure MemmapEntry where
  base : Nat
  length : Nat
  type : MemmapType
  deriving DecidableEq

def MemmapEntry.top (entry : MemmapEntry) : Nat :=
  (entry.base + entry.length) % wordSize

def higherTop (highest : Nat) (entry : MemmapEntry) : Nat :=
  if entry.top > highest then entry.top else highest

def highestAddr (entries : List MemmapEntry) : Nat :=
  entries.foldl higherTop 0

def totalPagesOf (entries : List MemmapEntry) : Nat :=
  highestAddr entries / pageSize

/-- One byte for eight pages, rounded up to whole pages. -/
def bitmapSize (totalPages : Nat) : Nat :=
  (totalPages / 8 + pageSize - 1) / pageSize * pageSize

def bitmapPhys (entries : List MemmapEntry) : Nat :=
  match entries.find? (fun entry =>
      entry.type == .usable && bitmapSize (totalPagesOf entries) ≤ entry.length) with
  | some entry => entry.base
  | none => 0

def inBitmap (entries : List MemmapEntry) (address : Nat) : Bool :=
  bitmapPhys entries ≤ address &&
    address < bitmapPhys entries + bitmapSize (totalPagesOf entries)

/-- Clears the bits of the pages from `page` on, except for those that hold the
bitmap, and counts them. -/
def clearPagesFrom (entries : List MemmapEntry) : Nat → Nat → Memory × Nat → Memory × Nat
  | _, 0, progress => progress
  | page, count + 1, progress =>
    clearPagesFrom entries (page + pageSize) count
      (if inBitmap entries page then progress
       else (bitmapClear progress.1 (page / pageSize), (progress.2 + 1) % wordSize))

/-- The loop over one usable range steps through it page by page up to its
wrapped end. -/
def clearEntry (entries : List MemmapEntry) (progress : Memory × Nat)
    (entry : MemmapEntry) : Memory × Nat :=
  if entry.type = .usable then
    clearPagesFrom entries entry.base ((entry.top - entry.base + pageSize - 1) / pageSize) progress
  else progress

/-- The bitmap after the fill loop, which runs to `bitmap_size / 8`. -/
def filledBitmap (entries : List MemmapEntry) (ram : Memory) : Memory :=
  Memory.fill (fun index => ram (bitmapPhys entries + index)) 0
    (bitmapSize (totalPagesOf entries) / 8) 255

theorem highestAddr_lt (entries : List MemmapEntry) : highestAddr entries < wordSize := by
  have step : ∀ (list : List MemmapEntry) (highest : Nat), highest < wordSize →
      list.foldl higherTop highest < wordSize := by
    intro list
    induction list with
    | nil => intro highest small; exact small
    | cons entry rest ih =>
      intro highest small
      apply ih
      unfold higherTop
      split
      · exact Nat.mod_lt _ (by decide)
      · exact small
  exact step entries 0 (by decide)

theorem totalPagesOf_le (entries : List MemmapEntry) : totalPagesOf entries ≤ 2 ^ 52 := by
  have bound := highestAddr_lt entries
  unfold wordSize at bound
  unfold totalPagesOf pageSize
  omega

/-- `none` is the panic of a machine without room for the bitmap. -/
def init (entries : List MemmapEntry) (ram : Memory) : Option State :=
  if bitmapPhys entries = 0 then none
  else
    let progress := entries.foldl (clearEntry entries) (filledBitmap entries ram, 0)
    some
      { bitmap := progress.1
        totalPages := totalPagesOf entries
        freePages := progress.2
        addressable := totalPagesOf_le entries }

/-! ### What the setup should achieve -/

def MemmapEntry.Contains (entry : MemmapEntry) (page : Nat) : Prop :=
  entry.base ≤ page * pageSize ∧ page * pageSize < entry.base + entry.length

instance (entry : MemmapEntry) (page : Nat) : Decidable (entry.Contains page) := by
  unfold MemmapEntry.Contains
  infer_instance

/-- A frame that the boot loader offers for use. -/
def usableFrame (entries : List MemmapEntry) (page : Nat) : Bool :=
  entries.any (fun entry => entry.type == .usable && decide (entry.Contains page))

/-- A usable frame that does not hold the bitmap. -/
def allocatableFrame (entries : List MemmapEntry) (page : Nat) : Bool :=
  usableFrame entries page && !inBitmap entries (page * pageSize)

/-- What the boot protocol promises about the usable ranges of its map. -/
structure BootMap (entries : List MemmapEntry) : Prop where
  bounded : ∀ entry, entry ∈ entries → entry.type = .usable →
    entry.base + entry.length < wordSize
  aligned : ∀ entry, entry ∈ entries → entry.type = .usable →
    entry.base % pageSize = 0 ∧ entry.length % pageSize = 0
  zeroReserved : ∀ entry, entry ∈ entries → entry.type = .usable → ¬entry.Contains 0
  apart : entries.Pairwise (fun left right => left.type = .usable → right.type = .usable →
    ∀ page, left.Contains page → ¬right.Contains page)

/-- Every frame is classified, every allocatable frame is counted once, and no
run of the allocator hands out any other frame. -/
structure FramesClassified (entries : List MemmapEntry) (state : State) : Prop where
  bits : ∀ page, page < state.totalPages →
    (bitmapGet state.bitmap page = false ↔ allocatableFrame entries page = true)
  counted : state.freePages = countBelow (allocatableFrame entries) state.totalPages
  handedOut : ∀ finish, Relation.ReflTransGen Call ⟨state, []⟩ finish →
    ∀ block, block ∈ finish.held → ∀ page, block.Covers page →
      allocatableFrame entries page = true

/-- The bits that the fill loop misses and no range clears already stand in the
memory that the bitmap is placed in. -/
def RamHoldsBits (entries : List MemmapEntry) (ram : Memory) : Prop :=
  ∀ page, bitmapSize (totalPagesOf entries) ≤ page → page < totalPagesOf entries →
    allocatableFrame entries page = false →
      bitmapGet (fun index => ram (bitmapPhys entries + index)) page = true

/-! ### The clearing loops -/

theorem top_le_highestAddr (entries : List MemmapEntry) (entry : MemmapEntry)
    (member : entry ∈ entries) : entry.top ≤ highestAddr entries := by
  have grows : ∀ (list : List MemmapEntry) (highest : Nat),
      highest ≤ list.foldl higherTop highest := by
    intro list
    induction list with
    | nil => intro highest; exact Nat.le_refl highest
    | cons head rest ih =>
      intro highest
      refine le_trans ?_ (ih (higherTop highest head))
      unfold higherTop
      split <;> omega
  have reached : ∀ (list : List MemmapEntry) (highest : Nat), entry ∈ list →
      entry.top ≤ list.foldl higherTop highest := by
    intro list
    induction list with
    | nil => intro highest absent; cases absent
    | cons head rest ih =>
      intro highest present
      rcases mem_cons.mp present with rfl | later
      · refine le_trans ?_ (grows rest (higherTop highest entry))
        unfold higherTop
        split <;> omega
      · exact ih (higherTop highest head) later
  exact reached entries 0 member

/-- Progress of the clearing loops: the frames in `marked` have been cleared and
counted, and every other bit is as the loops found it. -/
structure Cleared (initial : Memory) (total : Nat) (marked : Nat → Bool)
    (progress : Memory × Nat) : Prop where
  bits : ∀ page, bitmapGet progress.1 page = (!marked page && bitmapGet initial page)
  counted : progress.2 = countBelow marked total

variable {initial : Memory} {marked : Nat → Bool} {progress : Memory × Nat}

private theorem Cleared.congr {total : Nat} {marked' : Nat → Bool}
    (cleared : Cleared initial total marked progress) (same : ∀ page, marked' page = marked page) :
    Cleared initial total marked' progress := by
  have equal : marked' = marked := funext same
  rw [equal]
  exact cleared

private theorem Cleared.pages (entries : List MemmapEntry) {total : Nat} (first count : Nat)
    (cleared : Cleared initial total marked progress) (bound : total ≤ 2 ^ 52)
    (inside : first + count ≤ total)
    (fresh : ∀ page, first ≤ page → page < first + count → marked page = false) :
    Cleared initial total (fun page => marked page ||
        (decide (first ≤ page ∧ page < first + count) && !inBitmap entries (page * pageSize)))
      (clearPagesFrom entries (first * pageSize) count progress) := by
  induction count generalizing first marked progress with
  | zero =>
    apply cleared.congr
    intro page
    have outside : ¬(first ≤ page ∧ page < first + 0) := by omega
    simp only [outside, decide_false, Bool.false_and, Bool.or_false]
  | succ count ih =>
    have nextPage : first * pageSize + pageSize = (first + 1) * pageSize := by
      rw [add_mul, one_mul]
    simp only [clearPagesFrom, nextPage]
    cases held : inBitmap entries (first * pageSize) with
    | true =>
      rw [if_pos rfl]
      have rest := ih (first + 1) cleared (by omega)
        (fun page low high => fresh page (by omega) (by omega))
      apply rest.congr
      intro page
      by_cases here : page = first
      · subst page
        simp [held]
      · have same : (first ≤ page ∧ page < first + (count + 1)) ↔
            (first + 1 ≤ page ∧ page < first + 1 + count) := by omega
        simp only [same]
    | false =>
      rw [if_neg (by decide)]
      have notMarked := fresh first (Nat.le_refl first) (by omega)
      have one : Cleared initial total (fun page => marked page || decide (page = first))
          (bitmapClear progress.1 (first * pageSize / pageSize),
            (progress.2 + 1) % wordSize) := by
        have grown : countBelow (fun page => marked page || decide (page = first)) total =
            countBelow marked total + 1 := by
          apply countBelow_flip _ _ total first (by omega) notMarked
          · simp
          · intro other different
            simp [different]
        constructor
        · intro page
          rw [Nat.mul_div_cancel first (by decide), bitmapGet_bitmapClear, cleared.bits]
          cases marked page <;> cases decide (page = first) <;> rfl
        · have small := countBelow_le
            (fun page => marked page || decide (page = first)) total
          rw [grown] at small ⊢
          rw [cleared.counted]
          apply Nat.mod_eq_of_lt
          unfold wordSize
          omega
      have rest := ih (first + 1) one (by omega) (by
        intro page low high
        have different : page ≠ first := by omega
        simp only [fresh page (by omega) (by omega), different, decide_false, Bool.or_false])
      apply rest.congr
      intro page
      by_cases here : page = first
      · subst page
        simp [held]
      · have same : (first ≤ page ∧ page < first + (count + 1)) ↔
            (first + 1 ≤ page ∧ page < first + 1 + count) := by omega
        simp only [same, here, decide_false, Bool.or_false]

private theorem contains_iff (entry : MemmapEntry) (page : Nat)
    (aligned : entry.base % pageSize = 0 ∧ entry.length % pageSize = 0) :
    entry.Contains page ↔ entry.base / pageSize ≤ page ∧
      page < entry.base / pageSize + entry.length / pageSize := by
  unfold MemmapEntry.Contains
  unfold pageSize at *
  omega

private theorem Cleared.entry {entries : List MemmapEntry} (map : BootMap entries)
    (cleared : Cleared initial (totalPagesOf entries) marked progress) (entry : MemmapEntry)
    (member : entry ∈ entries)
    (fresh : entry.type = .usable → ∀ page, entry.Contains page → marked page = false) :
    Cleared initial (totalPagesOf entries) (fun page => marked page ||
        ((entry.type == .usable && decide (entry.Contains page)) &&
          !inBitmap entries (page * pageSize))) (clearEntry entries progress entry) := by
  unfold clearEntry
  by_cases usable : entry.type = .usable
  · rw [if_pos usable]
    have aligned := map.aligned entry member usable
    have bounded := map.bounded entry member usable
    have topValue : entry.top = entry.base + entry.length := Nat.mod_eq_of_lt bounded
    have below := top_le_highestAddr entries entry member
    have count : (entry.top - entry.base + pageSize - 1) / pageSize =
        entry.length / pageSize := by
      rw [topValue]
      unfold pageSize at *
      omega
    have start : entry.base = entry.base / pageSize * pageSize := by
      unfold pageSize at *
      omega
    have inside : entry.base / pageSize + entry.length / pageSize ≤ totalPagesOf entries := by
      rw [topValue] at below
      unfold totalPagesOf
      unfold pageSize at *
      omega
    have pages := cleared.pages entries (entry.base / pageSize)
      (entry.length / pageSize) (totalPagesOf_le entries) inside (by
        intro page low high
        exact fresh usable page ((contains_iff entry page aligned).mpr ⟨low, high⟩))
    rw [← start] at pages
    rw [count]
    apply pages.congr
    intro page
    simp only [usable, beq_self_eq_true, Bool.true_and, contains_iff entry page aligned]
  · rw [if_neg usable]
    apply cleared.congr
    intro page
    have other : (entry.type == MemmapType.usable) = false := by simpa using usable
    simp only [other, Bool.false_and, Bool.or_false]

private theorem Cleared.list {entries : List MemmapEntry} (map : BootMap entries)
    (list : List MemmapEntry) (cleared : Cleared initial (totalPagesOf entries) marked progress)
    (members : ∀ entry ∈ list, entry ∈ entries)
    (apart : list.Pairwise (fun left right => left.type = .usable → right.type = .usable →
      ∀ page, left.Contains page → ¬right.Contains page))
    (fresh : ∀ entry ∈ list, entry.type = .usable →
      ∀ page, entry.Contains page → marked page = false) : Cleared initial (totalPagesOf entries)
      (fun page => marked page || (usableFrame list page && !inBitmap entries (page * pageSize)))
      (list.foldl (clearEntry entries) progress) := by
  induction list generalizing marked progress with
  | nil =>
    apply cleared.congr
    intro page
    simp only [usableFrame, any_nil, Bool.false_and, Bool.or_false]
  | cons entry rest ih =>
    have headApart := pairwise_cons.mp apart
    have one := cleared.entry map entry (members entry (.head _))
      (fresh entry (.head _))
    have all := ih one (fun other later => members other (.tail entry later))
      headApart.2 (by
        intro other later usable page contained
        have old := fresh other (.tail entry later) usable page contained
        rw [old, Bool.false_or]
        by_cases headUsable : entry.type = .usable
        · have elsewhere : ¬entry.Contains page := fun inHead =>
            headApart.1 other later headUsable usable page inHead contained
          simp only [elsewhere, decide_false, Bool.and_false, Bool.false_and]
        · have other : (entry.type == MemmapType.usable) = false := by simpa using headUsable
          simp only [other, Bool.false_and])
    rw [foldl_cons]
    apply all.congr
    intro page
    simp only [usableFrame, any_cons]
    cases marked page <;> cases inBitmap entries (page * pageSize) <;> simp

theorem bitmapGet_filledBitmap (entries : List MemmapEntry) (ram : Memory) (page : Nat) :
    bitmapGet (filledBitmap entries ram) page =
      (decide (page < bitmapSize (totalPagesOf entries)) ||
        bitmapGet (fun index => ram (bitmapPhys entries + index)) page) := by
  have sizeBytes : bitmapSize (totalPagesOf entries) % 8 = 0 := by
    unfold bitmapSize pageSize
    omega
  have small : page % 8 < 8 := Nat.mod_lt page (by decide)
  by_cases filled : page < bitmapSize (totalPagesOf entries)
  · have inside : 0 ≤ page / 8 ∧
        page / 8 < 0 + bitmapSize (totalPagesOf entries) / 8 := by omega
    rw [bitmapGet_eq_testBit, filledBitmap, Memory.fill_inside _ _ _ _ _ inside,
      decide_eq_true filled, Bool.true_or]
    change (2 ^ 8 - 1).testBit (page % 8) = true
    rw [Nat.testBit_two_pow_sub_one, decide_eq_true small]
  · have outside : page / 8 < 0 ∨
        0 + bitmapSize (totalPagesOf entries) / 8 ≤ page / 8 := by omega
    rw [bitmapGet_eq_testBit, filledBitmap, Memory.fill_outside _ _ _ _ _ outside,
      decide_eq_false filled, Bool.false_or, bitmapGet_eq_testBit]

theorem init_cleared (entries : List MemmapEntry) (ram : Memory) (state : State)
    (map : BootMap entries) (booted : init entries ram = some state) :
    state.totalPages = totalPagesOf entries ∧
      Cleared (filledBitmap entries ram) (totalPagesOf entries) (allocatableFrame entries)
        (state.bitmap, state.freePages) := by
  unfold init at booted
  split at booted
  · cases booted
  · have same := Option.some.inj booted
    subst state
    refine ⟨rfl, ?_⟩
    have start : Cleared (filledBitmap entries ram) (totalPagesOf entries) (fun _ => false)
        (filledBitmap entries ram, 0) := by
      constructor
      · intro page
        simp only [Bool.not_false, Bool.true_and]
      · simp [countBelow]
    have all := start.list map entries (fun _ member => member) map.apart
      (fun _ _ _ _ _ => rfl)
    apply all.congr
    intro page
    simp only [allocatableFrame, Bool.false_or]

/-! ### Which frames are handed out -/

section

variable (entries : List MemmapEntry) (ram : Memory) (state : State) (map : BootMap entries)
  (booted : init entries ram = some state)

include entries ram state map booted

private theorem init_bit (page : Nat) : bitmapGet state.bitmap page =
      (!allocatableFrame entries page && (decide (page < bitmapSize (totalPagesOf entries)) ||
          bitmapGet (fun index => ram (bitmapPhys entries + index)) page)) := by
  rw [(init_cleared entries ram state map booted).2.bits page, bitmapGet_filledBitmap]

theorem ramHoldsBits_of_classified (classified : FramesClassified entries state) :
    RamHoldsBits entries ram := by
  intro page missed below reserved
  have total := (init_cleared entries ram state map booted).1
  have wrong := (classified.bits page (by rw [total]; exact below)).not
  rw [init_bit entries ram state map booted, reserved,
    decide_eq_false (not_lt.mpr missed)] at wrong
  simpa using wrong

end

/-- The setup classifies every frame exactly when the memory under the bitmap
already held the bits that the short fill loop leaves alone. -/
theorem init_classifies_iff (entries : List MemmapEntry) (ram : Memory) (state : State)
    (map : BootMap entries) (booted : init entries ram = some state) :
    FramesClassified entries state ↔ RamHoldsBits entries ram := by
  obtain ⟨total, cleared⟩ := init_cleared entries ram state map booted
  have bit := init_bit entries ram state map booted
  constructor
  · exact ramHoldsBits_of_classified entries ram state map booted
  · intro holds
    have bits : ∀ page, page < state.totalPages →
        (bitmapGet state.bitmap page = false ↔ allocatableFrame entries page = true) := by
      intro page below
      rw [total] at below
      rw [bit]
      cases allocatable : allocatableFrame entries page with
      | true => simp
      | false =>
        by_cases filled : page < bitmapSize (totalPagesOf entries)
        · simp [filled]
        · have ramBit := holds page (by omega) below allocatable
          simp [ramBit]
    have counted : state.freePages = countBelow (allocatableFrame entries) state.totalPages := by
      rw [total]
      exact cleared.counted
    have start : Shielded (fun page => allocatableFrame entries page = false) ⟨state, []⟩ := by
      refine ⟨?_, ?_, ?_, ?_⟩
      · intro page reserved _ below
        have notClear := (bits page below).not
        rw [reserved] at notClear
        simpa using notClear
      · intro block member; cases member
      · intro block member; cases member
      · intro block member; cases member
    refine ⟨bits, counted, ?_⟩
    intro finish calls block member page covered
    simpa using (start.run calls).held block member page covered

/-- Two usable pages in low memory and one reserved page at 16 MiB. -/
def sparseMap : List MemmapEntry :=
  [⟨0x1000, 0x2000, .usable⟩, ⟨0x1000000, 0x1000, .reserved⟩]

theorem sparseMap_usable {entry : MemmapEntry} (member : entry ∈ sparseMap)
    (usable : entry.type = .usable) : entry = ⟨0x1000, 0x2000, .usable⟩ := by
  rcases mem_cons.mp member with rfl | later
  · rfl
  · rw [mem_singleton] at later
    subst entry
    cases usable

theorem sparseMap_boots : BootMap sparseMap := by
  constructor
  · intro entry member usable
    rw [sparseMap_usable member usable]
    decide
  · intro entry member usable
    rw [sparseMap_usable member usable]
    decide
  · intro entry member usable
    rw [sparseMap_usable member usable]
    decide
  · refine pairwise_cons.mpr ⟨?_, pairwise_singleton _ _⟩
    intro entry member _ usable
    rw [mem_singleton] at member
    subst entry
    cases usable

theorem sparseMap_init_some (ram : Memory) : ∃ state, init sparseMap ram = some state := by
  unfold init
  rw [if_neg (by decide)]
  exact ⟨_, rfl⟩

theorem init_classifies_sparse :
    ∃ state, init sparseMap (fun _ => 255) = some state ∧ FramesClassified sparseMap state := by
  obtain ⟨state, booted⟩ := sparseMap_init_some (fun _ => 255)
  refine ⟨state, booted, (init_classifies_iff sparseMap _ state sparseMap_boots booted).mpr ?_⟩
  intro page _ _ _
  rw [bitmapGet_eq_testBit]
  exact (Nat.testBit_two_pow_sub_one 8 (page % 8)).trans
    (decide_eq_true (Nat.mod_lt _ (by decide)))

/-- On zeroed memory the reserved page at 16 MiB is left clear. -/
theorem init_misclassifies_sparse :
    BootMap sparseMap ∧
      ∃ state, init sparseMap (fun _ => 0) = some state ∧ ¬FramesClassified sparseMap state := by
  obtain ⟨state, booted⟩ := sparseMap_init_some (fun _ => 0)
  refine ⟨sparseMap_boots, state, booted, ?_⟩
  intro classified
  have holds := ramHoldsBits_of_classified sparseMap _ state sparseMap_boots booted classified
  have reserved := holds 4096 (by decide) (by decide) (by decide)
  exact absurd reserved (by decide)

end Synx.Pmm
