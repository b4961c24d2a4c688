/-
Where the bits of the page allocator lie.
-/

import Synx.Mem.FirstFit
import Synx.Mem.PmmInit

namespace Synx.Pmm

open Lib

/-- The address of the byte that `bitmap_get`, `bitmap_set` and `bitmap_clear`
touch for a bit. -/
def bitmapByte (entries : List MemmapEntry) (bit : Nat) : Nat :=
  bitmapPhys entries + bit / 8

def StorageFrame (entries : List MemmapEntry) (frame : Nat) : Prop :=
  ∃ bit, bit < totalPagesOf entries ∧ bitmapByte entries bit / pageSize = frame

/-- The bits lie inside the reserved region and no run of the allocator hands out
a frame with one of them. -/
structure BitmapProtected (entries : List MemmapEntry) (state : State) : Prop where
  inside : ∀ bit, bit < totalPagesOf entries →
    inBitmap entries (bitmapByte entries bit) = true
  apart : ∀ finish, Relation.ReflTransGen Call ⟨state, []⟩ finish →
    ∀ block, block ∈ finish.held → ∀ page, block.Covers page → ¬StorageFrame entries page

/-- The setup loop clears the bit of a frame when it steps on it outside the
reserved region. -/
def ClearsFrame (entries : List MemmapEntry) (frame : Nat) : Prop :=
  ∃ entry, entry ∈ entries ∧ entry.type = .usable ∧
    ∃ step, step * pageSize < entry.length ∧
      inBitmap entries (entry.base + step * pageSize) = false ∧
      (entry.base + step * pageSize) / pageSize = frame

/-- The page count leaves no bit behind the region, and every frame of the bitmap
stays marked: the loop over the usable ranges passes it by, and the fill loop
reaches its bit or the bit stood in memory before. -/
structure RegionHolds (entries : List MemmapEntry) (ram : Memory) : Prop where
  fits : totalPagesOf entries % 8 = 0 ∨ totalPagesOf entries / 8 % pageSize ≠ 0
  kept : ∀ frame, StorageFrame entries frame → 0 < frame → frame < totalPagesOf entries →
    ¬ClearsFrame entries frame ∧
      (frame < bitmapSize (totalPagesOf entries) ∨
        bitmapGet (fun index => ram (bitmapPhys entries + index)) frame = true)

/-- Every usable range lies in the 64-bit address space and the page counter of
the loop over it stays there.  With a range that wraps the loop does not end. -/
def RangesEnd (entries : List MemmapEntry) : Prop :=
  ∀ entry, entry ∈ entries → entry.type = .usable →
    entry.base + (entry.length + pageSize - 1) / pageSize * pageSize < wordSize

/-! ### The size of the region -/

theorem inBitmap_byte_iff (entries : List MemmapEntry) :
    (∀ bit < totalPagesOf entries, inBitmap entries (bitmapByte entries bit) = true) ↔
      (totalPagesOf entries % 8 = 0 ∨ totalPagesOf entries / 8 % pageSize ≠ 0) := by
  have inside : ∀ bit, inBitmap entries (bitmapByte entries bit) = true ↔
      bit / 8 < bitmapSize (totalPagesOf entries) := by
    intro bit
    unfold inBitmap bitmapByte
    rw [Bool.and_eq_true, decide_eq_true_iff, decide_eq_true_iff]
    omega
  simp only [inside]
  unfold bitmapSize pageSize
  constructor
  · intro all
    by_contra bad
    have last := all (totalPagesOf entries - 1) (by omega)
    omega
  · intro fits bit below
    omega

/-! ### The bits after the setup -/

private theorem bitmapGet_clearPagesFrom (entries : List MemmapEntry) (page count frame : Nat)
    (progress : Memory × Nat) :
    bitmapGet (clearPagesFrom entries page count progress).1 frame = true ↔
      bitmapGet progress.1 frame = true ∧ ∀ step < count,
        inBitmap entries (page + step * pageSize) = false →
          (page + step * pageSize) / pageSize ≠ frame := by
  induction count generalizing page progress with
  | zero =>
    simp only [clearPagesFrom]
    refine ⟨fun set => ⟨set, ?_⟩, And.left⟩
    intro step impossible
    omega
  | succ count ih =>
    have shift : ∀ step, page + pageSize + step * pageSize = page + (step + 1) * pageSize := by
      intro step
      rw [add_mul, one_mul]
      omega
    have here : bitmapGet (if inBitmap entries page then progress
        else (bitmapClear progress.1 (page / pageSize), (progress.2 + 1) % wordSize)).1 frame =
          true ↔ bitmapGet progress.1 frame = true ∧
            (inBitmap entries page = false → page / pageSize ≠ frame) := by
      cases held : inBitmap entries page with
      | true => simp
      | false =>
        simp only [Bool.false_eq_true, if_false, bitmapGet_bitmapClear, Bool.and_eq_true,
          Bool.not_eq_true', decide_eq_false_iff_not, true_implies]
        exact ⟨fun both => ⟨both.2, fun same => both.1 same.symm⟩,
          fun both => ⟨fun same => both.2 same.symm, both.1⟩⟩
    simp only [clearPagesFrom]
    rw [ih, here]
    constructor
    · rintro ⟨⟨set, first⟩, rest⟩
      refine ⟨set, ?_⟩
      intro step below outside
      cases step with
      | zero =>
        rw [zero_mul, add_zero] at outside ⊢
        exact first outside
      | succ step =>
        rw [← shift] at outside ⊢
        exact rest step (by omega) outside
    · rintro ⟨set, all⟩
      refine ⟨⟨set, ?_⟩, ?_⟩
      · intro outside
        have first := all 0 (by omega)
        rw [zero_mul, add_zero] at first
        exact first outside
      · intro step below outside
        rw [shift] at outside ⊢
        exact all (step + 1) (by omega) outside

private def EntryClears (entries : List MemmapEntry) (frame : Nat) (entry : MemmapEntry) : Prop :=
  entry.type = .usable ∧ ∃ step, step * pageSize < entry.length ∧
    inBitmap entries (entry.base + step * pageSize) = false ∧
    (entry.base + step * pageSize) / pageSize = frame

variable {entries : List MemmapEntry} {ram : Memory} {state : State}

private theorem bitmapGet_clearEntry {entry : MemmapEntry} (ends : entry.type = .usable →
      entry.base + (entry.length + pageSize - 1) / pageSize * pageSize < wordSize) (frame : Nat)
    (progress : Memory × Nat) : bitmapGet (clearEntry entries progress entry).1 frame = true ↔
      bitmapGet progress.1 frame = true ∧ ¬EntryClears entries frame entry := by
  unfold clearEntry EntryClears
  by_cases usable : entry.type = .usable
  · have bound := ends usable
    have top : entry.top = entry.base + entry.length := by
      apply Nat.mod_eq_of_lt
      unfold pageSize at bound
      omega
    have reached : ∀ step, step < (entry.top - entry.base + pageSize - 1) / pageSize ↔
        step * pageSize < entry.length := by
      intro step
      rw [top]
      unfold pageSize
      omega
    rw [if_pos usable, bitmapGet_clearPagesFrom]
    refine and_congr_right (fun _ => ?_)
    constructor
    · rintro all ⟨_, step, below, outside, same⟩
      exact all step ((reached step).mpr below) outside same
    · intro none step below outside same
      exact none ⟨usable, step, (reached step).mp below, outside, same⟩
  · rw [if_neg usable]
    exact ⟨fun set => ⟨set, fun clears => usable clears.1⟩, And.left⟩

private theorem bitmapGet_clearEntries (frame : Nat) (list : List MemmapEntry)
    (progress : Memory × Nat) (ends : ∀ entry ∈ list, entry.type = .usable →
      entry.base + (entry.length + pageSize - 1) / pageSize * pageSize < wordSize) :
    bitmapGet (list.foldl (clearEntry entries) progress).1 frame = true ↔
      bitmapGet progress.1 frame = true ∧
        ∀ entry ∈ list, ¬EntryClears entries frame entry := by
  induction list generalizing progress with
  | nil => simp
  | cons entry rest ih =>
    rw [List.foldl_cons, ih _ (fun other later => ends other (.tail entry later)),
      bitmapGet_clearEntry (ends entry (.head _)), and_assoc]
    refine and_congr_right (fun _ => ?_)
    rw [List.forall_mem_cons]

theorem init_bit_iff (ranges : RangesEnd entries) (booted : init entries ram = some state)
    (frame : Nat) : bitmapGet state.bitmap frame = true ↔ ¬ClearsFrame entries frame ∧
      (frame < bitmapSize (totalPagesOf entries) ∨
        bitmapGet (fun index => ram (bitmapPhys entries + index)) frame = true) := by
  have untouched : (∀ entry ∈ entries, ¬EntryClears entries frame entry) ↔
      ¬ClearsFrame entries frame := by
    unfold EntryClears ClearsFrame
    simp only [not_exists, not_and]
  unfold init at booted
  split at booted
  · cases booted
  · have same := Option.some.inj booted
    subst state
    simp only
    rw [bitmapGet_clearEntries frame entries _ ranges, bitmapGet_filledBitmap, untouched,
      Bool.or_eq_true, decide_eq_true_eq, and_comm]

theorem init_totalPages (booted : init entries ram = some state) :
    state.totalPages = totalPagesOf entries := by
  unfold init at booted
  split at booted
  · cases booted
  · rw [← Option.some.inj booted]

/-! ### What a run can hand out -/

private theorem allocPage_first (state : State) (page : Nat) (below : page < state.totalPages)
    (clear : bitmapGet state.bitmap page = false)
    (used : ∀ other < page, bitmapGet state.bitmap other = true) :
    allocPage state = (page * pageSize, state.take page 1) := by
  have run : ClearRun state.bitmap state.totalPages 1 page := by
    refine ⟨below, ?_⟩
    intro other low high
    rw [show other = page by omega]
    exact clear
  rw [← allocPages_one]
  rcases allocPages_leftmost state 1 (Nat.le_refl 1) with ⟨start, first, took⟩ | ⟨none, _⟩
  · have atMost := first.first page run
    have atLeast : page ≤ start := by
      by_contra before
      have free := first.run.clear start (Nat.le_refl start) (by omega)
      rw [used start (by omega)] at free
      cases free
    rw [took, le_antisymm atMost atLeast]
  · exact absurd run (none page)

private theorem reaches_clear (frame : Nat) (positive : 0 < frame) (gap : Nat)
    (holdings : Holdings) (below : frame < holdings.pmm.totalPages)
    (clear : bitmapGet holdings.pmm.bitmap frame = false)
    (used : ∀ page, page + gap < frame → bitmapGet holdings.pmm.bitmap page = true) :
    ∃ finish, Relation.ReflTransGen Call holdings finish ∧
      ⟨frame * pageSize, 1⟩ ∈ finish.held := by
  induction gap generalizing holdings with
  | zero =>
    have took := allocPage_first holdings.pmm frame below clear used
    have nonnull : frame * pageSize ≠ 0 := by
      unfold pageSize
      omega
    refine ⟨_, .single (Call.allocPage holdings), ?_⟩
    rw [took]
    simp only [Holdings.gained, if_neg nonnull]
    exact .head _
  | succ gap ih =>
    by_cases near : frame ≤ gap
    · exact ih holdings below clear (by intro page; omega)
    cases found : bitmapGet holdings.pmm.bitmap (frame - (gap + 1)) with
    | true =>
      apply ih holdings below clear
      intro page before
      by_cases same : page = frame - (gap + 1)
      · rw [same]
        exact found
      · exact used page (by omega)
    | false =>
      have took := allocPage_first holdings.pmm (frame - (gap + 1)) (by omega) found
        (by intro page before; exact used page (by omega))
      obtain ⟨finish, calls, held⟩ := ih (holdings.gained (allocPage holdings.pmm) 1)
        (by rw [took]; exact below)
        (by
          rw [took]
          change bitmapGet (bitmapSetRun _ _ 1) frame = false
          rw [bitmapGet_bitmapSetRun, clear, Bool.or_false, decide_eq_false]
          omega)
        (by
          intro page before
          rw [took]
          change bitmapGet (bitmapSetRun _ _ 1) page = true
          rw [bitmapGet_bitmapSetRun]
          by_cases same : page = frame - (gap + 1)
          · rw [decide_eq_true (by omega), Bool.true_or]
          · rw [used page (by omega), Bool.or_true])
      exact ⟨finish, .head (Call.allocPage holdings) calls, held⟩

theorem never_handed_out_iff (state : State) (frames : Nat → Prop) :
    (∀ finish, Relation.ReflTransGen Call ⟨state, []⟩ finish →
      ∀ block ∈ finish.held, ∀ page, block.Covers page → ¬frames page) ↔
    ∀ frame, frames frame → 0 < frame → frame < state.totalPages →
      bitmapGet state.bitmap frame = true := by
  constructor
  · intro never frame framed positive below
    cases found : bitmapGet state.bitmap frame with
    | true => rfl
    | false =>
      obtain ⟨finish, calls, held⟩ := reaches_clear frame positive frame ⟨state, []⟩ below found
        (by intro page; omega)
      exact absurd framed (never finish calls _ held frame
        ((Block.covers_mul frame 1 frame).mpr ⟨by omega, by omega⟩))
  · intro marked finish calls
    have start : Shielded frames ⟨state, []⟩ := by
      refine ⟨marked, ?_, ?_, ?_⟩
      · intro block member; cases member
      · intro block member; cases member
      · intro block member; cases member
    exact (start.run calls).held

/-- The bitmap is protected exactly when the rounding of its size leaves no bit
behind and its frames stay marked. -/
theorem init_protects_bitmap_iff (entries : List MemmapEntry) (ram : Memory) (state : State)
    (ranges : RangesEnd entries) (booted : init entries ram = some state) :
    BitmapProtected entries state ↔ RegionHolds entries ram := by
  have total := init_totalPages booted
  have never := never_handed_out_iff state (StorageFrame entries)
  simp only [init_bit_iff ranges booted, total] at never
  constructor
  · intro shielded
    exact ⟨(inBitmap_byte_iff entries).mp shielded.inside, never.mp shielded.apart⟩
  · intro holds
    exact ⟨(inBitmap_byte_iff entries).mpr holds.fits, never.mpr holds.kept⟩

/-- 32769 pages: three usable ones in low memory and a reserved one at the top. -/
def boundaryMap : List MemmapEntry :=
  [⟨0x1000, 0x3000, .usable⟩, ⟨0x8000000, 0x1000, .reserved⟩]

theorem boundaryMap_ends : RangesEnd boundaryMap := by
  intro entry member usable
  rcases List.mem_cons.mp member with rfl | later
  · decide
  · rw [List.mem_singleton] at later
    subst entry
    cases usable

theorem boundaryMap_init_some (ram : Memory) : ∃ state, init boundaryMap ram = some state := by
  unfold init
  rw [if_neg (by decide)]
  exact ⟨_, rfl⟩

/-- The bitmap of the sparse map lies in page one, which the setup loop passes by. -/
theorem init_protects_sparse :
    ∃ state, init sparseMap (fun _ => 0) = some state ∧ BitmapProtected sparseMap state := by
  have ranges : RangesEnd sparseMap := by
    intro entry member usable
    rw [sparseMap_usable member usable]
    decide
  obtain ⟨state, booted⟩ := sparseMap_init_some (fun _ => 0)
  refine ⟨state, booted, (init_protects_bitmap_iff _ _ state ranges booted).mpr ⟨by decide, ?_⟩⟩
  rintro frame ⟨bit, below, rfl⟩ _ _
  have total : totalPagesOf sparseMap = 4097 := by decide
  have place : bitmapPhys sparseMap = 0x1000 := by decide
  have first : bitmapByte sparseMap bit / pageSize = 1 := by
    unfold bitmapByte pageSize
    omega
  rw [first]
  refine ⟨?_, .inl (by decide)⟩
  rintro ⟨entry, member, usable, step, _, outside, same⟩
  rw [sparseMap_usable member usable] at outside same
  have zero : step = 0 := by
    unfold pageSize at same
    dsimp only at same
    omega
  rw [zero] at outside
  exact absurd outside (by decide)

/-- The bit of page 32768 lies at `0x2000`, behind the region, and the first
request is answered with that frame. -/
theorem init_exposes_boundary :
    RangesEnd boundaryMap ∧ bitmapByte boundaryMap 32768 = 0x2000 ∧
      inBitmap boundaryMap 0x2000 = false ∧
      ∃ state, init boundaryMap (fun _ => 255) = some state ∧ 32768 < state.totalPages ∧
        (allocPage state).1 = 0x2000 ∧ ¬BitmapProtected boundaryMap state := by
  obtain ⟨state, booted⟩ := boundaryMap_init_some (fun _ => 255)
  refine ⟨boundaryMap_ends, by decide, by decide, state, booted, ?_, ?_, ?_⟩
  · rw [init_totalPages booted]
    decide
  · have same : init boundaryMap (fun _ => 255) = some state → (allocPage state).1 = 0x2000 := by
      unfold init
      rw [if_neg (by decide)]
      intro equal
      rw [← Option.some.inj equal]
      decide +kernel
    exact same booted
  · intro shielded
    have inside := shielded.inside 32768 (by decide)
    exact absurd inside (by decide)

end Synx.Pmm
