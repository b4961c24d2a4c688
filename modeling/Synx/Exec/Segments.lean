/-
The segments of an accepted file in the user's view: which pages they reach with
which access, and which bytes they leave in memory.
-/

import Synx.Exec.View

namespace Synx.Exec

open Lib Program List
open Pmm (pageSize)
open Paging

/-! ### What the checks establish -/

def loadSegments (programs : List ProgramHeader) : List ProgramHeader :=
  programs.filter (fun program => program.type == ptLoad)

/-- The memory ranges of the segments share no byte. -/
def Apart (left right : ProgramHeader) : Prop :=
  left.memsz = 0 ∨ right.memsz = 0 ∨ left.vaddr + left.memsz ≤ right.vaddr ∨
    right.vaddr + right.memsz ≤ left.vaddr

variable {left right : ProgramHeader} {entry offset : Nat} {segments : List ProgramHeader}

theorem Apart.symm (apart : Apart left right) : Apart right left := by
  unfold Apart at *
  omega

variable {fileSize bias : Nat} {segment : ProgramHeader} {earlier : List ProgramHeader}
  {file : List UInt8} {plan : Plan}

theorem scan_foldlM {programs : List ProgramHeader} {scan final : Scan}
    (scanned : programs.foldlM (scanProgramHeader fileSize) scan = some final) :
    final.segments = scan.segments ++ loadSegments programs ∧
      (final.dynamic = none ↔
        scan.dynamic = none ∧ ∀ program ∈ programs, program.type ≠ ptDynamic) := by
  induction programs generalizing scan with
  | nil =>
    cases scanned
    simp [loadSegments]
  | cons program rest ih =>
    rw [foldlM_cons] at scanned
    obtain ⟨next, step, later⟩ := Option.bind_eq_some_iff.mp scanned
    obtain ⟨segments, dynamic⟩ := ih later
    rw [segments, dynamic]
    unfold scanProgramHeader at step
    simp only at step
    split at step
    · rename_i isDynamic
      split at step
      · cases step
      · rw [← Option.some.inj step]
        simp [loadSegments, isDynamic, ptDynamic, ptLoad]
    · rename_i notDynamic
      split at step
      · rename_i isLoad
        split at step
        · cases step
        · rw [← Option.some.inj step]
          simp [loadSegments, isLoad, ptDynamic, ptLoad]
      · rename_i notLoad
        rw [← Option.some.inj step]
        simp [loadSegments, notLoad, notDynamic]

theorem clearOf_apart {other : ProgramHeader} {range : Nat × Nat}
    (ranged : segmentRange segment bias = some range)
    (clear : clearOf segment range bias earlier = true) (member : other ∈ earlier) :
    Apart other segment := by
  have checked := all_eq_true.mp clear other member
  cases found : segmentRange other bias with
  | none => simp [found] at checked
  | some otherRange =>
    obtain ⟨otherStart, otherLast⟩ := otherRange
    obtain ⟨start, last⟩ := range
    obtain ⟨startEq, lastEq, _⟩ := segmentRange_bounds ranged
    obtain ⟨otherStartEq, otherLastEq, _⟩ := segmentRange_bounds found
    simp only [found, overlaps, Bool.not_eq_true', Bool.and_eq_false_iff, bne_eq_false_iff_eq,
      decide_eq_false_iff_not] at checked
    unfold Apart
    omega

theorem validateSegments_facts {reached : Bool}
    (validated : validateSegments fileSize bias entry earlier segments = some reached) :
    (∀ segment ∈ segments, ∃ range, segmentChecked segment fileSize bias = some range) ∧
    segments.Pairwise Apart ∧
      ∀ other ∈ earlier, ∀ segment ∈ segments, Apart other segment := by
  induction segments generalizing earlier reached with
  | nil => simp
  | cons segment rest ih =>
    unfold validateSegments at validated
    cases checked : segmentChecked segment fileSize bias with
    | none => simp [checked] at validated
    | some range =>
      simp only [checked] at validated
      split at validated
      · rename_i clear
        obtain ⟨later, validatedRest, _⟩ := Option.map_eq_some_iff.mp validated
        obtain ⟨checkedRest, apartRest, apartEarlier⟩ := ih validatedRest
        have ranged := (segmentChecked_range checked).2.2.1
        refine ⟨?_, ?_, ?_⟩
        · intro other member
          rcases mem_cons.mp member with rfl | inRest
          · exact ⟨range, checked⟩
          · exact checkedRest other inRest
        · refine List.Pairwise.cons ?_ apartRest
          intro other member
          exact apartEarlier segment (by simp) other member
        · intro other inEarlier target member
          rcases mem_cons.mp member with rfl | inRest
          · exact clearOf_apart ranged clear inEarlier
          · exact apartEarlier other (mem_append_left _ inEarlier) target inRest
      · cases validated

/-- A file that passed the checks. -/
structure Accepted (file : List UInt8) (plan : Plan) : Prop where
  header : plan.header = readElfHeader file
  bias : plan.bias = biasOf plan.header
  segments : plan.segments = loadSegments (programHeaders file plan.header)
  dynamic : plan.dynamic = none ↔
    ∀ program, program ∈ programHeaders file plan.header → program.type ≠ ptDynamic
  entry : plan.entry = plan.header.entry + plan.bias
  checked : ∀ segment, segment ∈ plan.segments →
    ∃ range, segmentChecked segment file.length plan.bias = some range
  apart : plan.segments.Pairwise Apart

theorem parseImage_cases (parsed : parseImage file = some plan) :
    ∃ scan, scanProgramHeaders file.length (programHeaders file (readElfHeader file)) = some scan ∧
      validateSegments file.length plan.bias plan.entry [] scan.segments = some true ∧
      plan = ⟨readElfHeader file, programHeaders file (readElfHeader file), scan.segments,
        scan.dynamic, biasOf (readElfHeader file),
        (readElfHeader file).entry + biasOf (readElfHeader file)⟩ := by
  unfold parseImage at parsed
  simp only at parsed
  split at parsed
  · cases parsed
  · split at parsed
    · cases parsed
    · split at parsed
      · cases parsed
      · rename_i scan scanned
        split at parsed
        · cases parsed
        · split at parsed
          · rename_i validated
            cases Option.some.inj parsed
            exact ⟨scan, scanned, validated, rfl⟩
          · cases parsed

theorem parseImage_accepted (parsed : parseImage file = some plan) : Accepted file plan := by
  obtain ⟨scan, scanned, validated, rfl⟩ := parseImage_cases parsed
  obtain ⟨segments, dynamic⟩ := scan_foldlM scanned
  obtain ⟨checked, apart, _⟩ := validateSegments_facts validated
  exact
    { header := rfl
      bias := rfl
      segments := segments
      dynamic := dynamic.trans (by simp)
      entry := rfl
      checked := checked
      apart := apart }

theorem validateSegments_entry
    (validated : validateSegments fileSize bias entry earlier segments = some true) :
    ∃ segment ∈ segments, segment.memsz ≠ 0 ∧ flagged segment.flags pfX = true ∧
      segment.vaddr + bias ≤ entry ∧ entry < segment.vaddr + bias + segment.memsz := by
  induction segments generalizing earlier with
  | nil => cases validated
  | cons segment rest ih =>
    unfold validateSegments at validated
    cases checked : segmentChecked segment fileSize bias with
    | none => simp [checked] at validated
    | some range =>
      simp only [checked] at validated
      split at validated
      · obtain ⟨later, validatedRest, reached⟩ := Option.map_eq_some_iff.mp validated
        obtain ⟨first, last, _⟩ := segmentRange_bounds (segmentChecked_range checked).2.2.1
        rcases Bool.or_eq_true_iff.mp reached with here | inRest
        · simp only [Bool.and_eq_true, bne_iff_ne, decide_eq_true_eq] at here
          obtain ⟨⟨⟨nonempty, executable⟩, above⟩, below⟩ := here
          exact ⟨segment, mem_cons_self, nonempty, executable, by omega, by omega⟩
        · rw [inRest] at validatedRest
          obtain ⟨found, member, facts⟩ := ih validatedRest
          exact ⟨found, mem_cons_of_mem _ member, facts⟩
      · cases validated

def fileSegments (file : List UInt8) : List ProgramHeader :=
  loadSegments (programHeaders file (readElfHeader file))

def fileBias (file : List UInt8) : Nat := biasOf (readElfHeader file)

theorem Accepted.fileSegments_eq (accepted : Accepted file plan) :
    plan.segments = fileSegments file := by
  rw [accepted.segments, accepted.header]
  rfl

theorem Accepted.fileBias_eq (accepted : Accepted file plan) : plan.bias = fileBias file := by
  rw [accepted.bias, accepted.header]
  rfl

/-! ### Segments in the view -/

/-- The pages of a segment, given by their addresses. -/
def segmentPages (segment : ProgramHeader) (bias : Nat) : List Nat :=
  pagesFrom ((segment.vaddr + bias) / 4096 * 4096)
    ((segment.vaddr + bias + segment.memsz + 4095) / 4096 * 4096)

/-- The segment is not empty and reaches the page of the address. -/
def Meets (bias : Nat) (segment : ProgramHeader) (address : Nat) : Prop :=
  segment.memsz ≠ 0 ∧ (segment.vaddr + bias) / 4096 ≤ address / 4096 ∧
    address / 4096 ≤ (segment.vaddr + bias + segment.memsz - 1) / 4096

theorem mem_pagesFrom_page (first last address : Nat) :
    (∃ page ∈ pagesFrom (first * 4096) (last * 4096), address / 4096 = page / 4096) ↔
      first ≤ address / 4096 ∧ address / 4096 < last := by
  have count : (last * 4096 - first * 4096) / pageSize = last - first := by
    unfold pageSize
    omega
  unfold pagesFrom
  rw [count]
  simp only [mem_map, mem_range, pageSize]
  constructor
  · rintro ⟨page, ⟨index, bound, rfl⟩, same⟩
    omega
  · rintro ⟨low, high⟩
    exact ⟨_, ⟨address / 4096 - first, by omega, rfl⟩, by omega⟩

theorem segmentPages_meets (nonempty : segment.memsz ≠ 0) (address : Nat) :
    (∃ page ∈ segmentPages segment bias, address / 4096 = page / 4096) ↔
      Meets bias segment address := by
  unfold segmentPages Meets
  rw [mem_pagesFrom_page]
  constructor
  · rintro ⟨low, high⟩
    exact ⟨nonempty, low, by omega⟩
  · rintro ⟨_, low, high⟩
    exact ⟨low, by omega⟩

namespace View

def mapSegment (file : List UInt8) (bias : Nat) (nxEnabled : Bool) (view : View)
    (segment : ProgramHeader) : View :=
  if segment.memsz = 0 then view
  else
    (view.mapPages (segmentFlags segment nxEnabled) (segmentPages segment bias)).write
      (segment.vaddr + bias) ((file.drop segment.offset).take segment.filesz)

def mapSegments (file : List UInt8) (bias : Nat) (nxEnabled : Bool) (view : View)
    (segments : List ProgramHeader) : View :=
  segments.foldl (mapSegment file bias nxEnabled) view

end View

section Refinement

variable {start : Machine} {root : Nat} (live : Live start root)

include live

theorem viewed_mapSegment (file : List UInt8) (bias : Nat) (nxEnabled : Bool)
    (segment : ProgramHeader) (view : View) :
    Triple (Viewed start root view) (mapSegment root file bias nxEnabled segment)
      (fun _ => Viewed start root (view.mapSegment file bias nxEnabled segment))
      (Unless (Starved start) (∃ range, segmentChecked segment file.length bias = some range)) := by
  unfold mapSegment View.mapSegment
  cases checked : segmentChecked segment file.length bias with
  | none => exact .stop _ (fun _ _ fine => nomatch fine)
  | some range =>
    obtain ⟨first, last⟩ := range
    obtain ⟨smaller, _, ranged, _⟩ := segmentChecked_range checked
    obtain ⟨rfl, rfl, _, bounds⟩ := segmentRange_bounds ranged
    apply Triple.ite
    · intro empty
      rw [if_pos empty]
      exact .pure _ (fun _ now => now)
    intro nonempty
    rw [if_neg nonempty]
    have bounded := bounds nonempty
    unfold stackBottom userStackTop userStackPages pageSize at bounded
    apply Triple.ite
    · intro huge
      unfold uint64Max pageSize at huge
      omega
    intro _
    refine .bind _ ((viewed_mapPages live (leafFlags_segment segment nxEnabled)
      (segmentPages segment bias) ?_ view).weaken (fun _ now => now) (fun _ _ now => now)
      (.imp (fun _ => trivial)))
      (fun _ => (viewed_copyToSpace live _ _ _).weaken (fun _ now => now) (fun _ _ now => now)
        (.of_never (fun _ => ?_)))
    · intro page member
      have inside := (mem_pagesFrom member).2
      unfold userTop
      unfold pageSize at inside
      omega
    · -- the bytes from the file lie in the pages that have just been mapped
      rintro other ⟨above, below⟩
      rw [length_take] at below
      refine ⟨by unfold userTop; omega, (View.mapped_mapPages _ _ _ other).mpr (.inr ?_)⟩
      exact (segmentPages_meets nonempty other).mpr ⟨nonempty, by omega, by omega⟩

theorem viewed_mapSegments (file : List UInt8) (bias : Nat) (nxEnabled : Bool)
    (segments : List ProgramHeader) (view : View) : Triple (Viewed start root view)
      (Program.each (mapSegment root file bias nxEnabled) segments)
      (fun _ => Viewed start root (view.mapSegments file bias nxEnabled segments))
      (Unless (Starved start) (∀ segment ∈ segments,
        ∃ range, segmentChecked segment file.length bias = some range)) :=
  .each_foldl (Viewed start root) (View.mapSegment file bias nxEnabled) _ segments
    (fun segment member view => (viewed_mapSegment live file bias nxEnabled segment view).weaken
      (fun _ now => now) (fun _ _ now => now) (.imp (fun fine => fine segment member))) view

end Refinement

/-! ### Access of the segments -/

theorem flagged_segmentFlags (segment : ProgramHeader) (nxEnabled : Bool) :
    flagged (segmentFlags segment nxEnabled) pteWritable = flagged segment.flags pfW ∧
      flagged (segmentFlags segment nxEnabled) pteNx =
        (nxEnabled && !flagged segment.flags pfX) := by
  unfold segmentFlags
  cases flagged segment.flags pfW <;> cases nxEnabled && !flagged segment.flags pfX <;> decide

namespace View

variable {file : List UInt8} {bias : Nat} {nxEnabled : Bool}

theorem grants_mapSegment (view : View) (right : Right) (segment : ProgramHeader) (address : Nat) :
    (view.mapSegment file bias nxEnabled segment).Grants right address ↔ view.Grants right address ∨
      (Meets bias segment address ∧ right.given (segmentFlags segment nxEnabled)) := by
  unfold mapSegment
  split
  · rename_i empty
    simp [Meets, empty]
  · rename_i nonempty
    change (view.mapPages _ _).Grants right address ↔ _
    rw [grants_mapPages, segmentPages_meets nonempty]

theorem grants_mapSegments (view : View) (right : Right) (segments : List ProgramHeader)
    (address : Nat) :
    (view.mapSegments file bias nxEnabled segments).Grants right address ↔
      view.Grants right address ∨
      ∃ segment ∈ segments, Meets bias segment address ∧
        right.given (segmentFlags segment nxEnabled) := by
  induction segments generalizing view with
  | nil => simp [mapSegments]
  | cons segment rest ih =>
    refine (ih (view.mapSegment file bias nxEnabled segment)).trans ?_
    rw [grants_mapSegment]
    simp only [mem_cons, exists_eq_or_imp, or_assoc]

/-! ### Bytes of the segments -/

def Untouched (view : View) (address : Nat) : Prop :=
  view.byte address = none ∨ view.byte address = some 0

variable {view : View} {address : Nat} {segments : List ProgramHeader}

theorem untouched_mapPages (flags : Nat) (pages : List Nat) (untouched : view.Untouched address) :
    (view.mapPages flags pages).Untouched address := by
  induction pages generalizing view with
  | nil => exact untouched
  | cons page rest ih =>
    apply ih
    unfold Untouched mapPage
    rcases untouched with nothing | zero
    · simp only [nothing]
      split <;> simp
    · simp only [zero]
      split <;> simp

theorem byte_mapPages_zero (flags : Nat) {pages : List Nat} (untouched : view.Untouched address)
    (mapped : ∃ page ∈ pages, address / 4096 = page / 4096) :
    (view.mapPages flags pages).byte address = some 0 := by
  induction pages generalizing view with
  | nil => simp at mapped
  | cons page rest ih =>
    change ((view.mapPage page flags).mapPages flags rest).byte address = some 0
    by_cases here : address / 4096 = page / 4096
    · apply byte_mapPages_some
      simp only [mapPage, if_pos here]
      rcases untouched with nothing | zero
      · rw [nothing]
        rfl
      · rw [zero]
        rfl
    · apply ih (untouched_mapPages flags [page] untouched)
      obtain ⟨other, member, same⟩ := mapped
      rcases mem_cons.mp member with rfl | inRest
      · exact absurd same here
      · exact ⟨other, inRest, same⟩

/-- The address is not among the bytes that the segment brings from the file. -/
def Misses (file : List UInt8) (bias : Nat) (segment : ProgramHeader) (address : Nat) : Prop :=
  segment.memsz = 0 ∨ address < segment.vaddr + bias ∨
    segment.vaddr + bias + ((file.drop segment.offset).take segment.filesz).length ≤ address

theorem untouched_mapSegments (untouched : view.Untouched address)
    (misses : ∀ segment ∈ segments, Misses file bias segment address) :
    (view.mapSegments file bias nxEnabled segments).Untouched address := by
  induction segments generalizing view with
  | nil => exact untouched
  | cons segment rest ih =>
    apply ih _ (fun other member => misses other (.tail segment member))
    unfold mapSegment
    split
    · exact untouched
    · rename_i nonempty
      have outside := (misses segment (.head _)).resolve_left nonempty
      unfold Untouched
      rw [byte_write_outside outside]
      exact untouched_mapPages _ _ untouched

theorem byte_mapSegments_some {value : UInt8} (here : view.byte address = some value)
    (misses : ∀ segment ∈ segments, Misses file bias segment address) :
    (view.mapSegments file bias nxEnabled segments).byte address = some value := by
  induction segments generalizing view with
  | nil => exact here
  | cons segment rest ih =>
    apply ih _ (fun other member => misses other (.tail segment member))
    unfold mapSegment
    split
    · exact here
    · rename_i nonempty
      have outside := (misses segment (.head _)).resolve_left nonempty
      rw [byte_write_outside outside]
      exact byte_mapPages_some _ _ here

end View

/-- The byte that a segment has at an offset: from the file, then zeros. -/
def segmentByte (file : List UInt8) (segment : ProgramHeader) (offset : Nat) : UInt8 :=
  if offset < segment.filesz then file.getD (segment.offset + offset) 0 else 0

theorem Apart.misses (apart : Apart left right) (file : List UInt8) (bias : Nat)
    (inside : offset < left.memsz) (short : right.filesz ≤ right.memsz) :
    View.Misses file bias right (left.vaddr + bias + offset) := by
  have length : ((file.drop right.offset).take right.filesz).length ≤ right.filesz :=
    length_take_le _ _
  unfold Apart at apart
  unfold View.Misses
  omega

theorem mapSegments_byte (accepted : Accepted file plan) (nxEnabled : Bool)
    (member : segment ∈ plan.segments) (inside : offset < segment.memsz) :
    (View.blank.mapSegments file plan.bias nxEnabled plan.segments).byte
        (segment.vaddr + plan.bias + offset) = some (segmentByte file segment offset) := by
  obtain ⟨before, after, split_⟩ := append_of_mem member
  have apart := accepted.apart
  rw [split_, pairwise_append] at apart
  obtain ⟨_, apartRest, apartBefore⟩ := apart
  have apartAfter := (pairwise_cons.mp apartRest).1
  have short : ∀ other ∈ plan.segments, other.filesz ≤ other.memsz := by
    intro other inPlan
    obtain ⟨range, checked⟩ := accepted.checked other inPlan
    exact (segmentChecked_range checked).1
  obtain ⟨range, checked⟩ := accepted.checked segment member
  have enough := (segmentChecked_range checked).2.1
  have missesBefore : ∀ other ∈ before,
      View.Misses file plan.bias other (segment.vaddr + plan.bias + offset) := by
    intro other inBefore
    apply (apartBefore other inBefore segment (.head _)).symm.misses file plan.bias inside
    apply short
    rw [split_]
    exact mem_append_left _ inBefore
  have missesAfter : ∀ other ∈ after,
      View.Misses file plan.bias other (segment.vaddr + plan.bias + offset) := by
    intro other inAfter
    apply (apartAfter other inAfter).misses file plan.bias inside
    apply short
    rw [split_]
    exact mem_append_right _ (.tail segment inAfter)
  have untouched : (View.blank.mapSegments file plan.bias nxEnabled before).Untouched
      (segment.vaddr + plan.bias + offset) :=
    View.untouched_mapSegments (.inl rfl) missesBefore
  rw [split_]
  unfold View.mapSegments at untouched ⊢
  rw [foldl_append, foldl_cons]
  apply View.byte_mapSegments_some _ missesAfter
  generalize before.foldl (View.mapSegment file plan.bias nxEnabled) View.blank =
    view at untouched ⊢
  have nonempty : segment.memsz ≠ 0 := by omega
  have length : ((file.drop segment.offset).take segment.filesz).length = segment.filesz := by
    rw [length_take, length_drop]
    omega
  unfold View.mapSegment segmentByte
  rw [if_neg nonempty]
  by_cases fromFile : offset < segment.filesz
  · rw [View.holds_write _ _ _ offset (by omega), if_pos fromFile]
    rw [getElem_take, getElem_drop, getD_eq_getElem?_getD,
      getElem?_eq_getElem, Option.getD_some]
  · rw [View.byte_write_outside (by omega), if_neg fromFile]
    apply View.byte_mapPages_zero _ untouched
    rw [segmentPages_meets nonempty]
    exact ⟨nonempty, by omega, by omega⟩

end Synx.Exec
