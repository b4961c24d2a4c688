/-
Building an image changes the machine by edits of the new space only, whatever
the file, the arguments and the free memory are.
-/

import Synx.Exec.Copying
import Synx.Exec.Image

namespace Synx.Exec

open Lib Program
open Pmm (pageSize)
open Paging

/-! ### Flags and pages -/

theorem leafFlags_of_bits (writable noExecute : Bool) :
    LeafFlags ((if writable then pteWritable else 0) ||| (if noExecute then pteNx else 0)) := by
  unfold LeafFlags
  cases writable <;> cases noExecute <;> constructor <;> decide

theorem leafFlags_segment (segment : ProgramHeader) (nxEnabled : Bool) :
    LeafFlags (segmentFlags segment nxEnabled) :=
  leafFlags_of_bits _ _

theorem leafFlags_stack (nxEnabled : Bool) : LeafFlags (stackFlags nxEnabled) :=
  leafFlags_of_bits true nxEnabled

theorem mem_pagesFrom {pageStart pageEnd page : Nat} (member : page ∈ pagesFrom pageStart pageEnd) :
    pageStart ≤ page ∧ page + pageSize ≤ pageEnd := by
  unfold pagesFrom at member
  obtain ⟨index, inRange, rfl⟩ := List.mem_map.mp member
  rw [List.mem_range, pageSize] at inRange
  unfold pageSize
  omega

variable {segment : ProgramHeader} {bias root : Nat}

theorem segmentRange_bounds {start last : Nat}
    (range : segmentRange segment bias = some (start, last)) :
    start = segment.vaddr + bias ∧ last = start + segment.memsz ∧ last ≤ userTop ∧
      (segment.memsz ≠ 0 → pageSize ≤ start ∧ last ≤ stackBottom) := by
  unfold segmentRange at range
  simp only at range
  split at range
  · cases range
  · split at range
    · cases range
    · split at range
      · rename_i bounded
        obtain ⟨rfl, rfl⟩ := Prod.mk.inj (Option.some.inj range)
        refine ⟨rfl, rfl, bounded.1, ?_⟩
        intro nonempty
        exact ⟨bounded.2.1.resolve_left nonempty, bounded.2.2.resolve_left nonempty⟩
      · cases range

theorem segmentChecked_range {fileSize : Nat} {range : Nat × Nat}
    (checked : segmentChecked segment fileSize bias = some range) :
    segment.filesz ≤ segment.memsz ∧ segment.offset + segment.filesz ≤ fileSize ∧
      segmentRange segment bias = some range ∧
      segment.flags &&& (pfW ||| pfX) ≠ (pfW ||| pfX) := by
  unfold segmentChecked at checked
  split at checked
  · cases checked
  · rename_i passed
    split at checked
    · cases checked
    · rename_i found ranged
      split at checked
      · cases checked
      · rename_i notBoth
        rw [Option.some.inj checked] at ranged
        simp only [not_or, Bool.not_eq_true', Bool.not_eq_false, rangeValid, Bool.and_eq_true,
          decide_eq_true_eq] at passed
        exact ⟨by omega, by omega, ranged, notBoth⟩

/-! ### Relocations -/

section Relocations

variable {root : Nat} {invariant : Machine → Prop} {stopped : Unit → Machine → Prop}
  (copies : ∀ address bytes,
    Triple invariant (copyToSpace root address bytes) (fun _ => invariant) stopped)
  (stops : ∀ machine, invariant machine → stopped () machine)

include stops

theorem triple_copyFromSpace (address size : Nat) :
    Triple invariant (copyFromSpace root address size) (fun _ => invariant) stopped := by
  refine .bind (fun _ => invariant) (.gets _ (fun _ holds => holds)) (fun mem => ?_)
  cases readChunks mem root address size 0 size with
  | none => exact .stop _ stops
  | some bytes => exact .pure _ (fun _ holds => holds)

theorem triple_scanDynamic (rounds position : Nat) (table : DynamicTable) :
    Triple invariant (scanDynamic root rounds position table) (fun _ => invariant) stopped := by
  induction rounds generalizing position table with
  | zero => exact .stop _ stops
  | succ rounds ih =>
    rw [scanDynamic]
    refine .bind _ (triple_copyFromSpace stops _ _) (fun bytes => ?_)
    extract_lets tag value
    split
    · exact .pure _ (fun _ holds => holds)
    · split
      · exact .stop _ stops
      · exact ih _ _

include copies

theorem triple_applyRelocation (bias : Nat) (segments : List ProgramHeader) (address : Nat) :
    Triple invariant (applyRelocation root bias segments address) (fun _ => invariant) stopped := by
  unfold applyRelocation
  refine .bind _ (triple_copyFromSpace stops _ _) (fun bytes => ?_)
  extract_lets offset info addend target
  split
  · exact .stop _ stops
  · split
    · exact copies _ _
    · exact .stop _ stops

theorem triple_applyRelativeRelocations (dynamic : ProgramHeader) (bias : Nat)
    (segments : List ProgramHeader) :
    Triple invariant (applyRelativeRelocations root dynamic bias segments) (fun _ => invariant)
      stopped := by
  have stop : Triple invariant (refuse : Loader Unit) (fun _ => invariant) stopped :=
    .stop _ stops
  have done : Triple invariant (pure () : Loader Unit) (fun _ => invariant) stopped :=
    .pure _ (fun _ holds => holds)
  unfold applyRelativeRelocations
  extract_lets cursor last
  split
  · exact stop
  split
  · exact stop
  refine .bind _ (triple_scanDynamic stops _ _ _) (fun table => ?_)
  split
  · exact stop
  split
  · exact done
  split
  · exact stop
  extract_lets relaAddress
  split
  · exact stop
  · exact .each invariant _ _
      (fun index _ => triple_applyRelocation copies stops _ _ _)

theorem triple_relocate (plan : Plan) :
    Triple invariant (relocate root plan) (fun _ => invariant) stopped := by
  unfold relocate
  cases plan.dynamic with
  | none => exact .pure _ (fun _ holds => holds)
  | some dynamic =>
    apply Triple.ite
    · intro _
      exact triple_applyRelativeRelocations copies stops _ _ _
    · intro _
      exact .stop _ stops

end Relocations

/-! ### Only edits -/

section

variable {start : Machine} {root : Nat} (live : Live start root)

include live

theorem keeps_mapUserPage (virtualAddress flags : Nat) (user : virtualAddress < userTop)
    (given : LeafFlags flags) :
    Keeps (Edits root start) (mapUserPage root virtualAddress flags) := by
  apply Triple.of_state
  intro machine edits
  refine (mapUserPage_triple (edits.live live) virtualAddress flags user given).weaken
    (fun _ same => same) ?_ ?_
  · rintro _ after ⟨further, _⟩
    exact edits.trans further
  · rintro _ after ⟨further, _⟩
    exact edits.trans further

theorem keeps_copyToSpace (address : Nat) (bytes : List UInt8) :
    Keeps (Edits root start) (copyToSpace root address bytes) := by
  apply Triple.of_state
  intro machine edits
  refine (copyToSpace_triple address bytes (edits.live live)).weaken (fun _ same => same) ?_ ?_
  · rintro _ after ⟨further, _⟩
    exact edits.trans further
  · rintro _ after ⟨further, _⟩
    exact edits.trans further

theorem keeps_mapSegment (file : List UInt8) (bias : Nat) (nxEnabled : Bool)
    (segment : ProgramHeader) :
    Keeps (Edits root start) (mapSegment root file bias nxEnabled segment) := by
  unfold mapSegment
  cases checked : segmentChecked segment file.length bias with
  | none => exact .stop _
  | some range =>
    obtain ⟨first, last⟩ := range
    apply Triple.ite
    · intro _
      exact Keeps.pure _
    intro nonempty
    obtain ⟨_, _, ranged, _⟩ := segmentChecked_range checked
    have bounds := (segmentRange_bounds ranged).2.2.2 nonempty
    apply Keeps.ite _ (Keeps.stop _)
    refine Keeps.bind (Keeps.each ?_) (fun _ => keeps_copyToSpace live _ _)
    intro page member
    have inside := (mem_pagesFrom member).2
    apply keeps_mapUserPage live page _ _ (leafFlags_segment segment nxEnabled)
    unfold stackBottom userStackTop userStackPages pageSize at bounds
    unfold userTop
    unfold pageSize at inside
    omega

theorem keeps_relocate (plan : Plan) : Keeps (Edits root start) (relocate root plan) :=
  triple_relocate (keeps_copyToSpace live) (fun _ edits => edits) plan

theorem keeps_pushString (area : StringArea) (string : List UInt8) :
    Keeps (Edits root start) (pushString root area string) :=
  .ite _ (.stop _) (.bind (keeps_copyToSpace live _ _) (fun _ => .pure _))

theorem keeps_pushStrings (area : StringArea) (strings : List (List UInt8)) :
    Keeps (Edits root start) (pushStrings root area strings) := by
  induction strings with
  | nil => exact .pure _
  | cons string rest ih =>
    exact .bind ih (fun _ => .bind (keeps_pushString live _ _) (fun _ => .pure _))

theorem keeps_pushWords (address : Nat) (words : List Nat) :
    Keeps (Edits root start) (pushWords root address words) := by
  induction words generalizing address with
  | nil => exact .pure _
  | cons word rest ih => exact .bind (keeps_copyToSpace live _ _) (fun _ => ih _)

theorem keeps_mapStack (nxEnabled : Bool) : Keeps (Edits root start) (Program.each
      (fun page => mapUserPage root page (stackFlags nxEnabled))
      (pagesFrom stackBottom userStackTop)) := by
  apply Keeps.each
  intro page member
  have inside := (mem_pagesFrom member).2
  apply keeps_mapUserPage live page _ _ (leafFlags_stack nxEnabled)
  unfold userStackTop pageSize at inside
  unfold userTop
  omega

theorem keeps_mapUserStack (nxEnabled : Bool) (argv envp : List (List UInt8)) (path : List UInt8)
    (phdr phentsize phnum entry : Nat) : Keeps (Edits root start)
      (mapUserStack root nxEnabled argv envp path phdr phentsize phnum entry) :=
  .bind (keeps_mapStack live nxEnabled) (fun _ =>
    .bind (keeps_pushStrings live _ _) (fun _ =>
      .bind (keeps_pushStrings live _ _) (fun _ =>
        .bind (keeps_pushString live _ _) (fun _ => .ite _ (.stop _)
          (.ite _ (.stop _)
            (.bind (keeps_pushWords live _ _) (fun _ => .pure _)))))))

theorem keeps_buildImage (file : List UInt8) (plan : Plan) (nxEnabled : Bool)
    (argv envp : List (List UInt8)) (path : List UInt8) :
    Keeps (Edits root start) (buildImage root file plan nxEnabled argv envp path) := by
  refine .bind (.each (fun _ _ => keeps_mapSegment live _ _ _ _)) (fun _ =>
    .bind (keeps_relocate live plan) (fun _ => ?_))
  cases programHeaderAddress plan with
  | none => exact .stop _
  | some phdr => exact keeps_mapUserStack live _ _ _ _ _ _ _ _

end

/-! ### The result -/

/-- The fields of an image that do not depend on the stack. -/
structure ImageFields (root entry argc : Nat) (image : ExecImage) : Prop where
  rootPhys : image.rootPhys = root
  entry : image.entry = entry
  argc : image.argc = argc

theorem mapUserStack_fields {nxEnabled : Bool} {argv envp : List (List UInt8)} {path : List UInt8}
    {phdr phentsize phnum entry : Nat} {before : Machine → Prop} :
    Triple before (mapUserStack root nxEnabled argv envp path phdr phentsize phnum entry)
      (fun image _ => ImageFields root entry argv.length image) (fun _ _ => True) := by
  unfold mapUserStack
  refine .bind _ (.trivial _) (fun _ => .bind _ (.trivial _) (fun strings =>
    .bind _ (.trivial _) (fun arguments => .bind _ (.trivial _)
      (fun area => ?_))))
  extract_lets words stackPointer
  split
  · exact .stop () (fun _ _ => trivial)
  · split
    · exact .stop () (fun _ _ => trivial)
    · exact .bind _ (.trivial _) (fun _ =>
        .pure _ (fun _ _ => ⟨rfl, rfl, rfl⟩))

theorem buildImage_triple {start : Machine} (live : Live start root) (file : List UInt8)
    (plan : Plan) (nxEnabled : Bool) (argv envp : List (List UInt8)) (path : List UInt8) :
    Triple (· = start) (buildImage root file plan nxEnabled argv envp path)
      (fun image machine => Edits root start machine ∧
        ImageFields root plan.entry argv.length image)
      (fun _ machine => Edits root start machine) := by
  have edits : Triple (· = start) (buildImage root file plan nxEnabled argv envp path)
      (fun _ => Edits root start) (fun _ => Edits root start) := by
    refine (keeps_buildImage live file plan nxEnabled argv envp path).weaken ?_
      (fun _ _ holds => holds) (fun _ _ holds => holds)
    rintro _ rfl
    exact .refl
  have fields : Triple (· = start) (buildImage root file plan nxEnabled argv envp path)
      (fun image _ => ImageFields root plan.entry argv.length image) (fun _ _ => True) := by
    refine .bind _ (.trivial _) (fun _ => .bind _ (.trivial _) (fun _ => ?_))
    cases programHeaderAddress plan with
    | none => exact .stop () (fun _ _ => trivial)
    | some phdr => exact mapUserStack_fields
  exact (edits.and fields).weaken (fun _ holds => holds) (fun _ _ holds => holds)
    (fun _ _ holds => holds.1)

end Synx.Exec
