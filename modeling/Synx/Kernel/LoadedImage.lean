/-
What a program finds in memory after a successful `load_image`: the access of
its pages and the bytes of its segments.
-/

import Synx.Exec.Stack
import Synx.Kernel.Isolation

namespace Synx.Kernel

open Lib Program
open Exec
open Paging

variable {before after : State} {argv envp : List (List UInt8)} {path file : List UInt8}
  {image : ExecImage}

theorem Constructed.imageView {plan : Plan}
    (constructed : Constructed before argv envp path file plan image after) :
    ∃ view, Shows after.mem image.rootPhys view ∧
      ImageView file plan before.nx argv envp path image view := by
  obtain ⟨start, fresh, built, _, isFresh, ran, memory⟩ := constructed.ran
  obtain ⟨_, underWay⟩ := isFresh.built
  obtain ⟨view, viewed, imageView, _⟩ :=
    (viewed_buildImage underWay.live file plan before.nx argv envp
    path).ok ⟨.refl, isFresh.blank.shows⟩ ran
  exact ⟨view, memory ▸ viewed.2, imageView⟩

theorem loadImage_shows (ready : Ready before)
    (loaded : (loadImage path argv envp).run before = (.ok image, after))
    (fetched : Fetched before path file) :
    ∃ plan view, parseImage file = some plan ∧ Shows after.mem image.rootPhys view ∧
      ImageView file plan before.nx argv envp path image view := by
  obtain ⟨other, plan, fetchedOther, constructed⟩ :=
    ((triple_loadImage before ready path argv envp).ok rfl loaded).constructed
  rw [fetchedOther.unique fetched] at constructed
  obtain ⟨view, shows_, imageView⟩ := constructed.imageView
  exact ⟨plan, view, constructed.parsed, shows_, imageView⟩

/-! ### Access -/

/-- No page is reached both by a writable and by an executable segment. -/
def SeparatePages (file : List UInt8) : Prop :=
  ∀ writable, writable ∈ fileSegments file → flagged writable.flags pfW = true →
    ∀ executable, executable ∈ fileSegments file → flagged executable.flags pfX = true →
      ∀ address,
        ¬(Meets (fileBias file) writable address ∧ Meets (fileBias file) executable address)

/-- On a processor with the no-execute bit, pages are kept apart exactly when
the file keeps its writable and executable segments on different pages. -/
theorem loadImage_writeXorExecute_iff (before after : State) (ready : Ready before)
    (nx : before.nx = true) (path file : List UInt8) (argv envp : List (List UInt8))
    (image : ExecImage) (loaded : (loadImage path argv envp).run before = (.ok image, after))
    (fetched : Fetched before path file) :
    WriteXorExecute after.mem image.rootPhys ↔ SeparatePages file := by
  obtain ⟨plan, view, parsed, shows_, imageView⟩ := loadImage_shows ready loaded fetched
  have accepted := parseImage_accepted parsed
  rw [nx] at imageView
  rw [shows_.writeXorExecute_iff]
  unfold SeparatePages
  rw [← accepted.fileSegments_eq, ← accepted.fileBias_eq]
  constructor
  · rintro separate left leftMember leftWritable right rightMember rightExecutable address
      ⟨meetsLeft, meetsRight⟩
    have below := accepted.meets_below leftMember meetsLeft
    refine separate address (below.trans stackBottom_lt) ⟨?_, ?_⟩
    · exact (imageView.writable address).mpr (Or.inl ⟨left, leftMember, meetsLeft, leftWritable⟩)
    · exact (imageView.executable address).mpr ⟨right, rightMember, meetsRight, rightExecutable⟩
  · rintro separate address _ ⟨isWritable, isExecutable⟩
    obtain ⟨right, rightMember, meetsRight, rightExecutable⟩ :=
      (imageView.executable address).mp isExecutable
    rcases (imageView.writable address).mp isWritable with
      ⟨left, leftMember, meetsLeft, leftWritable⟩ | stack
    · exact separate left leftMember leftWritable right rightMember rightExecutable address
        ⟨meetsLeft, meetsRight⟩
    · -- no segment reaches the stack
      have below := accepted.meets_below rightMember meetsRight
      omega

theorem singleFile_fetched : Fetched (kernelWith singleFile) [Vfs.slash, 97] singleFile :=
  ok_of_toOption (by decide +kernel)

theorem singleFile_segments : fileSegments singleFile = [codeSegment] := by decide +kernel

theorem loadImage_writeXorExecute_iff_single : WriteXorExecute singleLoaded.mem 8192 := by
  refine (loadImage_writeXorExecute_iff (kernelWith singleFile) singleLoaded
    (kernelWith_ready _) rfl
    [Vfs.slash, 97] singleFile [] [] singleImage singleFile_loads singleFile_fetched).mpr ?_
  intro writable member isWritable
  rw [singleFile_segments, List.mem_singleton] at member
  have notWritable : flagged codeSegment.flags pfW = false := by decide
  rw [member, notWritable] at isWritable
  cases isWritable

/-- Sixteen writable bytes in the page of the code. -/
def dataSegment : ProgramHeader := ⟨ptLoad, 4 ||| pfW, 0, 0x400800, 0, 16, 0⟩

theorem loadImage_mixes_page :
    let before := kernelWith (elfBytes 0x400000 [codeSegment, dataSegment])
    let outcome := (loadImage [Vfs.slash, 97] [] []).run before
    before.nx = true ∧ outcome.1 = .ok singleImage ∧ ¬WriteXorExecute outcome.2.mem 8192 := by
  intro before outcome
  refine ⟨rfl, ok_of_toOption (by decide +kernel), ?_⟩
  intro separate
  have leaf : leafAt outcome.2.mem 8192 0x400000 = some 0x6007 := by decide +kernel
  exact separate 0x400000 (by decide) _ leaf (by decide)

/-! ### Contents -/

/-- Every segment of a loaded file without dynamic section is in memory: its bytes
of the file, then zeros. -/
theorem loadImage_memory (before after : State) (ready : Ready before) (path file : List UInt8)
    (argv envp : List (List UInt8)) (image : ExecImage)
    (loaded : (loadImage path argv envp).run before = (.ok image, after))
    (fetched : Fetched before path file)
    (static_ : ∀ program, program ∈ programHeaders file (readElfHeader file) →
      program.type ≠ ptDynamic)
    (segment : ProgramHeader) (member : segment ∈ fileSegments file) :
    segment.offset + segment.filesz ≤ file.length ∧
      (∀ index, index < segment.filesz →
        userByte after.mem image.rootPhys (segment.vaddr + fileBias file + index) =
          file[segment.offset + index]?) ∧
      ∀ index, segment.filesz ≤ index → index < segment.memsz →
        userByte after.mem image.rootPhys (segment.vaddr + fileBias file + index) = some 0 := by
  obtain ⟨plan, view, parsed, shows_, imageView⟩ := loadImage_shows ready loaded fetched
  have accepted := parseImage_accepted parsed
  obtain ⟨base, phdr, _, noRelocations, _, layout⟩ := imageView.built
  rw [← accepted.header] at static_
  have baseEq := noRelocations (accepted.dynamic.mpr static_)
  rw [← accepted.fileSegments_eq] at member
  rw [← accepted.fileBias_eq]
  obtain ⟨range, checked⟩ := accepted.checked segment member
  obtain ⟨short, inFile, _, _⟩ := segmentChecked_range checked
  -- the stack is above every segment, so the bytes are those of the segments
  have atIndex : ∀ index, index < segment.memsz →
      userByte after.mem image.rootPhys (segment.vaddr + plan.bias + index) =
        some (segmentByte file segment index) := by
    intro index inside
    have meets : Meets plan.bias segment (segment.vaddr + plan.bias + index) :=
      ⟨by omega, by omega, by omega⟩
    have below := accepted.meets_below member meets
    rw [shows_.byte _ (below.trans stackBottom_lt), layout.below _ below, baseEq]
    exact mapSegments_byte accepted before.nx member inside
  refine ⟨inFile, ?_, ?_⟩
  · intro index inside
    have bound : segment.offset + index < file.length := by omega
    rw [atIndex index (by omega), segmentByte, if_pos inside, List.getElem?_eq_getElem bound,
      List.getD_eq_getElem?_getD, List.getElem?_eq_getElem bound, Option.getD_some]
  · intro index beyond inside
    rw [atIndex index inside, segmentByte, if_neg (by omega)]

theorem loadImage_memory_single :
    (∀ index, index < 120 → userByte singleLoaded.mem 8192 (0x400000 + index) =
      singleFile[index]?) ∧
      ∀ index, 120 ≤ index → index < 512 →
        userByte singleLoaded.mem 8192 (0x400000 + index) = some 0 := by
  have static_ : ∀ program, program ∈ programHeaders singleFile (readElfHeader singleFile) →
      program.type ≠ ptDynamic := by
    have programs : programHeaders singleFile (readElfHeader singleFile) = [codeSegment] := by
      decide +kernel
    intro program member
    rw [programs, List.mem_singleton] at member
    rw [member]
    decide
  have member : codeSegment ∈ fileSegments singleFile := by
    rw [singleFile_segments]
    exact List.mem_singleton_self _
  have bias : fileBias singleFile = 0 := by decide +kernel
  obtain ⟨_, bytes, zeros⟩ := loadImage_memory (kernelWith singleFile) singleLoaded
    (kernelWith_ready _) [Vfs.slash, 97] singleFile [] [] singleImage singleFile_loads
    singleFile_fetched static_ codeSegment member
  rw [bias] at bytes zeros
  refine ⟨?_, zeros⟩
  intro index inside
  have found := bytes index inside
  rw [show codeSegment.offset + index = index from zero_add index] at found
  exact found

end Synx.Kernel
