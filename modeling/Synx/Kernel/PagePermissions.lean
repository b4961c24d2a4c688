/-
The pages of a loaded program.
-/

import Synx.Kernel.LoadedImage

namespace Synx.Kernel

open Lib Program Option
open Exec
open Paging

/-- Every entry on the way to the page, the leaf included, is present and open to the program. -/
def UserAccessible (mem : Memory) (root address : Nat) : Prop :=
  ∀ path index, path ++ [index] <+: pageIndices address →
    ∃ table, frameAt mem root path = some table ∧
      flagged (entryAt mem table index) ptePresent = true ∧
      flagged (entryAt mem table index) pteUser = true

theorem Space.userAccessible {mem : Memory} {root address leaf : Nat} (space : Space mem root)
    (user : address < userTop) (found : leafAt mem root address = some leaf) :
    UserAccessible mem root address := by
  rintro path index ⟨rest, whole⟩
  have low := pageIndices_user address user
  have reached := space.frameAt_of_leafAt user found
  rw [← whole] at low reached
  have lowPath : LowPath (path ++ [index]) := low.initial
  unfold frameAt at reached
  rw [Trie.descend_append] at reached
  obtain ⟨next, isNext, _⟩ := bind_eq_some_iff.mp reached
  obtain ⟨table, isTable, follows⟩ := (frameAt_snoc_eq_some mem root path index next).mp isNext
  have present : flagged (entryAt mem table index) ptePresent = true := by
    rw [space.nextFrame_eq lowPath isTable] at follows
    by_contra absent
    rw [if_neg absent] at follows
    cases follows
  exact ⟨table, isTable, present, (space.clean path table index lowPath isTable present).2⟩

section

variable {mem : Memory} {root : Nat} {view : View} {address : Nat}

theorem Shows.mapped_iff (shows_ : Shows mem root view) (user : address < userTop) :
    (leafAt mem root address).isSome = true ↔ view.Mapped address := by
  unfold View.Mapped
  rw [← shows_.access address user, accessAt, ← isSome_iff_exists, isSome_map]

theorem Shows.leaf_iff {leaf : Nat} (shows_ : Shows mem root view) (user : address < userTop)
    (found : leafAt mem root address = some leaf) :
    (flagged leaf pteWritable = true ↔ view.Writable address) ∧
      (flagged leaf pteNx = false ↔ view.Executable address) := by
  have access : view.access address = some (accessOf leaf) := by
    rw [← shows_.access address user, accessAt, found]
    rfl
  constructor
  · constructor
    · exact fun writable => ⟨_, access, writable⟩
    · rintro ⟨other, same, writable⟩
      cases access.symm.trans same
      exact writable
  · constructor
    · exact fun executable => ⟨_, access, executable⟩
    · rintro ⟨other, same, executable⟩
      cases access.symm.trans same
      exact executable

end

theorem Loaded.entry {before after : State} {path file : List UInt8} {argv envp : List (List UInt8)}
    {image : ExecImage} {plan : Plan} (loaded : Loaded before path argv envp image after)
    (fetched : Fetched before path file) (parsed : parseImage file = some plan) :
    image.entry = plan.entry := by
  obtain ⟨other, same, fetchedOther, constructed⟩ := loaded.constructed
  rw [fetchedOther.unique fetched] at constructed
  cases parsed.symm.trans constructed.parsed
  obtain ⟨start, fresh, built, _, isFresh, ran, _⟩ := constructed.ran
  obtain ⟨_, underWay⟩ := isFresh.built
  exact ((buildImage_triple underWay.live file plan before.nx argv envp path).ok rfl ran).2.entry

/-- A segment of the file with a property reaches the page. -/
def Reached (file : List UInt8) (wanted : ProgramHeader → Prop) (address : Nat) : Prop :=
  ∃ segment, segment ∈ fileSegments file ∧ Meets (fileBias file) segment address ∧ wanted segment

def OnStack (address : Nat) : Prop := stackBottom ≤ address ∧ address < userStackTop

/-- The pages of the loaded program and their permissions. -/
theorem loadImage_permissions (before after : State) (ready : Ready before) (path file : List UInt8)
    (argv envp : List (List UInt8)) (image : ExecImage)
    (loaded : (loadImage path argv envp).run before = (.ok image, after))
    (fetched : Fetched before path file) :
    (∀ address, address < userTop →
        ((leafAt after.mem image.rootPhys address).isSome = true ↔
          Reached file (fun _ => True) address ∨ OnStack address) ∧
        ∀ leaf, leafAt after.mem image.rootPhys address = some leaf →
          UserAccessible after.mem image.rootPhys address ∧
          (flagged leaf pteWritable = true ↔
            Reached file (fun segment => flagged segment.flags pfW = true) address ∨
              OnStack address) ∧
          (before.nx = true → (flagged leaf pteNx = false ↔
            Reached file (fun segment => flagged segment.flags pfX = true) address))) ∧
      (before.nx = true → ∃ leaf, leafAt after.mem image.rootPhys image.entry = some leaf ∧
        flagged leaf pteNx = false) := by
  obtain ⟨plan, view, parsed, shows_, imageView⟩ := loadImage_shows ready loaded fetched
  have outcome := (triple_loadImage before ready path argv envp).ok rfl loaded
  obtain ⟨_, built⟩ := outcome.built
  have accepted := parseImage_accepted parsed
  have segments := accepted.fileSegments_eq
  have bias := accepted.fileBias_eq
  have pages : ∀ address, address < userTop →
      ((leafAt after.mem image.rootPhys address).isSome = true ↔
        Reached file (fun _ => True) address ∨ OnStack address) := by
    intro address user
    rw [Shows.mapped_iff shows_ user, imageView.mapped, segments, bias]
    unfold Reached OnStack
    simp only [and_true]
  have executable : ∀ address leaf, address < userTop → before.nx = true →
      leafAt after.mem image.rootPhys address = some leaf →
      (flagged leaf pteNx = false ↔
        Reached file (fun segment => flagged segment.flags pfX = true) address) := by
    intro address leaf user nx found
    rw [nx] at imageView
    rw [(Shows.leaf_iff shows_ user found).2, imageView.executable, segments, bias]
    rfl
  refine ⟨fun address user => ⟨pages address user, fun leaf found => ⟨?_, ?_, ?_⟩⟩, ?_⟩
  · exact Space.userAccessible built.live.space user found
  · rw [(Shows.leaf_iff shows_ user found).1, imageView.writable, segments, bias]
    rfl
  · exact fun nx => executable address leaf user nx found
  · intro nx
    -- the entry lies in an executable segment, so its page is mapped
    obtain ⟨scan, _, validated, isPlan⟩ := parseImage_cases parsed
    obtain ⟨segment, member, nonempty, isExecutable, first, last⟩ :=
      validateSegments_entry validated
    have isMember : segment ∈ plan.segments := by
      rw [isPlan]
      exact member
    have meets : Meets plan.bias segment plan.entry := ⟨nonempty, by omega, by omega⟩
    have user := lt_trans (accepted.meets_below isMember meets) stackBottom_lt
    rw [segments] at isMember
    rw [bias] at meets
    have mapped := (pages plan.entry user).mpr (Or.inl ⟨segment, isMember, meets, trivial⟩)
    obtain ⟨leaf, found⟩ := isSome_iff_exists.mp mapped
    rw [outcome.entry fetched parsed]
    exact ⟨leaf, found,
      (executable plan.entry leaf user nx found).mpr ⟨segment, isMember, meets, isExecutable⟩⟩

theorem loadImage_permissions_single :
    ∃ leaf, leafAt singleLoaded.mem 8192 0x400000 = some leaf ∧ flagged leaf pteNx = false := by
  have permissions :=
    loadImage_permissions (kernelWith singleFile) singleLoaded (kernelWith_ready _)
    [Vfs.slash, 97] singleFile [] [] singleImage singleFile_loads singleFile_fetched
  exact permissions.2 rfl

end Synx.Kernel
