/-
Reads into a vector of buffers.
-/

import Synx.Kernel.LostBytes

namespace Synx.Kernel

open Lib Program List
open Exec
open Vfs (oWronly)

/-! ### The vector -/

def iovecAt (array : List UInt8) (index : Nat) : Nat × Nat :=
  (field ((array.drop (index * 16)).take 16) 0 8, field ((array.drop (index * 16)).take 16) 8 8)

def iovecs (array : List UInt8) : List (Nat × Nat) :=
  (range (array.length / 16)).map (iovecAt array)

def places (entries : List (Nat × Nat)) : List Nat :=
  entries.flatMap (fun entry => range' entry.1 entry.2)

def totalLength (entries : List (Nat × Nat)) : Nat := (entries.map Prod.snd).sum

section

variable {now : State} {userIov : Nat} {array : List UInt8}

theorem userIovec_array (space : Space now.mem now.cr3)
    (holds : UserBytes now.mem now.cr3 userIov array) {index : Nat}
    (inside : index * 16 + 16 ≤ array.length) :
    userIovec now userIov index = some (iovecAt array index) := by
  have last := holds.user (show index * 16 + 15 < array.length by omega)
  have slice := holds.slice (index * 16) 16
  have size : ((array.drop (index * 16)).take 16).length = 16 := by
    rw [length_take, length_drop]
    omega
  have read := copyFromUser_of_bytes space slice
  rw [size] at read
  unfold userIovec
  rw [if_neg (by omega), read]
  rfl

theorem UserBytes.delivered {mem after : Memory} {root address : Nat} {bytes : List UInt8}
    (holds : UserBytes mem root address bytes) {addresses : List Nat} {items : List UInt8}
    (delivered : Delivered mem root addresses items after)
    (apart : ∀ index < bytes.length, address + index ∉ addresses) :
    UserBytes after root address bytes := by
  intro offset inside
  rw [delivered.bytes.elsewhere _ (apart offset inside)]
  exact holds offset inside

/-- The entries that are left of a vector: the program has the array in memory, and its buffers
are writable, apart from each other and from the array. -/
structure Vectored (now : State) (userIov : Nat) (array : List UInt8) (index : Nat)
    (rest : List (Nat × Nat)) : Prop where
  space : Space now.mem now.cr3
  stored : UserBytes now.mem now.cr3 userIov array
  entries : rest = (iovecs array).drop index
  writable : ∀ entry, entry ∈ rest → Writable now.mem now.cr3 entry.1 entry.2
  apart : ∀ offset, offset < array.length → userIov + offset ∉ places rest
  disjoint : (places rest).Nodup

theorem places_cons (entry : Nat × Nat) (rest : List (Nat × Nat)) :
    places (entry :: rest) = range' entry.1 entry.2 ++ places rest := flatMap_cons

theorem take_places (base length count : Nat) (more : List Nat) :
    (range' base length ++ more).take (length + count) =
      range' base length ++ more.take count := by
  have front : (range' base length).length = length := length_range'
  have split_ : (range' base length ++ more).take ((range' base length).length + count) =
    _ :=
    take_length_add_append count
  rw [front] at split_
  exact split_

theorem totalLength_cons (entry : Nat × Nat) (rest : List (Nat × Nat)) :
    totalLength (entry :: rest) = entry.2 + totalLength rest := by
  unfold totalLength
  rw [map_cons, sum_cons]

variable {index base length : Nat} {rest : List (Nat × Nat)}

theorem Vectored.read (vectored : Vectored now userIov array index ((base, length) :: rest)) :
    userIovec now userIov index = some (base, length) := by
  have found : (iovecs array)[index]? = some (base, length) := by
    rw [← add_zero index, ← getElem?_drop, ← vectored.entries]
    rfl
  obtain ⟨inside, same⟩ := List.getElem?_eq_some_iff.mp found
  unfold iovecs at inside same
  rw [length_map, length_range] at inside
  rw [getElem_map, getElem_range] at same
  rw [userIovec_array vectored.space vectored.stored (by omega), same]

theorem Vectored.next {later : State} {addresses : List Nat} {items : List UInt8}
    (vectored : Vectored now userIov array index ((base, length) :: rest))
    (root : later.cr3 = now.cr3) (delivered : Delivered now.mem now.cr3 addresses items later.mem)
    (inside : ∀ address ∈ addresses, address ∈ range' base length) :
    Vectored later userIov array (index + 1) rest := by
  have apart := vectored.apart
  have disjoint := vectored.disjoint
  rw [places_cons] at apart disjoint
  constructor
  · rw [root]
    exact delivered.tables.space vectored.space
  · rw [root]
    refine vectored.stored.delivered delivered ?_
    intro offset small member
    exact apart offset small (mem_append_left _ (inside _ member))
  · have drop := congrArg List.tail vectored.entries
    rw [tail_cons, tail_drop] at drop
    exact drop
  · intro entry member
    rw [root]
    exact (Space.writable_sameTables vectored.space delivered.tables _ _).mpr
      (vectored.writable entry (.tail _ member))
  · intro offset small member
    exact apart offset small (mem_append_right _ member)
  · exact (nodup_append.mp disjoint).2.1

/-! ### Files -/

variable {fd id total : Nat} {file : Vfs.File} {bytes : List UInt8}

theorem requested_add (bytes : List UInt8) (offset one two : Nat) :
    requested bytes offset (one + two) =
      requested bytes offset one ++ requested bytes (offset + one) two := by
  unfold requested
  rw [take_add, drop_drop]

theorem requested_short {one two : Nat} (short : (requested bytes offset one).length < one) :
    requested bytes offset (one + two) = requested bytes offset one := by
  rw [length_requested] at short
  unfold requested
  rw [take_of_length_le (by rw [length_drop]; omega),
    take_of_length_le (by rw [length_drop]; omega)]

theorem transferVectors_file (vectored : Vectored now userIov array index rest)
    (opened : OpenRegular now fd id file bytes) (readable : file.flags &&& oWronly = 0)
    (ordinary : 3 ≤ fd) (fits : total + totalLength rest ≤ maxIoSize) :
    ∃ mem, (transferVectors fd userIov false index rest.length total).run now =
        (.ok (some (total + (requested bytes file.offset (totalLength rest)).length)),
          now.moved id file (file.offset + (requested bytes file.offset (totalLength rest)).length)
            mem) ∧
      Delivered now.mem now.cr3
        ((places rest).take (requested bytes file.offset (totalLength rest)).length)
        (requested bytes file.offset (totalLength rest)) mem := by
  induction rest generalizing now file index total with
  | nil =>
    refine ⟨now.mem, ?_, ?_⟩
    · have nothing : requested bytes file.offset (totalLength []) = [] := take_zero
      rw [nothing]
      exact congrArg (Prod.mk _) (State.moved_back opened.live now.mem).symm
    · exact Delivered.nothing _ _
  | cons entry rest ih =>
    obtain ⟨base, length⟩ := entry
    rw [totalLength_cons] at fits ⊢
    simp only at fits ⊢
    have read := vectored.read
    rw [length_cons, places_cons]
    by_cases none_ : length = 0
    · subst none_
      rw [run_transferVectors read, if_neg (not_lt_zero), if_pos rfl, zero_add]
      have later := vectored.next rfl (Delivered.nothing now.mem now.cr3) nofun
      exact ih later opened readable (by omega)
    have some_ := pos_of_ne_zero none_
    have writable := vectored.writable (base, length) (mem_cons_self ..)
    have bounded : (requested bytes file.offset length).length ≤ length := by
      rw [length_requested]
      omega
    rcases opened.sysRead_cases readable vectored.space ordinary (fun _ => userIovec_word read)
      (show length ≤ maxIoSize by omega) with ⟨_, mem, ran, delivered⟩ | ⟨unwritable, _⟩
    swap
    · exact absurd (fun index inside => writable index (by simp only; omega)) unwritable
    rw [run_transferVectors_next read (by omega) some_ ran]
    by_cases short : (requested bytes file.offset length).length < length
    · rw [if_pos short, requested_short short]
      refine ⟨mem, rfl, ?_⟩
      rw [take_append_of_le_length (by rw [length_range']; exact bounded),
        take_range'_of_length_ge bounded]
      exact delivered
    · have filled : (requested bytes file.offset length).length = length := by omega
      rw [filled] at ran delivered
      have next := @Vectored.next now userIov array index base length rest
        (now.moved id file (file.offset + length) mem) _ _ vectored rfl delivered
          (fun _ member => member)
      obtain ⟨last, ended, further⟩ := ih next (opened.moved mem (file.offset + length)) readable
        (show total + length + totalLength rest ≤ maxIoSize by omega)
      simp only at ended further
      rw [if_neg short, requested_add, length_append, filled]
      refine ⟨last, ?_, ?_⟩
      · rw [ended, State.moved_moved, add_assoc, add_assoc]
      · have front : (range' base length).length = length := length_range'
        have both := delivered.append further (by rw [front, filled]) (by
          intro address member beyond
          have disjoint := vectored.disjoint
          rw [places_cons] at disjoint
          exact (nodup_append.mp disjoint).2.2 address member address
            (mem_of_mem_take beyond) rfl)
        rw [take_places]
        exact both

end

end Synx.Kernel
