/-
Bytes that the kernel delivers to the running program.
-/

import Synx.Kernel.UserCopy
import Synx.Lib.Storing

namespace Synx.Kernel

open Lib Program Option
open Exec

/-- The program may write the bytes from an address on. -/
def Writable (mem : Memory) (root address size : Nat) : Prop :=
  ∀ index, index < size → ∃ place, Mapped mem root true (address + index) place

/-- The program sees the items at the addresses, and nothing else has changed for it. -/
structure Delivered (mem : Memory) (root : Nat) (addresses : List Nat) (items : List UInt8)
    (after : Memory) : Prop where
  tables : SameTables mem after root
  bytes : Stored (userRead mem root) (userRead after root) addresses items

theorem Delivered.nothing (mem : Memory) (root : Nat) : Delivered mem root [] [] mem :=
  ⟨fun _ _ _ _ _ _ _ _ => rfl, Stored.nothing _⟩

variable {mem : Memory} {root address one two : Nat}

theorem Delivered.append {middle last : Memory} {addresses more : List Nat}
    {items later : List UInt8} (one : Delivered mem root addresses items middle)
    (two : Delivered middle root more later last) (same : addresses.length = items.length)
    (apart : ∀ address ∈ addresses, address ∉ more) :
    Delivered mem root (addresses ++ more) (items ++ later) last :=
  ⟨one.tables.trans two.tables, one.bytes.append two.bytes same apart⟩

theorem Delivered.follow {mem middle last : Memory} {root address : Nat} {items later : List UInt8}
    (one : Delivered mem root (List.range' address items.length) items middle)
    (two : Delivered middle root (List.range' (address + items.length) later.length) later last) :
    Delivered mem root (List.range' address (items ++ later).length) (items ++ later) last := by
  have both := one.append two List.length_range' (by
    intro other inside beyond
    rw [List.mem_range'_1] at inside beyond
    omega)
  rw [List.range'_append_1] at both
  rw [List.length_append]
  exact both

theorem Writable.split (writable : Writable mem root address (one + two)) :
    Writable mem root address one ∧ Writable mem root (address + one) two := by
  constructor
  · intro index inside
    exact writable index (by omega)
  · intro index inside
    rw [add_assoc]
    exact writable (one + index) (by omega)

theorem Writable.append (first : Writable mem root address one)
    (rest : Writable mem root (address + one) two) : Writable mem root address (one + two) := by
  intro index inside
  by_cases early : index < one
  · exact first index early
  · have found := rest (index - one) (by omega)
    rw [show address + one + (index - one) = address + index by omega] at found
    exact found

theorem Writable.user {size : Nat} (writable : Writable mem root address size) (some_ : 0 < size) :
    address + size ≤ userTop := by
  obtain ⟨place, mapped⟩ := writable (size - 1) (by omega)
  have user := mapped.user
  omega

section

variable {mem after : Memory} {root : Nat} (space : Space mem root)

include space

theorem Space.mapped_sameTables (same : SameTables mem after root) (writeAccess : Bool)
    (address place : Nat) :
    Mapped after root writeAccess address place ↔ Mapped mem root writeAccess address place := by
  rw [Space.mapped_iff (same.space space), Space.mapped_iff space,
    translateUser_sameTables space same]

theorem Space.writable_sameTables (same : SameTables mem after root) (address size : Nat) :
    Writable after root address size ↔ Writable mem root address size := by
  unfold Writable
  simp only [Space.mapped_sameTables space same]

theorem Space.translateUser_read {address place : Nat}
    (found : translateUser mem root address true = some place) :
    translateUser mem root address false = some place := by
  have user := translateUser_user found
  rw [Space.translateUser_eq space user] at found ⊢
  obtain ⟨entry, leaf, placed⟩ := bind_eq_some_iff.mp found
  rw [leaf, bind_some]
  split at placed
  · cases placed
  · exact placed

theorem Moved.delivered_all {address : Nat} {items : List UInt8} {copy : Copy}
    (moved : Moved mem root true address items items.length copy) :
    Delivered mem root (List.range' address items.length) items copy.mem := by
  have same := moved.sameTables space
  refine ⟨same, ?_, ?_⟩
  · intro index place found
    obtain ⟨inside, rfl⟩ := List.getElem?_eq_some_iff.mp found
    rw [List.length_range'] at inside
    rw [List.getElem_range', one_mul]
    obtain ⟨byte, mapped⟩ := moved.mapped index inside
    rw [moved.delivered rfl index byte inside mapped]
    rw [Space.mapped_iff space] at mapped
    unfold userRead
    rw [translateUser_sameTables space same, Space.translateUser_read space mapped]
    rfl
  · intro other outside
    unfold userRead
    rw [translateUser_sameTables space same]
    cases found : translateUser mem root other false with
    | none => rfl
    | some place =>
      rw [map_some, map_some, moved.elsewhere place]
      intro _ index inside mapped
      rw [Space.mapped_iff space] at mapped
      have hit := Space.translateUser_inj space found (Space.translateUser_read space mapped)
      exact outside (List.mem_range'_1.mpr (by omega))

end

theorem copyToUser_cases (kernel : State) (space : Space kernel.mem kernel.cr3) (address : Nat)
    (items : List UInt8) :
    (Writable kernel.mem kernel.cr3 address items.length ∧ ∃ mem,
        (copyToUser address items).run kernel = (.ok true, { kernel with mem := mem }) ∧
        Delivered kernel.mem kernel.cr3 (List.range' address items.length) items mem) ∨
      (¬Writable kernel.mem kernel.cr3 address items.length ∧ ∃ mem,
        (copyToUser address items).run kernel = (.ok false, { kernel with mem := mem })) := by
  have ends := @copyUser_ends _ _ space true address items
  have ran := copyToUser_eq kernel address items
  generalize copyUser kernel.cr3 address items.length true ⟨kernel.mem, items, []⟩ = outcome
    at ends ran
  obtain ⟨done, copy⟩ := outcome
  cases done with
  | true =>
    exact .inl ⟨ends.iff_mapped.mp rfl, copy.mem, ran, (ends.whole rfl).delivered_all space⟩
  | false =>
    refine .inr ⟨?_, copy.mem, ran⟩
    intro writable
    cases ends.iff_mapped.mpr writable

end Synx.Kernel
