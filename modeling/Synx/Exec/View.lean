/-
The user's view of an address space as an abstract machine: pages are mapped and
bytes are written, and nothing is said about tables and frames.  The loader's
functions refine its two operations.
-/

import Synx.Exec.Building

namespace Synx.Exec

open Lib Program
open Pmm (pageSize)
open Paging

/-- The access and the byte at every address. -/
structure View where
  access : Nat → Option Access
  byte : Nat → Option UInt8

namespace View

def blank : View := ⟨fun _ => none, fun _ => none⟩

def mapPage (view : View) (page flags : Nat) : View :=
  { access := fun address =>
      if address / 4096 = page / 4096 then some (widen (view.access address) flags)
      else view.access address
    byte := fun address =>
      if address / 4096 = page / 4096 then some ((view.byte address).getD 0)
      else view.byte address }

def mapPages (view : View) (flags : Nat) (pages : List Nat) : View :=
  pages.foldl (fun view page => view.mapPage page flags) view

def write (view : View) (address : Nat) (bytes : List UInt8) : View :=
  { view with
    byte := fun other =>
      if address ≤ other ∧ other < address + bytes.length then bytes[other - address]?
      else view.byte other }

end View

/-- The memory shows the view below the user limit. -/
structure Shows (mem : Memory) (root : Nat) (view : View) : Prop where
  access : ∀ address, address < userTop → accessAt mem root address = view.access address
  byte : ∀ address, address < userTop → userByte mem root address = view.byte address

variable {before after : Memory} {root address : Nat} {view : View} {bytes : List UInt8}

theorem Maps.shows {page flags : Nat} (maps : Maps before after root page flags)
    (shows_ : Shows before root view) : Shows after root (view.mapPage page flags) := by
  constructor
  · intro address user
    rw [maps.access address user, shows_.access address user]
    rfl
  · intro address user
    rw [maps.byte address user, shows_.byte address user]
    rfl

theorem Wrote.shows (wrote : Wrote before after root address bytes)
    (shows_ : Shows before root view) :
    Shows after root (view.write address bytes) := by
  constructor
  · intro other user
    rw [accessAt, wrote.leaf other user]
    exact shows_.access other user
  · intro other user
    rw [wrote.byte other user, shows_.byte other user]
    rfl

theorem BlankRoot.shows {mem : Memory} (blank : BlankRoot mem root) :
    Shows mem root View.blank := by
  constructor
  · intro address user
    rw [accessAt, blank.leafAt_eq_none address user]
    rfl
  · intro address user
    rw [userByte, blank.leafAt_eq_none address user]
    rfl

/-- The machine has been edited from `start` and shows the view. -/
def Viewed (start : Machine) (root : Nat) (view : View) (machine : Machine) : Prop :=
  Edits root start machine ∧ Shows machine.mem root view

/-- Where a condition holds, the loader stops only for a shortage. -/
def Unless (short : Machine → Prop) (fine : Prop) (_ : Unit) (machine : Machine) : Prop :=
  fine → short machine

/-- Nothing is short. -/
def never (_ : Machine) : Prop := False

theorem Unless.imp {short : Machine → Prop} {fine finer : Prop} (enough : finer → fine)
    (reason : Unit) (machine : Machine) (unless_ : Unless short fine reason machine) :
    Unless short finer reason machine :=
  fun holds => unless_ (enough holds)

theorem Unless.of_never {short : Machine → Prop} {fine finer : Prop} (enough : finer → fine)
    (reason : Unit) (machine : Machine) (unless_ : Unless never fine reason machine) :
    Unless short finer reason machine :=
  fun holds => (unless_ (enough holds)).elim

def View.Covers (view : View) (address length : Nat) : Prop :=
  ∀ other, Within address length other → other < userTop ∧ ∃ access, view.access other = some access

theorem Shows.not_halted (shows_ : Shows before root view)
    (covers : view.Covers address bytes.length) :
    ¬Halted before after root address bytes := by
  rintro ⟨count, below, _, unmapped⟩
  obtain ⟨user, access, found⟩ := covers (address + count) ⟨by omega, by omega⟩
  have shown := shows_.access _ user
  unfold accessAt at shown
  rw [unmapped user, found] at shown
  cases shown

section Refinement

variable {start : Machine} {root : Nat} (live : Live start root)

include live

theorem viewed_mapUserPage {page : Nat} {flags : Nat} (user : page < userTop)
    (given : LeafFlags flags) (view : View) :
    Triple (Viewed start root view) (mapUserPage root page flags)
      (fun _ => Viewed start root (view.mapPage page flags)) (Unless (Starved start) True) := by
  apply Triple.of_state
  rintro machine ⟨edits, shows_⟩
  refine (mapUserPage_triple (edits.live live) page flags user given).weaken (fun _ same => same) ?_
    (fun _ _ stopped _ reserved => stopped.2 (edits.used reserved))
  rintro _ after ⟨further, maps⟩
  exact ⟨edits.trans further, maps.shows shows_⟩

theorem viewed_copyToSpace (address : Nat) (bytes : List UInt8) (view : View) :
    Triple (Viewed start root view) (copyToSpace root address bytes)
      (fun _ => Viewed start root (view.write address bytes))
      (Unless never (view.Covers address bytes.length)) := by
  apply Triple.of_state
  rintro machine ⟨edits, shows_⟩
  refine (copyToSpace_triple address bytes (edits.live live)).weaken (fun _ same => same) ?_
    (fun _ _ stopped covers => absurd stopped.2 (shows_.not_halted covers))
  rintro _ after ⟨further, copied⟩
  exact ⟨edits.trans further, copied.toWrote.shows shows_⟩

theorem viewed_mapPages {flags : Nat} (given : LeafFlags flags) (pages : List Nat)
    (user : ∀ page ∈ pages, page < userTop) (view : View) : Triple (Viewed start root view)
      (Program.each (fun page => mapUserPage root page flags) pages)
      (fun _ => Viewed start root (view.mapPages flags pages)) (Unless (Starved start) True) :=
  .each_foldl (Viewed start root) (fun view page => view.mapPage page flags) _ pages
    (fun page member view => viewed_mapUserPage live (user page member) given view) view

end Refinement

/-! ### Access -/

namespace View

def Mapped (view : View) (address : Nat) : Prop := ∃ access, view.access address = some access

/-- The page of the address is mapped and may be written. -/
def Writable (view : View) (address : Nat) : Prop :=
  ∃ access, view.access address = some access ∧ access.writable = true

/-- The page of the address is mapped and may be executed. -/
def Executable (view : View) (address : Nat) : Prop :=
  ∃ access, view.access address = some access ∧ access.noExecute = false

theorem access_mapPages (view : View) (flags : Nat) (pages : List Nat) (address : Nat) :
    (view.mapPages flags pages).access address =
      if ∃ page ∈ pages, address / 4096 = page / 4096 then
        some (widen (view.access address) flags)
      else view.access address := by
  have again : ∀ old, widen (some (widen old flags)) flags = widen old flags := by
    intro old
    cases old <;> simp [widen, accessOf]
  induction pages generalizing view with
  | nil => simp [mapPages]
  | cons page rest ih =>
    have later := ih (view.mapPage page flags)
    change ((view.mapPage page flags).mapPages flags rest).access address = _
    rw [later]
    by_cases here : address / 4096 = page / 4096
    · have step : (view.mapPage page flags).access address =
          some (widen (view.access address) flags) := if_pos here
      rw [step, again, ite_self, if_pos ⟨page, List.mem_cons_self, here⟩]
    · have step : (view.mapPage page flags).access address = view.access address := if_neg here
      rw [step]
      simp only [List.mem_cons, exists_eq_or_imp, here, false_or]

theorem writable_widen (old : Option Access) (flags : Nat) : (widen old flags).writable = true ↔
      (∃ access, old = some access ∧ access.writable = true) ∨
        flagged flags pteWritable = true := by
  cases old <;> simp [widen, accessOf]

theorem executable_widen (old : Option Access) (flags : Nat) : (widen old flags).noExecute = false ↔
      (∃ access, old = some access ∧ access.noExecute = false) ∨ flagged flags pteNx = false := by
  cases old with
  | none => simp [widen, accessOf]
  | some access =>
    simp only [widen, Option.some.injEq, exists_eq_left']
    cases access.noExecute <;> simp

end View

/-- A right that an access may give, and the flags that give it to a page. -/
structure Right where
  holds : Access → Prop
  given : Nat → Prop
  widened : ∀ old flags, holds (widen old flags) ↔
    (∃ access, old = some access ∧ holds access) ∨ given flags

theorem Right.always (old : Option Access) (flags : Nat) :
    (fun _ : Access => True) (widen old flags) ↔
    (∃ access, old = some access ∧ (fun _ : Access => True) access) ∨ (fun _ : Nat => True) flags :=
  iff_of_true trivial (.inr trivial)

def Right.mapped : Right := ⟨fun _ => True, fun _ => True, Right.always⟩

def Right.writable : Right :=
  ⟨fun access => access.writable = true, fun flags => flagged flags pteWritable = true,
    View.writable_widen⟩

def Right.executable : Right :=
  ⟨fun access => access.noExecute = false, fun flags => flagged flags pteNx = false,
    View.executable_widen⟩

namespace View

def Grants (view : View) (right : Right) (address : Nat) : Prop :=
  ∃ access, view.access address = some access ∧ right.holds access

theorem mapped_iff (view : View) (address : Nat) :
    view.Mapped address ↔ view.Grants .mapped address := by
  simp only [Mapped, Grants, Right.mapped, and_true]

theorem grants_mapPages (view : View) (right : Right) (flags : Nat) (pages : List Nat)
    (address : Nat) :
    (view.mapPages flags pages).Grants right address ↔ view.Grants right address ∨
      ((∃ page ∈ pages, address / 4096 = page / 4096) ∧ right.given flags) := by
  unfold Grants
  rw [access_mapPages]
  split
  · rename_i mapped
    simp only [Option.some.injEq, exists_eq_left', right.widened, mapped, true_and]
  · rename_i unmapped
    simp only [unmapped, false_and, or_false]

theorem mapped_mapPages (view : View) (flags : Nat) (pages : List Nat) (address : Nat) :
    (view.mapPages flags pages).Mapped address ↔
      view.Mapped address ∨ ∃ page ∈ pages, address / 4096 = page / 4096 := by
  simp only [mapped_iff, grants_mapPages, Right.mapped, and_true]

/-! ### Bytes -/

/-- The bytes from an address on are the given ones. -/
def Holds (view : View) (address : Nat) (bytes : List UInt8) : Prop :=
  ∀ offset (inside : offset < bytes.length), view.byte (address + offset) = some bytes[offset]

variable {view : View} {address other : Nat} {value : UInt8} {bytes : List UInt8}

theorem byte_mapPage_some (page flags : Nat) (here : view.byte address = some value) :
    (view.mapPage page flags).byte address = some value := by
  simp only [mapPage, here, Option.getD_some, ite_self]

theorem byte_mapPages_some (flags : Nat) (pages : List Nat)
    (here : view.byte address = some value) :
    (view.mapPages flags pages).byte address = some value := by
  induction pages generalizing view with
  | nil => exact here
  | cons page rest ih => exact ih (byte_mapPage_some page flags here)

theorem byte_write_outside (outside : other < address ∨ address + bytes.length ≤ other) :
    (view.write address bytes).byte other = view.byte other :=
  if_neg (by omega)

theorem holds_write (view : View) (address : Nat) (bytes : List UInt8) :
    (view.write address bytes).Holds address bytes := by
  intro offset inside
  have within : address ≤ address + offset ∧ address + offset < address + bytes.length := by omega
  simp only [write, if_pos within, Nat.add_sub_cancel_left, List.getElem?_eq_getElem inside]

theorem Holds.write (holds : view.Holds address bytes) {others : List UInt8}
    (apart : address + bytes.length ≤ other ∨ other + others.length ≤ address) :
    (view.write other others).Holds address bytes := by
  intro offset inside
  rw [byte_write_outside (by omega)]
  exact holds offset inside

end View

end Synx.Exec
