/-
Reads of the keyboard.
-/

import Synx.Kernel.Reads

namespace Synx.Kernel

open Lib Program List
open Exec

def typed (events : List KeyEvent) : List UInt8 :=
  events.filterMap (fun event =>
    if event.pressed = false ∨ event.ascii = 0 then none else some event.ascii)

/-- How many of the characters a read takes; with too few it takes them all and waits. -/
def lineLength : Nat → List UInt8 → Option Nat
  | 0, _ => some 0
  | _ + 1, [] => none
  | count + 1, key :: rest =>
    if key = newline then some 1 else (lineLength count rest).map (· + 1)

theorem lineLength_bounds {count taken : Nat} {keys : List UInt8}
    (ends : lineLength count keys = some taken) :
    taken ≤ count ∧ taken ≤ keys.length ∧ (0 < count → 0 < taken) := by
  induction count, keys using lineLength.induct generalizing taken with
  | case1 keys =>
    cases ends
    exact ⟨Nat.le_refl 0, zero_le, id⟩
  | case2 count => cases ends
  | case3 count rest =>
    rw [lineLength, if_pos rfl] at ends
    cases ends
    refine ⟨by omega, ?_, fun _ => one_pos⟩
    rw [length_cons]
    omega
  | case4 count key rest other ih =>
    rw [lineLength, if_neg other] at ends
    obtain ⟨later, isLater, rfl⟩ := Option.map_eq_some_iff.mp ends
    obtain ⟨small, inside, _⟩ := ih isLater
    rw [length_cons]
    omega

theorem typed_skip {event : KeyEvent} (events : List KeyEvent)
    (idle : event.pressed = false ∨ event.ascii = 0) : typed (event :: events) = typed events := by
  unfold typed
  rw [filterMap_cons, if_pos idle]

theorem typed_cons {event : KeyEvent} (events : List KeyEvent)
    (used : ¬(event.pressed = false ∨ event.ascii = 0)) :
    typed (event :: events) = event.ascii :: typed events := by
  unfold typed
  rw [filterMap_cons, if_neg used]

section

variable {now : State}

/-- How a read of the keyboard ends that may still take some characters. -/
def KeysEnd (now : State) (address missing readCount : Nat) (keys : List UInt8)
    (outcome : Except (Stop Vfs.Fault) (Option Nat) × State) : Prop :=
  match lineLength missing keys with
  | none => ∃ mem, outcome = (.ok none, { now with mem := mem, keyboard := [] })
  | some taken => ∃ mem left,
      outcome = (.ok (some (readCount + taken)), { now with mem := mem, keyboard := left }) ∧
      typed left = keys.drop taken ∧
      Delivered now.mem now.cr3 (range' address taken) (keys.take taken) mem

variable {keys : List UInt8} {address missing readCount : Nat} {mem : Memory} {left : List KeyEvent}

theorem KeysEnd.full (address readCount : Nat) (pending : typed now.keyboard = keys) :
    KeysEnd now address 0 readCount keys (.ok (some readCount), now) := by
  refine ⟨now.mem, now.keyboard, rfl, pending, ?_⟩
  exact Delivered.nothing _ _

theorem KeysEnd.line (pending : typed left = keys)
    (delivered : Delivered now.mem now.cr3 (range' address 1) [newline] mem) :
    KeysEnd now address (missing + 1) readCount (newline :: keys)
      (.ok (some (readCount + 1)), { now with mem := mem, keyboard := left }) := by
  unfold KeysEnd
  rw [lineLength, if_pos rfl]
  exact ⟨mem, left, rfl, pending, delivered⟩

theorem KeysEnd.key {key : UInt8} {outcome : Except (Stop Vfs.Fault) (Option Nat) × State}
    (other : key ≠ newline)
    (delivered : Delivered now.mem now.cr3 (range' address 1) [key] mem)
    (later : KeysEnd { now with mem := mem, keyboard := left } (address + 1) missing (readCount + 1)
      keys outcome) : KeysEnd now address (missing + 1) readCount (key :: keys) outcome := by
  unfold KeysEnd at later ⊢
  rw [lineLength, if_neg other]
  cases ends : lineLength missing keys with
  | none =>
    rw [ends] at later
    exact later
  | some taken =>
    rw [ends] at later
    obtain ⟨last, rest, ran, pending, further⟩ := later
    refine ⟨last, rest, ?_, pending, ?_⟩
    · rw [ran, add_assoc, add_comm 1 taken]
    · have inside := (lineLength_bounds ends).2.1
      have length : (keys.take taken).length = taken := by
        rw [length_take]
        omega
      have both :=
        @Delivered.follow now.mem mem last now.cr3 address [key] (keys.take taken) delivered
        (by rw [length]; exact further)
      rw [length_append, length, length_singleton, add_comm 1 taken] at both
      exact both

theorem readKeys_ends (space : Space now.mem now.cr3) (buffer count : Nat) (events : List KeyEvent)
    (pending : now.keyboard = events) {readCount : Nat} (near : buffer + readCount < 2 ^ 64)
    (started : readCount ≤ count)
    (writable : Writable now.mem now.cr3 (buffer + readCount) (count - readCount)) :
    KeysEnd now (buffer + readCount) (count - readCount) readCount (typed events)
      ((readKeys buffer count events readCount).run now) := by
  induction events generalizing now readCount with
  | nil =>
    unfold readKeys
    by_cases done : count ≤ readCount
    · rw [if_pos done, Nat.sub_eq_zero_of_le done]
      exact KeysEnd.full _ readCount (by rw [pending])
    · have more : count - readCount = count - (readCount + 1) + 1 := by omega
      have drained : now = { now with keyboard := [] } := by rw [← pending]
      rw [if_neg done, more]
      exact ⟨now.mem, congrArg (Prod.mk (Except.ok none)) drained⟩
  | cons event rest ih =>
    unfold readKeys
    by_cases done : count ≤ readCount
    · rw [if_pos done, Nat.sub_eq_zero_of_le done]
      exact KeysEnd.full _ readCount (by rw [pending])
    rw [if_neg done, run_bind_ok (run_modify _ _)]
    by_cases idle : event.pressed = false ∨ event.ascii = 0
    · rw [if_pos idle, typed_skip rest idle]
      exact @ih { now with keyboard := rest } space rfl readCount near started writable
    have more : count - readCount = 1 + (count - (readCount + 1)) := by omega
    have address : wrap (buffer + readCount) = buffer + readCount := Nat.mod_eq_of_lt near
    rw [if_neg idle, typed_cons rest idle, address, more, add_comm 1]
    rw [more] at writable
    obtain ⟨first, further⟩ := writable.split
    rcases copyToUser_cases { now with keyboard := rest } space (buffer + readCount)
      [event.ascii] with
      ⟨_, mem, copied, delivered⟩ | ⟨unwritable, _⟩
    swap
    · exact absurd first unwritable
    rw [run_bind_ok copied, if_pos rfl]
    by_cases lineEnd : event.ascii = newline
    · rw [if_pos lineEnd, lineEnd]
      rw [lineEnd] at delivered
      exact KeysEnd.line rfl delivered
    · have user := first.user one_pos
      have top : userTop = 2 ^ 47 := by decide
      rw [if_neg lineEnd]
      have later := @ih { now with mem := mem, keyboard := rest } (delivered.tables.space space) rfl
        (readCount + 1) (by omega) (by omega)
        ((Space.writable_sameTables space delivered.tables _ _).mpr further)
      exact KeysEnd.key lineEnd delivered later

theorem sysRead_keyboard (space : Space now.mem now.cr3) {buffer count : Nat}
    (word : buffer < 2 ^ 64) (writable : Writable now.mem now.cr3 buffer count) (some_ : 0 < count)
    (allowed : count ≤ maxIoSize) :
    KeysEnd now buffer count 0 (typed now.keyboard) ((sysRead 0 buffer count).run now) := by
  unfold sysRead readKeyboard
  rw [run_bind_ok (run_gets _ _), if_pos rfl, if_neg (by omega),
    if_neg (not_lt.mpr allowed)]
  have first : Writable now.mem now.cr3 buffer 1 := fun index inside => writable index (by omega)
  rcases copyToUser_cases now space buffer [0] with ⟨_, mem, copied, probed⟩ | ⟨unwritable, _⟩
  swap
  · exact absurd first unwritable
  rw [run_bind_ok copied, if_pos rfl, run_bind_ok (run_gets _ _)]
  have ends := @readKeys_ends { now with mem := mem } (probed.tables.space space) buffer count
    now.keyboard rfl 0 word zero_le
    ((Space.writable_sameTables space probed.tables _ _).mpr writable)
  rw [add_zero, Nat.sub_zero] at ends
  unfold KeysEnd at ends ⊢
  cases line : lineLength count (typed now.keyboard) with
  | none =>
    rw [line] at ends
    exact ends
  | some taken =>
    rw [line] at ends
    obtain ⟨last, left, ran, pending, delivered⟩ := ends
    have positive := (lineLength_bounds line).2.2 some_
    refine ⟨last, left, ran, pending, probed.tables.trans delivered.tables, ?_⟩
    refine probed.bytes.cover delivered.bytes ?_
    intro address inside
    rw [mem_range'_1] at inside ⊢
    rw [length_singleton] at inside
    omega

end

end Synx.Kernel
