/-
Positions after reads that fault.
-/

import Synx.Kernel.FileReads

namespace Synx.Kernel

open Lib Program Option
open Exec
open Ramfs (ramfs)
open Vfs (oWronly)

/-- The position of a file has moved by what the call returns, or not at all if it fails.  A call
that waits for a key has not returned. -/
def Accounted (id : Nat) (file : Vfs.File) : Except (Stop Vfs.Fault) (Option Nat) × State → Prop
  | (.ok none, _) => True
  | (.ok (some count), after) =>
    (after.vfs.files id).map Vfs.File.offset = some (file.offset + count)
  | (.error (.code code), after) =>
    code < 0 ∧ (after.vfs.files id).map Vfs.File.offset = some file.offset
  | (.error (.fault _), _) => False

/-! ### Keys into any buffer -/

/-- One of the keys fills the buffer, ends the line or cannot be stored. -/
def KeyEnds (mem : Memory) (root address missing : Nat) (keys : List UInt8) : Prop :=
  ∃ index key, keys[index]? = some key ∧
    (index + 1 = missing ∨ key = newline ∨ ¬Writable mem root (address + index) 1)

theorem keyEnds_cons {mem : Memory} {root address missing : Nat} {key : UInt8} {keys : List UInt8} :
    KeyEnds mem root address (missing + 1) (key :: keys) ↔
      (missing = 0 ∨ key = newline ∨ ¬Writable mem root address 1) ∨
        KeyEnds mem root (address + 1) missing keys := by
  constructor
  · rintro ⟨index, last, found, ends⟩
    cases index with
    | zero =>
      cases found
      exact .inl (ends.imp_left (fun full => by omega))
    | succ index =>
      refine .inr ⟨index, last, found, ?_⟩
      rw [add_assoc, add_comm 1]
      exact ends.imp_left (fun full => by omega)
  · rintro (ends | ⟨index, last, found, ends⟩)
    · refine ⟨0, key, rfl, ?_⟩
      rw [add_zero]
      exact ends.imp_left (fun full => by omega)
    · refine ⟨index + 1, last, found, ?_⟩
      rw [add_assoc, add_comm 1] at ends
      exact ends.imp_left (fun full => by omega)

theorem keyEnds_sameTables {mem after : Memory} {root : Nat} (space : Space mem root)
    (same : SameTables mem after root) (address missing : Nat) (keys : List UInt8) :
    KeyEnds after root address missing keys ↔ KeyEnds mem root address missing keys := by
  unfold KeyEnds
  simp only [Space.writable_sameTables space same]

section

variable {now : State}

theorem readKeys_returns (space : Space now.mem now.cr3) (buffer count : Nat)
    (events : List KeyEvent) {readCount : Nat} (near : buffer + count < 2 ^ 64)
    (started : readCount < count) (probed : readCount = 0 → Writable now.mem now.cr3 buffer 1) :
    (KeyEnds now.mem now.cr3 (buffer + readCount) (count - readCount) (typed events) ∧
        ∃ result after, (readKeys buffer count events readCount).run now =
          (.ok (some result), after) ∧
          0 < result ∧ after.vfs = now.vfs) ∨
      (¬KeyEnds now.mem now.cr3 (buffer + readCount) (count - readCount) (typed events) ∧
        ∃ after, (readKeys buffer count events readCount).run now = (.ok none, after)) := by
  induction events generalizing now readCount with
  | nil =>
    unfold readKeys
    rw [if_neg (not_le.mpr started)]
    refine .inr ⟨?_, now, rfl⟩
    rintro ⟨index, key, found, _⟩
    cases found
  | cons event rest ih =>
    unfold readKeys
    rw [if_neg (not_le.mpr started), run_bind_ok (run_modify _ _)]
    by_cases idle : event.pressed = false ∨ event.ascii = 0
    · rw [if_pos idle, typed_skip rest idle]
      exact @ih { now with keyboard := rest } space readCount started probed
    have more : count - readCount = count - (readCount + 1) + 1 := by omega
    have address : wrap (buffer + readCount) = buffer + readCount := Nat.mod_eq_of_lt (by omega)
    rw [if_neg idle, typed_cons rest idle, address, more, keyEnds_cons]
    rcases copyToUser_cases { now with keyboard := rest } space (buffer + readCount)
      [event.ascii] with
      ⟨writable, mem, copied, delivered⟩ | ⟨unwritable, mem, copied⟩
    · rw [run_bind_ok copied, if_pos rfl]
      by_cases lineEnd : event.ascii = newline
      · rw [if_pos lineEnd]
        exact .inl ⟨.inl (.inr (.inl lineEnd)), _, _, rfl, Nat.succ_pos _, rfl⟩
      rw [if_neg lineEnd]
      by_cases full : count ≤ readCount + 1
      · refine .inl ⟨.inl (.inl (by omega)), readCount + 1, { now with
          mem := mem, keyboard := rest }, ?_, Nat.succ_pos _, rfl⟩
        unfold readKeys
        rw [if_pos full]
        rfl
      have later := @ih { now with mem := mem, keyboard := rest } (delivered.tables.space space)
        (readCount + 1) (by omega) (by omega)
      simp only [keyEnds_sameTables space delivered.tables, ← add_assoc] at later
      rcases later with ⟨ends, ended⟩ | ⟨waits, waiting⟩
      · exact .inl ⟨.inr ends, ended⟩
      · refine .inr ⟨?_, waiting⟩
        rintro ((full | lineEnd | unwritable) | ends)
        · omega
        · contradiction
        · exact unwritable writable
        · exact waits ends
    · rw [run_bind_ok copied, if_neg Bool.false_ne_true]
      have later : readCount ≠ 0 := by
        rintro rfl
        exact unwritable (probed rfl)
      refine .inl ⟨.inl (.inr (.inr unwritable)), readCount, { now with
          mem := mem, keyboard := rest }, ?_, pos_of_ne_zero later, rfl⟩
      unfold partialResult
      rw [if_pos later]
      rfl

/-! ### One read -/

variable {fd id : Nat} {file : Vfs.File} {bytes : List UInt8} {buffer count : Nat}

/-- The read transfers nothing, or all that it takes from the file can be stored. -/
def ReadSafe (now : State) (fd : Nat) (file : Vfs.File) (bytes : List UInt8) (buffer count : Nat) :
    Prop :=
  count = 0 ∨ maxIoSize < count ∨ fd = 1 ∨ fd = 2 ∨
    (fd = 0 ∧ (¬Writable now.mem now.cr3 buffer 1 ∨
      ¬KeyEnds now.mem now.cr3 buffer count (typed now.keyboard))) ∨
    (3 ≤ fd ∧ (file.flags &&& oWronly ≠ 0 ∨
      Writable now.mem now.cr3 buffer (requested bytes file.offset count).length))

/-- A read that keeps its account: it fails, waits, or moves the position by what it returns. -/
def Keeping (now : State) (id : Nat) (file : Vfs.File) (count : Nat)
    (outcome : Except (Stop Vfs.Fault) (Option Nat) × State) : Prop :=
  (∃ code after, outcome = (.error (.code code), after) ∧ code < 0 ∧ after.vfs = now.vfs) ∨
    (∃ after, outcome = (.ok none, after)) ∨
    ∃ mem result, outcome = (.ok (some result), now.moved id file (file.offset + result) mem) ∧
      result ≤ count ∧ SameTables now.mem mem now.cr3

/-- A read that does not: the keyboard returns something, or bytes of the file are lost. -/
def Losing (now : State) (fd id : Nat) (file : Vfs.File) (count : Nat)
    (outcome : Except (Stop Vfs.Fault) (Option Nat) × State) : Prop :=
  (fd = 0 ∧ ∃ result after, outcome = (.ok (some result), after) ∧ 0 < result ∧
      after.vfs = now.vfs) ∨
    (3 ≤ fd ∧ ∃ mem done lost, 0 < lost ∧ done + lost ≤ count ∧
      outcome = (if done ≠ 0 then .ok (some done) else .error (.code errFault),
        now.moved id file (file.offset + (done + lost)) mem))

variable {code : Int} {outcome : Except (Stop Vfs.Fault) (Option Nat) × State} {base length : Nat}

theorem Keeping.refused (negative : code < 0) :
    Keeping now id file count (.error (.code code), now) := .inl ⟨code, now, rfl, negative, rfl⟩

theorem Keeping.nothing (live : now.vfs.files id = some file) :
    Keeping now id file count (.ok (some 0), now) := by
  refine .inr (.inr ⟨now.mem, 0, ?_, zero_le, fun _ _ _ _ _ _ _ _ => rfl⟩)
  rw [add_zero, State.moved_back live]

theorem OpenRegular.run_unreadable (opened : OpenRegular now fd id file bytes)
    (unreadable : file.flags &&& oWronly ≠ 0) (buffer : Nat) {count rounds : Nat}
    (some_ : 0 < count) :
    (readChunks id buffer count (rounds + 1) 0).run now = (.error (.code (- Vfs.EIO)), now) := by
  have ran : (Vfs.readFile ramfs id (min chunkSize count)).run now.fs =
      (.ok (- Vfs.EIO, []), now.fs) := by
    unfold Vfs.readFile
    rw [run_bind_ok (Vfs.run_fileOf opened.live), if_pos unreadable, run_pure]
  have chunk : (Kernel.readChunk id (min chunkSize count)).run now =
      (.ok (- Vfs.EIO, [] ++ (freshBuffer chunkSize).drop 0), now) := by
    unfold Kernel.readChunk
    rw [run_bind_ok (run_onFs ran)]
    simp only
    rw [putBuffer_front zero_le, run_bind_ok (run_lift _ _)]
    rfl
  unfold readChunks
  rw [if_neg (not_le.mpr some_), Nat.sub_zero]
  simp only
  rw [run_bind_ok chunk]
  rfl

theorem OpenRegular.run_sysRead_unreadable (opened : OpenRegular now fd id file bytes)
    (unreadable : file.flags &&& oWronly ≠ 0) (ordinary : 3 ≤ fd) (buffer : Nat) {count : Nat}
    (some_ : 0 < count) (allowed : count ≤ maxIoSize) :
    (sysRead fd buffer count).run now = (.error (.code (- Vfs.EIO)), now) := by
  obtain ⟨rounds, rfl⟩ := Nat.exists_eq_succ_of_ne_zero (Nat.ne_of_gt some_)
  rw [opened.run_sysRead ordinary, if_neg (Nat.ne_of_gt some_), if_neg (not_lt.mpr allowed),
    run_bind_error (opened.run_unreadable unreadable buffer some_)]

theorem keyboard_outcomes (live : now.vfs.files id = some file) (space : Space now.mem now.cr3) :
    (ReadSafe now 0 file bytes buffer count ∧
        Keeping now id file count ((sysRead 0 buffer count).run now)) ∨
      (¬ReadSafe now 0 file bytes buffer count ∧
        Losing now 0 id file count ((sysRead 0 buffer count).run now)) := by
  by_cases none_ : count = 0
  · subst none_
    refine .inl ⟨.inl rfl, ?_⟩
    rw [run_sysRead_none]
    exact Keeping.nothing live
  unfold sysRead
  rw [run_bind_ok (run_gets _ _), if_pos rfl, if_neg none_]
  by_cases large : maxIoSize < count
  · rw [if_pos large]
    exact .inl ⟨.inr (.inl large), Keeping.refused (by decide)⟩
  have safe : ReadSafe now 0 file bytes buffer count ↔ (¬Writable now.mem now.cr3 buffer 1 ∨
      ¬KeyEnds now.mem now.cr3 buffer count (typed now.keyboard)) := by
    unfold ReadSafe
    constructor
    · rintro (isNone | isLarge | one | two | ⟨_, safe⟩ | ⟨three, _⟩)
      · exact absurd isNone none_
      · exact absurd isLarge large
      · cases one
      · cases two
      · exact safe
      · omega
    · intro safe
      exact .inr (.inr (.inr (.inr (.inl ⟨rfl, safe⟩))))
  rw [if_neg large, safe]
  unfold readKeyboard
  rcases copyToUser_cases now space buffer [0] with
    ⟨writable, mem, copied, probed⟩ | ⟨unwritable, mem, copied⟩
  swap
  · rw [run_bind_ok copied, if_neg Bool.false_ne_true]
    exact .inl ⟨.inl unwritable, .inl ⟨errFault, _, rfl, by decide, rfl⟩⟩
  have user := writable.user one_pos
  have top : userTop = 2 ^ 47 := by decide
  have limit : maxIoSize = 2 ^ 20 := by decide
  rw [run_bind_ok copied, if_pos rfl, run_bind_ok (run_gets _ _)]
  have returns := @readKeys_returns { now with mem := mem } (probed.tables.space space) buffer count
    now.keyboard 0 (by omega) (by omega)
    (fun _ => (Space.writable_sameTables space probed.tables _ _).mpr writable)
  rw [add_zero, Nat.sub_zero, keyEnds_sameTables space probed.tables] at returns
  rcases returns with ⟨ends, result, after, ran, positive, same⟩ | ⟨waits, after, ran⟩
  · refine .inr ⟨?_, .inl ⟨rfl, result, after, ran, positive, same⟩⟩
    rintro (unwritable | waits)
    · exact unwritable writable
    · exact waits ends
  · exact .inl ⟨.inr waits, .inr (.inl ⟨after, ran⟩)⟩

theorem file_outcomes (opened : OpenRegular now fd id file bytes) (space : Space now.mem now.cr3)
    (ordinary : 3 ≤ fd) (word : buffer < 2 ^ 64) : (ReadSafe now fd file bytes buffer count ∧
        Keeping now id file count ((sysRead fd buffer count).run now)) ∨
      (¬ReadSafe now fd file bytes buffer count ∧
        Losing now fd id file count ((sysRead fd buffer count).run now)) := by
  have early := opened.run_sysRead ordinary buffer count
  by_cases none_ : count = 0
  · rw [if_pos none_] at early
    rw [early]
    exact .inl ⟨.inl none_, Keeping.nothing opened.live⟩
  by_cases large : maxIoSize < count
  · rw [if_neg none_, if_pos large] at early
    rw [early]
    exact .inl ⟨.inr (.inl large), Keeping.refused (by decide)⟩
  have safe : ReadSafe now fd file bytes buffer count ↔ (file.flags &&& oWronly ≠ 0 ∨
      Writable now.mem now.cr3 buffer (requested bytes file.offset count).length) := by
    unfold ReadSafe
    constructor
    · rintro (isNone | isLarge | one | two | ⟨zero, _⟩ | ⟨_, safe⟩)
      · exact absurd isNone none_
      · exact absurd isLarge large
      · omega
      · omega
      · omega
      · exact safe
    · intro safe
      exact .inr (.inr (.inr (.inr (.inr ⟨ordinary, safe⟩))))
  rw [safe]
  by_cases unreadable : file.flags &&& oWronly ≠ 0
  · rw [opened.run_sysRead_unreadable unreadable ordinary buffer (pos_of_ne_zero none_)
      (not_lt.mp large)]
    exact .inl ⟨.inl unreadable, Keeping.refused (by decide)⟩
  have bounded : (requested bytes file.offset count).length ≤ count := by
    rw [length_requested]
    omega
  rcases opened.sysRead_cases (not_not.mp unreadable) space ordinary (fun _ => word)
    (not_lt.mp large) with
    ⟨writable, mem, ran, delivered⟩ | ⟨unwritable, mem, done, lost, some_, inside, ran⟩
  · rw [ran]
    exact .inl ⟨.inr writable, .inr (.inr ⟨mem, _, rfl, bounded, delivered.tables⟩)⟩
  · rw [ran]
    refine .inr ⟨?_, .inr ⟨ordinary, mem, done, lost, some_, by omega, rfl⟩⟩
    rintro (writeOnly | writable)
    · exact unreadable writeOnly
    · exact unwritable writable

theorem sysRead_outcomes (opened : OpenRegular now fd id file bytes) (space : Space now.mem now.cr3)
    (word : buffer < 2 ^ 64) : (ReadSafe now fd file bytes buffer count ∧
        Keeping now id file count ((sysRead fd buffer count).run now)) ∨
      (¬ReadSafe now fd file bytes buffer count ∧
        Losing now fd id file count ((sysRead fd buffer count).run now)) := by
  by_cases console : fd = 1 ∨ fd = 2
  · refine .inl ⟨?_, ?_⟩
    · unfold ReadSafe
      omega
    · rw [run_sysRead_console console]
      exact Keeping.refused (by decide)
  by_cases keyboard : fd = 0
  · subst keyboard
    exact keyboard_outcomes opened.live space
  · exact file_outcomes opened space (by omega) word

theorem accounted_stop_iff {total : Nat} {after : State} (negative : code < 0) :
    Accounted id file (if total ≠ 0 then .ok (some total) else .error (.code code), after) ↔
      (after.vfs.files id).map Vfs.File.offset = some (file.offset + total) := by
  by_cases some_ : total ≠ 0
  · rw [if_pos some_]
    exact Iff.rfl
  · rw [if_neg some_, not_not.mp some_, add_zero]
    exact ⟨And.right, fun position => ⟨negative, position⟩⟩

theorem Keeping.accounted (live : now.vfs.files id = some file)
    (keeping : Keeping now id file count outcome) : Accounted id file outcome := by
  rcases keeping with ⟨code, after, rfl, negative, same⟩ | ⟨after, rfl⟩ | ⟨mem, result, rfl, _⟩
  · refine ⟨negative, ?_⟩
    rw [same, live]
    rfl
  · trivial
  · change Option.map _ _ = _
    rw [State.moved_file]
    rfl

theorem Losing.not_accounted (live : now.vfs.files id = some file)
    (losing : Losing now fd id file count outcome) : ¬Accounted id file outcome := by
  rcases losing with ⟨_, result, after, rfl, positive, same⟩ | ⟨_, mem, done, lost, some_, _, rfl⟩
  · intro moved
    change Option.map _ _ = _ at moved
    rw [same, live, map_some, some.injEq] at moved
    omega
  · rw [accounted_stop_iff (by decide), State.moved_file, map_some, some.injEq]
    simp only
    omega

/-! ### Reads into vectors -/

/-- The loop of `sys_vector_io` comes to an entry with a total. -/
inductive ReadvAt (fd userIov : Nat) (kernel : State) : Nat → Nat → State → Prop
  | start : ReadvAt fd userIov kernel 0 0 kernel
  | skip {index total base : Nat} {now : State}
      (earlier : ReadvAt fd userIov kernel index total now)
      (entry : userIovec now userIov index = some (base, 0)) :
      ReadvAt fd userIov kernel (index + 1) total now
  | next {index total base length : Nat} {now after : State}
      (earlier : ReadvAt fd userIov kernel index total now)
      (entry : userIovec now userIov index = some (base, length))
      (allowed : length ≤ maxIoSize - total) (some_ : 0 < length)
      (ran : (sysRead fd base length).run now = (.ok (some length), after)) :
      ReadvAt fd userIov kernel (index + 1) (total + length) after

/-- Every read of the call is safe in the state in which it starts. -/
def ReadvSafe (kernel : State) (fd id : Nat) (bytes : List UInt8) (userIov iovCount : Nat) : Prop :=
  iovCount ≤ maxIovecCount → ∀ index total now base length file, index < iovCount →
    ReadvAt fd userIov kernel index total now → userIovec now userIov index = some (base, length) →
    length ≤ maxIoSize - total → now.vfs.files id = some file →
    ReadSafe now fd file bytes base length

theorem userIovec_user {userIov index : Nat}
    (entry : userIovec now userIov index = some (base, length)) : userIov < userTop := by
  by_contra beyond
  unfold userIovec at entry
  rw [if_pos (by omega)] at entry
  cases entry

theorem userIovec_word {userIov index : Nat}
    (entry : userIovec now userIov index = some (base, length)) : base < 2 ^ 64 := by
  unfold userIovec at entry
  simp only at entry
  split at entry
  · cases entry
  · obtain ⟨read, _, fields⟩ := map_eq_some_iff.mp entry
    cases fields
    exact Memory.readNumber_lt _ 0 8

section Entry

variable {userIov index base length total : Nat}

section

variable (entry : userIovec now userIov index = some (base, length))

include entry

theorem run_transferVectors (missing : Nat) :
    (transferVectors fd userIov false index (missing + 1) total).run now =
      Program.run (if maxIoSize - total < length then do
          let result ← partialResult total errInval
          pure (some result)
        else if length = 0 then transferVectors fd userIov false (index + 1) missing total
        else do
          match ← attempt (sysRead fd base length) with
          | .error code => do
              let result ← partialResult total code
              pure (some result)
          | .ok none => pure none
          | .ok (some count) =>
            if count < length then pure (some (total + count))
            else transferVectors fd userIov false (index + 1) missing (total + count)) now := by
  rw [transferVectors, run_bind_ok (run_gets _ _), id_eq, entry]
  rfl

theorem run_transferVectors_next {after : State} {result : Nat}
    (allowed : length ≤ maxIoSize - total) (some_ : 0 < length)
    (ran : (sysRead fd base length).run now = (.ok (some result), after)) (missing : Nat) :
    (transferVectors fd userIov false index (missing + 1) total).run now =
      if result < length then (.ok (some (total + result)), after)
      else (transferVectors fd userIov false (index + 1) missing (total + result)).run after := by
  rw [run_transferVectors entry, if_neg (not_lt.mpr allowed), if_neg (by omega),
    run_bind_ok (run_attempt_ok ran)]
  simp only
  split
  · rfl
  · rfl

theorem run_transferVectors_error {after : State} {code : Int}
    (allowed : length ≤ maxIoSize - total) (some_ : 0 < length)
    (ran : (sysRead fd base length).run now = (.error (.code code), after)) (missing : Nat) :
    (transferVectors fd userIov false index (missing + 1) total).run now =
      (if total ≠ 0 then .ok (some total) else .error (.code code), after) := by
  rw [run_transferVectors entry, if_neg (not_lt.mpr allowed), if_neg (by omega),
    run_bind_ok (run_attempt_code ran)]
  unfold partialResult
  simp only
  split
  · rfl
  · rfl

theorem run_transferVectors_waits {after : State} (allowed : length ≤ maxIoSize - total)
    (some_ : 0 < length) (ran : (sysRead fd base length).run now = (.ok none, after))
    (missing : Nat) :
    (transferVectors fd userIov false index (missing + 1) total).run now = (.ok none, after) := by
  rw [run_transferVectors entry, if_neg (not_lt.mpr allowed), if_neg (by omega),
    run_bind_ok (run_attempt_ok ran)]
  rfl

end

theorem run_transferVectors_none (absent : userIovec now userIov index = none) (missing : Nat) :
    (transferVectors fd userIov false index (missing + 1) total).run now =
      (if total ≠ 0 then .ok (some total) else .error (.code errFault), now) := by
  rw [transferVectors, run_bind_ok (run_gets _ _), id_eq, absent]
  unfold partialResult
  simp only
  split
  · rfl
  · rfl

theorem run_transferVectors_large (entry : userIovec now userIov index = some (base, length))
    (large : maxIoSize - total < length) (missing : Nat) :
    (transferVectors fd userIov false index (missing + 1) total).run now =
      (if total ≠ 0 then .ok (some total) else .error (.code errInval), now) := by
  rw [run_transferVectors entry, if_pos large]
  unfold partialResult
  split
  · rfl
  · rfl

end Entry

/-- The file in the middle of the call, if no byte has been lost. -/
structure Halfway (fd id : Nat) (file : Vfs.File) (bytes : List UInt8) (total : Nat) (now : State) :
    Prop where
  space : Space now.mem now.cr3
  opened : ∃ current, OpenRegular now fd id current bytes ∧ current.offset = file.offset + total

theorem Halfway.position {total : Nat} (halfway : Halfway fd id file bytes total now) :
    (now.vfs.files id).map Vfs.File.offset = some (file.offset + total) := by
  obtain ⟨current, opened, offset⟩ := halfway.opened
  rw [opened.live, map_some, offset]

theorem Halfway.moved {total result : Nat} {mem : Memory} {current : Vfs.File}
    (opened : OpenRegular now fd id current bytes) (offset : current.offset = file.offset + total)
    (space : Space now.mem now.cr3) (same : SameTables now.mem mem now.cr3) :
    Halfway fd id file bytes (total + result)
      (now.moved id current (current.offset + result) mem) := by
  refine ⟨same.space space, _, opened.moved mem (current.offset + result), ?_⟩
  simp only
  omega

variable {kernel : State} {userIov iovCount index total : Nat}

theorem readvAt_halfway (opened : OpenRegular kernel fd id file bytes)
    (space : Space kernel.mem kernel.cr3) (few : iovCount ≤ maxIovecCount)
    (good : 3 ≤ fd ∨ ReadvSafe kernel fd id bytes userIov iovCount)
    (reached : ReadvAt fd userIov kernel index total now) (inside : index ≤ iovCount) :
    Halfway fd id file bytes total now := by
  induction reached with
  | start => exact ⟨space, file, opened, rfl⟩
  | skip _ _ ih => exact ih (by omega)
  | @next index total base length now after earlier entry allowed some_ ran ih =>
    obtain ⟨spaceNow, current, openedNow, offset⟩ := ih (by omega)
    rcases @sysRead_outcomes now fd id current bytes base length openedNow spaceNow
      (userIovec_word entry) with ⟨_, keeping⟩ | ⟨risky, losing⟩
    · rw [ran] at keeping
      rcases keeping with
        ⟨code, _, impossible, _⟩ | ⟨_, impossible⟩ | ⟨mem, result, same, _, tables⟩
      · cases congrArg Prod.fst impossible
      · cases congrArg Prod.fst impossible
      · cases same
        exact Halfway.moved openedNow offset spaceNow tables
    · rcases good with ordinary | safe
      · rw [ran] at losing
        rcases losing with ⟨zero, _⟩ | ⟨_, mem, done, lost, positive, bounded, same⟩
        · omega
        · have result := congrArg Prod.fst same
          split at result
          · cases result
            omega
          · cases result
      · exact absurd (safe few index total now base length current (by omega) earlier entry allowed
          openedNow.live) risky

theorem ReadvAt.run_eq (reached : ReadvAt fd userIov kernel index total now)
    (inside : index ≤ iovCount) :
    (transferVectors fd userIov false 0 iovCount 0).run kernel =
      (transferVectors fd userIov false index (iovCount - index) total).run now := by
  induction reached with
  | start => rfl
  | @skip index _ _ _ _ entry ih =>
    have missing : iovCount - index = iovCount - (index + 1) + 1 := by omega
    rw [ih (by omega), missing, run_transferVectors entry, if_neg (not_lt_zero), if_pos rfl]
  | @next index _ _ _ _ _ _ entry allowed some_ ran ih =>
    have missing : iovCount - index = iovCount - (index + 1) + 1 := by omega
    rw [ih (by omega), missing, run_transferVectors_next entry allowed some_ ran,
      if_neg (lt_irrefl _)]

section

variable (opened : OpenRegular kernel fd id file bytes)

include opened

theorem transferVectors_accounted (space : Space kernel.mem kernel.cr3)
    (few : iovCount ≤ maxIovecCount) (safe : ReadvSafe kernel fd id bytes userIov iovCount)
    (missing : Nat) (reached : ReadvAt fd userIov kernel index total now)
    (left : index + missing = iovCount) :
    Accounted id file ((transferVectors fd userIov false index missing total).run now) := by
  induction missing generalizing index total now with
  | zero => exact (readvAt_halfway opened space few (.inr safe) reached (by omega)).position
  | succ missing ih =>
    have halfway := readvAt_halfway opened space few (.inr safe) reached (by omega)
    cases entry : userIovec now userIov index with
    | none =>
      rw [run_transferVectors_none entry]
      exact (accounted_stop_iff (by decide)).mpr halfway.position
    | some vector =>
      obtain ⟨base, length⟩ := vector
      by_cases large : maxIoSize - total < length
      · rw [run_transferVectors_large entry large]
        exact (accounted_stop_iff (by decide)).mpr halfway.position
      have allowed := not_lt.mp large
      by_cases none_ : length = 0
      · subst none_
        rw [run_transferVectors entry, if_neg large, if_pos rfl]
        exact ih (reached.skip entry) (by omega)
      have some_ := pos_of_ne_zero none_
      obtain ⟨spaceNow, current, openedNow, offset⟩ := halfway
      have isSafe := safe few index total now base length current (by omega) reached entry allowed
        openedNow.live
      rcases @sysRead_outcomes now fd id current bytes base length openedNow spaceNow
        (userIovec_word entry) with ⟨_, keeping⟩ | ⟨risky, _⟩
      swap
      · exact absurd isSafe risky
      rcases keeping with ⟨code, after, ran, negative, same⟩ | ⟨after, ran⟩ |
        ⟨mem, result, ran, bounded, tables⟩
      · rw [run_transferVectors_error entry allowed some_ ran]
        refine (accounted_stop_iff negative).mpr ?_
        rw [same, openedNow.live, map_some, offset]
      · rw [run_transferVectors_waits entry allowed some_ ran]
        trivial
      · have later := @Halfway.moved now fd id file bytes total result mem current openedNow offset
          spaceNow tables
        rw [run_transferVectors_next entry allowed some_ ran]
        by_cases short : result < length
        · rw [if_pos short]
          exact later.position
        · have whole : result = length := by omega
          subst whole
          rw [if_neg short]
          exact ih (reached.next entry allowed some_ ran) (by omega)

theorem transferVectors_not_accounted (space : Space kernel.mem kernel.cr3)
    (few : iovCount ≤ maxIovecCount) (ordinary : 3 ≤ fd)
    (reached : ReadvAt fd userIov kernel index total now) (inside : index < iovCount)
    {current : Vfs.File} (entry : userIovec now userIov index = some (base, length))
    (allowed : length ≤ maxIoSize - total) (live : now.vfs.files id = some current)
    (risky : ¬ReadSafe now fd current bytes base length) :
    ¬Accounted id file ((transferVectors fd userIov false 0 iovCount 0).run kernel) := by
  have missing : iovCount - index = iovCount - (index + 1) + 1 := by omega
  obtain ⟨spaceNow, same, openedNow, offset⟩ :=
    readvAt_halfway opened space few (.inl ordinary) reached (by omega)
  rw [openedNow.live] at live
  cases live
  have some_ : 0 < length := by
    by_contra none_
    exact risky (.inl (by omega))
  rw [reached.run_eq (le_of_lt inside), missing]
  rcases @sysRead_outcomes now fd id current bytes base length openedNow spaceNow
    (userIovec_word entry) with ⟨safe, _⟩ | ⟨_, losing⟩
  · exact absurd safe risky
  rcases losing with ⟨zero, _⟩ | ⟨_, mem, done, lost, positive, bounded, ran⟩
  · omega
  by_cases first : done ≠ 0
  · rw [if_pos first] at ran
    rw [run_transferVectors_next entry allowed some_ ran, if_pos (by omega)]
    change ¬Option.map _ _ = _
    rw [State.moved_file, map_some, some.injEq]
    simp only
    omega
  · rw [if_neg first] at ran
    rw [run_transferVectors_error entry allowed some_ ran, accounted_stop_iff (by decide),
      State.moved_file, map_some, some.injEq]
    simp only
    omega

theorem run_sysRead_zero (notConsole : fd ≠ 1 ∧ fd ≠ 2) :
    (sysRead fd 0 0).run kernel = (.ok (some 0), kernel) := by
  by_cases keyboard : fd = 0
  · rw [keyboard, run_sysRead_none]
  · rw [opened.run_sysRead (by omega), if_pos rfl]
    rfl

theorem run_sysVectorIo (notConsole : fd ≠ 1 ∧ fd ≠ 2) (few : iovCount ≤ maxIovecCount)
    (user : userIov < userTop ∨ iovCount = 0) : (sysVectorIo fd userIov iovCount false).run kernel =
      (transferVectors fd userIov false 0 iovCount 0).run kernel := by
  unfold sysVectorIo
  rw [if_neg (not_lt.mpr few), if_neg (by omega)]
  change Program.run (sysRead fd 0 0 >>= _) kernel = _
  rw [run_bind_ok (run_sysRead_zero opened notConsole)]
  by_cases none_ : iovCount = 0
  · rw [if_pos none_, none_]
    rfl
  · rw [if_neg none_]

end

/-- The position of a regular file after a read: it has moved by what is returned exactly if the
read is safe.  A vector of reads that are all safe keeps the account, and by a descriptor of a
file no other does. -/
theorem read_accounted_iff (opened : OpenRegular kernel fd id file bytes)
    (space : Space kernel.mem kernel.cr3) :
    (∀ buffer count, buffer < 2 ^ 64 →
        (Accounted id file ((sysRead fd buffer count).run kernel) ↔
          ReadSafe kernel fd file bytes buffer count)) ∧
      ∀ userIov iovCount,
        (ReadvSafe kernel fd id bytes userIov iovCount →
          Accounted id file ((sysVectorIo fd userIov iovCount false).run kernel)) ∧
        (3 ≤ fd → Accounted id file ((sysVectorIo fd userIov iovCount false).run kernel) →
          ReadvSafe kernel fd id bytes userIov iovCount) := by
  refine ⟨?_, fun userIov iovCount => ⟨?_, ?_⟩⟩
  · intro buffer count word
    rcases @sysRead_outcomes kernel fd id file bytes buffer count opened space word with
      ⟨safe, keeping⟩ | ⟨risky, losing⟩
    · exact iff_of_true (keeping.accounted opened.live) safe
    · exact iff_of_false (losing.not_accounted opened.live) risky
  · intro safe
    by_cases many : maxIovecCount < iovCount
    · unfold sysVectorIo
      rw [if_pos many]
      exact (Keeping.refused (by decide) : Keeping kernel id file 0 _).accounted opened.live
    by_cases beyond : userTop ≤ userIov ∧ iovCount ≠ 0
    · unfold sysVectorIo
      rw [if_neg many, if_pos beyond]
      exact (Keeping.refused (by decide) : Keeping kernel id file 0 _).accounted opened.live
    by_cases console : fd = 1 ∨ fd = 2
    · unfold sysVectorIo
      rw [if_neg many, if_neg beyond]
      change Accounted id file (Program.run (sysRead fd 0 0 >>= _) kernel)
      rw [run_bind_error (run_sysRead_console console 0 0)]
      exact (Keeping.refused (by decide) : Keeping kernel id file 0 _).accounted opened.live
    rw [run_sysVectorIo opened (by omega) (not_lt.mp many) (by omega)]
    exact transferVectors_accounted opened space (not_lt.mp many) safe iovCount .start
      (zero_add _)
  · intro ordinary accounted few index total now base length current inside reached entry
      allowed live
    by_contra risky
    have user := userIovec_user entry
    rw [run_sysVectorIo opened (by omega) few (Or.inl user)] at accounted
    exact transferVectors_not_accounted opened space few ordinary reached inside entry allowed live
      risky accounted

end

/-! ### A small machine -/

theorem read_accounted_small : ∃ file, OpenRegular readingKernel 3 7 file smallProgram ∧
    Accounted 7 file ((sysRead 3 0x400000 4).run readingKernel) := by
  obtain ⟨start, root⟩ := readingKernel_start
  obtain ⟨file, opened, _⟩ := start.opened (by decide)
  have space : Space readingKernel.mem readingKernel.cr3 := by
    rw [root]
    exact mappedMachine_space
  refine ⟨file, opened, ((read_accounted_iff opened space).1 _ _ (by decide)).mpr ?_⟩
  refine Or.inr (Or.inr (Or.inr (Or.inr (Or.inr ⟨by decide, Or.inr ?_⟩))))
  rw [root]
  refine mappedMachine_writable ?_
  rw [length_requested]
  omega

/-- Four bytes are read to the address 0, which is not mapped.  The call fails, and the position
has moved by four. -/
theorem faulting_read_loses :
    (match (sysRead 3 0 4).run readingKernel with
      | (.error (.code code), after) => some (code, (after.vfs.files 7).map Vfs.File.offset)
      | _ => none) = some (errFault, some 4) ∧ AtStart readingKernel 3 := by
  decide +kernel

end Synx.Kernel
