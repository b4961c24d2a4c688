/-
`readv` against one `read`.
-/

import Synx.Kernel.Scatter

namespace Synx.Kernel

open Lib Program List Option
open Exec
open Vfs (oWronly)

/-! ### Lines over several buffers -/

/-- How many characters a vector of reads takes; with too few it waits. -/
def vectorLine : List Nat → List UInt8 → Option Nat
  | [], _ => some 0
  | length :: more, keys =>
    match lineLength length keys with
    | none => none
    | some taken =>
      if taken < length then some taken else (vectorLine more (keys.drop length)).map (length + ·)

/-- The line ends exactly with one of the buffers, and there is more to fill. -/
def LineBreaks (lengths : List Nat) (keys : List UInt8) : Prop :=
  ∃ front back, lengths = front ++ back ∧ 0 < back.sum ∧ newline ∈ keys ∧
    keys.idxOf newline + 1 = front.sum

theorem lineLength_eq (count : Nat) (keys : List UInt8) :
    lineLength count keys =
      if count ≤ keys.idxOf newline then some count
      else if newline ∈ keys then some (keys.idxOf newline + 1) else none := by
  induction count, keys using lineLength.induct with
  | case1 keys => rw [lineLength, if_pos zero_le]
  | case2 count =>
    rw [lineLength, if_neg (by rw [idxOf_nil]; omega), if_neg not_mem_nil]
  | case3 count rest =>
    rw [lineLength, if_pos rfl, idxOf_cons_self, if_neg (by omega),
      if_pos (mem_cons_self ..)]
  | case4 count key rest other ih =>
    have member : newline ∈ key :: rest ↔ newline ∈ rest := by
      rw [mem_cons]
      exact or_iff_right (fun same => other same.symm)
    rw [lineLength, if_neg other, ih, idxOf_cons_ne _ other]
    simp only [member, Nat.succ_eq_add_one, Nat.add_le_add_iff_right]
    split
    · rfl
    · split
      · rfl
      · rfl

theorem idxOf_drop {length : Nat} {keys : List UInt8} (early : length ≤ keys.idxOf newline) :
    keys.idxOf newline = length + (keys.drop length).idxOf newline ∧
      (newline ∈ keys ↔ newline ∈ keys.drop length) := by
  have inside : length ≤ keys.length := le_trans early idxOf_le_length
  have absent : newline ∉ keys.take length := by
    intro member
    have first := idxOf_lt_length_of_mem member
    have same : (keys.take length ++ keys.drop length).idxOf newline = _ :=
      idxOf_append_of_mem member
    rw [take_append_drop] at same
    rw [length_take] at first
    omega
  have later : (keys.take length ++ keys.drop length).idxOf newline = _ :=
    idxOf_append_of_notMem absent
  rw [take_append_drop, length_take] at later
  refine ⟨by omega, ?_⟩
  conv_lhs => rw [← take_append_drop length keys]
  rw [mem_append]
  exact or_iff_right absent

theorem vectorLine_zero_iff (lengths : List Nat) (keys : List UInt8) :
    vectorLine lengths keys = some 0 ↔ lengths.sum = 0 := by
  induction lengths generalizing keys with
  | nil => exact ⟨fun _ => rfl, fun _ => rfl⟩
  | cons length more ih =>
    rw [sum_cons]
    unfold vectorLine
    cases line : lineLength length keys with
    | none =>
      have some_ : length ≠ 0 := by
        rintro rfl
        cases line
      refine iff_of_false nofun ?_
      omega
    | some taken =>
      obtain ⟨bounded, _, positive⟩ := lineLength_bounds line
      simp only
      by_cases short : taken < length
      · have some_ := positive (by omega)
        rw [if_pos short, some.injEq]
        omega
      · rw [if_neg short, map_eq_some_iff]
        constructor
        · rintro ⟨rest, ends, sum⟩
          have nothing : rest = 0 := by omega
          rw [nothing] at ends
          have none_ := (ih _).mp ends
          omega
        · intro sum
          exact ⟨0, (ih _).mpr (by omega), by omega⟩

theorem lineBreaks_cons {length : Nat} {more : List Nat} {keys : List UInt8} :
    LineBreaks (length :: more) keys ↔
      newline ∈ keys ∧ ((keys.idxOf newline + 1 = length ∧ 0 < more.sum) ∨
        (length ≤ keys.idxOf newline ∧ LineBreaks more (keys.drop length))) := by
  constructor
  · rintro ⟨front, back, parts, some_, ends, sum⟩
    cases front with
    | nil => cases sum
    | cons first front =>
      rw [cons_append, List.cons.injEq] at parts
      obtain ⟨rfl, rfl⟩ := parts
      rw [sum_cons] at sum
      refine ⟨ends, ?_⟩
      by_cases early : length ≤ keys.idxOf newline
      · obtain ⟨place, member⟩ := idxOf_drop early
        exact .inr ⟨early, front, back, rfl, some_, member.mp ends, by omega⟩
      · refine .inl ⟨by omega, ?_⟩
        rw [sum_append]
        omega
  · rintro ⟨ends, ⟨sum, some_⟩ | ⟨early, front, back, parts, some_, _, sum⟩⟩
    · exact ⟨[length], more, rfl, some_, ends, by rw [sum_singleton]; exact sum⟩
    · obtain ⟨place, _⟩ := idxOf_drop early
      refine ⟨length :: front, back, by rw [parts, cons_append], some_, ends, ?_⟩
      rw [sum_cons]
      omega

theorem vectorLine_eq_iff (lengths : List Nat) (keys : List UInt8) :
    vectorLine lengths keys = lineLength lengths.sum keys ↔ ¬LineBreaks lengths keys := by
  induction lengths generalizing keys with
  | nil =>
    refine iff_of_true rfl ?_
    rintro ⟨front, back, parts, some_, _⟩
    rw [nil_eq, append_eq_nil_iff] at parts
    rw [parts.2] at some_
    cases some_
  | cons length more ih =>
    rw [sum_cons, lineBreaks_cons]
    unfold vectorLine
    by_cases early : length ≤ keys.idxOf newline
    · obtain ⟨place, member⟩ := idxOf_drop early
      have first : lineLength length keys = some length := by rw [lineLength_eq, if_pos early]
      have whole : lineLength (length + more.sum) keys =
          (lineLength more.sum (keys.drop length)).map (length + ·) := by
        rw [lineLength_eq, lineLength_eq, place]
        simp only [Nat.add_le_add_iff_left, member]
        split
        · rfl
        · split
          · rfl
          · rfl
      rw [first, whole]
      simp only [lt_irrefl, if_false]
      rw [(map_injective (fun _ _ => Nat.add_left_cancel)).eq_iff, ih, not_iff_not]
      constructor
      · rintro ⟨front, back, parts, some_, ends, sum⟩
        exact ⟨member.mpr ends, .inr ⟨early, front, back, parts, some_, ends, sum⟩⟩
      · rintro ⟨_, ⟨late, _⟩ | ⟨_, breaks⟩⟩
        · omega
        · exact breaks
    · have first := lineLength_eq length keys
      have whole := lineLength_eq (length + more.sum) keys
      rw [if_neg early] at first
      rw [if_neg (by omega)] at whole
      rw [first, whole]
      by_cases ends : newline ∈ keys
      · simp only [ends, if_true, true_and, early, false_and, or_false]
        by_cases short : keys.idxOf newline + 1 < length
        · rw [if_pos short]
          refine iff_of_true rfl ?_
          omega
        · have exactly : keys.idxOf newline + 1 = length := by omega
          rw [if_neg short, exactly, map_eq_some_iff]
          constructor
          · rintro ⟨rest, isRest, sum⟩ ⟨_, some_⟩
            have nothing : rest = 0 := by omega
            rw [nothing, vectorLine_zero_iff] at isRest
            omega
          · intro done
            refine ⟨0, (vectorLine_zero_iff _ _).mpr ?_, add_zero _⟩
            omega
      · simp only [ends, if_false, false_and, not_false_eq_true]

section

variable {now : State} {fd id userIov index total : Nat} {array : List UInt8}
    {rest : List (Nat × Nat)}
variable {file : Vfs.File} {bytes : List UInt8}

/-! ### Vectors of the keyboard -/

def VectorKeysEnd (now : State) (rest : List (Nat × Nat)) (total : Nat) (keys : List UInt8)
    (outcome : Except (Stop Vfs.Fault) (Option Nat) × State) : Prop :=
  match vectorLine (rest.map Prod.snd) keys with
  | none => ∃ after, outcome = (.ok none, after) ∧ after.vfs = now.vfs
  | some taken => ∃ mem left,
      outcome = (.ok (some (total + taken)), { now with mem := mem, keyboard := left }) ∧
      typed left = keys.drop taken ∧
      Delivered now.mem now.cr3 ((places rest).take taken) (keys.take taken) mem

theorem VectorKeysEnd.filled {base length : Nat} {keys : List UInt8} {mem : Memory}
    {left : List KeyEvent} {outcome : Except (Stop Vfs.Fault) (Option Nat) × State}
    (line : lineLength length keys = some length)
    (delivered : Delivered now.mem now.cr3 (range' base length) (keys.take length) mem)
    (disjoint : (places ((base, length) :: rest)).Nodup)
    (later : VectorKeysEnd { now with mem := mem, keyboard := left } rest (total + length)
      (keys.drop length) outcome) :
    VectorKeysEnd now ((base, length) :: rest) total keys outcome := by
  unfold VectorKeysEnd at later ⊢
  rw [map_cons]
  unfold vectorLine
  simp only [line, lt_irrefl, if_false]
  cases ends : vectorLine (rest.map Prod.snd) (keys.drop length) with
  | none =>
    rw [ends] at later
    exact later
  | some taken =>
    rw [ends] at later
    obtain ⟨last, left, ran, pending, further⟩ := later
    simp only [map_some]
    rw [places_cons] at disjoint ⊢
    refine ⟨last, left, ?_, ?_, ?_⟩
    · rw [ran, add_assoc]
    · rw [pending, drop_drop]
    · have inside := (lineLength_bounds line).2.1
      rw [take_places, take_add]
      refine delivered.append further ?_ ?_
      · rw [length_range', length_take, Nat.min_eq_left inside]
      · intro address member beyond
        exact (nodup_append.mp disjoint).2.2 address member address
          (mem_of_mem_take beyond) rfl

theorem transferVectors_keys (vectored : Vectored now userIov array index rest)
    (fits : total + totalLength rest ≤ maxIoSize) :
    VectorKeysEnd now rest total (typed now.keyboard)
      ((transferVectors 0 userIov false index rest.length total).run now) := by
  induction rest generalizing now index total with
  | nil => exact ⟨now.mem, now.keyboard, rfl, rfl, Delivered.nothing _ _⟩
  | cons entry rest ih =>
    obtain ⟨base, length⟩ := entry
    rw [totalLength_cons] at fits
    simp only at fits
    have read := vectored.read
    rw [length_cons]
    by_cases none_ : length = 0
    · subst none_
      have next := vectored.next rfl (Delivered.nothing now.mem now.cr3) nofun
      rw [run_transferVectors read, if_neg (not_lt_zero), if_pos rfl]
      exact VectorKeysEnd.filled rfl (Delivered.nothing _ _) vectored.disjoint (ih next (by omega))
    have some_ := pos_of_ne_zero none_
    have ends := sysRead_keyboard vectored.space (userIovec_word read)
      (vectored.writable (base, length) (mem_cons_self ..)) some_
      (show length ≤ maxIoSize by omega)
    unfold KeysEnd at ends
    cases line : lineLength length (typed now.keyboard) with
    | none =>
      rw [line] at ends
      obtain ⟨mem, ran⟩ := ends
      rw [run_transferVectors_waits read (by omega) some_ ran]
      unfold VectorKeysEnd
      rw [map_cons]
      unfold vectorLine
      simp only [line]
      exact ⟨_, rfl, rfl⟩
    | some taken =>
      rw [line] at ends
      obtain ⟨mem, left, ran, pending, delivered⟩ := ends
      rw [zero_add] at ran
      have bounded := (lineLength_bounds line).1
      rw [run_transferVectors_next read (by omega) some_ ran]
      by_cases short : taken < length
      · rw [if_pos short]
        unfold VectorKeysEnd
        rw [map_cons]
        unfold vectorLine
        simp only [line, if_pos short]
        refine ⟨mem, left, rfl, pending, ?_⟩
        rw [places_cons, take_append_of_le_length (by rw [length_range']; exact bounded),
          take_range'_of_length_ge bounded]
        exact delivered
      · have whole : taken = length := by omega
        subst whole
        have next := @Vectored.next now userIov array index base taken rest
          { now with mem := mem, keyboard := left } _ _ vectored rfl delivered
          (fun _ member => member)
        rw [if_neg short]
        have later := ih next (show total + taken + totalLength rest ≤ maxIoSize by omega)
        simp only [pending] at later
        exact VectorKeysEnd.filled line delivered vectored.disjoint later

/-! ### Files that are only for writing -/

theorem transferVectors_unreadable (vectored : Vectored now userIov array index rest)
    (opened : OpenRegular now fd id file bytes) (unreadable : file.flags &&& oWronly ≠ 0)
    (ordinary : 3 ≤ fd) (fits : totalLength rest ≤ maxIoSize) :
    (transferVectors fd userIov false index rest.length 0).run now =
      (if totalLength rest = 0 then .ok (some 0) else .error (.code (- Vfs.EIO)), now) := by
  induction rest generalizing index with
  | nil => rfl
  | cons entry rest ih =>
    obtain ⟨base, length⟩ := entry
    rw [totalLength_cons] at fits ⊢
    simp only at fits ⊢
    have read := vectored.read
    rw [length_cons]
    by_cases none_ : length = 0
    · subst none_
      have next := vectored.next rfl (Delivered.nothing now.mem now.cr3) nofun
      rw [run_transferVectors read, if_neg (not_lt_zero), if_pos rfl, ih next (by omega),
        zero_add]
    · rw [if_neg (by omega), run_transferVectors_error read (by omega) (by omega)
        (opened.run_sysRead_unreadable unreadable ordinary base (by omega) (by omega))]
      rfl

/-! ### The two calls -/

/-- What the program is told; nothing if the call waits. -/
def toldCount : Except (Stop Vfs.Fault) (Option Nat) → Option Nat
  | .ok result => result
  | .error _ => some 0

/-- A vector of reads does as one read: the result and the position are the same, and the buffers
have the bytes of the one, and beyond them what they had before. -/
structure Alike (kernel : State) (id : Nat) (entries : List (Nat × Nat)) (buffer : Nat)
    (one many : Except (Stop Vfs.Fault) (Option Nat) × State) : Prop where
  result : many.1 = one.1
  position : (many.2.vfs.files id).map Vfs.File.offset = (one.2.vfs.files id).map Vfs.File.offset
  bytes : ∀ count index address, toldCount one.1 = some count →
    (places entries)[index]? = some address →
    userRead many.2.mem many.2.cr3 address =
      if index < count then userRead one.2.mem one.2.cr3 (buffer + index)
      else userRead kernel.mem kernel.cr3 address

theorem Delivered.scattered {mem before one many : Memory} {root cr3 buffer : Nat}
    {items : List UInt8} {addresses : List Nat}
    (whole : Delivered mem root (range' buffer items.length) items one)
    (parts : Delivered before cr3 (addresses.take items.length) items many)
    (disjoint : addresses.Nodup) {index address : Nat} (found : addresses[index]? = some address) :
    userRead many cr3 address =
      if index < items.length then userRead one root (buffer + index)
      else userRead before cr3 address := by
  by_cases early : index < items.length
  · have there : (range' buffer items.length)[index]? = some (buffer + index) := by
      rw [getElem?_range' early, one_mul]
    rw [if_pos early, whole.bytes.there index _ there,
      parts.bytes.there index address (by rw [getElem?_take_of_lt early, found])]
  · rw [if_neg early]
    refine parts.bytes.elsewhere address ?_
    intro member
    obtain ⟨other, inside, same⟩ := mem_take_iff_getElem.mp member
    obtain ⟨bound, rfl⟩ := List.getElem?_eq_some_iff.mp found
    have equal := (disjoint.getElem_inj_iff).mp same
    omega

variable {kernel : State} {mem : Memory} {root buffer iovCount : Nat} {entries : List (Nat × Nat)}

theorem Alike.delivered {one many : State} {items : List UInt8} (disjoint : (places entries).Nodup)
    (position : (many.vfs.files id).map Vfs.File.offset = (one.vfs.files id).map Vfs.File.offset)
    (whole : Delivered mem one.cr3 (range' buffer items.length) items one.mem)
    (sameRoot : many.cr3 = kernel.cr3)
    (parts : Delivered kernel.mem kernel.cr3 ((places entries).take items.length) items many.mem) :
    Alike kernel id entries buffer (.ok (some items.length), one)
      (.ok (some items.length), many) := by
  refine ⟨rfl, position, ?_⟩
  intro count index address isCount found
  cases isCount
  simp only
  rw [sameRoot]
  exact whole.scattered parts disjoint found

theorem Alike.refused {other : State} {code : Int} (same : other.vfs = kernel.vfs) :
    Alike kernel id entries buffer (.error (.code code), other) (.error (.code code), kernel) := by
  refine ⟨rfl, ?_, ?_⟩
  · simp only
    rw [same]
  · intro count index address isCount found
    cases isCount
    rw [if_neg (not_lt_zero)]

theorem alike_keys_iff {other : State} {keys : List UInt8} (disjoint : (places entries).Nodup)
    (same : other.vfs = kernel.vfs) {one many : Except (Stop Vfs.Fault) (Option Nat) × State}
    (whole : KeysEnd other buffer (totalLength entries) 0 keys one)
    (parts : VectorKeysEnd kernel entries 0 keys many) :
    Alike kernel id entries buffer one many ↔ ¬LineBreaks (entries.map Prod.snd) keys := by
  rw [← vectorLine_eq_iff]
  unfold KeysEnd totalLength at whole
  unfold VectorKeysEnd at parts
  cases line : lineLength (entries.map Prod.snd).sum keys with
  | none =>
    rw [line] at whole
    obtain ⟨last, rfl⟩ := whole
    cases vector : vectorLine (entries.map Prod.snd) keys with
    | none =>
      rw [vector] at parts
      obtain ⟨after, rfl, unmoved⟩ := parts
      refine iff_of_true ⟨rfl, ?_, ?_⟩ rfl
      · simp only
        rw [unmoved, same]
      · intro count index address isCount
        cases isCount
    | some taken =>
      rw [vector] at parts
      obtain ⟨after, left, rfl, _⟩ := parts
      refine iff_of_false ?_ nofun
      intro alike
      cases alike.result
  | some taken =>
    rw [line] at whole
    obtain ⟨last, left, rfl, _, delivered⟩ := whole
    cases vector : vectorLine (entries.map Prod.snd) keys with
    | none =>
      rw [vector] at parts
      obtain ⟨after, rfl, _⟩ := parts
      refine iff_of_false ?_ nofun
      intro alike
      cases alike.result
    | some number =>
      rw [vector] at parts
      obtain ⟨after, remaining, rfl, _, scattered⟩ := parts
      rw [some.injEq, zero_add, zero_add]
      constructor
      · intro alike
        exact some.inj (Except.ok.inj alike.result)
      · rintro rfl
        have length : (keys.take number).length = number := by
          rw [length_take, Nat.min_eq_left (lineLength_bounds line).2.1]
        generalize keys.take number = items at length delivered scattered
        subst length
        refine Alike.delivered disjoint ?_ delivered rfl scattered
        simp only
        rw [same]

theorem sysRead_keys (space : Space now.mem now.cr3) {count : Nat}
    (writable : Writable now.mem now.cr3 buffer count) (allowed : count ≤ maxIoSize) :
    KeysEnd now buffer count 0 (typed now.keyboard) ((sysRead 0 buffer count).run now) := by
  by_cases none_ : count = 0
  · subst none_
    rw [run_sysRead_none]
    exact KeysEnd.full _ 0 rfl
  · have some_ := pos_of_ne_zero none_
    have user := writable.user some_
    have top : userTop = 2 ^ 47 := by decide
    exact sysRead_keyboard space (by omega) writable some_ allowed

theorem OpenRegular.elsewhere (opened : OpenRegular kernel fd id file bytes) (mem : Memory)
    (root : Nat) : OpenRegular { kernel with mem := mem, cr3 := root } fd id file bytes :=
  ⟨opened.inside, opened.slot, opened.live, opened.stored, opened.object⟩

theorem alike_file (opened : OpenRegular kernel fd id file bytes) (ordinary : 3 ≤ fd)
    (vectored : Vectored kernel userIov array 0 entries) (fits : totalLength entries ≤ maxIoSize)
    (space : Space mem root) (writable : Writable mem root buffer (totalLength entries)) :
    Alike kernel id entries buffer
      ((sysRead fd buffer (totalLength entries)).run { kernel with mem := mem, cr3 := root })
      ((transferVectors fd userIov false 0 entries.length 0).run kernel) := by
  have other := opened.elsewhere mem root
  by_cases readable : file.flags &&& oWronly = 0
  · obtain ⟨last, ran, parts⟩ := transferVectors_file vectored opened readable ordinary
      (show 0 + totalLength entries ≤ maxIoSize by omega)
    have word : 0 < totalLength entries → buffer < 2 ^ 64 := by
      intro some_
      have user := writable.user some_
      have top : userTop = 2 ^ 47 := by decide
      omega
    rcases other.sysRead_cases readable space ordinary word fits with
      ⟨_, after, read, whole⟩ | ⟨unwritable, _⟩
    · rw [ran, read, zero_add]
      refine Alike.delivered vectored.disjoint ?_ whole rfl parts
      rw [State.moved_file, State.moved_file]
    · refine absurd (fun index inside => writable index ?_) unwritable
      rw [length_requested] at inside
      omega
  · rw [transferVectors_unreadable vectored opened readable ordinary fits]
    by_cases none_ : totalLength entries = 0
    · rw [if_pos none_, none_, other.run_sysRead ordinary, if_pos rfl]
      exact @Alike.delivered id kernel mem buffer entries { kernel with mem := mem, cr3 := root }
        kernel []
        vectored.disjoint rfl (Delivered.nothing mem root) rfl (Delivered.nothing _ _)
    · rw [if_neg none_, other.run_sysRead_unreadable readable ordinary buffer
        (pos_of_ne_zero none_) fits]
      exact Alike.refused rfl

/-- `readv` into writable buffers does as one `read` into a buffer of their total length, in
whatever address space that buffer is, unless the descriptor is 0 and the line breaks. -/
theorem readv_alike_iff (opened : OpenRegular kernel fd id file bytes)
    (vectored : Vectored kernel userIov array 0 (iovecs array))
    (size : array.length = 16 * iovCount) (few : iovCount ≤ maxIovecCount)
    (fits : totalLength (iovecs array) ≤ maxIoSize) (space : Space mem root)
    (writable : Writable mem root buffer (totalLength (iovecs array))) :
    Alike kernel id (iovecs array) buffer
        ((sysRead fd buffer (totalLength (iovecs array))).run
          { kernel with mem := mem, cr3 := root })
        ((sysVectorIo fd userIov iovCount false).run kernel) ↔
      (fd = 0 → ¬LineBreaks ((iovecs array).map Prod.snd) (typed kernel.keyboard)) := by
  have user : userIov < userTop ∨ iovCount = 0 := by
    by_cases none_ : iovCount = 0
    · exact Or.inr none_
    · have first := vectored.stored.user (show 0 < array.length by omega)
      exact Or.inl first
  have length : (iovecs array).length = iovCount := by
    unfold iovecs
    rw [length_map, length_range]
    omega
  by_cases console : fd = 1 ∨ fd = 2
  · refine iff_of_true ?_ (by omega)
    unfold sysVectorIo
    rw [run_sysRead_console console, if_neg (not_lt.mpr few), if_neg (by omega)]
    change Alike kernel id _ buffer _ (Program.run (sysRead fd 0 0 >>= _) kernel)
    rw [run_bind_error (run_sysRead_console console 0 0)]
    exact Alike.refused rfl
  rw [run_sysVectorIo opened (by omega) few user, ← length]
  by_cases keyboard : fd = 0
  · subst keyboard
    have whole := @sysRead_keys { kernel with mem := mem, cr3 := root } buffer space _ writable fits
    have parts :=
      transferVectors_keys vectored (show 0 + totalLength (iovecs array) ≤ maxIoSize by omega)
    have both :=
      @alike_keys_iff id kernel buffer (iovecs array) { kernel with mem := mem, cr3 := root } _
      vectored.disjoint rfl _ _ whole parts
    exact ⟨fun alike _ => both.mp alike, fun unbroken => both.mpr (unbroken rfl)⟩
  · refine iff_of_true ?_ (fun zero => absurd zero keyboard)
    exact alike_file opened (by omega) vectored fits space writable

end

/-! ### A small machine -/

def vectorArray : List UInt8 :=
  Memory.numberBytes 0x400100 8 ++ Memory.numberBytes 2 8 ++
    (Memory.numberBytes 0x400200 8 ++ Memory.numberBytes 2 8)

theorem iovecs_vectorArray : iovecs vectorArray = [(0x400100, 2), (0x400200, 2)] := by
  decide +kernel

theorem vectorArray_stored :
    ∃ mem, Delivered mappedMachine.mem 8192 (range' 0x400000 32) vectorArray mem := by
  have length : vectorArray.length = 32 := by decide +kernel
  have root := readingKernel_start.2
  have space : Space readingKernel.mem readingKernel.cr3 := by
    rw [root]
    exact mappedMachine_space
  rcases copyToUser_cases readingKernel space 0x400000 vectorArray with
    ⟨_, mem, _, delivered⟩ | ⟨unwritable, _⟩
  · rw [root, length] at delivered
    exact ⟨mem, delivered⟩
  · rw [root, length] at unwritable
    exact absurd (mappedMachine_writable (by decide)) unwritable

section

variable {mem : Memory}
    (stored : Delivered mappedMachine.mem 8192 (range' 0x400000 32) vectorArray mem)

include stored

theorem vectorArray_space : Space mem 8192 := stored.tables.space mappedMachine_space

theorem vectorArray_writable {offset size : Nat} (small : offset + size ≤ 4096) :
    Writable mem 8192 (0x400000 + offset) size := by
  rw [Space.writable_sameTables mappedMachine_space stored.tables]
  exact (mappedMachine_writable small).split.2

theorem vectorArray_vectored {kernel : State} (isMem : kernel.mem = mem)
    (root : kernel.cr3 = 8192) :
    Vectored kernel 0x400000 vectorArray 0 (iovecs vectorArray) := by
  have length : vectorArray.length = 32 := by decide +kernel
  constructor
  · rw [isMem, root]
    exact vectorArray_space stored
  · rw [isMem, root]
    intro offset inside
    have there : (range' 0x400000 32)[offset]? = some (0x400000 + offset) := by
      rw [getElem?_range' (by omega), one_mul]
    rw [stored.bytes.there offset _ there, getElem?_eq_getElem inside]
  · rfl
  · rw [isMem, root, iovecs_vectorArray]
    intro entry member
    simp only [mem_cons, not_mem_nil, or_false] at member
    rcases member with rfl | rfl
    · exact vectorArray_writable stored (show 0x100 + 2 ≤ 4096 by decide)
    · exact vectorArray_writable stored (show 0x200 + 2 ≤ 4096 by decide)
  · rw [iovecs_vectorArray, length]
    decide
  · rw [iovecs_vectorArray]
    decide

end

theorem readv_alike_small : ∃ kernel file, OpenRegular kernel 3 7 file smallProgram ∧
    Vectored kernel 0x400000 vectorArray 0 (iovecs vectorArray) ∧
    Alike kernel 7 (iovecs vectorArray) 0x400300
      ((sysRead 3 0x400300 (totalLength (iovecs vectorArray))).run kernel)
      ((sysVectorIo 3 0x400000 2 false).run kernel) := by
  obtain ⟨mem, stored⟩ := vectorArray_stored
  obtain ⟨start, root⟩ := AtStart.setMem openedKernel_start mem
  obtain ⟨file, opened, _⟩ := start.opened (by decide)
  have total : totalLength (iovecs vectorArray) = 4 := by
    rw [iovecs_vectorArray]
    rfl
  have vectored := vectorArray_vectored stored rfl root
  refine ⟨_, file, opened, vectored, ?_⟩
  have alike :=
    @readv_alike_iff 3 7 0x400000 vectorArray file smallProgram _ mem 8192 0x400300 2 opened
    vectored (by decide +kernel) (by decide) (by rw [total]; decide) (vectorArray_space stored)
    (by rw [total]; exact vectorArray_writable stored (show 0x300 + 4 ≤ 4096 by decide))
  rw [← root] at alike
  exact alike.mpr nofun

/-- The line `k` fills the first buffer.  One read of four bytes returns it, and the vector waits
for more keys. -/
theorem readv_waits : ∃ kernel file, Reachable [] smallTree.vfs kernel ∧
    OpenRegular kernel 0 7 file smallProgram ∧
    Vectored kernel 0x400000 vectorArray 0 (iovecs vectorArray) ∧
    Writable kernel.mem kernel.cr3 0x400300 4 ∧
    ((sysRead 0 0x400300 4).run kernel).1 = .ok (some 2) ∧
    ((sysVectorIo 0 0x400000 2 false).run kernel).1 = .ok none ∧
    ¬Alike kernel 7 (iovecs vectorArray) 0x400300 ((sysRead 0 0x400300 4).run kernel)
      ((sysVectorIo 0 0x400000 2 false).run kernel) := by
  obtain ⟨mem, stored⟩ := vectorArray_stored
  obtain ⟨start, root⟩ := AtStart.setMem typingKernel_start mem
  obtain ⟨file, opened, _⟩ := start.opened (by decide)
  have total : totalLength (iovecs vectorArray) = 4 := by
    rw [iovecs_vectorArray]
    rfl
  have vectored := vectorArray_vectored stored rfl root
  have writable := vectorArray_writable stored (show 0x300 + 4 ≤ 4096 by decide)
  rw [← root] at writable
  have keys : typed { typingKernel with mem := mem }.keyboard = [107, newline] := rfl
  have one :=
    @sysRead_keys { typingKernel with mem := mem } 0x400300 vectored.space 4 writable (by decide)
  have many :=
    transferVectors_keys vectored (show 0 + totalLength (iovecs vectorArray) ≤ maxIoSize by
    rw [total]
    decide)
  have line : lineLength 4 [107, newline] = some 2 := by decide
  have vector : vectorLine ((iovecs vectorArray).map Prod.snd) [107, newline] = none := by
    rw [iovecs_vectorArray]
    decide
  unfold KeysEnd at one
  unfold VectorKeysEnd at many
  rw [keys, line] at one
  rw [keys, vector] at many
  obtain ⟨last, left, read, _⟩ := one
  obtain ⟨after, waits, _⟩ := many
  have call :=
    run_sysVectorIo opened (show 0 ≠ 1 ∧ 0 ≠ 2 by decide) (show 2 ≤ maxIovecCount by decide)
    (Or.inl (show 0x400000 < userTop by decide))
  rw [iovecs_vectorArray] at waits
  have waiting := call.trans waits
  refine ⟨_, file, typingKernel_reachable.other _ _ _ _ _ _, opened, vectored, writable, ?_, ?_, ?_⟩
  · rw [read]
  · rw [waiting]
  · intro alike
    have result := alike.result
    rw [read, waiting] at result
    cases result

end Synx.Kernel
