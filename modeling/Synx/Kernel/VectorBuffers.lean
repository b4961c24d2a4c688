/-
The buffers that `copy_user_vector` fills.
-/

import Synx.Kernel.UserCopy

namespace Synx.Kernel

open Lib Program Memory List Option Function
open Exec

/-! ### What is written -/

/-- The strings of a vector as they lie in the storage. -/
def packed (texts : List (List UInt8)) : List UInt8 := texts.flatMap (· ++ [0])

theorem packed_cons (text : List UInt8) (texts : List (List UInt8)) :
    packed (text :: texts) = text ++ 0 :: packed texts := by
  simp [packed]

namespace Buffers

theorem stored_stored (first second : List UInt8) (now : Buffers) :
    (now.stored first).stored second = now.stored (first ++ second) := by
  simp only [stored, Memory.writeBytes_append, List.length_append, add_assoc]

theorem stored_nil (now : Buffers) : now.stored [] = now := by
  have same : now.storage.writeBytes now.storageUsed [] = now.storage := by
    funext offset
    exact Memory.writeBytes_outside _ _ _ _ (by rw [List.length_nil]; omega)
  rw [stored, same]
  rfl

/-- The call ended with an error after some bytes, with pointers to them. -/
def Broke (capacity storageCapacity : Nat) (start : Buffers) (code : Int) (now : Buffers) : Prop :=
  code < 0 ∧ now.storageUsed ≤ storageCapacity ∧
    ∃ strings bytes, now = { start.stored bytes with strings := strings } ∧
      ∀ index, capacity ≤ index → strings index = start.strings index

variable {capacity storageCapacity : Nat} {start now : Buffers} {code : Int} {bytes : List UInt8}

theorem Broke.refl (negative : code < 0) (room : start.storageUsed ≤ storageCapacity) :
    Broke capacity storageCapacity start code start :=
  ⟨negative, room, start.strings, [], (stored_nil start).symm, fun _ _ => rfl⟩

theorem Broke.after (broke : Broke capacity storageCapacity (start.stored bytes) code now) :
    Broke capacity storageCapacity start code now := by
  obtain ⟨negative, used, strings, more, same, past⟩ := broke
  rw [stored_stored] at same
  exact ⟨negative, used, strings, bytes ++ more, same, past⟩

theorem Broke.pointed {index : Nat} (below : index < capacity)
    (broke : Broke capacity storageCapacity (start.pointed index) code now) :
    Broke capacity storageCapacity start code now := by
  obtain ⟨negative, used, strings, stored, same, past⟩ := broke
  refine ⟨negative, used, strings, stored, same, fun place high => ?_⟩
  rw [past place high]
  exact update_of_ne (by omega) _ _

/-- The strings were stored one after another, and pointers to them from `index` on. -/
def Stored (start : Buffers) (index : Nat) (texts : List (List UInt8)) (now : Buffers) : Prop :=
  ∃ strings, now = { start.stored (packed texts) with strings := strings } ∧
    (∀ place, ¬(index ≤ place ∧ place < index + texts.length) → strings place =
      start.strings place) ∧
    ∀ place, place < texts.length →
      strings (index + place) = start.storageUsed + (packed (texts.take place)).length

theorem Stored.cons {start now : Buffers} {index : Nat} {text : List UInt8}
    {texts : List (List UInt8)}
    (later : Stored ((start.pointed index).stored (text ++ [0])) (index + 1) texts now) :
    Stored start index (text :: texts) now := by
  obtain ⟨strings, same, kept, points⟩ := later
  refine ⟨strings, ?_, ?_, ?_⟩
  · rw [same, stored_stored]
    rfl
  · intro place outside
    rw [List.length_cons] at outside
    rw [kept place (by omega)]
    exact update_of_ne (by omega) _ _
  · intro place inside
    cases place with
    | zero =>
      rw [add_zero, kept index (by omega)]
      exact update_self _ _ _
    | succ place =>
      rw [List.length_cons] at inside
      rw [show index + (place + 1) = index + 1 + place by
        omega, points place (by omega), List.take_succ_cons]
      change start.storageUsed + (text ++ [0]).length + _ =
        start.storageUsed + ((text ++ [0]) ++ packed _).length
      rw [@List.length_append _ _ (packed _)]
      omega

end Buffers

/-! ### What the program has in memory -/

section Memory

variable {mem : Memory} {cr3 address : Nat} {text : List UInt8} {texts : List (List UInt8)}

theorem UserString.first (holds : UserString mem cr3 address text) :
    userRead mem cr3 address = some (text.headD 0) := by
  have read := holds.bytes 0 (by simp)
  cases text <;> exact read

theorem UserString.tail {byte : UInt8} (holds : UserString mem cr3 address (byte :: text)) :
    UserString mem cr3 (address + 1) text :=
  ⟨by simpa [take_of_length_le] using holds.bytes.slice 1 (text.length + 1),
    fun other member => holds.nonzero other (.tail _ member)⟩

theorem UserString.unique {other : List UInt8} (holds : UserString mem cr3 address text)
    (again : UserString mem cr3 address other) : text = other := by
  have same := some.inj (holds.first.symm.trans again.first)
  induction text generalizing address other with
  | nil =>
    cases other with
    | nil => rfl
    | cons byte rest => exact absurd same.symm (again.nonzero byte (.head _))
  | cons byte rest ih =>
    cases other with
    | nil => exact absurd same (holds.nonzero byte (.head _))
    | cons byte' rest' =>
      rw [show byte = byte' from same, ih holds.tail again.tail
        (some.inj (holds.tail.first.symm.trans again.tail.first))]

/-- The first pointer of a vector, at `address`. -/
def FirstPointer (mem : Memory) (cr3 address pointer : Nat) : List (List UInt8) → Prop
  | [] => pointer = 0
  | text :: rest =>
    pointer ≠ 0 ∧ UserString mem cr3 pointer text ∧ UserPointers mem cr3 (address + 8) rest

theorem UserPointers.read (space : Space mem cr3) (pointers : UserPointers mem cr3 address texts) :
    ∃ bytes, copyFromUser mem cr3 address 8 = some bytes ∧ address + 7 < userTop ∧
      FirstPointer mem cr3 address (field bytes 0 8) texts := by
  cases pointers with
  | last null =>
    exact ⟨_, copyFromUser_of_bytes space null, null.user (by decide),
      show field (numberBytes 0 8) 0 8 = 0 by decide⟩
  | @next _ pointer text rest here nonzero points later =>
    have user := points.bytes.user (show 0 < _ by simp)
    have small : userTop < 2 ^ 64 := by decide
    have same : field (numberBytes pointer 8) 0 8 = pointer :=
      (readNumber_of_bytes _ _ _ _ (fun offset _ => by rw [zero_add])).trans
        (Nat.mod_eq_of_lt (by omega))
    have read := copyFromUser_of_bytes space here
    rw [numberBytes_length] at read
    refine ⟨_, read, here.user (by rw [numberBytes_length]; decide), ?_⟩
    rw [same]
    exact ⟨nonzero, points, later⟩

theorem UserPointers.unique (space : Space mem cr3) {others : List (List UInt8)}
    (pointers : UserPointers mem cr3 address texts)
    (again : UserPointers mem cr3 address others) : texts = others := by
  induction texts generalizing address others with
  | nil =>
    obtain ⟨bytes, read, _, null⟩ := pointers.read space
    obtain ⟨_, readAgain, _, next⟩ := again.read space
    cases read.symm.trans readAgain
    cases others with
    | nil => rfl
    | cons other rest => exact absurd null next.1
  | cons text rest ih =>
    obtain ⟨bytes, read, _, nonzero, points, later⟩ := pointers.read space
    obtain ⟨_, readAgain, _, next⟩ := again.read space
    cases read.symm.trans readAgain
    cases others with
    | nil => exact absurd next nonzero
    | cons other others => rw [points.unique next.2.1, ih later next.2.2]

theorem UserVector.unique (space : Space mem cr3) {others : List (List UInt8)}
    (isVector : UserVector mem cr3 address texts) (again : UserVector mem cr3 address others) :
    texts = others := by
  rcases isVector with ⟨null, rfl⟩ | ⟨nonzero, pointers⟩
  · exact (again.resolve_right (fun points => points.1 null)).2.symm
  · exact pointers.unique space (again.resolve_left (fun none => nonzero none.1)).2

theorem UserVector.nonzero (isVector : UserVector mem cr3 address texts) :
    ∀ text ∈ texts, 0 ∉ text := by
  rcases isVector with ⟨_, rfl⟩ | ⟨nonnull, pointers⟩
  · exact fun _ member => nomatch member
  · clear nonnull
    induction pointers with
    | last null => exact fun _ member => nomatch member
    | next here nonzero points later ih =>
      rw [forall_mem_cons]
      exact ⟨fun member => points.nonzero 0 member rfl, ih⟩

end Memory

/-! ### The call -/

section Filling

variable {mem : Memory} {cr3 capacity storageCapacity : Nat} {now : Buffers}

open Buffers

theorem copyUserString_step {userString rounds length : Nat}
    (room : now.storageUsed < storageCapacity) :
    (copyUserString mem cr3 storageCapacity userString (rounds + 1) length).run now =
      match userRead mem cr3 (userString + length) with
      | none => (.error errFault, now)
      | some byte =>
        if byte = 0 then (.ok (), now.stored [byte])
        else (copyUserString mem cr3 storageCapacity userString rounds (length + 1)).run
          (now.stored [byte]) := by
  rw [copyUserString, copyFromUser_byte]
  change (if storageCapacity ≤ now.storageUsed then _ else _ : Filling Unit).run now = _
  rw [if_neg (by omega)]
  split
  · rw [userRead_outside (by assumption)]
    rfl
  · cases userRead mem cr3 (userString + length) with
    | none => rfl
    | some byte =>
      dsimp only [map_some]
      change (if byte = 0 then _ else _ : Filling Unit).run (now.stored [byte]) = _
      rw [run_ite]
      rfl

/-- A string and its end are stored, or no string fits. -/
theorem copyUserString_ends {userString length rounds : Nat}
    (room : now.storageUsed ≤ storageCapacity)
    (enough : storageCapacity < now.storageUsed + rounds) :
    (∃ text, UserString mem cr3 (userString + length) text ∧
      now.storageUsed + text.length < storageCapacity ∧
      (copyUserString mem cr3 storageCapacity userString rounds length).run now =
        (.ok (), now.stored (text ++ [0]))) ∨
    ∃ code after, (copyUserString mem cr3 storageCapacity userString rounds length).run now =
        (.error code, after) ∧ Broke capacity storageCapacity now code after ∧
      ∀ text, UserString mem cr3 (userString + length) text →
        storageCapacity ≤ now.storageUsed + text.length := by
  induction rounds generalizing length now with
  | zero => omega
  | succ rounds ih =>
    by_cases full : storageCapacity ≤ now.storageUsed
    · refine .inr ⟨err2big, now, ?_, .refl (by decide) room, fun _ _ => by omega⟩
      rw [copyUserString]
      change (if storageCapacity ≤ now.storageUsed then _ else _ : Filling Unit).run now = _
      rw [if_pos full]
      rfl
    rw [copyUserString_step (not_le.mp full)]
    cases read : userRead mem cr3 (userString + length) with
    | none =>
      refine .inr ⟨errFault, now, rfl, .refl (by decide) room, fun text holds => ?_⟩
      cases holds.first.symm.trans read
    | some byte =>
      dsimp only
      by_cases zero : byte = 0
      · subst zero
        exact .inl ⟨[], .empty read, not_le.mp full, rfl⟩
      rw [if_neg zero]
      have used : (now.stored [byte]).storageUsed = now.storageUsed + 1 := rfl
      rcases @ih (now.stored [byte]) (length + 1) (by omega) (by omega) with
        ⟨text, holds, fits, ran⟩ | ⟨code, after, ran, broke, none⟩
      · refine .inl ⟨byte :: text, .cons read zero holds, ?_, ?_⟩
        · rw [length_cons]
          omega
        · rw [ran, stored_stored]
          rfl
      · refine .inr ⟨code, after, ran, broke.after, fun text holds => ?_⟩
        cases text with
        | nil => exact absurd (some.inj (read.symm.trans holds.first)) zero
        | cons first rest =>
          have long := none rest holds.tail
          rw [length_cons]
          omega

/-- The strings of a vector are stored, or no vector fits. -/
theorem copyUserVectorFrom_ends {userVector rounds index : Nat} (below : index ≤ capacity)
    (enough : capacity < index + rounds) (room : now.storageUsed ≤ storageCapacity) :
    (∃ texts after, (copyUserVectorFrom mem cr3 userVector capacity storageCapacity rounds
        index).run now = (.ok (index + texts.length), after) ∧
      UserPointers mem cr3 (userVector + index * 8) texts ∧ index + texts.length ≤ capacity ∧
      now.storageUsed + (packed texts).length ≤ storageCapacity ∧ Stored now index texts after) ∨
    ∃ code after, (copyUserVectorFrom mem cr3 userVector capacity storageCapacity rounds
        index).run now = (.error code, after) ∧ Broke capacity storageCapacity now code after ∧
      (Space mem cr3 → ∀ texts, UserPointers mem cr3 (userVector + index * 8) texts →
        index + texts.length ≤ capacity →
          storageCapacity < now.storageUsed + (packed texts).length) := by
  induction rounds generalizing index now with
  | zero => omega
  | succ rounds ih =>
    have stops : ∀ {code : Int}, code < 0 → Broke capacity storageCapacity now code now :=
      fun negative => .refl negative room
    rw [copyUserVectorFrom]
    dsimp only
    by_cases outside : userTop ≤ userVector ∨ userTop - userVector < index * 8 ∨
        userTop - userVector - index * 8 < 8
    · rw [if_pos outside]
      refine .inr ⟨errFault, now, rfl, stops (by decide), fun space texts pointers => ?_⟩
      obtain ⟨_, _, user, _⟩ := pointers.read space
      omega
    rw [if_neg outside]
    cases read : copyFromUser mem cr3 (userVector + index * 8) 8 with
    | none =>
      refine .inr ⟨errFault, now, rfl, stops (by decide), fun space texts pointers => ?_⟩
      obtain ⟨_, again, _⟩ := pointers.read space
      cases read.symm.trans again
    | some bytes =>
      have word := copyFromUser_word read
      have first : Space mem cr3 → ∀ texts, UserPointers mem cr3 (userVector + index * 8) texts →
          FirstPointer mem cr3 (userVector + index * 8) (field bytes 0 8) texts := by
        intro space texts pointers
        obtain ⟨_, again, _, next⟩ := pointers.read space
        cases read.symm.trans again
        exact next
      dsimp only
      generalize field bytes 0 8 = pointer at word first ⊢
      by_cases null : pointer = 0
      · rw [if_pos null]
        rw [null] at word
        exact .inl ⟨[], now, rfl, .last word, below, room, now.strings, (stored_nil now).symm,
          fun _ _ => rfl, nofun⟩
      rw [if_neg null]
      by_cases full : index = capacity
      · rw [if_pos full]
        refine .inr ⟨err2big, now, rfl, stops (by decide), fun space texts pointers few => ?_⟩
        cases texts with
        | nil => exact absurd (first space _ pointers) null
        | cons text rest =>
          rw [length_cons] at few
          omega
      rw [if_neg full, run_bind_ok (show (Program.modify (pointed index)).run now = (.ok (), _)
        from rfl)]
      rcases @copyUserString_ends mem cr3 capacity storageCapacity (now.pointed index) pointer 0
          (storageCapacity + 1) room (by omega) with
        ⟨text, points, fits, ran⟩ | ⟨code, after, ran, broke, none⟩
      · rw [run_bind_ok ran]
        have used : ((now.pointed index).stored (text ++ [0])).storageUsed =
            now.storageUsed + (text.length + 1) := by
          simp [stored, pointed]
        have fits' : now.storageUsed + text.length < storageCapacity := fits
        have next := @ih ((now.pointed index).stored (text ++ [0])) (index + 1) (by omega)
          (by omega) (by omega)
        rw [used, Nat.succ_mul, ← add_assoc] at next
        rcases next with ⟨texts, after, ran, pointers, few, size, isStored⟩ |
          ⟨code, after, ran, broke, none⟩
        · refine .inl ⟨text :: texts, after, ?_, .next word null points pointers, ?_, ?_,
            isStored.cons⟩
          · rw [ran, length_cons, add_assoc, add_comm 1]
          · rw [length_cons]
            omega
          · rw [packed_cons, length_append, length_cons]
            omega
        · refine .inr ⟨code, after, ran, broke.after.pointed (by omega),
            fun space texts pointers few => ?_⟩
          cases texts with
          | nil => exact absurd (first space _ pointers) null
          | cons other rest =>
            obtain ⟨_, isOther, later⟩ := first space _ pointers
            cases points.unique isOther
            rw [length_cons] at few
            have long := none space rest later (by omega)
            rw [packed_cons, length_append, length_cons]
            omega
      · rw [run_bind_error ran]
        refine .inr ⟨code, after, rfl, broke.pointed (by omega), fun space texts pointers _ => ?_⟩
        cases texts with
        | nil => exact absurd (first space _ pointers) null
        | cons text rest =>
          have long : storageCapacity ≤ now.storageUsed + text.length :=
            none text (first space _ pointers).2.1
          rw [packed_cons, length_append, length_cons]
          omega

theorem copyUserVector_ends (userVector : Nat) (room : now.storageUsed ≤ storageCapacity) :
    (∃ texts after, (copyUserVector mem cr3 userVector capacity storageCapacity).run now =
        (.ok texts.length, after) ∧ UserVector mem cr3 userVector texts ∧
      texts.length ≤ capacity ∧ now.storageUsed + (packed texts).length ≤ storageCapacity ∧
      Stored now 0 texts after) ∨
    ∃ code after, (copyUserVector mem cr3 userVector capacity storageCapacity).run now =
        (.error code, after) ∧ Broke capacity storageCapacity now code after ∧
      (Space mem cr3 → ∀ texts, UserVector mem cr3 userVector texts → texts.length ≤ capacity →
        storageCapacity < now.storageUsed + (packed texts).length) := by
  unfold copyUserVector
  by_cases null : userVector = 0
  · rw [if_pos null]
    exact .inl ⟨[], now, rfl, .inl ⟨null, rfl⟩, zero_le, room, now.strings,
      (stored_nil now).symm, fun _ _ => rfl, nofun⟩
  rw [if_neg null]
  have ends := @copyUserVectorFrom_ends mem cr3 capacity storageCapacity now userVector
    (capacity + 1) 0 zero_le (by omega) room
  simp only [zero_mul, add_zero, zero_add] at ends
  rcases ends with ⟨texts, after, ran, pointers, rest⟩ | ⟨code, after, ran, broke, none⟩
  · exact .inl ⟨texts, after, ran, .inr ⟨null, pointers⟩, rest⟩
  · refine .inr ⟨code, after, ran, broke, fun space texts isVector few => ?_⟩
    exact none space texts (isVector.resolve_left (fun isNull => null isNull.1)).2 few

end Filling

theorem Buffers.stored_outside {start : Buffers} {bytes : List UInt8} {storageCapacity offset : Nat}
    (used : start.storageUsed + bytes.length ≤ storageCapacity)
    (outside : offset < start.storageUsed ∨ storageCapacity ≤ offset) :
    (start.stored bytes).storage offset = start.storage offset :=
  Memory.writeBytes_outside _ _ _ _ (by omega)

/-- What the call has written lies in the free part of the storage and in the array of pointers,
and the storage in use stays below its capacity.  A count is returned for a vector of so many
pointers with a null pointer behind them; then the strings lie one after another in the storage,
each with its terminator, and the pointers lead to them. -/
theorem copyUserVector_bounded (mem : Memory) (cr3 userVector capacity storageCapacity : Nat)
    (start : Buffers) (room : start.storageUsed ≤ storageCapacity) :
    let ran := (copyUserVector mem cr3 userVector capacity storageCapacity).run start
    (∀ index, capacity ≤ index → ran.2.strings index = start.strings index) ∧
      (∀ offset, offset < start.storageUsed ∨ storageCapacity ≤ offset →
        ran.2.storage offset = start.storage offset) ∧
      ran.2.storageUsed ≤ storageCapacity ∧
      match ran.1 with
      | .error code => code < 0
      | .ok count => userVector ≠ 0 → count ≤ capacity ∧
          ∃ texts, texts.length = count ∧ UserPointers mem cr3 userVector texts ∧
            (∀ text ∈ texts, 0 ∉ text) ∧
            ran.2.storageUsed = start.storageUsed + (packed texts).length ∧
            (∀ offset (inside : offset < (packed texts).length),
              ran.2.storage (start.storageUsed + offset) = (packed texts)[offset]) ∧
            ∀ index, index < count →
              ran.2.strings index = start.storageUsed + (packed (texts.take index)).length := by
  dsimp only
  rcases @copyUserVector_ends mem cr3 capacity storageCapacity start userVector room with
    ⟨texts, _, ran, isVector, few, used, strings, rfl, kept, points⟩ |
      ⟨code, _, ran, ⟨negative, used, strings, bytes, rfl, past⟩, _⟩
  · rw [ran]
    simp only [zero_add] at kept points
    refine ⟨fun index past => kept index (by omega), fun _ => Buffers.stored_outside used, used,
      fun nonnull => ?_⟩
    have pointers := (isVector.resolve_left (fun isNull => nonnull isNull.1)).2
    exact ⟨few, texts, rfl, pointers, isVector.nonzero, rfl,
      fun offset inside => writeBytes_inside _ _ _ _ inside, points⟩
  · rw [ran]
    exact ⟨past, fun _ => Buffers.stored_outside used, used, negative⟩

/-- Two pointers, a null pointer, and the strings `ab` and `c`. -/
def twoStrings : Memory :=
  ((copyToSpace 8192 0x400000 ([0x400018, 0x40001b, 0].flatMap (Memory.numberBytes · 8) ++
    [97, 98, 0, 99, 0])).run mappedMachine).2.mem

theorem copyUserVector_bounded_two :
    let ran := (copyUserVector twoStrings 8192 0x400000 8 64).run ⟨fun _ => 0, fun _ => 0, 3⟩
    ran.1 = .ok 2 ∧ ran.2.storageUsed = 8 ∧ ran.2.strings 0 = 3 ∧ ran.2.strings 1 = 6 ∧
      ∃ texts, texts.length = 2 ∧ UserPointers twoStrings 8192 0x400000 texts ∧
        3 + (packed texts).length = 8 := by
  intro ran
  have count : ran.1 = .ok 2 := ok_of_toOption (by decide +kernel)
  have used : ran.2.storageUsed = 8 := by decide +kernel
  obtain ⟨_, _, _, ends⟩ :=
    copyUserVector_bounded twoStrings 8192 0x400000 8 64 ⟨fun _ => 0, fun _ => 0, 3⟩ (by decide)
  change match ran.1 with | .error _ => _ | .ok _ => _ at ends
  rw [count] at ends
  obtain ⟨_, texts, length, pointers, _, stored, _⟩ := ends (by decide)
  exact ⟨count, used, by decide +kernel, by decide +kernel, texts, length, pointers,
    stored.symm.trans used⟩

end Synx.Kernel
