/-
The keyboard driver (`ps2_keyboard.cpp`).
-/

import Synx.Lib.RingBuffer
import Synx.Kernel.State

namespace Synx.Ps2

open Lib Function

/-- A key event with all its fields; the kernel's `sys_read` looks at two of them. -/
structure KeyEvent extends Kernel.KeyEvent where
  scancode : UInt16
  shift : Bool
  ctrl : Bool
  alt : Bool
  capsLock : Bool

def keyBufSize : Nat := 64

def pushEvent (keys : RingBuffer KeyEvent) (event : KeyEvent) : RingBuffer KeyEvent :=
  keys.push keyBufSize event

def poll (keys : RingBuffer KeyEvent) : Option KeyEvent × RingBuffer KeyEvent :=
  keys.poll keyBufSize

/-- The table `sc2_ascii`. -/
def sc2Ascii : List Char :=
  let o := '\x00'
  [ o, o, o, o, o, o, o, o,
    o, o, o, o, o, '\t', '\x60', o,
    o, o, o, o, o, 'q', '1', o,
    o, o, 'z', 's', 'a', 'w', '2', o,
    o, 'c', 'x', 'd', 'e', '4', '3', o,
    o, ' ', 'v', 'f', 't', 'r', '5', o,
    o, 'n', 'b', 'h', 'g', 'y', '6', o,
    o, o, 'm', 'j', 'u', '7', '8', o,
    o, ',', 'k', 'i', 'o', '0', '9', o,
    o, '.', '/', 'l', ';', 'p', '-', o,
    o, o, '\x27', o, '[', '=', o, o,
    o, o, '\n', ']', o, '\x5c', o, o,
    o, o, o, o, o, o, '\x08', o,
    o, o, o, o, o, o, o, o,
    '0', '.', '2', '5', '6', '8', o, o,
    o, '+', '3', '-', '*', '9', o, o ]

/-- The upper symbols of the keys that are no letters. -/
def shifted : List (Char × Char) :=
  [('1', '!'), ('2', '@'), ('3', '#'), ('4', '$'), ('5', '%'), ('6', '^'), ('7', '&'), ('8', '*'),
    ('9', '('), ('0', ')'), ('-', '_'), ('=', '+'), ('[', '\x7b'), (']', '\x7d'), ('\x5c', '|'),
    (';', ':'), ('\x27', '\x22'), (',', '<'), ('.', '>'), ('/', '?'), ('\x60', '~')]

def translate (scancode : UInt8) (shift caps : Bool) : UInt8 :=
  match sc2Ascii[scancode.toNat]? with
  | none => 0
  | some c =>
    if c = '\x00' then 0
    else if 'a' ≤ c ∧ c ≤ 'z' then
      if shift ^^ caps then c.toUInt8 - 32 else c.toUInt8
    else if shift then ((shifted.lookup c).getD c).toUInt8
    else c.toUInt8

inductive DecoderState where
  | normal
  | gotE0
  | gotF0
  | gotE0F0
  deriving DecidableEq

/-- What the driver remembers from one byte to the next. -/
structure Decoder where
  state : DecoderState := .normal
  shift : Bool := false
  ctrl : Bool := false
  alt : Bool := false
  capsLock : Bool := false
  deriving DecidableEq

def Decoder.setFlags (decoder : Decoder) (isExtended : Bool) (baseSc : UInt8) (pressed : Bool) :
    Decoder :=
  if isExtended = false then
    if baseSc = 0x12 then { decoder with shift := pressed }
    else if baseSc = 0x59 then { decoder with shift := pressed }
    else if baseSc = 0x14 then { decoder with ctrl := pressed }
    else if baseSc = 0x11 then { decoder with alt := pressed }
    else if baseSc = 0x58 then
      if pressed then { decoder with capsLock := !decoder.capsLock } else decoder
    else decoder
  else
    if baseSc = 0x11 then { decoder with alt := pressed }
    else if baseSc = 0x14 then { decoder with ctrl := pressed }
    else decoder

/-- The second half of `decode_and_push`: the event of a completed code. -/
def Decoder.emit (decoder : Decoder) (pressed : Bool) (scancode : UInt16) : KeyEvent × Decoder :=
  let baseSc := (scancode &&& 0xFF).toUInt8
  let isExtended := scancode &&& 0xE000 != 0
  let after := decoder.setFlags isExtended baseSc pressed
  ({ scancode := scancode, pressed := pressed, shift := after.shift, ctrl := after.ctrl,
     alt := after.alt, capsLock := after.capsLock,
     ascii := if pressed then translate baseSc after.shift after.capsLock else 0 }, after)

/-- One byte: a state change, or a completed code and the return to `normal`. -/
def decode (decoder : Decoder) (raw : UInt8) : Option KeyEvent × Decoder :=
  let complete := fun (pressed : Bool) (scancode : UInt16) =>
    (({ decoder with state := .normal } : Decoder).emit pressed scancode).map some id
  match decoder.state with
  | .normal =>
    if raw = 0xE0 then (none, { decoder with state := .gotE0 })
    else if raw = 0xF0 then (none, { decoder with state := .gotF0 })
    else complete true raw.toUInt16
  | .gotE0 =>
    if raw = 0xF0 then (none, { decoder with state := .gotE0F0 })
    else complete true (0xE000 ||| raw.toUInt16)
  | .gotF0 => complete false raw.toUInt16
  | .gotE0F0 => complete false (0xE000 ||| raw.toUInt16)

structure Keyboard where
  decoder : Decoder := {}
  keys : RingBuffer KeyEvent := { slots := fun _ => ⟨⟨false, 0⟩, 0, false, false, false, false⟩ }

def decodeAndPush (keyboard : Keyboard) (raw : UInt8) : Keyboard :=
  match decode keyboard.decoder raw with
  | (none, after) => { keyboard with decoder := after }
  | (some event, after) => ⟨after, pushEvent keyboard.keys event⟩

/-! ### The ring is a queue -/

/-- A call on the ring. -/
inductive Call where
  | push (event : KeyEvent)
  | poll

/-- The ring, the events it has taken and the events that polls have returned. -/
structure History where
  keys : RingBuffer KeyEvent
  accepted : List KeyEvent := []
  returned : List KeyEvent := []

/-- A push that leaves the head where it was has dropped its event. -/
def History.step (history : History) : Call → History
  | .push event =>
    let keys := pushEvent history.keys event
    { history with
      keys := keys
      accepted := if keys.head = history.keys.head then history.accepted
        else history.accepted ++ [event] }
  | .poll =>
    let (event, keys) := poll history.keys
    { history with keys := keys, returned := history.returned ++ event.toList }

/-- The ring holds what was accepted and not yet returned. -/
def History.Unread (history : History) (unread : List KeyEvent) : Prop :=
  history.keys.Queues keyBufSize unread ∧ history.accepted = history.returned ++ unread

variable {history : History} {unread : List KeyEvent}

theorem History.step_unread (held : history.Unread unread) (call : Call) :
    ∃ after, (history.step call).Unread after := by
  obtain ⟨queues, split⟩ := held
  cases call with
  | push event =>
    by_cases free : unread.length + 1 < keyBufSize
    · refine ⟨unread ++ [event], queues.push free event, ?_⟩
      refine (if_neg ((queues.push_head event).mpr free)).trans ?_
      rw [split, List.append_assoc]
      rfl
    · have full := queues.push_full (le_antisymm queues.room (Nat.le_of_not_lt free)) event
      refine ⟨unread, ?_, ?_⟩
      · change (history.keys.push keyBufSize event).Queues keyBufSize unread
        rwa [full]
      · refine Eq.trans (if_pos ?_) split
        exact congrArg RingBuffer.head full
  | poll =>
    cases unread with
    | nil =>
      refine ⟨[], ?_⟩
      unfold step poll
      rw [queues.poll_nil]
      exact ⟨queues, split.trans (by simp)⟩
    | cons event rest =>
      obtain ⟨taken, left⟩ := queues.poll_cons
      refine ⟨rest, ?_⟩
      unfold step poll
      rw [taken]
      exact ⟨left, split.trans (by simp)⟩

theorem History.run_unread (calls : List Call) (held : history.Unread unread) :
    ∃ after, (calls.foldl History.step history).Unread after := by
  induction calls generalizing history unread with
  | nil => exact ⟨unread, held⟩
  | cons call rest ih =>
    obtain ⟨after, next⟩ := History.step_unread held call
    exact ih next

/-- The key buffer is a queue of capacity 63: it returns what it accepted, in order, and drops an
event exactly when 63 are unread. -/
theorem key_buffer_fifo (slots : Nat → KeyEvent) (calls : List Call) :
    let history := calls.foldl History.step ⟨⟨slots, 0, 0⟩, [], []⟩
    history.keys.head < 64 ∧ history.keys.tail < 64 ∧
      ∃ unread, history.accepted = history.returned ++ unread ∧
        (∀ event, (pushEvent history.keys event).head ≠ history.keys.head ↔ unread.length < 63) ∧
        (∀ event, 63 ≤ unread.length → pushEvent history.keys event = history.keys) ∧
        ((poll history.keys).1 = none ↔ unread = []) ∧
        (poll history.keys).1 = unread.head? := by
  intro history
  have start : (⟨⟨slots, 0, 0⟩, [], []⟩ : History).Unread [] :=
    ⟨⟨Nat.zero_lt_succ 63, Nat.zero_lt_succ 63, rfl, fun _ _ found => nomatch found⟩, rfl⟩
  obtain ⟨unread, queues, split⟩ := History.run_unread calls start
  have next : (poll history.keys).1 = unread.head? := by
    cases unread with
    | nil => exact congrArg Prod.fst queues.poll_nil
    | cons event rest => exact congrArg Prod.fst queues.poll_cons.1
  have room := queues.room
  refine ⟨queues.head_lt, queues.tail_lt, unread, split, fun event => ?_, fun event full =>
    ?_, ?_, next⟩
  · refine (queues.push_head event).trans ?_
    unfold keyBufSize
    omega
  · exact queues.push_full (by unfold keyBufSize at room ⊢; omega) event
  · rw [next, List.head?_eq_none_iff]

/-! ### Decoding -/

/-- Pressing or releasing a key; its code is no prefix byte. -/
structure Key where
  extended : Bool
  code : UInt8
  make : Bool
  plain : code ≠ 0xE0 ∧ code ≠ 0xF0 := by decide

namespace Key

/-- The bytes a keyboard sends for it in scan code set 2. -/
def encode (key : Key) : List UInt8 :=
  (if key.extended then [0xE0] else []) ++ (if key.make then [] else [0xF0]) ++ [key.code]

def scancode (key : Key) : UInt16 :=
  if key.extended then 0xE000 ||| key.code.toUInt16 else key.code.toUInt16

end Key

/-- The events of a stream of bytes and the decoder after it. -/
def emits (decoder : Decoder) : List UInt8 → List KeyEvent × Decoder
  | [] => ([], decoder)
  | raw :: rest =>
    let (event, next) := decode decoder raw
    let (events, last) := emits next rest
    (event.toList ++ events, last)

def keyEvents (decoder : Decoder) : List Key → List KeyEvent × Decoder
  | [] => ([], decoder)
  | key :: rest =>
    let (event, next) := decoder.emit key.make key.scancode
    let (events, last) := keyEvents next rest
    (event :: events, last)

theorem foldl_decodeAndPush (bytes : List UInt8) (keyboard : Keyboard) :
    bytes.foldl decodeAndPush keyboard = ⟨(emits keyboard.decoder bytes).2,
        (emits keyboard.decoder bytes).1.foldl pushEvent keyboard.keys⟩ := by
  induction bytes generalizing keyboard with
  | nil => rfl
  | cons raw rest ih =>
    rw [List.foldl_cons, ih]
    simp only [emits, decodeAndPush]
    cases decode keyboard.decoder raw with
    | mk event next =>
      cases event with
      | none => rfl
      | some event => rfl

theorem Decoder.setFlags_state (decoder : Decoder) (isExtended : Bool) (baseSc : UInt8)
    (pressed : Bool) : (decoder.setFlags isExtended baseSc pressed).state = decoder.state := by
  unfold setFlags
  split_ifs <;> rfl

theorem Decoder.emit_state (decoder : Decoder) (pressed : Bool) (scancode : UInt16) :
    (decoder.emit pressed scancode).2.state = decoder.state :=
  decoder.setFlags_state _ _ pressed

theorem emits_encode (normal : decoder.state = .normal) (key : Key) (rest : List UInt8) :
    emits decoder (key.encode ++ rest) =
      let (event, next) := decoder.emit key.make key.scancode
      (event :: (emits next rest).1, (emits next rest).2) := by
  obtain ⟨extended, code, make, notE0, notF0⟩ := key
  obtain ⟨state, shift, ctrl, alt, capsLock⟩ := decoder
  cases normal
  cases extended <;> cases make <;>
    simp [Key.encode, Key.scancode, emits, decode, notE0, notF0]

theorem emits_keys (normal : decoder.state = .normal) (keys : List Key) :
    emits decoder (keys.flatMap Key.encode) = keyEvents decoder keys := by
  induction keys generalizing decoder with
  | nil => rfl
  | cons key rest ih =>
    rw [List.flatMap_cons, emits_encode normal, keyEvents]
    have still := (decoder.emit_state key.make key.scancode).trans normal
    exact congrArg (fun tail : List KeyEvent × Decoder => (_ :: tail.1, tail.2)) (ih still)

theorem keyEvents_codes (normal : decoder.state = .normal) (keys : List Key) :
    (keyEvents decoder keys).1.map (fun event => (event.scancode, event.pressed)) =
        keys.map (fun key => (key.scancode, key.make)) ∧
      (keyEvents decoder keys).2.state = .normal := by
  induction keys generalizing decoder with
  | nil => exact ⟨rfl, normal⟩
  | cons key rest ih =>
    obtain ⟨codes, ends⟩ := ih ((decoder.emit_state key.make key.scancode).trans normal)
    exact ⟨congrArg _ codes, ends⟩

/-- Decoding inverts the encoding: one event for each key, in order, with its code and direction. -/
theorem decodeAndPush_encode (keyboard : Keyboard) (keys : List Key)
    (normal : keyboard.decoder.state = .normal) :
    let sent := emits keyboard.decoder (keys.flatMap Key.encode)
    sent.1.map (fun event => (event.scancode, event.pressed)) =
        keys.map (fun key => (key.scancode, key.make)) ∧
      sent.2.state = .normal ∧
      (keys.flatMap Key.encode).foldl decodeAndPush keyboard =
        ⟨sent.2, sent.1.foldl pushEvent keyboard.keys⟩ := by
  obtain ⟨codes, ends⟩ := keyEvents_codes normal keys
  rw [← emits_keys normal] at codes ends
  exact ⟨codes, ends, foldl_decodeAndPush _ _⟩

/-- The right control key is pressed and released. -/
theorem decodeAndPush_encode_control :
    let keys : List Key := [⟨true, 0x14, true, by decide⟩, ⟨true, 0x14, false, by decide⟩]
    keys.flatMap Key.encode = [0xE0, 0x14, 0xE0, 0xF0, 0x14] ∧
      (emits {} (keys.flatMap Key.encode)).1.map (fun event => (event.scancode, event.pressed)) =
        [(0xE014, true), (0xE014, false)] := by
  refine ⟨by decide, ?_⟩
  exact (decodeAndPush_encode {} _ rfl).1.trans (by decide)

/-! ### Modifier flags -/

/-- Which of the keys, extended or not, are down. -/
abbrev Held := Bool × UInt8 → Bool

def Key.name (key : Key) : Bool × UInt8 := (key.extended, key.code)

def heldAfter (held : Held) (keys : List Key) : Held :=
  keys.foldl (fun held key => update held key.name key.make) held

/-- The two keys of a modifier. -/
structure Modifier where
  first : Bool × UInt8
  second : Bool × UInt8

def shiftKeys : Modifier := ⟨(false, 0x12), (false, 0x59)⟩

def ctrlKeys : Modifier := ⟨(false, 0x14), (true, 0x14)⟩

def altKeys : Modifier := ⟨(false, 0x11), (true, 0x11)⟩

def Modifier.down (keys : Modifier) (held : Held) : Bool := held keys.first || held keys.second

/-- Every flag is set exactly when a key of its modifier is down. -/
def Reflects (event : KeyEvent) (held : Held) : Prop :=
  event.shift = shiftKeys.down held ∧ event.ctrl = ctrlKeys.down held ∧
    event.alt = altKeys.down held

/-- Neither key of the modifier is released here while the other one is down. -/
def Modifier.Alone (keys : Modifier) (held : Held) (key : Key) : Prop :=
  key.make = false →
    (key.name = keys.first → held keys.second = false) ∧
      (key.name = keys.second → held keys.first = false)

theorem Modifier.flag_iff {keys : Modifier} (two : keys.first ≠ keys.second) (held : Held)
    (key : Key) :
    (if key.name = keys.first ∨ key.name = keys.second then key.make else keys.down held) =
        keys.down (update held key.name key.make) ↔ keys.Alone held key := by
  unfold Alone down
  by_cases first : key.name = keys.first
  · rw [if_pos (.inl first), first, update_self, update_of_ne two.symm]
    cases key.make <;> cases held keys.second <;> simp [two]
  · by_cases second : key.name = keys.second
    · rw [if_pos (.inr second), second, update_self, update_of_ne two]
      cases key.make <;> cases held keys.first <;> simp [two.symm]
    · rw [if_neg (by tauto), update_of_ne (Ne.symm first),
        update_of_ne (Ne.symm second)]
      simp [first, second]

theorem scancode_parts (code : Fin 256) :
    let raw := (UInt8.ofNat code.val).toUInt16
    (raw &&& 0xFF).toUInt8 = UInt8.ofNat code.val ∧ raw &&& 0xE000 = 0 ∧
      ((0xE000 ||| raw) &&& 0xFF).toUInt8 = UInt8.ofNat code.val ∧ (0xE000 ||| raw) &&& 0xE000 ≠
        0 := by
  revert code
  decide +kernel

theorem Decoder.emit_after (decoder : Decoder) (key : Key) :
    (decoder.emit key.make key.scancode).2 = decoder.setFlags key.extended key.code key.make := by
  have parts := scancode_parts ⟨key.code.toNat, key.code.toNat_lt⟩
  rw [UInt8.ofNat_toNat] at parts
  obtain ⟨low, plain, high, marked⟩ := parts
  unfold emit Key.scancode
  cases key.extended with
  | false => simp [low, plain]
  | true =>
    have isExtended := bne_iff_ne.mpr marked
    simp [high, isExtended]

/-- The decoder's flags are those of the keys that are down. -/
structure Decoder.Shows (decoder : Decoder) (held : Held) : Prop where
  shift : decoder.shift = shiftKeys.down held
  ctrl : decoder.ctrl = ctrlKeys.down held
  alt : decoder.alt = altKeys.down held

theorem Decoder.setFlags_eq (decoder : Decoder) (key : Key) :
    let after := decoder.setFlags key.extended key.code key.make
    after.shift = (if key.name = shiftKeys.first ∨ key.name = shiftKeys.second then key.make
        else decoder.shift) ∧
      after.ctrl = (if key.name = ctrlKeys.first ∨ key.name = ctrlKeys.second then key.make
        else decoder.ctrl) ∧
      after.alt = (if key.name = altKeys.first ∨ key.name = altKeys.second then key.make
        else decoder.alt) := by
  unfold setFlags Key.name shiftKeys ctrlKeys altKeys
  cases key.extended with
  | false =>
    simp only [if_true, Prod.mk.injEq, true_and, Bool.false_eq_true, false_and, or_false]
    split_ifs <;> simp_all
  | true =>
    simp only [Bool.true_eq_false, if_false, Prod.mk.injEq, true_and, false_and, or_false, false_or]
    split_ifs <;> simp_all

variable {decoder : Decoder} {held : Held}

theorem Decoder.Shows.step_iff (shows : decoder.Shows held) (key : Key) :
    Reflects (decoder.emit key.make key.scancode).1 (update held key.name key.make) ↔
      ∀ modifier ∈ [shiftKeys, ctrlKeys, altKeys], modifier.Alone held key := by
  obtain ⟨shift, ctrl, alt⟩ := decoder.setFlags_eq key
  rw [← decoder.emit_after, shows.shift] at shift
  rw [← decoder.emit_after, shows.ctrl] at ctrl
  rw [← decoder.emit_after, shows.alt] at alt
  have first := Modifier.flag_iff (show shiftKeys.first ≠ shiftKeys.second by decide) held key
  have second := Modifier.flag_iff (show ctrlKeys.first ≠ ctrlKeys.second by decide) held key
  have third := Modifier.flag_iff (show altKeys.first ≠ altKeys.second by decide) held key
  rw [← shift] at first
  rw [← ctrl] at second
  rw [← alt] at third
  rw [List.forall_mem_cons, List.forall_mem_cons,
    List.forall_mem_singleton, ← first, ← second, ← third]
  rfl

theorem forall_getElem?_cons {α : Type} {first : α} {rest : List α} {holds : Nat → α → Prop} :
    (∀ index item, (first :: rest)[index]? = some item → holds index item) ↔
      holds 0 first ∧ ∀ index item, rest[index]? = some item → holds (index + 1) item := by
  constructor
  · intro all
    exact ⟨all 0 first rfl, fun index item found => all (index + 1) item found⟩
  · rintro ⟨front, later⟩ index item found
    cases index with
    | zero => exact Option.some.inj found ▸ front
    | succ index => exact later index item found

theorem keyEvents_reflect_iff (shows : decoder.Shows held) (keys : List Key) :
    (∀ index event, (keyEvents decoder keys).1[index]? = some event →
        Reflects event (heldAfter held (keys.take (index + 1)))) ↔
      ∀ index key, keys[index]? = some key →
        ∀ modifier ∈ [shiftKeys, ctrlKeys, altKeys],
          modifier.Alone (heldAfter held (keys.take index)) key := by
  induction keys generalizing decoder held with
  | nil => simp [keyEvents]
  | cons key rest ih =>
    rw [keyEvents, forall_getElem?_cons, forall_getElem?_cons]
    refine and_congr_right_iff.mpr ?_ |>.trans (and_congr_left_iff.mpr fun _ => shows.step_iff key)
    intro right
    exact ih ⟨right.1, right.2.1, right.2.2⟩

/-- Each event's flags reflect the held keys exactly when no key of a modifier is released while
the other one is held. -/
theorem flags_reflect_iff (caps : Bool) (keys : List Key) :
    (∀ index event, (emits { capsLock := caps } (keys.flatMap Key.encode)).1[index]? = some event →
        Reflects event (heldAfter (fun _ => false) (keys.take (index + 1)))) ↔
      ∀ index key, keys[index]? = some key →
        ∀ modifier ∈ [shiftKeys, ctrlKeys, altKeys],
          modifier.Alone (heldAfter (fun _ => false) (keys.take index)) key := by
  rw [emits_keys rfl]
  exact keyEvents_reflect_iff ⟨rfl, rfl, rfl⟩ keys

/-- Both shift keys go down and the left one up: the flag is clear with the right one held. -/
theorem flags_miss_second_shift :
    let keys : List Key := [⟨false, 0x12, true, by decide⟩, ⟨false, 0x59, true, by decide⟩,
      ⟨false, 0x12, false, by decide⟩]
    (∀ index key, keys[index]? = some key → key.make = false →
        heldAfter (fun _ => false) (keys.take index) key.name = true) ∧
      ((emits {} (keys.flatMap Key.encode)).1[2]?.map (·.shift)) = some false ∧
      heldAfter (fun _ => false) (keys.take 3) (false, 0x59) = true := by
  refine ⟨?_, by decide +kernel, by decide⟩
  rw [forall_getElem?_cons, forall_getElem?_cons, forall_getElem?_cons]
  exact ⟨by decide, by decide, by decide, fun _ _ found => nomatch found⟩

end Synx.Ps2
