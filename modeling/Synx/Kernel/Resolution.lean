/-
What `dentry_path` and `resolve_user_path` deliver.
-/

import Synx.Fs.Location
import Synx.Kernel.Files

namespace Synx.Kernel

open Lib Program List
open Vfs (slash Located pathText)

/-! ### Buffers -/

theorem putBuffer_front {text : List UInt8} {buffer : List UInt8}
    (fits : text.length ≤ buffer.length) :
    putBuffer buffer 0 text = .ok (text ++ buffer.drop text.length) := by
  have stored := @putBuffer_append [] buffer text fits
  rwa [nil_append, nil_append, length_nil] at stored

theorem putBuffer_string {text buffer : List UInt8} (fits : text.length < buffer.length) :
    ∃ rest, putBuffer buffer 0 (text ++ [0]) = .ok (text ++ 0 :: rest) ∧
      (text ++ 0 :: rest).length = buffer.length := by
  have enough : (text ++ [0]).length ≤ buffer.length := by
    rw [length_append, length_singleton]
    omega
  refine ⟨buffer.drop (text ++ [0]).length, ?_, ?_⟩
  · rw [putBuffer_front enough, append_assoc, singleton_append]
  · simp only [length_append, length_cons, length_drop, length_nil]
    omega

variable {buffer text : List UInt8} {id : Nat} {vfs : Vfs.State} {names : List Vfs.Name}

theorem cString_split (found : cString buffer = .ok text) :
    0 ∉ text ∧ ∃ rest, buffer = text ++ 0 :: rest := by
  unfold cString at found
  split at found
  · rename_i other same
    cases found
    exact Buffer.eq_append_of_string same
  · cases found

theorem cString_length (found : cString buffer = .ok text) : text.length < buffer.length := by
  obtain ⟨_, rest, split_⟩ := cString_split found
  rw [split_, length_append, length_cons]
  omega

theorem length_freshBuffer (size : Nat) : (freshBuffer size).length = size := length_replicate

theorem follow_live {α : Type} {cells : Nat → Option α} {cell : α} (live : cells id = some cell) :
    follow cells id = .ok cell := by
  unfold follow
  rw [live]

/-! ### The path of a dentry -/

def Named (vfs : Vfs.State) (ids : List Nat) (names : List Vfs.Name) : Prop :=
  Forall₂ (fun id name => ∃ dentry, vfs.dentries id = some dentry ∧ dentry.name = name)
    ids names

theorem collectComponents_located (located : Located vfs id names) (rounds : Nat)
    (components : List Nat) (enough : names.length < rounds)
    (room : names.length + components.length ≤ maxComponents) :
    ∃ ids, Named vfs ids names ∧
      collectComponents vfs rounds components id = .ok (some (ids ++ components.reverse)) := by
  induction located generalizing rounds components with
  | top live first =>
    cases rounds with
    | zero => omega
    | succ rounds =>
      refine ⟨[], List.Forall₂.nil, ?_⟩
      unfold collectComponents
      rw [follow_live live]
      simp only [bind, Except.bind, first]
      rfl
  | @inside id parent dentry names live points _ ih =>
    rw [length_append, length_singleton] at enough room
    cases rounds with
    | zero => omega
    | succ rounds =>
      obtain ⟨ids, named, collected⟩ := ih rounds (components ++ [id]) (by omega)
        (by rw [length_append, length_singleton]; omega)
      refine ⟨ids ++ [id], rel_append named
        (List.Forall₂.cons ⟨dentry, live, rfl⟩ List.Forall₂.nil), ?_⟩
      have pushed : pushPointer maxComponents components id = .ok (components ++ [id]) :=
        if_pos (by omega)
      unfold collectComponents
      rw [follow_live live]
      simp only [bind, Except.bind, points]
      rw [if_neg (by omega), pushed]
      simp only
      rw [collected, reverse_append]
      simp

theorem collectComponents_deep (located : Located vfs id names) (rounds : Nat)
    (components : List Nat) (room : components.length ≤ maxComponents)
    (deep : maxComponents < names.length + components.length) :
    collectComponents vfs rounds components id = .ok none := by
  induction located generalizing rounds components with
  | top _ _ =>
    rw [length_nil] at deep
    omega
  | @inside id parent dentry names live points _ ih =>
    rw [length_append, length_singleton] at deep
    cases rounds with
    | zero => rfl
    | succ rounds =>
      unfold collectComponents
      rw [follow_live live]
      simp only [bind, Except.bind, points]
      by_cases full : components.length = maxComponents
      · rw [if_pos full]
        rfl
      · have pushed : pushPointer maxComponents components id = .ok (components ++ [id]) :=
          if_pos (by omega)
        rw [if_neg full, pushed]
        simp only
        apply ih
        · rw [length_append, length_singleton]
          omega
        · rw [length_append, length_singleton]
          omega

def appendName (text name : Vfs.Name) : Vfs.Name :=
  text ++ ((if 1 < text.length then [slash] else []) ++ name)

theorem length_foldl_appendName (text : Vfs.Name) (names : List Vfs.Name) :
    text.length ≤ (names.foldl appendName text).length := by
  induction names generalizing text with
  | nil => exact le_rfl
  | cons name rest ih =>
    have later := ih (appendName text name)
    have longer : text.length ≤ (appendName text name).length := by
      unfold appendName
      rw [length_append]
      omega
    exact le_trans longer later

theorem writeComponents_step {dentry : Vfs.Dentry} (live : vfs.dentries id = some dentry)
    (ids : List Nat) (front back : List UInt8)
    (fits : (appendName front dentry.name).length < (front ++ back).length) :
    writeComponents vfs (front ++ back).length (id :: ids) front.length (front ++ back) =
      writeComponents vfs (front ++ back).length ids (appendName front dentry.name).length
        (appendName front dentry.name ++
          (front ++ back).drop (appendName front dentry.name).length) := by
  have total : (front ++ back).length = front.length + back.length := length_append
  rw [total] at fits
  generalize separated : (if 1 < front.length then [slash] else []) = separator
  have text : appendName front dentry.name = front ++ (separator ++ dentry.name) := by
    unfold appendName
    rw [separated]
  have textLength : (appendName front dentry.name).length =
      front.length + (separator.length + dentry.name.length) := by
    rw [text, length_append, length_append]
  have roomSeparator : separator.length ≤ back.length := by omega
  have roomName : dentry.name.length ≤ (back.drop separator.length).length := by
    rw [length_drop]
    omega
  have offset : front.length + separator.length = (front ++ separator).length := by
    rw [length_append]
  have used : (front ++ separator).length + dentry.name.length =
      (appendName front dentry.name).length := by
    rw [textLength, length_append]
    omega
  have whole : front ++ separator ++ dentry.name ++
      (back.drop separator.length).drop dentry.name.length =
        appendName front dentry.name ++
          (front ++ back).drop (appendName front dentry.name).length := by
    have rest : (front ++ back).drop (front.length + (separator.length + dentry.name.length)) =
        (back.drop separator.length).drop dentry.name.length := by
      rw [← drop_drop, drop_left, drop_drop]
    rw [textLength, rest, text]
    simp
  rw [writeComponents, follow_live live]
  simp only [bind, Except.bind]
  rw [separated, if_neg (by rw [length_append]; omega), putBuffer_append roomSeparator]
  simp only
  rw [offset, putBuffer_append roomName]
  simp only
  rw [whole, used]

theorem length_append_drop {text buffer : List UInt8} (fits : text.length ≤ buffer.length) :
    (text ++ buffer.drop text.length).length = buffer.length := by
  rw [length_append, length_drop]
  omega

theorem drop_append_drop {count : Nat} (beyond : text.length ≤ count) :
    (text ++ buffer.drop text.length).drop count = buffer.drop count := by
  rw [drop_append, drop_of_length_le beyond, nil_append, drop_drop]
  congr 1
  omega

theorem writeComponents_full {dentry : Vfs.Dentry} (live : vfs.dentries id = some dentry)
    (ids : List Nat) (front back : List UInt8)
    (full : (front ++ back).length ≤ (appendName front dentry.name).length) :
    writeComponents vfs (front ++ back).length (id :: ids) front.length (front ++ back) =
      .ok (errNametoolong, front ++ back) := by
  unfold appendName at full
  rw [length_append, length_append, length_append] at full
  rw [writeComponents, follow_live live]
  simp only [bind, Except.bind]
  rw [if_pos (by rw [length_append]; omega)]
  rfl

theorem writeComponents_named {ids : List Nat} (named : Named vfs ids names)
    (front back : List UInt8)
    (fits : (names.foldl appendName front).length < (front ++ back).length) :
    writeComponents vfs (front ++ back).length ids front.length (front ++ back) =
      .ok (0, names.foldl appendName front ++
        0 :: (front ++ back).drop ((names.foldl appendName front).length + 1)) := by
  induction named generalizing front back with
  | nil =>
    rw [foldl_nil] at fits ⊢
    rw [length_append] at fits
    have room : [(0 : UInt8)].length ≤ back.length := by
      rw [length_singleton]
      omega
    have rest : (front ++ back).drop (front.length + 1) = back.drop 1 := by
      rw [← drop_drop, drop_left]
    unfold writeComponents
    rw [putBuffer_append room, rest]
    simp only [bind, Except.bind, append_assoc]
    rfl
  | @cons id name ids names first _ ih =>
    obtain ⟨dentry, live, rfl⟩ := first
    rw [foldl_cons] at fits ⊢
    have longer := length_foldl_appendName (appendName front dentry.name) names
    have step := writeComponents_step live ids front back (by omega)
    have length := @length_append_drop (appendName front dentry.name) (front ++ back) (by omega)
    have later := ih (appendName front dentry.name)
      ((front ++ back).drop (appendName front dentry.name).length) (by rw [length]; exact fits)
    rw [length] at later
    rw [step, later, drop_append_drop (by omega)]

theorem writeComponents_tooLong {ids : List Nat} (named : Named vfs ids names)
    (front back : List UInt8) (room : front.length < (front ++ back).length)
    (long : (front ++ back).length ≤ (names.foldl appendName front).length) :
    ∃ buffer, writeComponents vfs (front ++ back).length ids front.length (front ++ back) =
      .ok (errNametoolong, buffer) := by
  induction named generalizing front back with
  | nil =>
    rw [foldl_nil] at long
    omega
  | @cons id name ids names first _ ih =>
    obtain ⟨dentry, live, rfl⟩ := first
    by_cases fits : (appendName front dentry.name).length < (front ++ back).length
    · have length := @length_append_drop (appendName front dentry.name) (front ++ back)
        (le_of_lt fits)
      have later := ih (appendName front dentry.name)
        ((front ++ back).drop (appendName front dentry.name).length)
        (by rw [length]; exact fits) (by rw [length]; exact long)
      rw [length] at later
      rw [writeComponents_step live ids front back fits]
      exact later
    · exact ⟨_, writeComponents_full live ids front back (not_lt.mp fits)⟩

theorem dentryPath_located {vfs : Vfs.State} {id : Nat} {names : List Vfs.Name}
    (located : Located vfs id names) (few : names.length ≤ maxComponents) {path : List UInt8}
    {capacity : Nat} (size : path.length = capacity) (enough : 2 ≤ capacity)
    (fits : (pathText names).length < capacity) :
    dentryPath vfs id path capacity =
      .ok (0, pathText names ++ 0 :: path.drop ((pathText names).length + 1)) := by
  obtain ⟨ids, named, collected⟩ := collectComponents_located located (maxComponents + 1) []
    (by omega) (by rw [length_nil]; omega)
  rw [reverse_nil, append_nil] at collected
  have room : [slash].length ≤ path.length := by
    rw [length_singleton]
    omega
  have whole : ([slash] ++ path.drop [slash].length).length = capacity := by
    rw [length_append_drop room, size]
  have written := writeComponents_named named [slash] (path.drop [slash].length)
    (by rw [whole]; exact fits)
  have positive := (Vfs.pathText_length names).1
  rw [whole] at written
  unfold dentryPath
  rw [collected]
  simp only [bind, Except.bind]
  rw [if_neg (by omega), putBuffer_front room]
  refine written.trans ?_
  rw [drop_append_drop]
  · rfl
  · rw [length_singleton]
    omega

theorem dentryPath_refused {vfs : Vfs.State} {id : Nat} {names : List Vfs.Name}
    (located : Located vfs id names) {path : List UInt8} {capacity : Nat}
    (size : path.length = capacity) (outside : ¬(2 ≤ capacity ∧ names.length ≤ maxComponents ∧
      (pathText names).length < capacity)) :
    ∃ buffer, dentryPath vfs id path capacity = .ok (errNametoolong, buffer) := by
  unfold dentryPath
  by_cases few : names.length ≤ maxComponents
  · obtain ⟨ids, named, collected⟩ := collectComponents_located located (maxComponents + 1) []
      (by omega) (by rw [length_nil]; omega)
    rw [reverse_nil, append_nil] at collected
    rw [collected]
    simp only [bind, Except.bind]
    by_cases small : capacity < 2
    · rw [if_pos small]
      exact ⟨path, rfl⟩
    · have room : [slash].length ≤ path.length := by
        rw [length_singleton]
        omega
      have whole : ([slash] ++ path.drop [slash].length).length = capacity := by
        rw [length_append_drop room, size]
      have refused := writeComponents_tooLong named [slash] (path.drop [slash].length)
        (by rw [whole, length_singleton]; omega)
        (by
          rw [whole]
          exact not_lt.mp (fun fits => outside ⟨by omega, few, fits⟩))
      rw [whole] at refused
      rw [if_neg small, putBuffer_front room]
      exact refused
  · rw [collectComponents_deep located (maxComponents + 1) [] zero_le
      (by rw [length_nil]; omega)]
    exact ⟨path, rfl⟩

/-! ### The path of a system call -/

def joinPath (base path : List UInt8) : List UInt8 :=
  base ++ ((if 1 < base.length then [slash] else []) ++ path)

/-- The path that a call is about, by the text that the program passed and the text
of the base directory. -/
def Resolves (isBase : List UInt8 → Prop) (path text : List UInt8) : Prop :=
  if path.head? = some slash then text = path
  else ∃ base, isBase base ∧ text = joinPath base path

theorem head?_append_zero (nonempty : text ≠ []) (rest : List UInt8) :
    (text ++ 0 :: rest).head? = text.head? := by
  cases text with
  | nil => exact absurd rfl nonempty
  | cons byte later => rfl

theorem resolveUserPath_graceful {kernel : State} {dirfd userPath capacity : Nat}
    {isBase : List UInt8 → Prop}
    (base : Graceful (fun buffer => ∃ text, cString buffer = .ok text ∧ isBase text)
      (baseDirectory kernel dirfd)) :
    Graceful (fun buffer => ∃ path text, UserString kernel.mem kernel.cr3 userPath path ∧
        path ≠ [] ∧ cString buffer = .ok text ∧ text.length < capacity ∧
        Resolves isBase path text)
      (resolveUserPath kernel dirfd userPath capacity) := by
  unfold resolveUserPath
  refine Graceful.bind (copyUserPath_graceful (length_freshBuffer pathCapacity)) ?_
  rintro buffer ⟨_, path, found, nonempty, points⟩
  have pathNonzero : 0 ∉ path := fun member => points.nonzero 0 member rfl
  rw [found]
  change Graceful _ (if buffer.head? = some slash then _ else _)
  have sameHead : buffer.head? = path.head? := by
    obtain ⟨_, rest, split_⟩ := cString_split found
    rw [split_, head?_append_zero nonempty]
  rw [sameHead]
  by_cases absolute : path.head? = some slash
  · rw [if_pos absolute]
    split
    · exact (by decide : errNametoolong < 0)
    · rename_i short
      obtain ⟨rest, stored, _⟩ := @putBuffer_string path (freshBuffer capacity)
        (by rw [length_freshBuffer]; omega)
      rw [stored]
      refine ⟨path, path, points, nonempty, cString_append pathNonzero, by omega, ?_⟩
      unfold Resolves
      rw [if_pos absolute]
  · rw [if_neg absolute]
    refine Graceful.bind base ?_
    rintro baseBuffer ⟨baseText, foundBase, isBaseText⟩
    rw [foundBase]
    change Graceful _ (if capacity < _ then _ else _)
    generalize separated : (if 1 < baseText.length then [slash] else []) = separator
    split
    · exact (by decide : errNametoolong < 0)
    · rename_i short
      have joined : joinPath baseText path = baseText ++ (separator ++ path) := by
        unfold joinPath
        rw [separated]
      have baseNonzero := (cString_split foundBase).1
      have nonzero : 0 ∉ joinPath baseText path := by
        rw [joined]
        simp only [mem_append, not_or]
        refine ⟨baseNonzero, ?_, pathNonzero⟩
        rw [← separated]
        split <;> simp [slash]
      have roomBase : baseText.length ≤ (freshBuffer capacity).length := by
        rw [length_freshBuffer]
        omega
      have roomSeparator : separator.length ≤
          ((freshBuffer capacity).drop baseText.length).length := by
        rw [length_drop, length_freshBuffer]
        omega
      have roomPath : (path ++ [0]).length ≤
          (((freshBuffer capacity).drop baseText.length).drop separator.length).length := by
        rw [length_drop, length_drop, length_freshBuffer, length_append,
          length_singleton]
        omega
      have offset : baseText.length + separator.length = (baseText ++ separator).length := by
        rw [length_append]
      rw [putBuffer_front roomBase]
      change Graceful _ (putBuffer _ _ _ >>= _)
      rw [putBuffer_append roomSeparator]
      change Graceful _ (putBuffer _ _ _)
      rw [offset, putBuffer_append roomPath]
      refine ⟨path, joinPath baseText path, points, nonempty, ?_, ?_, ?_⟩
      · have whole : baseText ++ separator ++ (path ++ [0]) ++
            (((freshBuffer capacity).drop baseText.length).drop separator.length).drop
              (path ++ [0]).length =
            joinPath baseText path ++ 0 ::
              (((freshBuffer capacity).drop baseText.length).drop separator.length).drop
                (path ++ [0]).length := by
          rw [joined]
          simp
        rw [whole]
        exact cString_append nonzero
      · rw [joined, length_append, length_append]
        omega
      · unfold Resolves
        rw [if_neg absolute]
        exact ⟨baseText, isBaseText, rfl⟩

end Synx.Kernel
