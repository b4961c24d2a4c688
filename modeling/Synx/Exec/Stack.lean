/-
The initial stack in the user's view: the strings at the top, one after another,
and below them the words that point to them.
-/

import Synx.Exec.Segments

namespace Synx.Exec

open Lib Program Memory List
open Pmm (pageSize)
open Paging

/-- The bytes of strings with their terminators. -/
def stringBytes (strings : List (List UInt8)) : Nat := (strings.map (·.length + 1)).sum

theorem stringBytes_cons (string : List UInt8) (rest : List (List UInt8)) :
    stringBytes (string :: rest) = string.length + 1 + stringBytes rest := by
  unfold stringBytes
  rw [map_cons, sum_cons]

def stackStrings (argv envp : List (List UInt8)) (path : List UInt8) : Nat :=
  stringBytes argv + stringBytes envp + (path.length + 1)

/-- The strings and the numbers of strings are below the limits of the loader. -/
def StackFits (argv envp : List (List UInt8)) (path : List UInt8) : Prop :=
  stackStrings argv envp path ≤ maxStackStrings ∧ argv.length ≤ 128 ∧ envp.length ≤ 128

/-- Strings with their NULs fill the range from `low` to `high` in order, and the
addresses are where they start. -/
def Placed (view : View) : Nat → List (List UInt8) → List Nat → Nat → Prop
  | low, [], [], high => low = high
  | low, string :: strings, address :: addresses, high =>
    address = low ∧ view.Holds low (string ++ [0]) ∧
      Placed view (low + (string.length + 1)) strings addresses high
  | _, _, _, _ => False

variable {view left right : View} {low high address root : Nat} {strings : List (List UInt8)}
  {addresses : List Nat} {start : Machine}

@[elab_as_elim]
theorem Placed.induction {motive : Nat → List (List UInt8) → List Nat → Prop}
    (last : motive high [] [])
    (next : ∀ low string strings addresses, view.Holds low (string ++ [0]) →
      Placed view (low + (string.length + 1)) strings addresses high →
      motive (low + (string.length + 1)) strings addresses →
      motive low (string :: strings) (low :: addresses))
    (placed : Placed view low strings addresses high) : motive low strings addresses := by
  induction strings generalizing low addresses with
  | nil =>
    cases addresses with
    | nil => exact Eq.symm placed ▸ last
    | cons address rest => exact placed.elim
  | cons string strings ih =>
    cases addresses with
    | nil => exact placed.elim
    | cons address rest =>
      obtain ⟨rfl, holds, later⟩ := placed
      exact next _ string strings rest holds later (ih later)

theorem Placed.span (placed : Placed view low strings addresses high) :
    low + stringBytes strings = high := by
  refine Placed.induction rfl (fun low string strings addresses _ _ ih => ?_) placed
  rw [stringBytes_cons, ← ih]
  omega

theorem Placed.length (placed : Placed view low strings addresses high) :
    addresses.length = strings.length :=
  Placed.induction rfl (fun _ _ _ _ _ _ ih => congrArg (· + 1) ih) placed

theorem Placed.congr {after : View} (placed : Placed view low strings addresses high)
    (same : ∀ address, low ≤ address → address < high → after.byte address = view.byte address) :
    Placed after low strings addresses high := by
  revert same
  refine Placed.induction (fun _ => rfl) (fun low string strings addresses holds later ih same =>
    ?_) placed
  have bound := later.span
  refine ⟨rfl, ?_, ih (fun address above below => same address (by omega) below)⟩
  intro offset inside
  have length : (string ++ [0]).length = string.length + 1 := length_append
  rw [same _ (by omega) (by omega)]
  exact holds offset inside

theorem Placed.write (placed : Placed view low strings addresses high) {bytes : List UInt8}
    (outside : address + bytes.length ≤ low ∨ high ≤ address) :
    Placed (view.write address bytes) low strings addresses high :=
  placed.congr (fun _ _ _ => View.byte_write_outside (by omega))

/-! ### Words -/

def wordBytes (words : List Nat) : List UInt8 := words.flatMap (fun word => numberBytes word 8)

theorem wordBytes_length (words : List Nat) : (wordBytes words).length = words.length * 8 := by
  induction words with
  | nil => rfl
  | cons word rest ih =>
    have split_ : wordBytes (word :: rest) = numberBytes word 8 ++ wordBytes rest := rfl
    rw [split_, length_append, numberBytes_length, ih, length_cons]
    omega

namespace View

theorem write_append (view : View) (address : Nat) (left right : List UInt8) :
    (view.write address left).write (address + left.length) right =
      view.write address (left ++ right) := by
  unfold write
  congr 1
  funext other
  rw [length_append]
  by_cases inRight : address + left.length ≤ other ∧ other < address + left.length + right.length
  · rw [if_pos inRight, if_pos (by omega), getElem?_append_right (by omega)]
    congr 1
    omega
  · rw [if_neg inRight]
    simp only
    by_cases inLeft : address ≤ other ∧ other < address + left.length
    · rw [if_pos inLeft, if_pos (by omega), getElem?_append_left (by omega)]
    · rw [if_neg inLeft, if_neg (by omega)]

theorem write_nil (view : View) (address : Nat) : view.write address [] = view := by
  unfold write
  congr 1
  funext other
  rw [if_neg]
  simp only [length_nil]
  omega

end View

/-! ### Pushing -/

/-- There is room for a number of bytes below the cursor. -/
structure Room (view : View) (area : StringArea) (size : Nat) : Prop where
  total : area.total + size ≤ maxStackStrings
  cursor : area.cursor + area.total = userStackTop
  mapped : ∀ address, stackBottom ≤ address → address < userStackTop →
    ∃ access, view.access address = some access

section Refinement

variable {start : Machine} {root : Nat} (live : Live start root)

include live

theorem viewed_pushString (area : StringArea) (string : List UInt8) (view : View) :
    Triple (Viewed start root view) (pushString root area string)
      (fun next machine => next.cursor + (string.length + 1) = area.cursor ∧
        stackBottom ≤ next.cursor ∧ next.total = area.total + (string.length + 1) ∧
        next.total ≤ maxStackStrings ∧
        Viewed start root (view.write next.cursor (string ++ [0])) machine)
      (Unless never (Room view area (string.length + 1))) := by
  unfold pushString
  apply Triple.ite
  · intro tight
    refine .stop _ (fun _ _ room => ?_)
    obtain ⟨total, cursor, _⟩ := room
    have size : stackBottom + 32768 = userStackTop := by decide
    unfold maxStackStrings at total tight
    omega
  intro fits
  refine .bind _ ((viewed_copyToSpace live _ _ view).weaken (fun _ now => now) (fun _ _ now => now)
    (.imp ?_)) (fun _ => .pure _ ?_)
  · rintro ⟨_, cursor, mapped⟩ other ⟨above, below⟩
    rw [length_append, length_singleton] at below
    refine ⟨?_, mapped other (by omega) (by omega)⟩
    have top : userStackTop < userTop := by decide
    omega
  · intro machine viewed
    exact ⟨by simp only; omega, by simp only; omega, rfl, by simp only; omega, viewed⟩

/-- The view after a list of strings has been pushed below `high`. -/
structure Pushed (view : View) (high : Nat) (strings : List (List UInt8)) (addresses : List Nat)
    (low : Nat) (after : View) : Prop where
  access : after.access = view.access
  outside : ∀ address, address < low ∨ high ≤ address → after.byte address = view.byte address
  placed : Placed after low strings addresses high
  above : strings ≠ [] → stackBottom ≤ low

theorem viewed_pushStrings (area : StringArea) (strings : List (List UInt8)) (view : View) :
    Triple (Viewed start root view) (pushStrings root area strings)
      (fun result machine => ∃ after, Viewed start root after machine ∧
        Pushed view area.cursor strings result.1 result.2.cursor after ∧
        result.2.total = area.total + stringBytes strings ∧
        (area.total ≤ maxStackStrings → result.2.total ≤ maxStackStrings))
      (Unless never (Room view area (stringBytes strings))) := by
  induction strings with
  | nil =>
    apply Triple.pure
    intro machine viewed
    exact ⟨view, viewed, ⟨rfl, fun _ _ => rfl, rfl, fun absurd_ => absurd rfl absurd_⟩, rfl,
      fun small => small⟩
  | cons string rest ih =>
    have size := stringBytes_cons string rest
    refine .bind _ (ih.weaken (fun _ now => now) (fun _ _ now => now) (.imp ?_)) ?_
    · rintro ⟨total, cursor, mapped⟩
      exact ⟨by omega, cursor, mapped⟩
    rintro ⟨addresses, middle⟩
    apply Triple.of_state
    rintro machine ⟨between, viewed, pushed, counted, _⟩
    have bound : middle.cursor + stringBytes rest = area.cursor := pushed.placed.span
    refine .bind _ ((viewed_pushString live middle string between).weaken ?_
      (fun _ _ holds => holds) (.imp ?_)) (fun next => .pure _ ?_)
    · rintro _ rfl
      exact viewed
    · rintro ⟨total, cursor, mapped⟩
      simp only at counted bound
      exact ⟨by omega, by omega, by rw [pushed.access]; exact mapped⟩
    rintro final ⟨exact_, bottom, grown, small, viewedFinal⟩
    refine ⟨_, viewedFinal, ?_, by simp only at counted ⊢; omega, fun _ => small⟩
    have length : (string ++ [0]).length = string.length + 1 := by simp
    refine ⟨pushed.access, ?_, ?_, fun _ => bottom⟩
    · intro address outside
      rw [View.byte_write_outside (by simp only at outside; omega)]
      exact pushed.outside address (by simp only at outside ⊢; omega)
    · refine ⟨rfl, View.holds_write _ _ _, ?_⟩
      rw [exact_]
      exact pushed.placed.write (by simp only; omega)

theorem viewed_pushWords (address : Nat) (words : List Nat) (view : View) :
    Triple (Viewed start root view) (pushWords root address words)
      (fun _ => Viewed start root (view.write address (wordBytes words)))
      (Unless never (view.Covers address (wordBytes words).length)) := by
  induction words generalizing address view with
  | nil =>
    apply Triple.pure
    intro machine viewed
    have same : view.write address (wordBytes []) = view := view.write_nil address
    rw [same]
    exact viewed
  | cons word rest ih =>
    have width := numberBytes_length word 8
    have more := wordBytes_length (word :: rest)
    have fewer := wordBytes_length rest
    rw [length_cons] at more
    refine .bind _ ((viewed_copyToSpace live address (numberBytes word 8) view).weaken
      (fun _ now => now) (fun _ _ now => now) (.imp ?_)) (fun _ => ?_)
    · intro covers other within
      exact covers other ⟨within.1, by have := within.2; omega⟩
    refine (ih (address + 8) (view.write address (numberBytes word 8))).weaken
      (fun _ holds => holds) ?_ (.imp ?_)
    swap
    · intro covers other within
      exact covers other ⟨by have := within.1; omega, by have := within.2; omega⟩
    intro _ machine viewed
    have joined := view.write_append address (numberBytes word 8) (wordBytes rest)
    rw [numberBytes_length] at joined
    rw [joined] at viewed
    exact viewed

end Refinement

/-! ### The whole stack -/

def stackWords (argvAddresses envpAddresses auxiliary : List Nat) : List Nat :=
  [argvAddresses.length] ++ argvAddresses ++ [0] ++ envpAddresses ++ [0] ++ auxiliary

/-- The stack of a new program: strings of the environment, the arguments and the
path from the top down, and the vector of words below them. -/
structure StackLayout (base : View) (nxEnabled : Bool) (argv envp : List (List UInt8))
    (path : List UInt8) (phdr phentsize phnum entry : Nat) (image : ExecImage) (view : View) :
    Prop where
  access : view.access =
    (base.mapPages (stackFlags nxEnabled) (pagesFrom stackBottom userStackTop)).access
  below : ∀ address, address < stackBottom → view.byte address = base.byte address
  aligned : image.stack % 16 = 0
  bottom : stackBottom ≤ image.stack
  argvPlace : image.argv = image.stack + 8
  envpPlace : image.envp = image.stack + (1 + argv.length + 1) * 8
  strings : ∃ execfn argvLow envpLow argvAddresses envpAddresses,
    Placed view execfn [path] [execfn] argvLow ∧
    Placed view argvLow argv argvAddresses envpLow ∧
    Placed view envpLow envp envpAddresses userStackTop ∧
    view.Holds image.stack (wordBytes (stackWords argvAddresses envpAddresses
      (auxv phdr phentsize phnum entry execfn))) ∧
    image.stack + (argv.length + envp.length + 19) * 8 ≤ execfn

theorem stackPages_user (page : Nat) (member : page ∈ pagesFrom stackBottom userStackTop) :
    page < userTop := by
  have inside := (mem_pagesFrom member).2
  unfold userStackTop pageSize at inside
  unfold userTop
  omega

theorem stackPages_iff (address : Nat) :
    (∃ page ∈ pagesFrom stackBottom userStackTop, address / 4096 = page / 4096) ↔
      stackBottom ≤ address ∧ address < userStackTop := by
  have pages : pagesFrom stackBottom userStackTop =
      pagesFrom (stackBottom / 4096 * 4096) (userStackTop / 4096 * 4096) := rfl
  rw [pages, mem_pagesFrom_page]
  unfold stackBottom userStackTop userStackPages pageSize
  omega

theorem View.byte_mapPages_other (flags : Nat) {pages : List Nat}
    (unmapped : ¬∃ page ∈ pages, address / 4096 = page / 4096) :
    (view.mapPages flags pages).byte address = view.byte address := by
  induction pages generalizing view with
  | nil => rfl
  | cons page rest ih =>
    refine (@ih (view.mapPage page flags) ?_).trans ?_
    · rintro ⟨other, member, same⟩
      exact unmapped ⟨other, mem_cons_of_mem page member, same⟩
    · exact if_neg (fun same => unmapped ⟨page, mem_cons_self, same⟩)

def mapStackPages (root : Nat) (nxEnabled : Bool) : Loader Unit :=
  Program.each (fun page => mapUserPage root page (stackFlags nxEnabled))
    (pagesFrom stackBottom userStackTop)

theorem viewed_mapStackPages (live : Live start root) (nxEnabled : Bool) (base : View) :
    Triple (Viewed start root base) (mapStackPages root nxEnabled)
      (fun _ => Viewed start root
        (base.mapPages (stackFlags nxEnabled) (pagesFrom stackBottom userStackTop)))
      (Unless (Starved start) True) :=
  viewed_mapPages live (leafFlags_stack nxEnabled) _ stackPages_user base

theorem viewed_mapUserStack (live : Live start root) (nxEnabled : Bool)
    (argv envp : List (List UInt8)) (path : List UInt8) (phdr phentsize phnum entry : Nat)
    {base : View} {middle : Machine} (viewed : Viewed start root base middle) : Triple (· = middle)
      (mapUserStack root nxEnabled argv envp path phdr phentsize phnum entry)
      (fun image machine => ∃ view, Viewed start root view machine ∧
        StackLayout base nxEnabled argv envp path phdr phentsize phnum entry image view ∧
        stackStrings argv envp path ≤ maxStackStrings)
      (Unless (fun stopped => (mapStackPages root nxEnabled).run middle = (.error (), stopped))
        (StackFits argv envp path)) := by
  unfold mapUserStack
  have pages : Triple (· = middle) (mapStackPages root nxEnabled) _ _ :=
    (viewed_mapStackPages live nxEnabled base).weaken (fun _ same => same ▸ viewed)
      (fun _ _ now => now) (fun _ _ now => now)
  refine .bind _ (pages.stops.weaken (fun _ same => same) (fun _ _ now => now)
    (fun _ _ now _ => now.2)) ?_
  intro _
  have mapped : ∀ address, stackBottom ≤ address → address < userStackTop →
      (base.mapPages (stackFlags nxEnabled) (pagesFrom stackBottom userStackTop)).Mapped address :=
    fun address above below =>
      (View.mapped_mapPages _ _ _ address).mpr (.inr ((stackPages_iff address).mpr ⟨above, below⟩))
  refine Triple.bind _ ((viewed_pushStrings live ⟨userStackTop, 0⟩ envp _).weaken
    (fun _ now => now) (fun _ _ now => now) (.of_never ?_)) ?_
  · rintro ⟨fits, _, _⟩
    unfold stackStrings at fits
    exact ⟨by simp only; omega, rfl, mapped⟩
  rintro ⟨envpAddresses, envpArea⟩
  apply Triple.of_state
  rintro first ⟨envpView, viewedEnvp, pushedEnvp, countedEnvp, smallEnvp⟩
  have spanEnvp := pushedEnvp.placed.span
  simp only at spanEnvp countedEnvp
  refine Triple.bind _ ((viewed_pushStrings live envpArea argv envpView).weaken
    (fun _ same => same ▸ viewedEnvp) (fun _ _ holds => holds) (.of_never ?_)) ?_
  · rintro ⟨fits, _, _⟩
    unfold stackStrings at fits
    exact ⟨by omega, by omega, by rw [pushedEnvp.access]; exact mapped⟩
  rintro ⟨argvAddresses, argvArea⟩
  apply Triple.of_state
  rintro second ⟨argvView, viewedArgv, pushedArgv, countedArgv, smallArgv⟩
  have spanArgv := pushedArgv.placed.span
  simp only at spanArgv countedArgv
  refine Triple.bind _ ((viewed_pushString live argvArea path argvView).weaken
    (fun _ same => same ▸ viewedArgv) (fun _ _ holds => holds) (.of_never ?_)) ?_
  · rintro ⟨fits, _, _⟩
    unfold stackStrings at fits
    exact ⟨by omega, by omega, by rw [pushedArgv.access, pushedEnvp.access]; exact mapped⟩
  intro area
  apply Triple.of_state
  rintro third ⟨exactPath, bottom, counted, small, viewedPath⟩
  have boundEnvp := pushedEnvp.placed.span
  have boundArgv := pushedArgv.placed.span
  have argvLength := pushedArgv.placed.length
  have envpLength := pushedEnvp.placed.length
  have words : [argv.length] ++ argvAddresses ++ [0] ++ envpAddresses ++ [0] ++
      auxv phdr phentsize phnum entry area.cursor =
      stackWords argvAddresses envpAddresses (auxv phdr phentsize phnum entry area.cursor) := by
    unfold stackWords
    rw [argvLength]
  simp only [words]
  have count : (stackWords argvAddresses envpAddresses
      (auxv phdr phentsize phnum entry area.cursor)).length = argv.length + envp.length + 19 := by
    simp only [stackWords, auxv, length_append, length_cons, length_nil, argvLength,
      envpLength]
    omega
  rw [count]
  generalize pointer : (area.cursor - (argv.length + envp.length + 19) * 8) / 16 * 16 = stackPointer
  -- strings that fit leave half of the stack for the words
  have half : StackFits argv envp path → stackBottom + 16384 ≤ area.cursor ∧
      (argv.length + envp.length + 19) * 8 ≤ 2200 := by
    rintro ⟨_, fewArgv, fewEnvp⟩
    have size : stackBottom + 32768 = userStackTop := by decide
    unfold maxStackStrings at small
    omega
  apply Triple.ite
  · intro tight
    refine Triple.stop _ (fun _ _ fits => ?_)
    have := half fits
    omega
  intro room
  apply Triple.ite
  · intro tight
    refine Triple.stop _ (fun _ _ fits => ?_)
    have := half fits
    omega
  intro above
  refine Triple.bind _ ((viewed_pushWords live stackPointer _ _).weaken
    (fun _ same => same ▸ viewedPath) (fun _ _ holds => holds) (.of_never ?_)) ?_
  · rintro _ other ⟨low, high⟩
    rw [wordBytes_length, count] at high
    have top : userStackTop < userTop := by decide
    refine ⟨by omega, ?_⟩
    show ∃ access, argvView.access other = some access
    rw [pushedArgv.access, pushedEnvp.access]
    exact mapped other (by omega) (by omega)
  intro _
  apply Triple.pure
  intro machine viewed
  refine ⟨_, viewed, ?_, by unfold stackStrings; omega⟩
  have pathLength : (path ++ [0]).length = path.length + 1 := by simp
  have wordsLength : (wordBytes (stackWords argvAddresses envpAddresses
      (auxv phdr phentsize phnum entry area.cursor))).length =
      (argv.length + envp.length + 19) * 8 := by
    rw [wordBytes_length, count]
  have fits : stackPointer + (argv.length + envp.length + 19) * 8 ≤ area.cursor := by omega
  -- the words lie below the path, the path below the arguments, these below the environment
  refine
    { access := ?_
      below := ?_
      aligned := ?_
      bottom := not_lt.mp above
      argvPlace := rfl
      envpPlace := rfl
      strings := ⟨area.cursor, argvArea.cursor, envpArea.cursor, argvAddresses, envpAddresses,
        ?_, ?_, ?_, View.holds_write _ _ _, fits⟩ }
  · exact pushedArgv.access.trans pushedEnvp.access
  · intro address low
    have notStack : ¬∃ page ∈ pagesFrom stackBottom userStackTop,
        address / 4096 = page / 4096 := by
      rw [stackPages_iff]
      omega
    rw [View.byte_write_outside (by omega), View.byte_write_outside (by omega),
      pushedArgv.outside address (.inl (by simp only; omega)),
      pushedEnvp.outside address (.inl (by simp only; omega)),
      View.byte_mapPages_other _ notStack]
  · simp only
    omega
  · refine ⟨rfl, (View.holds_write _ _ _).write (.inr (by omega)), ?_⟩
    exact exactPath
  · exact (pushedArgv.placed.write (.inl (by simp only; omega))).write
      (.inl (by simp only; omega))
  · have kept : Placed argvView envpArea.cursor envp envpAddresses userStackTop :=
      pushedEnvp.placed.congr (fun address low _ => pushedArgv.outside address (.inr low))
    exact (kept.write (.inl (by omega))).write (.inl (by omega))

/-! ### The whole image -/

/-- What a built image shows: the segments, with relocations if there are any,
and the stack on top of them. -/
structure ImageView (file : List UInt8) (plan : Plan) (nxEnabled : Bool)
    (argv envp : List (List UInt8)) (path : List UInt8) (image : ExecImage) (view : View) :
    Prop where
  built : ∃ base phdr,
    base.access = (View.blank.mapSegments file plan.bias nxEnabled plan.segments).access ∧
    (plan.dynamic = none →
      base = View.blank.mapSegments file plan.bias nxEnabled plan.segments) ∧
    programHeaderAddress plan = some phdr ∧
    StackLayout base nxEnabled argv envp path phdr plan.header.phentsize plan.header.phnum
      plan.entry image view

theorem viewed_relocate (live : Live start root) (plan : Plan) (view : View) :
    Triple (Viewed start root view) (relocate root plan)
      (fun _ machine => ∃ after, Viewed start root after machine ∧ after.access = view.access ∧
        (plan.dynamic = none → after = view)) (Unless never (plan.dynamic = none)) := by
  by_cases static_ : plan.dynamic = none
  · unfold relocate
    rw [static_]
    exact .pure _ (fun machine viewed => ⟨view, viewed, rfl, fun _ => rfl⟩)
  · have copies : ∀ address bytes,
        Triple
          (fun machine => ∃ after, Viewed start root after machine ∧ after.access = view.access)
          (copyToSpace root address bytes)
          (fun _ machine => ∃ after, Viewed start root after machine ∧ after.access = view.access)
          (fun _ _ => True) := by
      intro address bytes
      apply Triple.of_state
      rintro machine ⟨now, viewed, same⟩
      refine (viewed_copyToSpace live address bytes now).weaken (fun _ here => here ▸ viewed) ?_
        (fun _ _ _ => trivial)
      intro _ final viewedFinal
      exact ⟨_, viewedFinal, same⟩
    refine (triple_relocate copies (fun _ _ => trivial) plan).weaken ?_ ?_
      (fun _ _ _ none => absurd none static_)
    · intro machine viewed
      exact ⟨view, viewed, rfl⟩
    · rintro _ machine ⟨after, viewed, same⟩
      exact ⟨after, viewed, same, fun none => absurd none static_⟩

/-- Nothing but memory can be missing. -/
structure Buildable (file : List UInt8) (plan : Plan) (argv envp : List (List UInt8))
    (path : List UInt8) :
    Prop where
  checked : ∀ segment, segment ∈ plan.segments →
    ∃ range, segmentChecked segment file.length plan.bias = some range
  static_ : plan.dynamic = none
  header : programHeaderAddress plan ≠ none
  strings : StackFits argv envp path

theorem viewed_buildImage (live : Live start root) (file : List UInt8) (plan : Plan)
    (nxEnabled : Bool) (argv envp : List (List UInt8)) (path : List UInt8) :
    Triple (Viewed start root View.blank) (buildImage root file plan nxEnabled argv envp path)
      (fun image machine => ∃ view, Viewed start root view machine ∧
        ImageView file plan nxEnabled argv envp path image view ∧
        stackStrings argv envp path ≤ maxStackStrings)
      (Unless (Starved start) (Buildable file plan argv envp path)) := by
  unfold buildImage
  refine .bind _ ((viewed_mapSegments live file plan.bias nxEnabled plan.segments View.blank).weaken
      (fun _ now => now) (fun _ _ now => now) (.imp (fun fine => fine.checked)))
    (fun _ => .bind _ ((viewed_relocate live plan _).weaken
      (fun _ now => now) (fun _ _ now => now) (.of_never (fun fine => fine.static_))) (fun _ => ?_))
  apply Triple.of_state
  rintro machine ⟨base, viewed, access, static_⟩
  cases header : programHeaderAddress plan with
  | none => exact .stop _ (fun _ _ fine => absurd header fine.header)
  | some phdr =>
    refine (viewed_mapUserStack live nxEnabled argv envp path phdr _ _ _ viewed).weaken
      (fun _ same => same) ?_ (fun _ _ stopped fine =>
        (viewed_mapStackPages live nxEnabled base).error viewed (stopped fine.strings) trivial)
    rintro image final ⟨view, viewedFinal, layout, bounded⟩
    exact ⟨view, viewedFinal, ⟨base, phdr, access, static_, header, layout⟩, bounded⟩

/-- The pages of an image do not depend on the strings.  Where one list of strings was placed,
any other one is placed if it fits. -/
theorem buildImage_strings_iff {root : Nat} {file path : List UInt8} {plan : Plan}
    {nxEnabled : Bool} {argv envp others otherEnvp : List (List UInt8)} {fresh built : Machine}
    {image : ExecImage} (live : Live fresh root) (blank : Shows fresh.mem root View.blank)
    (ran : (buildImage root file plan nxEnabled others otherEnvp path).run fresh =
      (.ok image, built))
    (few : argv.length ≤ 128) (fewEnvp : envp.length ≤ 128) :
    (∃ image built, (buildImage root file plan nxEnabled argv envp path).run fresh =
      (.ok image, built)) ↔ stackStrings argv envp path ≤ maxStackStrings := by
  unfold buildImage at ran ⊢
  obtain ⟨_, mapped, segments, ran⟩ := run_bind_eq_ok ran
  obtain ⟨_, moved, relocated, ran⟩ := run_bind_eq_ok ran
  obtain ⟨base, viewed, _⟩ := (viewed_relocate live plan _).ok
    ((viewed_mapSegments live file plan.bias nxEnabled plan.segments _).ok ⟨.refl, blank⟩ segments)
    relocated
  rw [run_bind_ok segments, run_bind_ok relocated]
  cases header : programHeaderAddress plan with
  | none =>
    rw [header] at ran
    cases ran
  | some phdr =>
    rw [header] at ran
    obtain ⟨_, _, pages, _⟩ := run_bind_eq_ok ran
    have stack := viewed_mapUserStack live nxEnabled argv envp path phdr plan.header.phentsize
      plan.header.phnum plan.entry viewed
    constructor
    · rintro ⟨image, built, placed⟩
      obtain ⟨_, _, _, bounded⟩ := stack.ok rfl placed
      exact bounded
    · intro bounded
      rcases placed : (mapUserStack root nxEnabled argv envp path phdr plan.header.phentsize
        plan.header.phnum plan.entry).run moved with ⟨_ | image, final⟩
      · have stopped := stack.error rfl placed ⟨bounded, few, fewEnvp⟩
        cases pages.symm.trans stopped
      · exact ⟨image, final, rfl⟩

/-! ### Access of the image -/

/-- No page below the user limit is both writable and executable. -/
def WriteXorExecute (mem : Memory) (root : Nat) : Prop :=
  ∀ address, address < userTop → ∀ leaf, leafAt mem root address = some leaf →
    ¬(flagged leaf pteWritable = true ∧ flagged leaf pteNx = false)

theorem Shows.writeXorExecute_iff {mem : Memory} (shows_ : Shows mem root view) :
    WriteXorExecute mem root ↔
      ∀ address < userTop, ¬(view.Writable address ∧ view.Executable address) := by
  constructor
  · rintro separate address user ⟨⟨access, at_, writable⟩, ⟨access', at_', executable⟩⟩
    rw [at_] at at_'
    cases at_'
    rw [← shows_.access address user] at at_
    obtain ⟨leaf, found, rfl⟩ := Option.map_eq_some_iff.mp at_
    exact separate address user leaf found ⟨writable, executable⟩
  · rintro separate address user leaf found ⟨writable, executable⟩
    have at_ : view.access address = some (accessOf leaf) := by
      rw [← shows_.access address user, accessAt, found]
      rfl
    exact separate address user ⟨⟨_, at_, writable⟩, ⟨_, at_, executable⟩⟩

theorem stackBottom_lt : stackBottom < userTop := by decide

theorem Accepted.meets_below {file : List UInt8} {plan : Plan} (accepted : Accepted file plan)
    {segment : ProgramHeader} (member : segment ∈ plan.segments)
    (meets : Meets plan.bias segment address) : address < stackBottom := by
  obtain ⟨range, checked⟩ := accepted.checked segment member
  obtain ⟨start, last⟩ := range
  obtain ⟨startEq, lastEq, _, bounds⟩ := segmentRange_bounds (segmentChecked_range checked).2.2.1
  obtain ⟨nonempty, _, high⟩ := meets
  have bounded := (bounds nonempty).2
  unfold stackBottom userStackTop userStackPages pageSize at bounded ⊢
  omega

theorem View.grants_congr (same : left.access = right.access) (given : Right) (address : Nat) :
    left.Grants given address ↔ right.Grants given address := by
  unfold View.Grants
  rw [same]

section ImageView

variable {file : List UInt8} {plan : Plan} {argv envp : List (List UInt8)} {path : List UInt8}
  {image : ExecImage} {view : View} {nxEnabled : Bool}

theorem ImageView.grants (imageView : ImageView file plan nxEnabled argv envp path image view)
    (right : Right) (address : Nat) : view.Grants right address ↔
      (∃ segment ∈ plan.segments, Meets plan.bias segment address ∧
        right.given (segmentFlags segment nxEnabled)) ∨
        ((stackBottom ≤ address ∧ address < userStackTop) ∧
          right.given (stackFlags nxEnabled)) := by
  obtain ⟨base, phdr, access, _, _, layout⟩ := imageView.built
  have nothing : ¬View.blank.Grants right address := by
    rintro ⟨_, impossible, _⟩
    cases impossible
  rw [View.grants_congr layout.access, View.grants_mapPages, View.grants_congr access,
    View.grants_mapSegments, stackPages_iff]
  simp only [nothing, false_or]

theorem ImageView.mapped (imageView : ImageView file plan nxEnabled argv envp path image view)
    (address : Nat) : view.Mapped address ↔
      (∃ segment ∈ plan.segments, Meets plan.bias segment address) ∨
        (stackBottom ≤ address ∧ address < userStackTop) := by
  simp only [View.mapped_iff, imageView.grants, Right.mapped, and_true]

theorem ImageView.writable (imageView : ImageView file plan nxEnabled argv envp path image view)
    (address : Nat) : view.Writable address ↔
      (∃ segment ∈ plan.segments, Meets plan.bias segment address ∧
        flagged segment.flags pfW = true) ∨ (stackBottom ≤ address ∧ address < userStackTop) := by
  have stackWritable : flagged (stackFlags nxEnabled) pteWritable = true := by
    cases nxEnabled <;> decide
  refine (imageView.grants .writable address).trans ?_
  simp only [Right.writable, flagged_segmentFlags, stackWritable, and_true]

theorem ImageView.executable (imageView : ImageView file plan true argv envp path image view)
    (address : Nat) : view.Executable address ↔
      ∃ segment ∈ plan.segments, Meets plan.bias segment address ∧
        flagged segment.flags pfX = true := by
  have stackNx : flagged (stackFlags true) pteNx = true := by decide
  refine (imageView.grants .executable address).trans ?_
  simp only [Right.executable, flagged_segmentFlags, stackNx, Bool.true_and, Bool.not_eq_false',
    Bool.true_eq_false, and_false, or_false]

end ImageView

end Synx.Exec
