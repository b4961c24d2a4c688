/-
The image that a successful load leaves.
-/

import Synx.Dynlink.Bounds
import Synx.Lib.Patches

namespace Synx.Dynlink

open Lib Program Memory List
open Exec (ProgramHeader uint64Max sizeofDynamicEntry sizeofRela ptLoad dtNull rX8664Relative)

variable {κ : Type}

/-! ### The value of a relocation -/

def Rela.type (relocation : Rela) : Nat := relocation.info % 2 ^ 32

def Rela.symbolIndex (relocation : Rela) : Nat := relocation.info / 2 ^ 32

def Rela.Symbolic (relocation : Rela) : Prop :=
  relocation.type = rX8664Word ∨ relocation.type = rX8664GlobDat ∨ relocation.type = rX8664JumpSlot

/-- The value of a symbol, and the context after the resolver has been asked for it. -/
inductive SymbolValue (options : Options κ) (symbol : Symbol) (name : List UInt8) (image : Memory)
    (context : κ) :
    Nat → κ → Prop
  | absolute (isAbsolute : symbol.sectionIndex = shnAbs) :
      SymbolValue options symbol name image context symbol.value context
  | defined (isDefined : symbol.sectionIndex ≠ shnUndef) (relative : symbol.sectionIndex ≠ shnAbs) :
      SymbolValue options symbol name image context ((options.loadBias + symbol.value) % 2 ^ 64)
        context
  | resolved {ask : Memory → List UInt8 → Nat → κ → Bool × Nat × κ} {address : Nat} {context' : κ}
      (isUndefined : symbol.sectionIndex = shnUndef) (resolver : options.resolveSymbol = some ask)
      (answer : ask image name 0 context = (true, address, context')) :
      SymbolValue options symbol name image context address context'
  | weak {ask : Memory → List UInt8 → Nat → κ → Bool × Nat × κ} {left : Nat} {context' : κ}
      (isUndefined : symbol.sectionIndex = shnUndef) (isWeak : symbol.info / 16 = stbWeak)
      (resolver : options.resolveSymbol = some ask)
      (answer : ask image name 0 context = (false, left, context')) :
      SymbolValue options symbol name image context 0 context'
  | alone (isUndefined : symbol.sectionIndex = shnUndef) (isWeak : symbol.info / 16 = stbWeak)
      (resolver : options.resolveSymbol = none) :
        SymbolValue options symbol name image context 0 context

/-- The symbol of a relocation in the tables of `source`. -/
structure Names (window : Window) (tables : Tables) (source : Memory) (index : Nat)
    (symbol : Symbol) (name : List UInt8) : Prop where
  recordAbove : window.base ≤ tables.symtab + sizeofSymbol * index
  stringsAbove : window.base ≤ tables.strtab
  record : symbol = readSymbol source (tables.symtab + sizeofSymbol * index - window.base)
  named : boundedString (readBytes source (tables.strtab - window.base) tables.strsz) symbol.name =
    some name

/-- The word that a relocation sets. -/
inductive RelocationValue (options : Options κ) (window : Window) (tables : Tables)
    (source image : Memory) (context : κ) (relocation : Rela) : Nat → κ → Prop
  | relative (isRelative : relocation.type = rX8664Relative) :
      RelocationValue options window tables source image context relocation
        ((options.loadBias + relocation.addend) % 2 ^ 64) context
  | word {symbol : Symbol} {name : List UInt8} {address : Nat} {context' : κ}
      (isWord : relocation.type = rX8664Word)
      (names : Names window tables source relocation.symbolIndex symbol name)
      (value : SymbolValue options symbol name image context address context') :
      RelocationValue options window tables source image context relocation
        ((address + relocation.addend) % 2 ^ 64) context'
  | slot {symbol : Symbol} {name : List UInt8} {address : Nat} {context' : κ}
      (isSlot : relocation.type = rX8664GlobDat ∨ relocation.type = rX8664JumpSlot)
      (names : Names window tables source relocation.symbolIndex symbol name)
      (value : SymbolValue options symbol name image context address context') :
      RelocationValue options window tables source image context relocation address context'

/-- A resolver that does not find a symbol leaves the address alone. -/
def Honest (options : Options κ) : Prop :=
  ∀ ask, options.resolveSymbol = some ask → ∀ image name address context left context',
    ask image name address context = (false, left, context') → left = address

variable {options : Options κ} {window : Window} {tables : Tables} {offset place size : Nat}
  {state : State κ} {left right start : Memory} {dynamic : DynamicInfo}

theorem symbolValue_triple (honest : Honest options) (symbol : Symbol) (name : List UInt8)
    (state : State κ) : Triple (· = state) (symbolValue options symbol name)
      (fun address after => SymbolValue options symbol name state.image state.context address
        after.context ∧
        after.image = state.image) (fun _ _ => True) := by
  unfold symbolValue
  refine .ite _ (fun isDefined => ?_) (fun undefined => ?_)
  · apply Triple.pure
    rintro _ rfl
    refine ⟨?_, rfl⟩
    split
    · rename_i isAbsolute
      exact SymbolValue.absolute isAbsolute
    · rename_i relative
      exact SymbolValue.defined isDefined relative
  · have isUndefined : symbol.sectionIndex = shnUndef := by omega
    refine .bind (fun answer after => after.image = state.image ∧
      ((options.resolveSymbol = none ∧ answer = (false, 0) ∧ after.context = state.context) ∨
        ∃ ask, options.resolveSymbol = some ask ∧
          ask state.image name 0 state.context = (answer.1, answer.2, after.context))) ?_ ?_
    · rintro _ rfl
      unfold resolve
      cases options.resolveSymbol with
      | none => exact ⟨rfl, .inl ⟨rfl, rfl, rfl⟩⟩
      | some ask => exact ⟨rfl, .inr ⟨ask, rfl, rfl⟩⟩
    · rintro ⟨found, address⟩
      refine .ite _ (fun _ => .stop _ (fun _ _ => trivial)) (fun fine => .pure _ ?_)
      rintro after ⟨sameImage, answer⟩
      refine ⟨?_, sameImage⟩
      cases found with
      | false =>
        have isWeak : symbol.info / 16 = stbWeak := by simpa using fine
        rcases answer with ⟨resolver, isAnswer, sameContext⟩ | ⟨ask, resolver, answered⟩
        · cases isAnswer
          rw [sameContext]
          exact SymbolValue.alone isUndefined isWeak resolver
        · have left : address = 0 := honest ask resolver _ _ _ _ _ _ answered
          subst left
          exact SymbolValue.weak isUndefined isWeak resolver answered
      | true =>
        rcases answer with ⟨_, isAnswer, _⟩ | ⟨ask, resolver, answered⟩
        · cases isAnswer
        · exact SymbolValue.resolved isUndefined resolver answered

theorem look_triple {α : Type} (window : Window) (offset size : Nat) (read : Memory → Nat → α)
    (state : State κ) :
    Triple (· = state) (look window offset size read)
      (fun value after => value = read state.image offset ∧ after = state) (fun _ _ => True) := by
  unfold look
  refine .ite _ (fun _ => ?_) (fun _ => .stop _ (fun _ _ => trivial))
  apply Triple.gets
  rintro _ rfl
  exact ⟨rfl, rfl⟩

theorem symbolAddress_triple (honest : Honest options) {index : Nat}
    (small : tables.symtab + sizeofSymbol * index < 2 ^ 64) (state : State κ) :
    Triple (· = state) (symbolAddress window tables options index)
      (fun address after => ∃ symbol name, Names window tables state.image index symbol name ∧
        SymbolValue options symbol name state.image state.context address after.context ∧
        after.image = state.image) (fun _ _ => True) := by
  unfold symbolAddress
  refine .bind (fun _ now => now = state.looked ⟨tables.symtab, index⟩)
    (.modify _ (fun _ same => by rw [same]; rfl)) (fun _ => ?_)
  have delta : index * sizeofSymbol % 2 ^ 64 = sizeofSymbol * index := by
    rw [mul_comm, Nat.mod_eq_of_lt (by omega)]
  rw [delta]
  dsimp only
  rw [Nat.mod_eq_of_lt small]
  refine .ite _ (fun _ => .stop _ (fun _ _ => trivial)) (fun _ => ?_)
  split
  · rename_i symbolOffset stringsOffset symbolFound stringsFound
    obtain ⟨recordAbove, rfl, _⟩ := imageRange_eq_some symbolFound
    obtain ⟨stringsAbove, rfl, _⟩ := imageRange_eq_some stringsFound
    refine .bind _ (look_triple _ _ _ _ _) (fun symbol => .of_state ?_)
    rintro _ ⟨isSymbol, rfl⟩
    refine .bind _ (look_triple _ _ _ _ _) (fun strings => .of_state ?_)
    rintro _ ⟨rfl, rfl⟩
    cases named : boundedString (readBytes state.image (tables.strtab - window.base) tables.strsz)
      symbol.name with
    | none =>
      simp only [State.looked, named]
      exact .stop _ (fun _ _ => trivial)
    | some name =>
      simp only [State.looked, named]
      exact (symbolValue_triple honest symbol name _).weaken (fun _ same => same)
        (fun address after value =>
          ⟨symbol, name, ⟨recordAbove, stringsAbove, isSymbol, named⟩, value⟩) (fun _ _ now => now)
  · exact .stop _ (fun _ _ => trivial)

variable {relocation : Rela} {width : Nat} {file : List UInt8}

theorem relocationValue_triple (honest : Honest options)
    (small : relocation.Symbolic → tables.symtab + sizeofSymbol * relocation.symbolIndex < 2 ^ 64)
    (state : State κ) : Triple (· = state) (relocationValue window tables options relocation)
      (fun word after =>
        RelocationValue options window tables state.image state.image state.context relocation word
          after.context ∧
          after.image = state.image) (fun _ _ => True) := by
  unfold relocationValue
  refine .ite _ (fun isRelative => ?_) (fun _ => .ite _ (fun symbolic => ?_) (fun _ => ?_))
  · refine .ite _ (fun _ => .stop _ (fun _ _ => trivial)) (fun _ => .pure _ ?_)
    rintro _ rfl
    exact ⟨RelocationValue.relative isRelative, rfl⟩
  · refine .bind _ (symbolAddress_triple honest (small symbolic) state) (fun address => .pure _ ?_)
    rintro after ⟨symbol, name, names, value, sameImage⟩
    refine ⟨?_, sameImage⟩
    split
    · rename_i isWord
      exact RelocationValue.word isWord names value
    · rename_i other
      exact RelocationValue.slot (symbolic.resolve_left other) names value
  · exact .stop _ (fun _ _ => trivial)

theorem applyRelocation_triple (honest : Honest options)
    (isRela : readRela state.image offset = relocation)
    (small : relocation.Symbolic → tables.symtab + sizeofSymbol * relocation.symbolIndex < 2 ^ 64) :
    Triple (· = state) (applyRelocation window tables options offset)
      (fun _ after => ∃ word, window.base ≤ relocation.offset ∧
        RelocationValue options window tables state.image state.image state.context relocation word
          after.context ∧
        after.image = writeBytes state.image (relocation.offset - window.base) (numberBytes word 8))
      (fun _ _ => True) := by
  unfold applyRelocation
  refine .bind _ (look_triple _ _ _ _ _) (fun found => .of_state ?_)
  rintro _ ⟨rfl, rfl⟩
  rw [isRela]
  cases range : imageRange window relocation.offset 8 with
  | none => exact .stop _ (fun _ _ => trivial)
  | some target =>
    obtain ⟨above, rfl, _⟩ := imageRange_eq_some range
    refine .bind _ (relocationValue_triple honest small _) (fun word => ?_)
    unfold store
    refine .ite _ (fun _ => .modify _ ?_) (fun _ => .stop _ (fun _ _ => trivial))
    rintro now ⟨value, sameImage⟩
    exact ⟨word, above, value, by rw [sameImage]⟩

/-! ### One pass over the relocations -/

/-- The relocation sets the byte at a place of the image. -/
def Rela.Sets (window : Window) (relocation : Rela) (place : Nat) : Prop :=
  relocation.offset ≤ window.base + place ∧ window.base + place < relocation.offset + 8

/-- The relocations are made one after another from `image`.  The tables are those of `start`. -/
inductive Relocates (options : Options κ) (window : Window) (tables : Tables) (start : Memory) :
    Memory → κ → List Rela → List Nat → Memory → κ → Prop
  | nil {image : Memory} {context : κ} : Relocates options window tables start image context []
      [] image context
  | cons {image image' : Memory} {context context' context'' : κ} {relocation : Rela}
      {rest : List Rela} {word : Nat} {words : List Nat} (above : window.base ≤ relocation.offset)
      (value : RelocationValue options window tables start image context relocation word context')
      (later : Relocates options window tables start
        (writeBytes image (relocation.offset - window.base) (numberBytes word 8)) context'
          rest words
        image' context'') :
      Relocates options window tables start image context (relocation :: rest) (word :: words)
        image' context''

section

variable {options : Options κ} {window : Window} {tables : Tables} {start : Memory}

variable {image image' : Memory} {context context' : κ} {relas : List Rela}

theorem Relocates.append {image'' : Memory} {context'' : κ} {first second : List Rela}
    {words words' : List Nat}
    (one : Relocates options window tables start image context first words image' context')
    (two : Relocates options window tables start image' context' second words' image'' context'') :
    Relocates options window tables start image context (first ++ second) (words ++ words') image''
      context'' := by
  induction one with
  | nil => exact two
  | cons above value _ ih => exact .cons above value (ih two)

theorem writeBytes_off {relocation : Rela} {place : Nat} (off : ¬relocation.Sets window place)
    (above : window.base ≤ relocation.offset) (image : Memory) (word : Nat) :
    writeBytes image (relocation.offset - window.base) (numberBytes word 8) place =
      image place := by
  apply writeBytes_outside
  rw [numberBytes_length]
  unfold Rela.Sets at off
  omega

theorem Relocates.outside {words : List Nat}
    (relocates : Relocates options window tables start image context relas words image' context')
    {place : Nat} (off : ∀ relocation ∈ relas, ¬relocation.Sets window place) :
    image' place = image place := by
  induction relocates with
  | nil => rfl
  | cons above _ _ ih =>
    rw [ih (fun other member => off other (.tail _ member)),
      writeBytes_off (off _ (.head _)) above]

def Off (one size two size' : Nat) : Prop :=
  ∀ address, one ≤ address → address < one + size → ¬(two ≤ address ∧ address < two + size')

theorem Relocates.words {words : List Nat}
    (relocates : Relocates options window tables start image context relas words image' context')
    (apart : relas.Pairwise (fun one two => Off one.offset 8 two.offset 8)) :
    Forall₂ (fun relocation word =>
      readNumber image' (relocation.offset - window.base) 8 = word % 2 ^ 64) relas words := by
  induction relocates with
  | nil => exact List.Forall₂.nil
  | @cons image image' _ _ _ relocation rest word words above value later ih =>
    obtain ⟨first, others⟩ := pairwise_cons.mp apart
    refine List.Forall₂.cons ?_ (ih others)
    apply readNumber_of_bytes
    intro offset bound
    have inside : offset < (numberBytes word 8).length := by rwa [numberBytes_length]
    rw [later.outside ?_, writeBytes_inside _ _ _ _ inside, getD_eq_getElem _ _ inside]
    intro other member sets
    exact first other member (window.base + (relocation.offset - window.base + offset)) (by omega)
      (by omega) sets

end

/-! ### The tables under the relocations -/

def SameAt (left right : Memory) (place size : Nat) : Prop :=
  ∀ offset, offset < size → left (place + offset) = right (place + offset)

theorem SameAt.number (same : SameAt left right place size) (inside : offset + width ≤ size) :
    readNumber left (place + offset) width = readNumber right (place + offset) width := by
  apply readNumber_congr
  intro index bound
  rw [add_assoc]
  exact same (offset + index) (by omega)

theorem SameAt.first (same : SameAt left right place size) (inside : width ≤ size) :
    readNumber left place width = readNumber right place width :=
  readNumber_congr _ _ _ _ (fun offset bound => same offset (by omega))

theorem SameAt.rela (same : SameAt left right place sizeofRela) :
    readRela left place = readRela right place := by
  unfold sizeofRela at same
  unfold readRela
  rw [same.first (by decide), same.number (by decide), same.number (by decide)]

theorem SameAt.symbol (same : SameAt left right place sizeofSymbol) :
    readSymbol left place = readSymbol right place := by
  unfold sizeofSymbol at same
  unfold readSymbol
  rw [same.first (by decide), same.number (by decide), same.number (by decide),
    same.number (by decide)]

theorem SameAt.bytes (same : SameAt left right place size) :
    readBytes left place size = readBytes right place size :=
  map_congr_left (fun index member => same index (mem_range.mp member))

theorem RelocationValue.source {options : Options κ} {window : Window} {tables : Tables}
    {source source' image : Memory} {context context' : κ} {relocation : Rela} {word : Nat}
    (value : RelocationValue options window tables source image context relocation word context')
    (records : relocation.Symbolic →
      window.base ≤ tables.symtab + sizeofSymbol * relocation.symbolIndex →
      SameAt source source' (tables.symtab + sizeofSymbol * relocation.symbolIndex - window.base)
        sizeofSymbol)
    (strings : window.base ≤ tables.strtab →
      SameAt source source' (tables.strtab - window.base) tables.strsz) :
    RelocationValue options window tables source' image context relocation word context' := by
  cases value with
  | relative isRelative => exact RelocationValue.relative isRelative
  | word isWord names value =>
    obtain ⟨recordAbove, stringsAbove, record, named⟩ := names
    rw [(records (.inl isWord) recordAbove).symbol] at record
    rw [(strings stringsAbove).bytes] at named
    exact RelocationValue.word isWord ⟨recordAbove, stringsAbove, record, named⟩ value
  | slot isSlot names value =>
    obtain ⟨recordAbove, stringsAbove, record, named⟩ := names
    rw [(records (.inr isSlot) recordAbove).symbol] at record
    rw [(strings stringsAbove).bytes] at named
    exact RelocationValue.slot isSlot ⟨recordAbove, stringsAbove, record, named⟩ value

def tablesOf (dynamic : DynamicInfo) : Tables :=
  ⟨dynamic.symtab.getD 0, dynamic.strtab.getD 0, dynamic.strsz.getD 0⟩

/-- No target overlaps another one or a table, and the records that are used have addresses
of 64 bits. -/
structure Separate (dynamic : DynamicInfo) (relas : List Rela) : Prop where
  targets : relas.Pairwise (fun one two => Off one.offset 8 two.offset 8)
  rela : ∀ one, one ∈ relas → Off one.offset 8 (dynamic.rela.getD 0) (dynamic.relasz.getD 0)
  jmprel : ∀ one, one ∈ relas → Off one.offset 8 (dynamic.jmprel.getD 0) (dynamic.pltrelsz.getD 0)
  strings : ∀ one, one ∈ relas → Off one.offset 8 (tablesOf dynamic).strtab (tablesOf dynamic).strsz
  symbols : ∀ one, one ∈ relas → ∀ other, other ∈ relas → other.Symbolic →
    Off one.offset 8 ((tablesOf dynamic).symtab + sizeofSymbol * other.symbolIndex) sizeofSymbol
  small : ∀ one, one ∈ relas → one.Symbolic →
    (tablesOf dynamic).symtab + sizeofSymbol * one.symbolIndex < 2 ^ 64

/-- The image differs from `start` at targets only. -/
def Spares (window : Window) (relas : List Rela) (start image : Memory) : Prop :=
  ∀ place, (∀ one, one ∈ relas → ¬one.Sets window place) → image place = start place

theorem Spares.same {relas : List Rela} {image : Memory} (spares : Spares window relas start image)
    {address : Nat} (above : window.base ≤ address)
    (off : ∀ one ∈ relas, Off one.offset 8 address size) :
    SameAt image start (address - window.base) size := by
  intro offset bound
  refine spares _ (fun one member sets => ?_)
  exact off one member (window.base + (address - window.base + offset)) sets.1 sets.2 (by omega)

section

variable {options : Options κ} {window : Window} {dynamic : DynamicInfo} {relas : List Rela}
    {start : Memory}
  (honest : Honest options) (separate : Separate dynamic relas)

include honest separate

theorem each_relocates {ι : Type} (place : ι → Nat) (items : List ι)
    (listed : ∀ item ∈ items, readRela start (place item) ∈ relas ∧
      ∀ image, Spares window relas start image → SameAt image start (place item) sizeofRela)
    {state : State κ} (spares : Spares window relas start state.image) :
    Triple (· = state)
      (each (fun item => applyRelocation window (tablesOf dynamic) options (place item)) items)
      (fun _ after => Spares window relas start after.image ∧
        ∃ words, Relocates options window (tablesOf dynamic) start state.image state.context
          (items.map (fun item => readRela start (place item))) words after.image after.context)
      (fun _ _ => True) := by
  induction items generalizing state with
  | nil =>
    apply Triple.pure
    rintro _ rfl
    exact ⟨spares, [], .nil⟩
  | cons item rest ih =>
    obtain ⟨member, unread⟩ := listed item (.head _)
    have isRela := (unread _ spares).rela
    refine .bind _ (applyRelocation_triple honest isRela (separate.small _ member))
      (fun _ => .of_state ?_)
    rintro middle ⟨word, above, value, written⟩
    have value' :=
      @RelocationValue.source κ options window (tablesOf dynamic) _ start _ _ _ _ _ value
      (fun symbolic recordAbove => spares.same recordAbove
        (fun one oneMember => separate.symbols one oneMember _ member symbolic))
      (fun stringsAbove =>
        spares.same stringsAbove (fun one oneMember => separate.strings one oneMember))
    have sparesMiddle : Spares window relas start middle.image := by
      intro other off
      rw [written, writeBytes_off (off _ member) above]
      exact spares other off
    refine (ih (fun next inRest => listed next (.tail _ inRest)) sparesMiddle).weaken
      (fun _ same => same) ?_ (fun _ _ now => now)
    rintro _ after ⟨sparesAfter, words, later⟩
    refine ⟨sparesAfter, word :: words, .cons above value' ?_⟩
    rw [← written]
    exact later

def relasAt (window : Window) (image : Memory) (address size : Nat) : List Rela :=
  (range (size / sizeofRela)).map (fun index =>
    readRela image (address - window.base + index * sizeofRela))

theorem applyRelocations_triple {address size : Nat}
    (part : ∀ one ∈ relasAt window start address size, one ∈ relas)
    (off : ∀ one ∈ relas, Off one.offset 8 address size) {state : State κ}
    (spares : Spares window relas start state.image) :
    Triple (· = state) (applyRelocations window dynamic options address size)
      (fun _ after => Spares window relas start after.image ∧
        ∃ words, Relocates options window (tablesOf dynamic) start state.image state.context
          (relasAt window start address size) words after.image after.context)
            (fun _ _ => True) := by
  unfold applyRelocations
  refine .ite _ (fun zero => .pure _ ?_) (fun _ => ?_)
  · rintro _ rfl
    subst zero
    exact ⟨spares, [], .nil⟩
  · split
    · rename_i symtab strtab strsz isSymtab isStrtab isStrsz
      have isTables : (⟨symtab, strtab, strsz⟩ : Tables) = tablesOf dynamic := by
        simp [tablesOf, isSymtab, isStrtab, isStrsz]
      refine .ite _ (fun _ => .stop _ (fun _ _ => trivial)) (fun _ => ?_)
      cases found : imageRange window address size with
      | none => exact .stop _ (fun _ _ => trivial)
      | some offset =>
        obtain ⟨above, rfl, _⟩ := imageRange_eq_some found
        rw [isTables]
        refine each_relocates honest separate
          (fun index => address - window.base + index * sizeofRela) _
          (fun index few => ⟨part _ (mem_map_of_mem few), ?_⟩) spares
        intro image sparesImage offset bound
        have within := mem_range.mp few
        have whole : index * sizeofRela + sizeofRela ≤ size := by
          unfold sizeofRela at within ⊢
          omega
        rw [add_assoc]
        exact sparesImage.same above off (index * sizeofRela + offset) (by omega)
    · exact .stop _ (fun _ _ => trivial)

def relocationsOf (window : Window) (dynamic : DynamicInfo) (image : Memory) : List Rela :=
  relasAt window image (dynamic.rela.getD 0) (dynamic.relasz.getD 0) ++
    relasAt window image (dynamic.jmprel.getD 0) (dynamic.pltrelsz.getD 0)

end

section

variable (honest : Honest options)
    (separate : Separate dynamic (relocationsOf window dynamic start))
  (spares : Spares window (relocationsOf window dynamic start) start state.image)

include honest separate spares

theorem relocateRela_triple : Triple (· = state) (relocateRela window dynamic options)
      (fun _ after => Spares window (relocationsOf window dynamic start) start after.image ∧
        ∃ words, Relocates options window (tablesOf dynamic) start state.image state.context
          (relasAt window start (dynamic.rela.getD 0) (dynamic.relasz.getD 0)) words after.image
            after.context)
      (fun _ _ => True) := by
  have passes := applyRelocations_triple honest separate
    (fun one member => mem_append_left _ member) separate.rela spares
  unfold relocateRela
  cases isSize : dynamic.relasz with
  | none =>
    apply Triple.pure
    rintro _ rfl
    exact ⟨spares, [], .nil⟩
  | some size =>
    rw [isSize] at passes
    exact .ite _ (fun _ => .stop _ (fun _ _ => trivial)) (fun _ => passes)

theorem relocateJmprel_triple : Triple (· = state) (relocateJmprel window dynamic options)
      (fun _ after => ∃ words,
        Relocates options window (tablesOf dynamic) start state.image state.context
        (relasAt window start (dynamic.jmprel.getD 0) (dynamic.pltrelsz.getD 0)) words after.image
          after.context)
      (fun _ _ => True) := by
  have passes := applyRelocations_triple honest separate
    (fun one member => mem_append_right _ member) separate.jmprel spares
  unfold relocateJmprel
  cases isSize : dynamic.pltrelsz with
  | none =>
    apply Triple.pure
    rintro _ rfl
    exact ⟨[], .nil⟩
  | some size =>
    rw [isSize] at passes
    refine .ite _ (fun zero => .pure _ ?_)
      (fun _ => .ite _ (fun _ => .stop _ (fun _ _ => trivial)) (fun _ => ?_))
    · rintro _ rfl
      rw [zero]
      exact ⟨[], .nil⟩
    · exact passes.weaken (fun _ same => same) (fun _ _ holds => holds.2) (fun _ _ now => now)

end

theorem calm_image (image : Memory) :
    Calm (fun state : State κ => state.image = image) (fun _ _ => True) :=
  ⟨fun _ _ _ _ => trivial, fun _ _ now => now⟩

theorem linkImage_triple {layout : Layout} {dynamicOffset : Nat} (honest : Honest options)
    (inside : dynamicOffset + layout.dynamicSize ≤ layout.window.span) (state : State κ) :
    Triple (· = state) (linkImage layout options dynamicOffset dynamic)
      (fun result after => result =
        ((options.loadBias + layout.entry) % 2 ^ 64, layout.window.span) ∧
        (Separate dynamic (relocationsOf layout.window dynamic state.image) →
          ∃ context words,
            Relocates options layout.window (tablesOf dynamic) state.image state.image context
            (relocationsOf layout.window dynamic state.image) words after.image after.context))
      (fun _ _ => True) := by
  have rounds := Nat.div_mul_le_self layout.dynamicSize sizeofDynamicEntry
  unfold linkImage
  rcases stringTable_cases layout.window dynamic with refused | ⟨strings, found, table⟩
  · rw [refused]
    exact .bind_never (.stop _ (fun _ _ => trivial))
  rw [found]
  refine .bind (fun value now => value = strings ∧ now = state) (fun _ same => ⟨rfl, same⟩)
    (fun value => .of_state ?_)
  rintro now ⟨rfl, rfl⟩
  refine .bind (fun _ middle => middle.image = now.image)
    (((calm_image now.image).triple_loadDependencies options table (by omega)).weaken
      (fun _ same => by rw [same]) (fun _ _ holds => holds) (fun _ _ holds => holds))
    (fun _ => .of_state (fun middle sameImage => ?_))
  refine .ite _ (fun _ => .stop _ (fun _ _ => trivial)) (fun _ => ?_)
  have spares : Spares layout.window (relocationsOf layout.window dynamic now.image) now.image
    middle.image :=
    fun place _ => by rw [sameImage]
  refine .bind _ (.given (fun separate => relocateRela_triple honest separate spares))
    (fun _ => .of_state (fun between first => ?_))
  refine .bind _ (.given (fun separate => relocateJmprel_triple honest separate (first separate).1))
    (fun _ => ?_)
  cases imageRange layout.window layout.entry 1 with
  | none => exact .stop _ (fun _ _ => trivial)
  | some _ =>
    refine .pure _ (fun after second => ⟨rfl, fun separate => ?_⟩)
    obtain ⟨_, words, one⟩ := first separate
    obtain ⟨words', two⟩ := second separate
    rw [sameImage] at one
    exact ⟨middle.context, words ++ words', one.append two⟩

/-! ### The image of the segments -/

def segmentPatch (file : List UInt8) (window : Window) (program : ProgramHeader) :
    Option (Patch UInt8) :=
  if program.type ≠ ptLoad ∨ program.memsz = 0 then none
  else some ⟨program.vaddr - window.base, (file.drop program.offset).take program.filesz⟩

theorem copySegments_triple (programs : List ProgramHeader) (state : State κ) :
    Triple (· = state) (each (copySegment file window) programs)
      (fun _ after => after =
          { state with image :=
            Patch.applyAll (programs.filterMap (segmentPatch file window)) state.image } ∧
        ∀ program ∈ programs, program.type = ptLoad → program.memsz ≠ 0 →
          window.base ≤ program.vaddr ∧ program.vaddr - window.base + program.memsz ≤ window.span)
      (fun _ _ => True) := by
  induction programs generalizing state with
  | nil =>
    apply Triple.pure
    rintro _ rfl
    exact ⟨rfl, nofun⟩
  | cons program rest ih =>
    refine .bind (fun _ middle => middle = { state with
        image := Patch.applyAll ([program].filterMap (segmentPatch file window)) state.image } ∧
      (program.type = ptLoad → program.memsz ≠ 0 →
        window.base ≤ program.vaddr ∧ program.vaddr - window.base + program.memsz ≤ window.span)) ?_
      (fun _ => .of_state ?_)
    · unfold copySegment
      refine .ite _ (fun skipped => .pure _ ?_) (fun loaded => ?_)
      · rintro _ rfl
        refine ⟨?_, fun load size => by omega⟩
        have nothing : segmentPatch file window program = none := if_pos skipped
        rw [filterMap_cons_none nothing]
        rfl
      · cases found : imageRange window program.vaddr program.memsz with
        | none => exact .stop _ (fun _ _ => trivial)
        | some destination =>
          obtain ⟨above, rfl, inside⟩ := imageRange_eq_some found
          refine .ite _ (fun _ => ?_) (fun _ => .stop _ (fun _ _ => trivial))
          unfold store
          refine .ite _ (fun _ => .modify _ ?_) (fun _ => .stop _ (fun _ _ => trivial))
          rintro _ rfl
          refine ⟨?_, fun _ _ => ⟨above, inside⟩⟩
          have patch : segmentPatch file window program = some _ := if_neg loaded
          rw [filterMap_cons_some patch]
          rfl
    · rintro _ ⟨rfl, above⟩
      refine (ih _).weaken (fun _ same => same) ?_ (fun _ _ holds => holds)
      rintro _ _ ⟨rfl, others⟩
      constructor
      · dsimp only
        rw [← Patch.applyAll_append, ← filterMap_append, singleton_append]
      · intro other member
        rcases mem_cons.mp member with rfl | inRest
        · exact above
        · exact others other inRest

def SegmentsApart (programs : List ProgramHeader) : Prop :=
  (programs.filter (fun program => program.type = ptLoad)).Pairwise
    (fun one two => Off one.vaddr one.memsz two.vaddr two.memsz)

/-- The bytes of the file at their addresses, and zeros between them. -/
structure SegmentImage (file : List UInt8) (before : Memory) (layout : Layout) (image : Memory) :
    Prop where
  file : ∀ program, program ∈ layout.programs → program.type = ptLoad → ∀ index,
    index < program.filesz →
    image (program.vaddr - layout.window.base + index) = file.getD (program.offset + index) 0
  zero : ∀ place, place < layout.window.span →
    (∀ program, program ∈ layout.programs → program.type = ptLoad →
      ¬(program.vaddr ≤ layout.window.base + place ∧ layout.window.base + place <
        program.vaddr + program.filesz)) →
    image place = 0
  beyond : ∀ place, layout.window.span ≤ place → image place = before place

theorem segmentPatch_eq_some {program : ProgramHeader} {patch : Patch UInt8}
    (isPatch : segmentPatch file window program = some patch) :
    program.type = ptLoad ∧ program.memsz ≠ 0 ∧
      patch = ⟨program.vaddr - window.base, (file.drop program.offset).take program.filesz⟩ := by
  unfold segmentPatch at isPatch
  split at isPatch
  · cases isPatch
  · rename_i loaded
    cases isPatch
    exact ⟨by omega, by omega, rfl⟩

section

variable {input : Input} {layout : Layout} (sound : layout.Sound input)
    (apart : SegmentsApart layout.programs)
  (placed : ∀ program, program ∈ layout.programs → program.type = ptLoad → program.memsz ≠ 0 →
    layout.window.base ≤ program.vaddr ∧ program.vaddr - layout.window.base + program.memsz ≤
      layout.window.span)

include sound

theorem segmentPatch_length {program : ProgramHeader} (member : program ∈ layout.programs)
    (load : program.type = ptLoad) :
    ((input.file.drop program.offset).take program.filesz).length = program.filesz := by
  have sized := sound.sized program member load
  rw [length_take, length_drop]
  omega

include apart placed

theorem segmentPatches_apart :
    (layout.programs.filterMap (segmentPatch input.file layout.window)).Pairwise Patch.Apart := by
  rw [pairwise_filterMap]
  refine (pairwise_filter.mp apart).imp_of_mem ?_
  intro one two oneMember twoMember off patch isPatch patch' isPatch'
  obtain ⟨load, size, rfl⟩ := segmentPatch_eq_some isPatch
  obtain ⟨load', size', rfl⟩ := segmentPatch_eq_some isPatch'
  have disjoint := off (by simpa using load) (by simpa using load')
  have fits := (sound.sized one oneMember load).1
  have fits' := (sound.sized two twoMember load').1
  have above := (placed one oneMember load size).1
  have above' := (placed two twoMember load' size').1
  unfold Patch.Apart
  dsimp only
  rw [segmentPatch_length sound oneMember load, segmentPatch_length sound twoMember load']
  by_contra overlap
  rcases Nat.le_total one.vaddr two.vaddr with low | high
  · exact disjoint two.vaddr low (by omega) ⟨le_rfl, by omega⟩
  · exact disjoint one.vaddr le_rfl (by omega) ⟨high, by omega⟩

theorem segmentImage_applyAll (before : Memory) : SegmentImage input.file before layout
      (Patch.applyAll (layout.programs.filterMap (segmentPatch input.file layout.window))
        (fill before 0 layout.window.span 0)) := by
  have outside : ∀ place, (∀ program ∈ layout.programs, program.type = ptLoad → program.memsz ≠ 0 →
      ¬(program.vaddr - layout.window.base ≤ place ∧
        place < program.vaddr - layout.window.base + program.filesz)) →
      Patch.applyAll (layout.programs.filterMap (segmentPatch input.file layout.window))
        (fill before 0 layout.window.span 0) place = fill before 0 layout.window.span 0 place := by
    intro place off
    apply Patch.applyAll_outside
    intro patch member covers
    obtain ⟨program, inPrograms, isPatch⟩ := mem_filterMap.mp member
    obtain ⟨load, size, rfl⟩ := segmentPatch_eq_some isPatch
    unfold Patch.Covers at covers
    dsimp only at covers
    rw [segmentPatch_length sound inPrograms load] at covers
    exact off program inPrograms load size covers
  constructor
  · intro program member load index bound
    have sized := sound.sized program member load
    have size : program.memsz ≠ 0 := by omega
    have isPatch : segmentPatch input.file layout.window program = some _ := if_neg (by omega)
    rw [Patch.applyAll_covered (segmentPatches_apart sound apart placed)
      (mem_filterMap.mpr ⟨program, member, isPatch⟩)
      (by unfold Patch.Covers; dsimp only; rw [segmentPatch_length sound member load]; omega),
        Patch.apply]
    dsimp only
    rw [if_pos (Nat.le_add_right _ _), Nat.add_sub_cancel_left,
      getD_eq_getElem _ _ (by rw [segmentPatch_length sound member load]; exact bound),
      getElem_take, getElem_drop, getD_eq_getElem]
  · intro place inside off
    rw [outside place ?_]
    · exact if_pos ⟨zero_le, by omega⟩
    · intro program member load size covers
      have above := (placed program member load size).1
      exact off program member load ⟨by omega, by omega⟩
  · intro place above
    rw [outside place ?_]
    · exact if_neg (by omega)
    · intro program member load size covers
      have inside := (placed program member load size).2
      have fits := (sound.sized program member load).1
      omega

end

/-- The window has all segments in it and begins and ends with one. -/
structure Spans (window : Window) (programs : List ProgramHeader) : Prop where
  inside : ∀ program, program ∈ programs → Loaded program →
    window.base ≤ program.vaddr ∧ program.vaddr + program.memsz ≤ window.base + window.span
  base : ∃ program, program ∈ programs ∧ Loaded program ∧ program.vaddr = window.base
  last : ∃ program, program ∈ programs ∧ Loaded program ∧
    program.vaddr + program.memsz = window.base + window.span

/-! ### The dynamic table -/

/-- The entries before `DT_NULL`, if it is one of the first `rounds`. -/
def tableOf (image : Memory) : Nat → Nat → Option (List DynamicEntry)
  | 0, _ => none
  | rounds + 1, offset =>
    if (readEntry image offset).tag = dtNull then some []
    else (tableOf image rounds (offset + sizeofDynamicEntry)).map (readEntry image offset :: ·)

theorem scanDynamic_run {rounds : Nat} (inside : offset + rounds * sizeofDynamicEntry ≤ window.span)
    (dynamic : DynamicInfo) (state : State κ) :
    (scanDynamic window rounds offset dynamic).run state =
      match tableOf state.image rounds offset with
      | none => (.error .invalidDynamicTable, state)
      | some entries => (.ok (entries.foldl DynamicInfo.note dynamic), state) := by
  induction rounds generalizing offset dynamic with
  | zero => rfl
  | succ rounds ih =>
    rw [Nat.succ_mul] at inside
    have read : (look window offset sizeofDynamicEntry readEntry : Action κ DynamicEntry).run
        state = (.ok (readEntry state.image offset), state) := by
      unfold look
      rw [if_pos (by omega)]
      rfl
    rw [scanDynamic, run_bind_ok read, run_ite, tableOf]
    split
    · rfl
    · rw [ih (by omega)]
      cases tableOf state.image rounds (offset + sizeofDynamicEntry) with
      | none => rfl
      | some entries => simp only [Option.map_some, foldl_cons]

/-! ### The load -/

/-- A load that succeeds leaves the image of the segments with the words of the relocations
in it. -/
theorem loadElf64_exact {input : Input} {options : Options κ} {before after : State κ}
    {result : Nat × Nat} (honest : Honest options)
    (apart : SegmentsApart (Exec.programHeaders input.file (Exec.readElfHeader input.file)))
    (ran : (loadElf64 input options).run before = (.ok result, after)) :
    ∃ layout start entries, readLayout input = .ok layout ∧
      result =
        ((options.loadBias + (Exec.readElfHeader input.file).entry) % 2 ^ 64, layout.window.span) ∧
      Spans layout.window layout.programs ∧ SegmentImage input.file before.image layout start ∧
      tableOf start (layout.dynamicSize / sizeofDynamicEntry)
        (layout.dynamicAddress - layout.window.base) =
        some entries ∧
      ∀ dynamic relas, dynamic = entries.foldl DynamicInfo.note .none →
        relas = relocationsOf layout.window dynamic start → Separate dynamic relas →
          ∃ context words, Relocates options layout.window (tablesOf dynamic) start start context
            relas words
              after.image after.context ∧
            Forall₂ (fun relocation word =>
              readNumber after.image (relocation.offset - layout.window.base) 8 =
                word % 2 ^ 64) relas words ∧
            ∀ place, (∀ relocation, relocation ∈ relas → ¬relocation.Sets layout.window place) →
              after.image place = start place := by
  rcases readLayout_cases input with ⟨error, refused, _⟩ | ⟨layout, laid, sound⟩
  · unfold loadElf64 at ran
    rw [refused] at ran
    cases ran
  unfold loadElf64 at ran
  rw [laid] at ran
  obtain ⟨_, _, zeroed, ran⟩ := run_bind_eq_ok ran
  cases zeroed
  obtain ⟨_, _, zeroed, ran⟩ := run_bind_eq_ok ran
  cases zeroed
  obtain ⟨_, _, copied, ran⟩ := run_bind_eq_ok ran
  obtain ⟨rfl, placed⟩ := (copySegments_triple _ _).ok rfl copied
  have image :=
    segmentImage_applyAll sound (by rw [sound.programs]; exact apart) placed before.image
  have inside : ∀ program, program ∈ layout.programs → Loaded program →
      layout.window.base ≤ program.vaddr ∧
        program.vaddr + program.memsz ≤ layout.window.base + layout.window.span := by
    intro program member loaded
    have place := placed program member loaded.1 loaded.2
    exact ⟨place.1, by omega⟩
  have spans : Spans layout.window layout.programs := by
    obtain ⟨last, member, loaded, isLast⟩ := sound.reached.last
    have small := sound.window
    have fits := (inside last member loaded).2
    exact ⟨inside, sound.reached.base, last, member, loaded, by omega⟩
  generalize Patch.applyAll _ _ = start at ran image
  unfold linkDynamic at ran
  rw [run_ite] at ran
  split at ran
  · cases ran
  cases found : imageRange layout.window layout.dynamicAddress layout.dynamicSize with
  | none =>
    rw [found] at ran
    cases ran
  | some offset =>
    obtain ⟨_, rfl, room⟩ := imageRange_eq_some found
    have rounds := Nat.div_mul_le_self layout.dynamicSize sizeofDynamicEntry
    rw [found] at ran
    obtain ⟨dynamic, _, scanned, ran⟩ := run_bind_eq_ok ran
    rw [scanDynamic_run (by omega)] at scanned
    dsimp only at scanned
    cases isTable : tableOf start (layout.dynamicSize / sizeofDynamicEntry)
        (layout.dynamicAddress - layout.window.base) with
    | none =>
      rw [isTable] at scanned
      cases scanned
    | some entries =>
      rw [isTable] at scanned
      cases scanned
      obtain ⟨isResult, relocated⟩ := (linkImage_triple honest room _).ok rfl ran
      rw [sound.entry] at isResult
      refine ⟨layout, start, entries, laid, isResult, spans, image, isTable, ?_⟩
      rintro dynamic relas rfl rfl separate
      obtain ⟨context, words, relocates⟩ := relocated separate
      exact ⟨context, words, relocates, relocates.words separate.targets, fun _ off =>
        relocates.outside off⟩

theorem sampleInput_apart :
    SegmentsApart
      (Exec.programHeaders (sampleInput 304 1).file
        (Exec.readElfHeader (sampleInput 304 1).file)) := by
  have single :
    (Exec.programHeaders (sampleInput 304 1).file
      (Exec.readElfHeader (sampleInput 304 1).file)).filter
      (fun program => program.type = ptLoad) = [⟨ptLoad, 0, 0, 0, 368, 368, 0⟩] := by decide +kernel
  unfold SegmentsApart
  rw [single]
  exact pairwise_singleton _ _

/-- The image that the one segment leaves. -/
def sampleImage : Memory := fun place => (sampleInput 304 1).file.getD place 0

theorem segmentImage_sample {layout : Layout} {start : Memory}
    (single : ⟨ptLoad, 0, 0, 0, 368, 368, 0⟩ ∈ layout.programs) (window : layout.window = ⟨0, 368⟩)
    (image : SegmentImage (sampleInput 304 1).file sampleState.image layout start) :
    start = sampleImage := by
  funext place
  by_cases inside : place < 368
  · have found := image.file _ single rfl place inside
    rw [window] at found
    simp only [zero_add, Nat.sub_self] at found
    exact found
  · have found := image.beyond place (by rw [window]; exact not_lt.mp inside)
    have length : (sampleInput 304 1).file.length = 368 := by decide +kernel
    exact found.trans (getD_eq_default _ _ (by omega)).symm

def sampleEntries : List DynamicEntry :=
  (sampleTable 304).dropLast.map (fun entry => ⟨entry.1, entry.2⟩)

def sampleRela : Rela := ⟨360, 2 ^ 32 + rX8664GlobDat, 0⟩

theorem Off.of_le {one two size size' : Nat} (below : two + size' ≤ one) :
    Off one size two size' := by
  intro address low _ inside
  omega

theorem sampleRela_separate : Separate (sampleEntries.foldl .note .none) [sampleRela] := by
  refine ⟨pairwise_singleton _ _, ?_, ?_, ?_, ?_, ?_⟩ <;>
    refine forall_mem_singleton.mpr ?_
  · exact .of_le (by decide)
  · exact .of_le (by decide)
  · exact .of_le (by decide)
  · exact forall_mem_singleton.mpr (fun _ => .of_le (by decide))
  · exact fun _ => by decide

/-- The word at 360 becomes the value of the symbol. -/
theorem loadElf64_exact_sample :
    ∃ after, (loadElf64 (sampleInput 304 1) sampleOptions).run sampleState =
      (.ok (0, 368), after) ∧
      ∃ context words, Relocates sampleOptions ⟨0, 368⟩ ⟨304, 352, 1⟩ sampleImage sampleImage context
        [sampleRela] words after.image after.context ∧
        Forall₂ (fun relocation word =>
          readNumber after.image (relocation.offset - 0) 8 = word % 2 ^ 64) [sampleRela] words ∧
        readNumber after.image 360 8 = 0x1234 := by
  have ran := run_of_toOption
    (show ((loadElf64 (sampleInput 304 1) sampleOptions).run sampleState).1.toOption =
      some (0, 368) by decide +kernel)
  have honest : Honest sampleOptions := fun _ none => nomatch none
  obtain ⟨⟨entry, programs, window, address, size⟩, start, entries, laid, _, _, image, table,
    relocated⟩ := loadElf64_exact honest sampleInput_apart ran
  have value : (readLayout (sampleInput 304 1)).toOption.map (fun layout =>
      (layout.programs.head?, layout.window, layout.dynamicAddress, layout.dynamicSize)) =
      some (some ⟨ptLoad, 0, 0, 0, 368, 368, 0⟩, ⟨0, 368⟩, 176, 128) := by decide +kernel
  rw [laid] at value
  obtain ⟨first, rfl, rfl, rfl⟩ : programs.head? = _ ∧ window = _ ∧ address = _ ∧ size = _ := by
    simpa only [Except.toOption, Option.map_some, Option.some.injEq, Prod.mk.injEq] using value
  cases segmentImage_sample (mem_of_head? first) rfl image
  have isTable : tableOf sampleImage (128 / sizeofDynamicEntry) 176 = some sampleEntries := by
    decide +kernel
  cases table.symm.trans isTable
  have relas : [sampleRela] =
      relocationsOf ⟨0, 368⟩ (sampleEntries.foldl .note .none) sampleImage := by decide +kernel
  obtain ⟨context, words, relocates, set, _⟩ := relocated _ _ rfl relas sampleRela_separate
  exact ⟨_, ran, context, words, relocates, set, by decide +kernel⟩

end Synx.Dynlink
