/-
Loading an archive builds the tree that the archive was made from: every member
is found under its path with its type and contents, and nothing else is there.
-/

import Synx.Fs.Boot
import Synx.Fs.NewcDecode
import Synx.Fs.Reading

namespace Synx.Vfs

open Lib List Option
open Lib.Program

def Plain (names : List Name) : Prop := ∀ name ∈ names, name ≠ [dot] ∧ name ≠ [dot, dot]

theorem Plain.tail {name : Name} {names : List Name} (plain : Plain (name :: names)) :
    Plain names :=
  fun other member => plain other (.tail _ member)

variable {name : Name} {vfs : State} {start : Nat}

theorem Plain.front {front : List Name} (plain : Plain (front ++ [name])) :
    Plain front := fun other member => plain other (mem_append_left _ member)

theorem Plain.last {front : List Name} (plain : Plain (front ++ [name])) :
    name ≠ [dot] ∧ name ≠ [dot, dot] :=
  plain name (mem_append_right _ (mem_singleton_self name))

theorem leads_name_iff {last : Nat} (ordinary : name ≠ [dot] ∧ name ≠ [dot, dot]) :
    Leads vfs start [name] last ↔
      name.length ≤ 255 ∧ vfs.typeOf start = some .directory ∧
        vfs.child start name = some last := by
  constructor
  · intro leads
    cases leads with
    | stay _ => exact absurd rfl ordinary.1
    | up _ => exact absurd rfl ordinary.2
    | down _ short directory child rest =>
      cases rest
      exact ⟨short, directory, child⟩
  · rintro ⟨short, directory, child⟩
    exact Leads.down ordinary short directory child (Leads.done _)

theorem Leads.injective (tree : Tree vfs) {root : Nat} (isRoot : vfs.rootDentry = some root)
    {one two : List Name} {id : Nat} (plainOne : Plain one) (plainTwo : Plain two)
    (first : Leads vfs root one id) (second : Leads vfs root two id) : one = two := by
  obtain ⟨top, liveRoot, parentless⟩ := tree.root root isRoot
  -- nothing leads down to the root
  have notRoot : ∀ {names : List Name} {name : Name}, Plain (names ++ [name]) →
      ¬Leads vfs root (names ++ [name]) root := by
    intro names name plain leads
    obtain ⟨middle, _, step⟩ := (Leads.append_iff _ _).mp leads
    obtain ⟨_, _, found⟩ := (leads_name_iff plain.last).mp step
    obtain ⟨object, live, above, _⟩ := child_named tree found
    rw [liveRoot] at live
    cases live
    rw [parentless] at above
    cases above
  induction one using List.reverseRecOn generalizing two id with
  | nil =>
    cases first
    rcases eq_nil_or_concat two with rfl | ⟨names, name, rfl⟩
    · rfl
    · rw [concat_eq_append] at second plainTwo
      exact absurd second (notRoot plainTwo)
  | append_singleton front name ih =>
    rcases eq_nil_or_concat two with rfl | ⟨names, other, rfl⟩
    · cases second
      exact absurd first (notRoot plainOne)
    · rw [concat_eq_append] at second plainTwo ⊢
      obtain ⟨middle, before, step⟩ := (Leads.append_iff _ _).mp first
      obtain ⟨middleTwo, beforeTwo, stepTwo⟩ := (Leads.append_iff _ _).mp second
      obtain ⟨_, _, found⟩ := (leads_name_iff plainOne.last).mp step
      obtain ⟨_, _, foundTwo⟩ := (leads_name_iff plainTwo.last).mp stepTwo
      obtain ⟨object, live, above, named⟩ := child_named tree found
      obtain ⟨objectTwo, liveTwo, aboveTwo, namedTwo⟩ := child_named tree foundTwo
      rw [live] at liveTwo
      cases liveTwo
      rw [above] at aboveTwo
      cases aboveTwo
      rw [ih plainOne.front plainTwo.front before beforeTwo, ← named, ← namedTwo]

theorem leads_grow (tree : Tree vfs) {parent address : Nat} {directory : Dentry} {inode : Inode}
    (live : vfs.dentries parent = some directory) {last : Nat} {names : List Name}
    (plain : Plain names)
    (leads : Leads (vfs.grow parent directory inode address name) start names last)
    {dentry : Dentry} (liveStart : vfs.dentries start = some dentry) : Leads vfs start names last ∨
      ∃ front, names = front ++ [name] ∧ Leads vfs start front parent := by
  induction leads generalizing dentry with
  | done id => exact .inl (Leads.done id)
  | stay _ _ => exact absurd rfl (plain _ (.head _)).1
  | up _ _ => exact absurd rfl (plain _ (.head _)).2
  | @down start next last wanted names ordinary short isDirectory found rest ih =>
    rw [typeOf_grow tree live liveStart] at isDirectory
    rw [child_grow tree live liveStart] at found
    by_cases new : start = parent ∧ wanted = name
    · rw [if_pos new] at found
      cases found
      -- the new dentry has no children
      have ended : names = [] := by
        cases rest with
        | done _ => rfl
        | stay _ => exact absurd rfl (plain _ (.tail _ (.head _))).1
        | up _ => exact absurd rfl (plain _ (.tail _ (.head _))).2
        | down _ _ _ below _ =>
          rw [child_newest_grow tree live] at below
          cases below
      refine .inr ⟨[], ?_, ?_⟩
      · rw [ended, new.2]
        rfl
      · rw [new.1]
        exact Leads.done parent
    · rw [if_neg new] at found
      obtain ⟨object, liveNext, _⟩ := tree.child_live liveStart found
      rcases ih plain.tail liveNext with old | ⟨front, rfl, before⟩
      · exact .inl (Leads.down ordinary short isDirectory found old)
      · exact .inr ⟨wanted :: front, rfl, Leads.down ordinary short isDirectory found before⟩

end Synx.Vfs

namespace Synx.Initramfs

open Lib List
open Lib.Program
open Vfs
open Ramfs

/-! ### Proper paths -/

variable {path : Name} {member : Member} {vfs : State} {id : Nat}

theorem ProperPath.components_eq (proper : ProperPath path) :
    Vfs.components path = path.splitOn slash := by
  unfold Vfs.components
  rw [filter_eq_self]
  intro name member
  simpa using (proper.components name member).1

theorem ProperPath.plain (proper : ProperPath path) : Plain (Vfs.components path) := by
  rw [proper.components_eq]
  exact fun name member => (proper.components name member).2

theorem ProperPath.injective {one two : Name} (first : ProperPath one) (second : ProperPath two)
    (same : Vfs.components one = Vfs.components two) : one = two := by
  rw [first.components_eq, second.components_eq] at same
  rw [← @intercalate_splitOn _ one _ _ slash, same, intercalate_splitOn]

def aboveNames (path : Name) : List Name :=
  if slash ∈ path then Vfs.components (dirName path) else []

theorem baseName_of_not_mem (single : slash ∉ path) : baseName path = path := by
  unfold baseName
  rw [takeWhile_eq_self_iff.mpr, reverse_reverse]
  intro byte member
  simpa using fun isSlash : byte = slash => single (isSlash ▸ mem_reverse.mp member)

theorem ProperPath.split (proper : ProperPath path) :
    Vfs.components path = aboveNames path ++ [baseName path] := by
  unfold aboveNames
  by_cases nested : slash ∈ path
  · have isName : baseName path ∈ path.splitOn slash := by
      have cut := @splitOn_append_cons_self _ _ _ slash (dirName path) (baseName path)
      rw [← path_split nested, splitOn_eq_singleton (slash_not_mem_baseName path)] at cut
      rw [cut]
      exact mem_append_right _ (mem_singleton_self _)
    rw [if_pos nested, components_split nested,
      components_single _ (proper.components _ isName).1 (slash_not_mem_baseName path)]
  · rw [if_neg nested, baseName_of_not_mem nested, nil_append,
      components_single _ proper.nonempty nested]

theorem baseName_slash (path : Name) : baseName (slash :: path) = baseName path := by
  unfold baseName
  rw [reverse_cons, takeWhile_append]
  split
  · rename_i whole
    have same := List.Sublist.eq_of_length (takeWhile_sublist _) whole
    rw [same]
    simp
  · rfl

theorem ProperPath.ordinary_last (proper : ProperPath path) :
    Ordinary (baseName (slash :: path)) := by
  have isName : baseName path ∈ path.splitOn slash := by
    rw [← proper.components_eq, proper.split]
    exact mem_append_right _ (mem_singleton_self _)
  rw [baseName_slash]
  exact proper.components _ isName

/-! ### One member -/

def Member.type (member : Member) : FileType :=
  if member.body.isNone then .directory else .regular

theorem typeBits {low : Nat} (small : low < 2 ^ 12) (kind : Nat) :
    (2 ^ 12 * kind + low) &&& cpioSIfmt = 2 ^ 12 * kind &&& cpioSIfmt := by
  have none : low &&& cpioSIfmt = 0 := by
    apply Nat.eq_of_testBit_eq
    intro bit
    have mask : cpioSIfmt = 2 ^ 12 * 15 := rfl
    rw [Nat.testBit_and, mask, Nat.testBit_two_pow_mul, Nat.zero_testBit]
    by_cases high : 12 ≤ bit
    · rw [Nat.testBit_lt_two_pow (lt_of_lt_of_le small (Nat.pow_le_pow_right (by omega) high)),
        Bool.false_and]
    · simp [high]
  rw [Nat.two_pow_add_eq_or_of_lt small, Nat.and_or_distrib_right, none, Nat.or_zero]

theorem Member.entry_type (member : Member) :
    member.entry.mode % 2 ^ 32 &&& cpioSIfmt =
      if member.body.isNone then cpioSIfdir else cpioSIfreg := by
  have small : member.attributes.permissions % 4096 < 4096 := Nat.mod_lt _ (by omega)
  unfold Member.entry Member.mode
  simp only [Nat.mod_mod]
  split
  · rw [Nat.mod_eq_of_lt (by rw [cpioSIfdir]; omega)]
    exact typeBits small 4
  · rw [Nat.mod_eq_of_lt (by rw [cpioSIfreg]; omega)]
    exact typeBits small 8

section Runs

variable {τ : Type} {heap : Heap τ} {fs : Fs τ}

theorem run_ensureParentDir (tree : Tree fs.vfs) {path : Name} (nonempty : path ≠ [])
    (short : path.length ≤ 255) {root parent : Nat} (isRoot : fs.vfs.rootDentry = some root)
    (above : Leads fs.vfs root (aboveNames path) parent) :
    (ensureParentDir heap path).run fs = (.ok (some parent), fs.adjust (Pi.single parent 1)) := by
  have positive := length_pos_iff.mpr nonempty
  unfold ensureParentDir
  rw [if_neg (by omega)]
  unfold aboveNames at above
  by_cases nested : slash ∈ path
  · rw [if_pos nested] at above ⊢
    have named : Names fs.vfs (slash :: dirName path) parent :=
      ⟨root, isRoot, by rw [components_slash]; exact above⟩
    have ends := @pathWalk_ends _ heap _ tree (slash :: dirName path)
    rw [(resolve_eq_ok_iff fs.vfs _ rfl parent).mpr named] at ends
    simp only
    rw [run_bind_ok (run_attempt_ok ends.1), run_pure]
  · rw [if_neg nested] at above ⊢
    cases above
    rw [run_bind_ok (run_mustWalk tree isRoot), run_pure]

theorem run_createEntry (reliable : ¬MayFail heap) (tree : Tree fs.vfs) {root parent : Nat}
    {directory : Dentry} (isRoot : fs.vfs.rootDentry = some root) (member : Member)
    (proper : ProperPath member.path) (above : Leads fs.vfs root (aboveNames member.path) parent)
    (live : fs.vfs.dentries parent = some directory)
    (isDirectory : fs.vfs.typeOf parent = some .directory) :
    ∃ inode address after, Filled member.type member.data inode ∧
      (createEntry heap member.entry).run fs = (.ok true, after) ∧
      after.vfs = fs.vfs.grow parent directory inode address (baseName member.path) := by
  have short : member.path.length ≤ 255 := le_trans proper.short (by omega)
  have shortName : (baseName member.path).length ≤ 255 := le_trans (length_baseName_le _) short
  have found := @run_ensureParentDir _ heap _ tree _ proper.nonempty short _ _ isRoot above
  -- a creation that is not refused
  have creates : ∀ {type : FileType} {data : List UInt8} {create : Call τ (Option Nat)}
      {result : Except (Stop Fault) (Option Nat)} {plain : Fs τ},
      create.run (fs.adjust (Pi.single parent 1)) = (result, plain.adjust (Pi.single parent 1)) →
      Creates heap fs parent (baseName member.path) type data (result, plain) →
      ∃ inode address, Filled type data inode ∧ (do
          let inode ← create
          dput heap ramfs parent
          pure inode.isSome : Call τ Bool).run (fs.adjust (Pi.single parent 1)) =
            (.ok true, plain) ∧
        plain.vfs = fs.vfs.grow parent directory inode address (baseName member.path) := by
    intro type data create result plain ran made
    obtain ⟨_, value, same, whole⟩ := run_createIn tree live shortName ran made
    cases made with
    | refused _ _ reason =>
      rcases reason with fails | other
      · exact absurd fails reliable
      · exact absurd isDirectory other
    | created other inode address _ liveNow _ filled grown =>
      cases same
      rw [live] at liveNow
      cases liveNow
      rw [take_of_length_le shortName] at grown
      exact ⟨inode, address, filled, whole, grown⟩
  unfold createEntry
  have path : member.entry.path = member.path := rfl
  have data : member.entry.data = member.data := rfl
  rw [path, data, run_bind_ok found]
  simp only [member.entry_type]
  unfold Member.type Member.data
  cases member.body with
  | none =>
    simp only [Option.isNone_none, if_true]
    obtain ⟨result, plain, ran, made⟩ :=
      @createDir_held _ heap _ tree parent _ live (baseName member.path)
    obtain ⟨inode, address, filled, whole, grown⟩ := creates ran made
    exact ⟨inode, address, plain, filled, whole, grown⟩
  | some bytes =>
    simp only [Option.isNone_some, Bool.false_eq_true, if_false, Option.getD_some]
    rw [if_neg (by decide)]
    obtain ⟨result, plain, ran, made⟩ :=
      @createFile_held _ heap _ tree parent _ live (baseName member.path) bytes
    obtain ⟨inode, address, filled, whole, grown⟩ := creates ran made
    exact ⟨inode, address, plain, filled, whole, grown⟩

end Runs

/-! ### All members -/

/-- The dentry has the type and the contents of the member. -/
def Member.StoredAt (member : Member) (vfs : State) (id : Nat) : Prop :=
  ∃ dentry inode object, vfs.dentries id = some dentry ∧ dentry.inode = some inode ∧
    vfs.inodes inode = some object ∧ Filled member.type member.data object

theorem Member.StoredAt.typeOf (stored : member.StoredAt vfs id) :
    vfs.typeOf id = some member.type := by
  obtain ⟨dentry, inode, object, live, points, liveInode, filled⟩ := stored
  rw [typeOf_of_live live points liveInode, filled.type]

theorem Member.StoredAt.extended {before after : State} (stored : member.StoredAt before id)
    (extended : Extends before after) : member.StoredAt after id := by
  obtain ⟨dentry, inode, object, live, points, liveInode, filled⟩ := stored
  obtain ⟨later, liveLater, same, _⟩ := extended.dentry id dentry live
  exact ⟨later, inode, object, liveLater, same.trans points,
    extended.inode inode object liveInode, filled⟩

/-- The tree holds exactly the members. -/
structure Stores (vfs : State) (root : Nat) (members : List Member) : Prop where
  tree : Tree vfs
  isRoot : vfs.rootDentry = some root
  directory : vfs.typeOf root = some .directory
  found : ∀ member ∈ members, ∃ id, Leads vfs root (Vfs.components member.path) id ∧
    member.StoredAt vfs id
  only : ∀ names id, Plain names → Leads vfs root names id →
    names = [] ∨ ∃ member ∈ members, Vfs.components member.path = names

/-- A list of members that an archive is made of: the paths are proper and
distinct, and the directory above a member comes earlier. -/
structure Layered (members : List Member) : Prop where
  proper : ∀ member ∈ members, member.Proper
  distinct : (members.map Member.path).Nodup
  above : ∀ earlier member later, members = earlier ++ member :: later → slash ∈ member.path →
    ∃ directory ∈ earlier, directory.body = none ∧ directory.path = dirName member.path

theorem Stores.parent {root : Nat} {members : List Member} (stores : Stores vfs root members)
    (above : slash ∈ path → ∃ directory ∈ members, directory.body = none ∧
      directory.path = dirName path) :
    ∃ parent, Leads vfs root (aboveNames path) parent ∧ vfs.typeOf parent = some .directory := by
  unfold aboveNames
  by_cases nested : slash ∈ path
  · rw [if_pos nested]
    obtain ⟨directory, member, isDirectory, same⟩ := above nested
    obtain ⟨id, leads, stored⟩ := stores.found directory member
    rw [← same]
    refine ⟨id, leads, ?_⟩
    rw [stored.typeOf, Member.type, isDirectory]
    rfl
  · rw [if_neg nested]
    exact ⟨root, Leads.done root, stores.directory⟩

section Runs

variable {τ : Type} {heap : Heap τ} {fs : Fs τ}

theorem Stores.step (reliable : ¬MayFail heap) {root : Nat} {members : List Member}
    (stores : Stores fs.vfs root members) (known : ∀ other ∈ members, ProperPath other.path)
    {member : Member} (proper : ProperPath member.path)
    (fresh : ∀ other ∈ members, other.path ≠ member.path)
    (above : slash ∈ member.path → ∃ directory ∈ members, directory.body = none ∧
      directory.path = dirName member.path) :
    ∃ after, (createEntry heap member.entry).run fs = (.ok true, after) ∧
      Stores after.vfs root (members ++ [member]) := by
  have tree := stores.tree
  have plain := proper.plain
  rw [proper.split] at plain
  obtain ⟨parent, leads, isDirectory⟩ := stores.parent above
  obtain ⟨top, liveRoot, _⟩ := tree.root root stores.isRoot
  obtain ⟨directory, live⟩ := Leads.live tree leads liveRoot
  have shortName : (baseName member.path).length ≤ 255 :=
    le_trans (length_baseName_le _) (le_trans proper.short (by omega))
  -- the name is free, since only members are in the tree
  have free : fs.vfs.child parent (baseName member.path) = none := by
    cases taken : fs.vfs.child parent (baseName member.path) with
    | none => rfl
    | some id =>
      have there : Leads fs.vfs root (aboveNames member.path ++ [baseName member.path]) id :=
        (Leads.append_iff _ _).mpr
          ⟨parent, leads, (leads_name_iff plain.last).mpr ⟨shortName, isDirectory, taken⟩⟩
      rcases stores.only _ id plain there with nil | ⟨other, isMember, same⟩
      · simp at nil
      · rw [← proper.split] at same
        exact absurd ((known other isMember).injective proper same) (fresh other isMember)
  obtain ⟨inode, address, after, filled, ran, grown⟩ :=
    @run_createEntry _ heap _ reliable tree _ _ _ stores.isRoot member proper leads live isDirectory
  have extended := @Extends.grow _ parent address directory inode _ tree live free
  have liveNew := @newest_grow _ parent address directory inode (baseName member.path) tree live
  refine ⟨after, ran, ?_⟩
  rw [grown]
  refine
    { tree := tree.grow live isDirectory, isRoot := stores.isRoot,
      directory := extended.typeOf stores.directory, found := ?_, only := ?_ }
  · intro other isMember
    rcases mem_append.mp isMember with old | new
    · obtain ⟨id, leadsOld, stored⟩ := stores.found other old
      exact ⟨id, extended.leads tree leadsOld liveRoot, stored.extended extended⟩
    · rw [mem_singleton.mp new]
      refine ⟨fs.vfs.nextId + 1, ?_, _, fs.vfs.nextId, inode, liveNew, rfl, newInode_grow, filled⟩
      rw [proper.split]
      refine (Leads.append_iff _ _).mpr ⟨parent, extended.leads tree leads liveRoot, ?_⟩
      refine (leads_name_iff plain.last).mpr ⟨shortName, extended.typeOf isDirectory, ?_⟩
      rw [child_grow tree live live, if_pos ⟨rfl, rfl⟩]
  · intro names id plainNames leadsNew
    rcases leads_grow tree live plainNames leadsNew liveRoot with old | ⟨front, rfl, before⟩
    · rcases stores.only names id plainNames old with nil | ⟨other, isMember, same⟩
      · exact .inl nil
      · exact .inr ⟨other, mem_append_left _ isMember, same⟩
    · refine .inr ⟨member, mem_append_right _ (mem_singleton_self member), ?_⟩
      rw [proper.split,
        Leads.injective tree stores.isRoot plainNames.front plain.front before leads]

theorem Stores.load (reliable : ¬MayFail heap) {root : Nat} (rest : List Member)
    {earlier : List Member} (layered : Layered (earlier ++ rest))
    (stores : Stores fs.vfs root earlier) (count : Int) :
    ∃ after, (loadEntries heap (rest.map Member.entry) .complete count).run fs =
        (.ok (count + rest.length), after) ∧ Stores after.vfs root (earlier ++ rest) := by
  induction rest generalizing earlier fs count with
  | nil =>
    rw [append_nil]
    exact ⟨fs, by simp [loadEntries], stores⟩
  | cons member later ih =>
    have isMember : member ∈ earlier ++ member :: later :=
      mem_append_right _ (.head _)
    have fresh : ∀ other ∈ earlier, other.path ≠ member.path := by
      intro other isEarlier same
      have distinct := layered.distinct
      rw [map_append, map_cons] at distinct
      have apart := (nodup_append.mp distinct).2.2 other.path
        (mem_map_of_mem isEarlier) member.path (.head _)
      exact apart same
    obtain ⟨middle, ran, storesMore⟩ := stores.step reliable
      (fun other isEarlier => (layered.proper other (mem_append_left _ isEarlier)).path)
      (layered.proper member isMember).path fresh
      (fun nested => layered.above earlier member later rfl nested)
    have split_ : earlier ++ member :: later = earlier ++ [member] ++ later := by
      rw [append_assoc]
      rfl
    rw [split_] at layered ⊢
    obtain ⟨after, ranLater, storesAll⟩ := ih layered storesMore (count + 1)
    refine ⟨after, ?_, storesAll⟩
    rw [map_cons, loadEntries, run_bind_ok ran]
    simp only [if_true]
    rw [ranLater, length_cons]
    congr 2
    omega

end Runs

/-! ### The tree of an archive -/

section Decode

variable {τ : Type} {heap : Heap τ} {fs : Fs τ}

/-- Opening the path and reading up to a size gives the first bytes. -/
def ReadsBack (heap : Heap τ) (fs : Fs τ) (path : Name) (bytes : List UInt8) : Prop :=
  ∀ size, size < 2 ^ 64 → ∃ file opened after,
    (openFile heap ramfs path oRdonly).run fs = (.ok file, opened) ∧
      (readFile ramfs file size).run opened =
        (.ok ((bytes.take size).length, bytes.take size), after)

theorem Stores.names_iff {root : Nat} {members : List Member} {vfs : State}
    (stores : Stores vfs root members) {path : Name} {id : Nat} :
    Names vfs path id ↔ Leads vfs root (Vfs.components path) id := by
  constructor
  · rintro ⟨other, isRoot, leads⟩
    rw [stores.isRoot] at isRoot
    cases isRoot
    exact leads
  · exact fun leads => ⟨root, stores.isRoot, leads⟩

theorem Stores.readsBack (reliable : ¬MayFail heap) {root : Nat} {members : List Member}
    (stores : Stores fs.vfs root members) {member : Member} (isMember : member ∈ members)
    (proper : ProperPath member.path) {bytes : List UInt8} (has : member.body = some bytes) :
    ReadsBack heap fs (slash :: member.path) bytes := by
  intro size small
  have tree := stores.tree
  have short : (slash :: member.path).length ≤ 255 := by
    have bound := proper.short
    rw [length_cons]
    omega
  obtain ⟨id, leads, dentry, inode, object, live, points, liveInode, filled⟩ :=
    stores.found member isMember
  rw [Member.type, Member.data, has] at filled
  have named : Names fs.vfs (slash :: member.path) id := by
    rw [stores.names_iff, components_slash]
    exact leads
  have ordinary : Ordinary (baseName (slash :: member.path)) := proper.ordinary_last
  have opens := (opens_iff_names tree rfl short ordinary id).mpr named
  have ends := @openFile_ends _ heap fs tree (slash :: member.path) oRdonly
  rw [(opens_iff fs.vfs (missingCode heap fs) rfl short id).mpr opens] at ends
  obtain ⟨_, outcome⟩ := ends
  cases allocated : heap.alloc sizeofFile fs.heap with
  | mk address memory =>
    rw [allocated] at outcome
    cases address with
    | none => exact absurd ⟨sizeofFile, fs.heap, by rw [allocated]⟩ reliable
    | some address =>
      have held := fs.vfs.adjust_dentries (Pi.single id 1) live
      have stored : (fs.vfs.opened id address oRdonly).files fs.vfs.nextId =
          some ⟨address, id, 0, oRdonly, 1⟩ := store_same
      have read := @run_readFile _ ⟨fs.vfs.opened id address oRdonly, memory⟩ fs.vfs.nextId inode
        ⟨address, id, 0, oRdonly, 1⟩ _ object stored held points liveInode (Nat.zero_and _)
          filled.type
        (by rw [filled.size, filled.contents]) size (fun _ => by simpa using small)
      rw [filled.contents, drop_zero] at read
      exact ⟨_, _, _, outcome, read⟩

/-- An archive of the newc format, loaded into a mounted empty root with memory
that does not run out: the load counts its members, the paths without `.` and
`..` that lead somewhere are those of the members and the root, each member has
its type, and each file reads back its contents. -/
theorem load_undoes_newc (reliable : ∀ size state, (heap.alloc size state).1 ≠ none) (memory : τ)
    (start : Fs τ) (mounted : (mountRoot heap).run ⟨State.blank, memory⟩ = (.ok true, start))
    (members : List Member) (layered : Layered members) (tail : List UInt8)
    (fits : (newcArchive members tail).length < 2 ^ 64) :
    ∃ after, (initramfsLoad heap (newcArchive members tail)).run start =
        (.ok members.length, after) ∧
      (∀ path, Plain (Vfs.components path) →
        ((∃ id, ((pathWalk heap ramfs (slash :: path)).run after).1 = .ok id) ↔
          Vfs.components path = [] ∨
            ∃ member ∈ members, Vfs.components member.path = Vfs.components path)) ∧
      ∀ member ∈ members,
        (∃ id, ((pathWalk heap ramfs (slash :: member.path)).run after).1 = .ok id ∧
          after.vfs.typeOf id = some member.type) ∧
        ∀ bytes, member.body = some bytes →
          ReadsBack heap after (slash :: member.path) bytes := by
  have never : ¬MayFail heap := by
    rintro ⟨size, state, fails⟩
    exact reliable size state fails
  obtain ⟨bare, exists_⟩ := run_mountRoot mounted
  obtain ⟨root, isRoot⟩ := exists_.resolve_left never
  have empty : Stores start.vfs root [] :=
    { tree := bare.tree
      isRoot := isRoot
      directory := bare.directory root isRoot
      found := fun _ member => absurd member not_mem_nil
      only := fun names id plain leads => by
        cases leads with
        | done _ => exact Or.inl rfl
        | stay _ => exact absurd rfl (plain _ mem_cons_self).1
        | up _ => exact absurd rfl (plain _ mem_cons_self).2
        | down _ _ _ child _ =>
          rw [bare.childless] at child
          cases child }
  obtain ⟨after, ran, stores⟩ := empty.load never members (by rw [nil_append]; exact layered) 0
  rw [nil_append] at stores
  have proper : ∀ member ∈ members, ProperPath member.path :=
    fun member isMember => (layered.proper member isMember).path
  refine ⟨after, ?_, ?_, ?_⟩
  · rw [run_initramfsLoad, decode_newcArchive members layered.proper tail fits, ran, Int.zero_add]
  · intro path plain
    have walked := fun id =>
      @pathWalk_ok_iff _ heap after stores.tree (slash :: path) rfl id
    simp only [walked, stores.names_iff, components_slash]
    constructor
    · rintro ⟨id, leads⟩
      exact stores.only _ id plain leads
    · rintro (nil | ⟨member, isMember, same⟩)
      · rw [nil]
        exact ⟨root, Leads.done root⟩
      · obtain ⟨id, leads, _⟩ := stores.found member isMember
        rw [← same]
        exact ⟨id, leads⟩
  · intro member isMember
    refine ⟨?_, fun bytes has => stores.readsBack never isMember (proper member isMember) has⟩
    obtain ⟨id, leads, stored⟩ := stores.found member isMember
    refine ⟨id, (pathWalk_ok_iff stores.tree rfl id).mpr ?_, stored.typeOf⟩
    rw [stores.names_iff, components_slash]
    exact leads

end Decode

/-- The file `./a/b` with two bytes. -/
def noteInside : Member := { dots := 1, path := [97, slash, 98], body := some [104, 105] }

theorem layered_note : Layered [directoryAbove, noteInside] := by
  refine { proper := ?_, distinct := by decide, above := ?_ }
  · intro member isMember
    rcases mem_cons.mp isMember with rfl | isLast
    · exact ⟨⟨by decide, by decide, by decide, by decide⟩, by decide, by decide⟩
    · rw [mem_singleton.mp isLast]
      exact ⟨⟨by decide, by decide, by decide, by decide⟩, by decide, by decide⟩
  · intro earlier member later split_ nested
    match earlier, split_ with
    | [], split_ =>
      cases split_
      exact absurd nested (by decide)
    | [_], split_ =>
      cases split_
      exact ⟨directoryAbove, mem_singleton_self _, rfl, by decide⟩
    | _ :: _ :: rest, split_ =>
      have length := congrArg List.length split_
      simp only [length_cons, length_append, length_nil] at length
      omega

theorem load_undoes_newc_note :
    ∃ after, (initramfsLoad endless (newcArchive [directoryAbove, noteInside] [])).run mountedRoot =
        (.ok 2, after) ∧ ReadsBack endless after [slash, 97, slash, 98] [104, 105] := by
  obtain ⟨after, ran, _, members⟩ :=
    @load_undoes_newc _ endless (fun _ _ => Option.some_ne_none _) 0
    mountedRoot rfl [directoryAbove, noteInside] layered_note [] (by decide +kernel)
  exact ⟨after, ran, (members noteInside (by simp)).2 _ rfl⟩

end Synx.Initramfs
