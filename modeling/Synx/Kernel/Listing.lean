/-
`getdents64`: the entries that `readdir` delivers become records in the buffer of
the program, one after another, and the file's position ends up behind the last
record that was copied.
-/

import Synx.Kernel.FileCalls

namespace Synx.Kernel

open Lib Program Memory List
open Ramfs (ramfs)
open Vfs (SimpleDirent)

/-! ### Records -/

/-- The bytes of a record: header, name and padding. -/
def recordBytes (entry : SimpleDirent) (position : Nat) (type : UInt8) : List UInt8 :=
  numberBytes entry.ino 8 ++ numberBytes position 8 ++
    numberBytes (recordLength entry.name) 2 ++ [type] ++ (entry.name ++
    replicate (recordLength entry.name - sizeofDirentHeader - entry.name.length) 0)

theorem recordLength_bounds (name : List UInt8) :
    sizeofDirentHeader + name.length + 1 ≤ recordLength name ∧
      recordLength name ≤ sizeofDirentHeader + name.length + 8 := by
  unfold recordLength sizeofDirentHeader
  omega

theorem length_recordBytes (entry : SimpleDirent) (position : Nat) (type : UInt8) :
    (recordBytes entry position type).length = recordLength entry.name := by
  have bounds := recordLength_bounds entry.name
  unfold recordBytes
  simp only [length_append, numberBytes_length, length_singleton,
    length_replicate]
  unfold sizeofDirentHeader at *
  omega

theorem direntRecord_eq {entry : SimpleDirent} (short : entry.name.length ≤ 255) (position : Nat)
    (type : UInt8) : direntRecord entry position type = .ok (recordBytes entry position type) := by
  have bounds := recordLength_bounds entry.name
  generalize isHeader : numberBytes entry.ino 8 ++ numberBytes position 8 ++
    numberBytes (recordLength entry.name) 2 ++ [type] = header
  have headerLength : header.length = sizeofDirentHeader := by
    rw [← isHeader]
    simp only [length_append, numberBytes_length, length_singleton]
    rfl
  have roomHeader : header.length ≤ (replicate sizeofRecord (0 : UInt8)).length := by
    rw [headerLength, length_replicate]
    decide
  have drops : ∀ size, (replicate size (0 : UInt8)).drop header.length =
      replicate (size - header.length) 0 := fun size => drop_replicate
  have roomName : (entry.name ++ [0]).length ≤
      (replicate (sizeofRecord - header.length) (0 : UInt8)).length := by
    rw [length_append, length_singleton, length_replicate, headerLength]
    unfold sizeofRecord sizeofDirentHeader
    omega
  unfold direntRecord
  rw [isHeader]
  simp only
  rw [putBuffer_front roomHeader, drops]
  simp only [bind, Except.bind]
  rw [← headerLength, putBuffer_append roomName, drop_replicate]
  simp only
  unfold getBuffer
  rw [if_pos (by
    simp only [length_append, length_replicate, length_singleton, headerLength]
    unfold sizeofRecord sizeofDirentHeader at *
    omega), drop_zero]
  congr 1
  have padded : entry.name ++ [0] ++ replicate
      (sizeofRecord - header.length - (entry.name ++ [0]).length) (0 : UInt8) =
      entry.name ++ replicate (sizeofRecord - header.length - entry.name.length) 0 := by
    rw [append_assoc, singleton_append, ← replicate_succ, length_append,
      length_singleton]
    congr 2
    rw [headerLength]
    unfold sizeofRecord sizeofDirentHeader
    omega
  have whole : header ++ (entry.name ++ [0]) ++ replicate
      (sizeofRecord - header.length - (entry.name ++ [0]).length) (0 : UInt8) =
      header ++ (entry.name ++
        replicate (sizeofRecord - header.length - entry.name.length) 0) := by
    rw [append_assoc, padded]
  unfold recordBytes
  rw [isHeader, whole, take_append, take_append, take_replicate]
  have takesHeader : header.take (recordLength entry.name) = header :=
    take_of_length_le (by omega)
  have takesName : entry.name.take (recordLength entry.name - header.length) = entry.name :=
    take_of_length_le (by omega)
  rw [takesHeader, takesName, headerLength]
  congr 3
  unfold sizeofRecord sizeofDirentHeader at *
  omega

/-- The type field of a name: another search finds the first child of that name. -/
def entryType (vfs : Vfs.State) (dentry : Nat) (name : List UInt8) : UInt8 :=
  if (vfs.child dentry name).bind vfs.typeOf = some .directory then dtDir else dtReg

variable {now last : State} {file userBuffer written : Nat} {object : Vfs.File}
  {pieces : List (List UInt8)}

theorem direntType_run (wellFormed : Vfs.Tree now.vfs) (live : now.vfs.files file = some object)
    (name : List UInt8) :
    (direntType file name).run now = (.ok (entryType now.vfs object.dentry name), now) := by
  obtain ⟨_, dentry, liveDentry⟩ := wellFormed.file file object live
  have found : (Vfs.fileOf file).run now.fs = (.ok object, now.fs) := Vfs.run_fetch live
  unfold direntType entryType
  refine @run_onFs _ now _ _ now.fs ?_
  rw [run_bind_ok found, run_bind_ok (@Vfs.run_dLookup _ now.fs wellFormed _ _ liveDentry name)]
  cases isChild : now.fs.vfs.child object.dentry name with
  | none =>
    have absent : now.vfs.child object.dentry name = none := isChild
    rw [absent]
    rfl
  | some child =>
    have present : now.vfs.child object.dentry name = some child := isChild
    obtain ⟨below, liveChild, _⟩ := wellFormed.child_live liveDentry present
    obtain ⟨inode, content, points, liveInode⟩ := wellFormed.inode child below liveChild
    have here : (Vfs.dentryOf child).run now.fs = (.ok below, now.fs) := Vfs.run_dentryOf liveChild
    have inside : (Vfs.fetch Vfs.State.inodes inode).run now.fs = (.ok content, now.fs) :=
      Vfs.run_fetch liveInode
    simp only
    rw [run_bind_ok here]
    simp only [points]
    rw [run_bind_ok inside, run_pure, present, Option.bind_some,
      Vfs.typeOf_of_live liveChild points liveInode]
    simp only [Option.some.injEq]

/-- The records of entries from a position on, with the types of the names. -/
def recordsFrom (types : List UInt8 → UInt8) : Nat → List SimpleDirent → List (List UInt8)
  | _, [] => []
  | position, entry :: rest =>
    recordBytes entry (wrap (position + 1)) (types entry.name) ::
      recordsFrom types (position + 1) rest

/-! ### The loop -/

/-- Pieces that are copied to the program one behind the other. -/
inductive Copied (userBuffer : Nat) : Nat → State → List (List UInt8) → Nat → State → Prop
  | done (written : Nat) (now : State) : Copied userBuffer written now [] written now
  | more {written total : Nat} {now next last : State} {piece : List UInt8}
      {pieces : List (List UInt8)}
      (ran : (copyToUser (wrap (userBuffer + written)) piece).run now = (.ok true, next))
      (rest : Copied userBuffer (written + piece.length) next pieces total last) :
      Copied userBuffer written now (piece :: pieces) total last

theorem Copied.memory {total : Nat} (copied : Copied userBuffer written now pieces total last) :
    ∃ mem, last = { now with mem := mem } := by
  induction copied with
  | done written now => exact ⟨now.mem, rfl⟩
  | @more written total now next last piece pieces ran rest ih =>
    obtain ⟨mem, rfl⟩ := ih
    obtain ⟨done, middle, copy⟩ := copyToUser_run (wrap (userBuffer + written)) piece now
    rw [copy] at ran
    obtain ⟨_, rfl⟩ := Prod.mk.inj ran
    exact ⟨mem, rfl⟩

theorem Copied.total {total : Nat} (copied : Copied userBuffer written now pieces total last) :
    total = written + pieces.flatten.length := by
  induction copied with
  | done written now => simp
  | more ran rest ih =>
    rw [ih, flatten_cons, length_append]
    omega

/-- Why the loop stops before an entry. -/
inductive Stops (userBuffer count total : Nat) (entry : SimpleDirent) (record : List UInt8)
    (last : State) : Memory → Int → Prop
  | short (noRoom : count - total < recordLength entry.name) :
      Stops userBuffer count total entry record last last.mem errInval
  | fault {mem : Memory} (room : recordLength entry.name ≤ count - total)
      (ran : (copyToUser (wrap (userBuffer + total)) record).run last =
        (.ok false, { last with mem := mem })) :
      Stops userBuffer count total entry record last mem errFault

/-- The outcome of the loop over entries: a number of them is delivered.  If that
is not all, the position goes back to the first one that is not. -/
structure Delivers (file : Nat) (object : Vfs.File) (userBuffer count position written : Nat)
    (entries : List SimpleDirent) (now : State)
    (outcome : Except (Stop Vfs.Fault) Nat × State) : Prop where
  ends : ∃ delivered remaining total last, entries = delivered ++ remaining ∧
    Copied userBuffer written now (recordsFrom (entryType now.vfs object.dentry) position delivered)
      total last ∧
    match remaining with
    | [] => outcome = (.ok total, last)
    | entry :: _ => ∃ mem code,
        Stops userBuffer count total entry
          (recordBytes entry (wrap (position + delivered.length + 1))
            (entryType now.vfs object.dentry entry.name)) last mem code ∧
        outcome = (if total ≠ 0 then .ok total else .error (.code code),
          { last with
            mem := mem
            vfs := last.vfs.setFile file
              (some { object with offset := wrap (position + delivered.length) }) })

theorem setOffset_run (live : now.vfs.files file = some object) (offset : Nat) :
    (setOffset file offset).run now =
      (.ok (), { now with
        vfs := now.vfs.setFile file (some { object with offset := offset }) }) :=
  changeFile_run live _

theorem stopListing_run {now : State} {file : Nat} {object : Vfs.File}
    (live : now.vfs.files file = some object) (oldOffset index written : Nat) (code : Int) :
    (stopListing file oldOffset index written code).run now =
      (if written ≠ 0 then .ok written else .error (.code code),
        { now with
          vfs := now.vfs.setFile file
            (some { object with offset := wrap (oldOffset + index) }) }) := by
  unfold stopListing
  rw [run_bind_ok (setOffset_run live _), run_ite]
  split <;> rfl

theorem writeRecords_delivers {file : Nat} {object : Vfs.File} {userBuffer count oldOffset : Nat}
    {entries : List SimpleDirent} (short : ∀ entry ∈ entries, entry.name.length ≤ 255)
    (index written : Nat) (now : State) (wellFormed : Vfs.Tree now.vfs)
    (live : now.vfs.files file = some object) :
    Delivers file object userBuffer count (oldOffset + index) written entries now
      ((writeRecords file userBuffer count oldOffset index written entries).run now) := by
  induction entries generalizing index written now with
  | nil =>
    refine ⟨[], [], written, now, rfl, Copied.done written now, ?_⟩
    unfold writeRecords
    rfl
  | cons entry rest ih =>
    have shortEntry := short entry (.head _)
    have shortRest := fun other member => short other (.tail entry member)
    unfold writeRecords
    rw [run_ite]
    by_cases noRoom : count - written < recordLength entry.name
    · rw [if_pos noRoom, stopListing_run live]
      exact ⟨[], entry :: rest, written, now, rfl, Copied.done written now, now.mem, errInval,
        Stops.short noRoom, rfl⟩
    · rw [if_neg noRoom, run_bind_ok (direntType_run wellFormed live entry.name),
        direntRecord_eq shortEntry, run_bind_ok (run_lift _ _)]
      generalize isRecord : recordBytes entry (wrap (oldOffset + index + 1))
        (entryType now.vfs object.dentry entry.name) = record
      have recordSize : record.length = recordLength entry.name := by
        rw [← isRecord, length_recordBytes]
      obtain ⟨done, mem, copied⟩ := copyToUser_run (wrap (userBuffer + written)) record now
      rw [run_bind_ok copied, run_ite]
      cases done with
      | true =>
        rw [if_pos rfl]
        obtain ⟨delivered, remaining, total, last, split_, later, ended⟩ :=
          (ih shortRest (index + 1) (written + recordLength entry.name)
            { now with mem := mem } wellFormed live).ends
        refine ⟨entry :: delivered, remaining, total, last, ?_, ?_, ?_⟩
        · rw [split_, cons_append]
        · unfold recordsFrom
          rw [isRecord]
          refine Copied.more copied ?_
          rw [recordSize]
          exact later
        · cases remaining with
          | nil => exact ended
          | cons next others =>
            simp only at ended ⊢
            have position : oldOffset + index + (entry :: delivered).length =
                oldOffset + (index + 1) + delivered.length := by
              rw [length_cons]
              omega
            rw [position]
            exact ended
      | false =>
        have stopped := @stopListing_run { now with mem := mem } file object live oldOffset index
          written errFault
        rw [if_neg (by decide), stopped]
        refine ⟨[], entry :: rest, written, now, rfl, Copied.done written now, mem, errFault, ?_,
          rfl⟩
        simp only [length_nil, add_zero]
        rw [isRecord]
        exact Stops.fault (not_lt.mp noRoom) copied

/-! ### The call -/

/-- The entries that a call sees, and where `readdir` leaves the position. -/
def listed (vfs : Vfs.State) (dentry : Vfs.Dentry) (offset : Nat) : List SimpleDirent :=
  ((dentry.children.drop offset).take maxEntries).map vfs.dirent

def positionAfter (dentry : Vfs.Dentry) (offset : Nat) : Nat :=
  min dentry.children.length (offset + maxEntries) % 2 ^ 64

theorem Sound.among {tree : Vfs.State} {kernel : State} (sound : Sound tree kernel) {id : Nat}
    {dentry : Vfs.Dentry} (live : kernel.vfs.dentries id = some dentry) {position : Nat}
    (among : position ≤ dentry.children.length) : InRange tree (position % 2 ^ 64) := by
  refine ⟨Nat.mod_lt _ (by decide), fun roomy => ?_⟩
  have shaped := kernel.vfs.shape_dentries live
  rw [sound.shape] at shaped
  have few := roomy id _ shaped
  simp only at few
  have smaller := Nat.mod_le position (2 ^ 64)
  omega

theorem listed_short (vfs : Vfs.State) (dentry : Vfs.Dentry) (offset : Nat) :
    ∀ entry ∈ listed vfs dentry offset, entry.name.length ≤ 255 := by
  intro entry member
  obtain ⟨child, _, rfl⟩ := mem_map.mp member
  unfold Vfs.State.dirent
  rw [length_take]
  exact min_le_left _ _

section Calls

variable {tree : Vfs.State} {kernel : State}

variable {file userBuffer count : Nat} {object : Vfs.File} {dentry : Vfs.Dentry}

theorem readEntries_run (wellFormed : Vfs.Tree kernel.vfs)
    (live : kernel.vfs.files file = some object)
    (liveDentry : kernel.vfs.dentries object.dentry = some dentry) :
    (readEntries file).run kernel =
      if kernel.vfs.typeOf object.dentry = some .directory then
        (.ok (listed kernel.vfs dentry object.offset),
          kernel.moved file object (positionAfter dentry object.offset) kernel.mem)
      else (.error (.code (-Vfs.ENOTDIR)), kernel) := by
  obtain ⟨inode, content, points, liveInode⟩ := wellFormed.inode object.dentry dentry liveDentry
  unfold readEntries
  by_cases directory : kernel.vfs.typeOf object.dentry = some .directory
  · rw [if_pos directory]
    have isDirectory : content.type = .directory := by
      rw [Vfs.typeOf_of_live liveDentry points liveInode] at directory
      exact Option.some.inj directory
    have ran := @Ramfs.run_ramfsReaddir _ kernel.fs wellFormed file inode object dentry content live
      liveDentry points liveInode isDirectory maxEntries (by decide)
    have read : (onFs (readDirectory file)).run kernel = _ := run_onFs ran
    rw [run_bind_ok read]
    simp only
    rw [if_neg (by
      rw [length_map, length_take]
      exact not_lt.mpr (min_le_left _ _)), if_neg (by omega), run_pure]
    rfl
  · rw [if_neg directory]
    have ran := @Ramfs.run_ramfsReaddir_file _ kernel.fs wellFormed file object dentry live
      liveDentry directory maxEntries
    have read : (onFs (readDirectory file)).run kernel = _ := run_onFs ran
    rw [run_bind_ok read]
    rfl

/-- The outcome of a call on a directory: some of the entries are delivered.  If
these are not all that were listed, the position goes back behind them. -/
inductive Lists (kernel : State) (file : Nat) (object : Vfs.File) (dentry : Vfs.Dentry)
    (userBuffer count : Nat) : Except (Stop Vfs.Fault) Nat × State → Prop
  | whole {total : Nat} {mem : Memory}
      (copied : Copied userBuffer 0
        (kernel.moved file object (positionAfter dentry object.offset) kernel.mem)
        (recordsFrom (entryType kernel.vfs object.dentry) object.offset
          (listed kernel.vfs dentry object.offset)) total
        (kernel.moved file object (positionAfter dentry object.offset) mem)) :
      Lists kernel file object dentry userBuffer count
        (.ok total, kernel.moved file object (positionAfter dentry object.offset) mem)
  | part {delivered rest : List SimpleDirent} {entry : SimpleDirent} {total : Nat} {code : Int}
      {memCopied mem : Memory}
      (entries : listed kernel.vfs dentry object.offset = delivered ++ entry :: rest)
      (copied : Copied userBuffer 0
        (kernel.moved file object (positionAfter dentry object.offset) kernel.mem)
        (recordsFrom (entryType kernel.vfs object.dentry) object.offset delivered) total
        (kernel.moved file object (positionAfter dentry object.offset) memCopied))
      (stops : Stops userBuffer count total entry
        (recordBytes entry (wrap (object.offset + delivered.length + 1))
          (entryType kernel.vfs object.dentry entry.name))
        (kernel.moved file object (positionAfter dentry object.offset) memCopied) mem code) :
      Lists kernel file object dentry userBuffer count
        (if total ≠ 0 then .ok total else .error (.code code),
          kernel.moved file object (wrap (object.offset + delivered.length)) mem)

theorem sysGetdents64_lists (sound : Sound tree kernel) {fd : Nat}
    (points : kernel.openFiles fd = some file) (live : kernel.vfs.files file = some object)
    (liveDentry : kernel.vfs.dentries object.dentry = some dentry)
    (directory : kernel.vfs.typeOf object.dentry = some .directory) (positive : 0 < count)
    (bounded : count ≤ maxIoSize) : Lists kernel file object dentry userBuffer count
      ((sysGetdents64 fd userBuffer count).run kernel) := by
  have inside := (sound.accounts.slot fd file points).1
  have slot : openSlot kernel fd = .ok file := by
    unfold openSlot
    rw [if_neg (not_le.mpr inside), slotOf_inside inside, points]
    rfl
  have entries := readEntries_run sound.accounts.tree live liveDentry
  rw [if_pos directory] at entries
  have ran : (sysGetdents64 fd userBuffer count).run kernel =
      (writeRecords file userBuffer count object.offset 0 0
        (listed kernel.vfs dentry object.offset)).run
        (kernel.moved file object (positionAfter dentry object.offset) kernel.mem) := by
    unfold sysGetdents64
    rw [run_bind_ok (run_gets _ _)]
    simp only [id]
    rw [slot, run_bind_ok (run_lift _ _), if_neg (not_lt.mpr bounded),
      if_neg (by omega), follow_live live, run_bind_ok (run_lift _ _),
      run_bind_ok entries]
  obtain ⟨delivered, remaining, total, last, split_, copied, ended⟩ :=
    (@writeRecords_delivers file { object with offset := positionAfter dentry object.offset }
      userBuffer count object.offset _ (listed_short kernel.vfs dentry object.offset) 0 0
      (kernel.moved file object (positionAfter dentry object.offset) kernel.mem)
      (sound.moved live (sound.among liveDentry (min_le_left _ _)) kernel.mem).accounts.tree
      (Vfs.store_same)).ends
  obtain ⟨mem, rfl⟩ := copied.memory
  rw [ran]
  cases remaining with
  | nil =>
    rw [append_nil] at split_
    rw [ended]
    rw [← split_] at copied
    exact Lists.whole copied
  | cons entry rest =>
    obtain ⟨memLast, code, stops, outcome⟩ := ended
    rw [outcome]
    have final := kernel.moved_moved file object (positionAfter dentry object.offset)
      (wrap (object.offset + delivered.length)) mem memLast
    rw [add_zero]
    rw [add_zero] at stops
    have part := Lists.part split_ copied stops
    rw [← final] at part
    exact part

theorem length_recordsFrom (types : List UInt8 → UInt8) (position : Nat)
    {entries : List SimpleDirent} (short : ∀ entry ∈ entries, entry.name.length ≤ 255) :
    (recordsFrom types position entries).flatten.length ≤ sizeofRecord * entries.length := by
  induction entries generalizing position with
  | nil => exact zero_le
  | cons entry rest ih =>
    have later := ih (position + 1) (fun other member => short other (.tail _ member))
    have bound := (recordLength_bounds entry.name).2
    have name := short entry (.head _)
    unfold recordsFrom
    rw [flatten_cons, length_append, length_recordBytes, length_cons]
    unfold sizeofRecord sizeofDirentHeader at *
    omega

theorem Stops.negative {total : Nat} {entry : SimpleDirent} {record : List UInt8} {last : State}
    {mem : Memory} {code : Int} (stops : Stops userBuffer count total entry record last mem code) :
    code < 0 := by
  cases stops with
  | short _ => decide
  | fault _ _ => decide

theorem listed_total {types : List UInt8 → UInt8} {position total : Nat} {now last : State}
    {delivered rest : List SimpleDirent} {offset : Nat} {vfs : Vfs.State}
    (entries : listed vfs dentry offset = delivered ++ rest)
    (copied : Copied userBuffer 0 now (recordsFrom types position delivered) total last) :
    total < 2 ^ 63 := by
  have short : ∀ entry ∈ delivered, entry.name.length ≤ 255 := by
    intro entry member
    apply listed_short vfs dentry offset entry
    rw [entries]
    exact mem_append_left _ member
  have bound := length_recordsFrom types position short
  have few : delivered.length ≤ maxEntries := by
    have length := congrArg List.length entries
    unfold listed at length
    rw [length_append, length_map, length_take] at length
    omega
  have total_ := copied.total
  unfold sizeofRecord sizeofDirentHeader maxEntries at *
  omega

theorem Lists.answers (sound : Sound tree kernel) (live : kernel.vfs.files file = some object)
    (liveDentry : kernel.vfs.dentries object.dentry = some dentry) {action : Action Nat}
    (lists : Lists kernel file object dentry userBuffer count (action.run kernel)) :
    Answers kernel kernel action (Kept tree kernel) := by
  intro state isState
  rw [isState]
  generalize action.run kernel = outcome at lists
  cases lists with
  | whole copied =>
    refine ⟨listed_total (append_nil _).symm copied, ?_, rfl⟩
    exact sound.moved live (sound.among liveDentry (min_le_left _ _)) _
  | @part delivered rest entry total code memCopied mem entries copied stops =>
    by_cases nothing : total = 0
    · have noRecord : delivered = [] := by
        have size := copied.total
        cases delivered with
        | nil => rfl
        | cons first others =>
          unfold recordsFrom at size
          rw [flatten_cons, length_append, length_recordBytes] at size
          have bound := (recordLength_bounds first.name).1
          omega
      rw [if_neg (not_not.mpr nothing)]
      refine ⟨code, rfl, stops.negative, ?_⟩
      have position : wrap (object.offset + delivered.length) = object.offset := by
        rw [noRecord]
        exact Nat.mod_eq_of_lt (sound.offset file object live).word
      rw [position, State.moved_back live]
      exact (Same.refl _).setMem mem
    · rw [if_pos nothing]
      refine ⟨listed_total entries copied, ?_, rfl⟩
      refine sound.moved live (sound.among liveDentry ?_) _
      -- something was listed, so the position is among the children
      have length := congrArg List.length entries
      unfold listed at length
      rw [length_map, length_take, length_drop, length_append,
        length_cons] at length
      omega

theorem sysGetdents64_answers (sound : Sound tree kernel) (fd userBuffer count : Nat) :
    Answers kernel kernel (sysGetdents64 fd userBuffer count) (Kept tree kernel) := by
  by_cases onDirectory : ∃ file object, kernel.openFiles fd = some file ∧
      kernel.vfs.files file = some object ∧ kernel.vfs.typeOf object.dentry = some .directory ∧
      0 < count ∧ count ≤ maxIoSize
  · obtain ⟨file, object, points, live, directory, positive, bounded⟩ := onDirectory
    obtain ⟨_, dentry, liveDentry⟩ := sound.accounts.tree.file file object live
    exact (sysGetdents64_lists sound points live liveDentry directory positive bounded).answers
      sound live liveDentry
  · unfold sysGetdents64
    refine .gets ?_
    refine .lift (openSlot_graceful _ fd) (.refl _) ?_
    rintro file ⟨_, points⟩
    obtain ⟨object, dentry, _, _, live, liveDentry, _⟩ := sound.slot points
    refine answers_ite _ (fun _ => answers_fail (by decide) (.refl _)) ?_
    intro bounded
    refine answers_ite _ (fun _ => answers_pure _ ⟨by decide, sound, rfl⟩) ?_
    intro positive
    have other : kernel.vfs.typeOf object.dentry ≠ some .directory := fun directory =>
      onDirectory ⟨file, object, points, live, directory, pos_of_ne_zero positive,
        not_lt.mp bounded⟩
    have entries := readEntries_run sound.accounts.tree live liveDentry
    rw [if_neg other] at entries
    rw [show follow (id kernel).vfs.files file = .ok object from follow_live live]
    refine .step (run_lift _ _) ?_
    intro state isState
    rw [isState, run_bind_error entries]
    exact ⟨-Vfs.ENOTDIR, rfl, by decide, .refl _⟩

end Calls

end Synx.Kernel
