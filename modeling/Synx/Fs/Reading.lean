/-
Reading files and directories of ramfs.  A read gives the bytes from the file's
position on; a listing gives the children from the position on, in the order of
the sibling chain, and moves the position behind the last one it passed.
-/

import Synx.Fs.Loading
import Synx.Fs.References

namespace Synx.Vfs

def State.dirent (vfs : State) (id : Nat) : SimpleDirent :=
  { ino := (((vfs.dentries id).bind Dentry.inode).bind vfs.inodes).elim 0 Inode.ino
    name := ((vfs.dentries id).elim [] Dentry.name).take 255 }

end Synx.Vfs

namespace Synx.Ramfs

open Lib Program List
open Vfs

section Runs

variable {τ : Type} {fs : Fs τ}

variable {id inode : Nat} {file : File} {dentry : Dentry} {object : Inode} {vfs : State}

theorem run_ramfsRead (liveFile : fs.vfs.files id = some file)
    (live : fs.vfs.dentries file.dentry = some dentry) (points : dentry.inode = some inode)
    (liveInode : fs.vfs.inodes inode = some object) (regular : object.type = .regular)
    (sized : object.size = (contents object).length) {offset size : Nat}
    (range : offset < object.size → offset + size < 2 ^ 64) : (ramfsRead id size offset).run fs =
      (.ok ((((contents object).drop offset).take size).length,
        ((contents object).drop offset).take size), fs) := by
  unfold ramfsRead
  rw [run_bind_ok (run_fileOf liveFile), run_bind_ok (run_dentryOf live),
    run_bind_ok (run_inodeOf points liveInode)]
  simp only
  rw [if_neg (not_not.mpr regular)]
  cases buffer : object.privateData.bind InodeData.buffer with
  | none =>
    have bytes : contents object = [] := by rw [contents, buffer]
    rw [bytes, drop_nil, take_nil]
    rfl
  | some block =>
    obtain ⟨place, data⟩ := block
    have bytes : contents object = data := by rw [contents, buffer]
    simp only
    rw [← bytes]
    by_cases ended : object.size ≤ offset
    · rw [if_pos ended, drop_eq_nil_of_le (by omega), take_nil]
      rfl
    rw [if_neg ended, Nat.mod_eq_of_lt (range (by omega))]
    by_cases clamped : object.size < offset + size
    · rw [if_pos clamped, if_neg (by omega), run_pure]
      have short : ((contents object).drop offset).length = object.size - offset := by
        rw [length_drop, sized]
      rw [take_of_length_le (by omega), take_of_length_le (by omega), short]
    · have inside : ((contents object).drop offset).length = object.size - offset := by
        rw [length_drop, sized]
      rw [if_neg clamped, if_neg (by omega), run_pure, length_take, inside,
        Nat.min_eq_left (by omega)]

theorem setFile_self (live : vfs.files id = some file) : vfs.setFile id (some file) = vfs := by
  unfold State.setFile
  rw [← live, store_eq_update, Function.update_eq_self]

theorem run_readFile {id inode : Nat} {file : File} {dentry : Dentry} {object : Inode}
    (liveFile : fs.vfs.files id = some file) (live : fs.vfs.dentries file.dentry = some dentry)
    (points : dentry.inode = some inode) (liveInode : fs.vfs.inodes inode = some object)
    (readable : file.flags &&& oWronly = 0) (regular : object.type = .regular)
    (sized : object.size = (contents object).length) {size : Nat}
    (range : file.offset < object.size → file.offset + size < 2 ^ 64) :
    (readFile ramfs id size).run fs =
      (.ok ((((contents object).drop file.offset).take size).length,
          ((contents object).drop file.offset).take size),
        { fs with vfs := fs.vfs.setFile id (some { file with
            offset :=
              file.offset + (((contents object).drop file.offset).take size).length }) }) := by
  have ran := run_ramfsRead liveFile live points liveInode regular sized range
  have length : (((contents object).drop file.offset).take size).length =
      min size (object.size - file.offset) := by
    rw [length_take, length_drop, sized]
  unfold readFile
  rw [run_bind_ok (run_fileOf liveFile), if_neg (not_not.mpr readable)]
  change Program.run (ramfsRead id size file.offset >>= _) fs = _
  rw [run_bind_ok ran]
  simp only
  split
  · rename_i positive
    rw [run_bind_ok (run_fileOf liveFile), run_bind_ok (run_update _ _), run_pure,
      Int.toNat_natCast, Nat.mod_eq_of_lt]
    rw [length] at positive ⊢
    have inside : file.offset < object.size := by omega
    have bounded := range inside
    omega
  · rename_i nothing
    have empty : (((contents object).drop file.offset).take size).length = 0 := by omega
    rw [empty, add_zero, setFile_self liveFile, run_pure]

theorem readFile_ends {id : Nat} {file : File} {dentry : Dentry} (tree : Tree fs.vfs)
    {limit : Nat} (fits : Fits limit fs.vfs) (liveFile : fs.vfs.files id = some file)
    (live : fs.vfs.dentries file.dentry = some dentry) {size : Nat}
    (small : limit + size < 2 ^ 64) :
    ∃ result bytes offset, (readFile ramfs id size).run fs =
        (.ok (result, bytes),
          { fs with vfs := fs.vfs.setFile id (some { file with offset := offset }) }) ∧
      (offset = file.offset ∨ offset ≤ limit) ∧ bytes.length ≤ size ∧
      (0 ≤ result → result = bytes.length) := by
  have unchanged : { fs with vfs := fs.vfs.setFile id (some { file with offset := file.offset }) } =
      fs := by
    rw [setFile_self liveFile]
  obtain ⟨inode, object, points, liveInode⟩ := tree.inode file.dentry dentry live
  obtain ⟨sized, bounded⟩ := fits inode object liveInode
  by_cases writeOnly : file.flags &&& oWronly ≠ 0
  · refine ⟨- Vfs.EIO, [], file.offset, ?_, .inl rfl, zero_le, by decide⟩
    unfold readFile
    rw [run_bind_ok (run_fileOf liveFile), if_pos writeOnly, unchanged, run_pure]
  rw [not_not] at writeOnly
  by_cases regular : object.type = .regular
  · have length : (((contents object).drop file.offset).take size).length =
        min size (object.size - file.offset) := by
      rw [length_take, length_drop, sized]
    refine ⟨_, _, _, run_readFile liveFile live points liveInode writeOnly regular sized
      (fun inside => by omega), by omega, by omega, fun _ => rfl⟩
  · have ran : (ramfsRead id size file.offset).run fs = (.ok (-EINVAL, []), fs) := by
      unfold ramfsRead
      rw [run_bind_ok (run_fileOf liveFile), run_bind_ok (run_dentryOf live),
        run_bind_ok (run_inodeOf points liveInode)]
      simp only
      rw [if_pos regular, run_pure]
    refine ⟨-EINVAL, [], file.offset, ?_, .inl rfl, zero_le, by decide⟩
    unfold readFile
    rw [run_bind_ok (run_fileOf liveFile), if_neg (not_not.mpr writeOnly)]
    change Program.run (ramfsRead id size file.offset >>= _) fs = _
    rw [run_bind_ok ran, unchanged]
    rfl

theorem run_writeFile {id : Nat} {file : File} (liveFile : fs.vfs.files id = some file)
    (bytes : List UInt8) : (writeFile ramfs id bytes).run fs = (.ok (- Vfs.EIO), fs) := by
  unfold writeFile
  rw [run_bind_ok (run_fileOf liveFile), run_ite]
  split <;> rfl

/-! ### Listings -/

theorem dirent_of_live (live : vfs.dentries id = some dentry) (points : dentry.inode = some inode)
    (liveInode : vfs.inodes inode = some object) :
    vfs.dirent id = ⟨object.ino, dentry.name.take 255⟩ := by
  unfold State.dirent
  rw [live, Option.bind_some, points, Option.bind_some, liveInode]
  rfl

theorem run_listChildren (tree : Tree fs.vfs) (offset count : Nat) (children : List Nat)
    (live : ∀ id ∈ children, ∃ dentry, fs.vfs.dentries id = some dentry) (index : Nat)
    (written : List SimpleDirent) (room : written.length < count) :
    (listChildren offset count index written children).run fs =
      (.ok (index + min children.length (offset - index + (count - written.length)),
        written ++ ((children.drop (offset - index)).take (count - written.length)).map
          fs.vfs.dirent), fs) := by
  induction children generalizing index written with
  | nil =>
    unfold listChildren
    simp
  | cons child rest ih =>
    have later := ih (fun id member => live id (.tail _ member))
    unfold listChildren
    rw [if_pos room]
    by_cases reached : offset ≤ index
    · obtain ⟨dentry, liveChild⟩ := live child (.head _)
      obtain ⟨inode, object, points, liveInode⟩ := tree.inode child dentry liveChild
      have entry := dirent_of_live liveChild points liveInode
      have none : offset - index = 0 := by omega
      have noneLater : offset - (index + 1) = 0 := by omega
      rw [if_pos reached]
      rw [run_bind_ok (run_dentryOf liveChild), run_bind_ok (run_inodeOf points liveInode)]
      simp only
      rw [run_bind_ok (run_pure _ _), ← entry, none, drop_zero]
      have oneMore : (written ++ [fs.vfs.dirent child]).length = written.length + 1 := by simp
      by_cases full : written.length + 1 < count
      · rw [later (index + 1) _ (by omega), noneLater, oneMore, drop_zero, length_cons]
        have takes : count - written.length = count - (written.length + 1) + 1 := by omega
        rw [takes, take_succ_cons, map_cons, append_assoc, singleton_append]
        congr 3
        omega
      · have last : count - written.length = 1 := by omega
        rw [last, take_succ_cons, take_zero, map_cons, map_nil, length_cons]
        have stops : (listChildren offset count (index + 1) (written ++ [fs.vfs.dirent child])
            rest).run fs = (.ok (index + 1, written ++ [fs.vfs.dirent child]), fs) := by
          unfold listChildren
          cases rest with
          | nil => rfl
          | cons other others =>
            simp only
            rw [if_neg (by omega), run_pure]
        rw [stops]
        congr 3
        omega
    · rw [if_neg reached, run_bind_ok (run_pure _ _), later (index + 1) written room]
      have skips : offset - index = offset - (index + 1) + 1 := by omega
      rw [skips, drop_succ_cons, length_cons]
      congr 3
      omega

theorem run_ramfsReaddir (tree : Tree fs.vfs) {id inode : Nat} {file : File} {dentry : Dentry}
    {object : Inode} (liveFile : fs.vfs.files id = some file)
    (live : fs.vfs.dentries file.dentry = some dentry) (points : dentry.inode = some inode)
    (liveInode : fs.vfs.inodes inode = some object) (directory : object.type = .directory)
    {count : Nat} (positive : 0 < count) :
    (ramfsReaddir id count).run fs =
      (.ok ((((dentry.children.drop file.offset).take count).length : Int),
          ((dentry.children.drop file.offset).take count).map fs.vfs.dirent),
        { fs with vfs := fs.vfs.setFile id (some { file with
            offset := min dentry.children.length (file.offset + count) % 2 ^ 64 }) }) := by
  have listed := run_listChildren tree file.offset count dentry.children (fun child member => by
    obtain ⟨below, liveChild, _⟩ := tree.child file.dentry dentry child live member
    exact ⟨below, liveChild⟩) 0 [] positive
  unfold ramfsReaddir
  rw [run_bind_ok (run_fileOf liveFile), run_bind_ok (run_dentryOf live),
    run_bind_ok (run_inodeOf points liveInode)]
  simp only
  rw [if_neg (not_not.mpr directory), run_bind_ok listed]
  simp only
  rw [run_bind_ok (run_update _ _), run_pure]
  simp only [zero_add, Nat.sub_zero, length_nil, nil_append, length_map]

theorem run_ramfsReaddir_file (tree : Tree fs.vfs) {id : Nat} {file : File} {dentry : Dentry}
    (liveFile : fs.vfs.files id = some file) (live : fs.vfs.dentries file.dentry = some dentry)
    (other : fs.vfs.typeOf file.dentry ≠ some .directory) (count : Nat) :
    (ramfsReaddir id count).run fs = (.ok (-ENOTDIR, []), fs) := by
  obtain ⟨inode, object, points, liveInode⟩ := tree.inode file.dentry dentry live
  rw [typeOf_of_live live points liveInode] at other
  unfold ramfsReaddir
  rw [run_bind_ok (run_fileOf liveFile), run_bind_ok (run_dentryOf live),
    run_bind_ok (run_inodeOf points liveInode)]
  simp only
  rw [if_pos (fun same => other (congrArg some same)), run_pure]

end Runs

end Synx.Ramfs
