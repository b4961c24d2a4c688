/-
`dentry_path` and `path_walk` are inverse.
-/

import Synx.Fs.Canonical
import Synx.Fs.OpenWalk
import Synx.Kernel.Resolution

namespace Synx.Kernel

open Lib Program
open Ramfs (ramfs endless smallFs)
open Vfs (Fs Heap Located Proper ProperTree UniqueNames canonicalPath dot slash)

/-- The buffer holds the canonical path and its end, has the bytes it had behind
them, and `path_walk` of the path returns the dentry. -/
structure Rendered {τ : Type} (heap : Heap τ) (fs : Fs τ) (id : Nat) (names : List Vfs.Name)
    (path buffer : List UInt8) : Prop where
  written : buffer = canonicalPath names ++ 0 :: path.drop ((canonicalPath names).length + 1)
  size : buffer.length = path.length
  text : cString buffer = .ok (canonicalPath names)
  back : (Vfs.pathWalk heap ramfs (canonicalPath names)).run fs =
    (.ok id, fs.adjust (Pi.single id 1))

section

variable {τ : Type} (heap : Heap τ) {fs : Fs τ} {root id : Nat} {names : List Vfs.Name}

theorem pathWalk_canonicalPath (proper : ProperTree fs.vfs root)
    (located : Located fs.vfs id names) :
    (Vfs.pathWalk heap ramfs (canonicalPath names)).run fs =
      (.ok id, fs.adjust (Pi.single id 1)) := by
  have ends := @Ramfs.pathWalk_ends _ heap fs proper.tree (canonicalPath names)
  rw [proper.resolve located] at ends
  exact ends.1

theorem rendered_of_fits (proper : ProperTree fs.vfs root) (located : Located fs.vfs id names)
    {path : List UInt8} (fits : (canonicalPath names).length < path.length) :
    Rendered heap fs id names path
      (canonicalPath names ++ 0 :: path.drop ((canonicalPath names).length + 1)) := by
  have strings : ∀ name ∈ names, (0 : UInt8) ∉ name :=
    fun name member => (proper.all_proper located name member).string
  refine ⟨rfl, ?_, cString_append (Vfs.zero_notMem_canonicalPath strings),
    pathWalk_canonicalPath heap proper located⟩
  rw [List.length_append, List.length_cons, List.length_drop]
  omega

end

/-- `dentry_path` with a buffer of any capacity succeeds exactly when there are two
bytes, at most 128 names and room for the canonical path and its end; then it
writes that path and `path_walk` leads back. -/
theorem dentryPath_inverse {τ : Type} (heap : Heap τ) (fs : Fs τ) (root : Nat)
    (proper : ProperTree fs.vfs root) (id : Nat) (dentry : Vfs.Dentry)
    (live : fs.vfs.dentries id = some dentry) (path : List UInt8) :
    ∃ names, Located fs.vfs id names ∧
      ∃ result buffer, dentryPath fs.vfs id path path.length = .ok (result, buffer) ∧
        (result = 0 ↔ 2 ≤ path.length ∧ names.length ≤ 128 ∧
          (canonicalPath names).length < path.length) ∧
        (result = 0 → Rendered heap fs id names path buffer) := by
  obtain ⟨names, located⟩ := proper.tree.located id live
  have text := proper.pathText located
  refine ⟨names, located, ?_⟩
  by_cases inside : 2 ≤ path.length ∧ names.length ≤ 128 ∧
      (canonicalPath names).length < path.length
  · have written := @dentryPath_located _ _ _ located inside.2.1 path _ rfl inside.1
      (by rw [text]; exact inside.2.2)
    rw [text] at written
    exact ⟨0, _, written, ⟨fun _ => inside, fun _ => rfl⟩,
      fun _ => rendered_of_fits heap proper located inside.2.2⟩
  · obtain ⟨buffer, refused⟩ := @dentryPath_refused _ _ _ located path _ rfl
      (by rw [text]; exact inside)
    refine ⟨errNametoolong, buffer, refused, ⟨fun zero => ?_, fun fits => absurd fits inside⟩,
      fun zero => ?_⟩
    · exact absurd zero (by decide)
    · exact absurd zero (by decide)

/-- The directory `/d` with the empty file `b` in it. -/
def deepFs : Fs Nat :=
  { smallFs with
    vfs := { smallFs.vfs with
      dentries := fun
        | 0 => some ⟨0, [slash], some 0, none, [1], 1⟩
        | 1 => some ⟨0, [100], some 1, some 0, [2], 1⟩
        | 2 => some ⟨0, [98], some 2, some 1, [], 1⟩
        | _ => none
      inodes := fun
        | 0 => some ⟨0, 1, .directory, 0, 1, some ⟨0, none, 0⟩⟩
        | 1 => some ⟨0, 2, .directory, 0, 1, some ⟨0, none, 0⟩⟩
        | 2 => some ⟨0, 3, .regular, 0, 1, some ⟨0, none, 0⟩⟩
        | _ => none
      nextId := 3 } }

theorem deepFs_properTree : ProperTree deepFs.vfs 0 := by
  refine ⟨⟨?_, ?_, ?_, ?_, ?_, ?_, ?_, ?_, ?_, ?_⟩, rfl, ?_, ?_, ?_⟩
  · rintro _ ⟨⟩
    exact ⟨_, rfl, rfl⟩
  · rintro (_ | _ | _ | _) _ ⟨⟩ <;> exact ⟨_, _, rfl, rfl⟩
  · rintro (_ | _ | _ | _) _ _ ⟨⟩ ⟨⟩ <;> exact ⟨by decide, _, rfl, by decide⟩
  · rintro (_ | _ | _ | _) _ below ⟨⟩ member
    · exact ⟨_, by rw [List.mem_singleton.mp member]; rfl, rfl⟩
    · exact ⟨_, by rw [List.mem_singleton.mp member]; rfl, rfl⟩
    · cases member
  · rintro (_ | _ | _ | _) _ ⟨⟩ <;> decide
  · rintro (_ | _ | _ | _) _ ⟨⟩ other
    · exact absurd rfl other
    · exact absurd rfl other
    · rfl
  · rintro (_ | _ | _ | _) _ ⟨⟩ <;> decide
  · rintro (_ | _ | _ | _) _ ⟨⟩ <;> decide
  · rintro (_ | _ | _ | _) _ ⟨⟩ <;> decide
  · rintro _ _ ⟨⟩
  · rintro (_ | _ | _ | _) _ ⟨⟩ ⟨⟩
    rfl
  · rintro (_ | _ | _ | _) _ ⟨⟩ <;> decide
  · rintro (_ | _ | _ | _) _ _ ⟨⟩ ⟨⟩ <;>
      exact ⟨by decide, by decide, by decide, by decide, by decide, by decide⟩

/-- The path `/d/b` and its end fill five bytes. -/
theorem dentryPath_inverse_small :
    ∃ names, Located deepFs.vfs 2 names ∧
      dentryPath deepFs.vfs 2 [1, 2, 3, 4, 5] 5 = .ok (0, [slash, 100, slash, 98, 0]) ∧
      Rendered endless deepFs 2 names [1, 2, 3, 4, 5] [slash, 100, slash, 98, 0] := by
  obtain ⟨names, located, result, buffer, ran, _, rendered⟩ :=
    dentryPath_inverse endless deepFs 0 deepFs_properTree 2 _ rfl [1, 2, 3, 4, 5]
  have value : dentryPath deepFs.vfs 2 [1, 2, 3, 4, 5] 5 =
      .ok (0, [slash, 100, slash, 98, 0]) := by
    decide +kernel
  cases ran.symm.trans value
  exact ⟨names, located, value, rendered rfl⟩

end Synx.Kernel
