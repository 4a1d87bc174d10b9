import Mathlib.Data.List.TakeWhile
import Xv6.Fs.DirMap

/-!
# Paths

`skipelem`, called again and again, cuts a path into its components. `Fs.walk` looks components up
one after another on the disk; it is what `namex` is for.
-/

namespace Xv6

open Lib

/-! ## Components -/

/-- The inode that directory `i` holds under `name`. -/
def Fs.entryOf (s : Fs) (i : Nat) (name : List (BitVec 8)) : Option Nat :=
  SlotMap.lookup (dirSlots (s.contents i)) (nameKey name)

/-- The inode reached from `i` by looking up `names` one after another. -/
def Fs.walk (s : Fs) : Nat → List (List (BitVec 8)) → Option Nat
  | i, [] => some i
  | i, name :: names =>
    if (s.dinode i).type = .dir then
      match s.entryOf i name with
      | none => none
      | some j => s.walk j names
    else none

/-- The directory reached by all names but the last, and the last name. -/
def Fs.walkParent (s : Fs) (i : Nat) (names : List (List (BitVec 8))) :
    Option (Nat × List (BitVec 8)) :=
  match names.getLast?, s.walk i names.dropLast with
  | some name, some j => if (s.dinode j).type = .dir then some (j, name) else none
  | _, _ => none

variable {s : Fs} {i j : Nat} {name : List (BitVec 8)} {names : List (List (BitVec 8))}

theorem Fs.walk_file (h : (s.dinode i).type ≠ .dir) : s.walk i (name :: names) = none := by
  rw [Fs.walk, if_neg h]

theorem Fs.walk_missing (hd : (s.dinode i).type = .dir) (h : s.entryOf i name = none) :
    s.walk i (name :: names) = none := by
  rw [Fs.walk, if_pos hd, h]

theorem Fs.walk_entry (hd : (s.dinode i).type = .dir) (h : s.entryOf i name = some j) :
    s.walk i (name :: names) = s.walk j names := by
  rw [Fs.walk, if_pos hd, h]

/-- With more than one name left the walk goes on as for all names. -/
theorem Fs.walkParent_cons (hne : names ≠ []) :
    s.walkParent i (name :: names) =
      match s.walk i [name] with
      | none => none
      | some j => s.walkParent j names := by
  obtain ⟨n, rest, rfl⟩ := List.exists_cons_of_ne_nil hne
  unfold Fs.walkParent
  rw [List.dropLast_cons_cons, List.getLast?_cons_cons]
  by_cases hd : (s.dinode i).type = .dir
  · cases he : s.entryOf i name with
    | none =>
      rw [Fs.walk_missing hd he, Fs.walk_missing hd he]
      split <;> first | rfl | contradiction
    | some j =>
      rw [Fs.walk_entry hd he, Fs.walk_entry hd he]
      rfl
  · rw [Fs.walk_file hd, Fs.walk_file hd]
    split <;> first | rfl | contradiction

end Xv6
