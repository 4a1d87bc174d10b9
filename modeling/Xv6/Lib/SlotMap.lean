import Mathlib.Logic.Basic

/-!
# Finite maps in slots

A list of slots, each empty or holding a key and a value, is a finite map when no key is held
twice. A new key goes into any empty slot or after the last; a key is removed by emptying its slot.
-/

namespace Xv6.Lib.SlotMap

variable {κ ν : Type} {l : List (Option (κ × ν))} {i j : Nat} {k : κ} {v w : ν}

/-- No key is in two slots. -/
def Unique (l : List (Option (κ × ν))) : Prop :=
  ∀ (i j : Nat) (k : κ) (v w : ν), l[i]? = some (some (k, v)) → l[j]? = some (some (k, w)) → i = j

/-- Store in slot `i`, which may be the one after the last. -/
def put (l : List (Option (κ × ν))) (i : Nat) (o : Option (κ × ν)) : List (Option (κ × ν)) :=
  if i < l.length then l.set i o else l ++ [o]

theorem getElem?_put (h : i ≤ l.length) (o : Option (κ × ν)) :
    (put l i o)[j]? = if j = i then some o else l[j]? := by
  unfold put
  split
  · rename_i hlt
    rw [List.getElem?_set]
    by_cases hj : i = j
    · subst hj
      rw [if_pos rfl, if_pos hlt, if_pos rfl]
    · rw [if_neg hj, if_neg (Ne.symm hj)]
  · rename_i hge
    obtain rfl : i = l.length := by omega
    rw [List.getElem?_append]
    split
    · rename_i hlt
      rw [if_neg (by omega)]
    · by_cases hj : j = l.length
      · subst hj
        rw [if_pos rfl, Nat.sub_self]
        rfl
      · rw [if_neg hj, List.getElem?_eq_none (by simp only [List.length_singleton]; omega),
          List.getElem?_eq_none (by omega)]

/-- A slot is emptied. -/
theorem Unique.clear (hu : Unique l) (hi : l[i]? = some (some (k, v))) : Unique (put l i none) := by
  have hle : i ≤ l.length := Nat.le_of_lt (List.getElem?_eq_some_iff.1 hi).1
  intro a b k' x y ha hb
  rw [getElem?_put hle] at ha hb
  split at ha
  · cases ha
  · split at hb
    · cases hb
    · exact hu a b k' x y ha hb

section

variable [DecidableEq κ]

/-- The value of the first slot with key `k`. -/
def lookup (l : List (Option (κ × ν))) (k : κ) : Option ν :=
  l.findSome? fun o => o.bind fun e => if e.1 = k then some e.2 else none

theorem lookup_eq_none : lookup l k = none ↔ ∀ (i : Nat) (v : ν), l[i]? ≠ some (some (k, v)) := by
  unfold lookup
  rw [List.findSome?_eq_none_iff]
  constructor
  · intro h i v hi
    have := h _ (List.mem_of_getElem? hi)
    rw [Option.bind_some, if_pos rfl] at this
    cases this
  · rintro h (_ | ⟨k', v⟩) ho
    · rfl
    · obtain ⟨i, hi⟩ := List.getElem?_of_mem ho
      rw [Option.bind_some, if_neg]
      rintro rfl
      exact h i v hi

theorem exists_of_lookup (h : lookup l k = some v) : ∃ i : Nat, l[i]? = some (some (k, v)) := by
  obtain ⟨o, ho, he⟩ := List.exists_of_findSome?_eq_some h
  obtain ⟨⟨k', w⟩, rfl, hw⟩ := Option.bind_eq_some_iff.1 he
  split at hw
  · rename_i hk
    cases hw
    subst hk
    exact List.getElem?_of_mem ho
  · cases hw

theorem lookup_eq_some (hu : Unique l) : lookup l k = some v ↔ ∃ i : Nat, l[i]? = some (some (k, v)) := by
  refine ⟨exists_of_lookup, fun ⟨i, hi⟩ => ?_⟩
  cases hw : lookup l k with
  | none => exact absurd hi (lookup_eq_none.1 hw i v)
  | some w =>
    obtain ⟨j, hj⟩ := exists_of_lookup hw
    rw [hu j i k w v hj hi, hi] at hj
    cases hj
    rfl

/-- A new key. -/
theorem Unique.insert (hu : Unique l) (hi : l[i]? = some none ∨ i = l.length)
    (hk : lookup l k = none) : Unique (put l i (some (k, v))) := by
  have hle : i ≤ l.length := by
    rcases hi with hi | rfl
    · exact Nat.le_of_lt (List.getElem?_eq_some_iff.1 hi).1
    · exact Nat.le_refl _
  intro a b k' x y ha hb
  rw [getElem?_put hle] at ha hb
  split at ha
  · rename_i hai
    split at hb
    · rename_i hbi
      rw [hai, hbi]
    · cases ha
      exact absurd hb (lookup_eq_none.1 hk b y)
  · split at hb
    · cases hb
      exact absurd ha (lookup_eq_none.1 hk a x)
    · exact hu a b k' x y ha hb

theorem lookup_insert (hu : Unique l) (hi : l[i]? = some none ∨ i = l.length)
    (hk : lookup l k = none) (k' : κ) :
    lookup (put l i (some (k, v))) k' = if k' = k then some v else lookup l k' := by
  have hle : i ≤ l.length := by
    rcases hi with hi | rfl
    · exact Nat.le_of_lt (List.getElem?_eq_some_iff.1 hi).1
    · exact Nat.le_refl _
  have hempty : ∀ e, l[i]? ≠ some (some e) := by
    rcases hi with hi | rfl
    · rw [hi]
      nofun
    · rw [List.getElem?_eq_none (Nat.le_refl _)]
      nofun
  split
  · rename_i he
    subst he
    refine (lookup_eq_some (hu.insert hi hk)).2 ⟨i, ?_⟩
    rw [getElem?_put hle, if_pos rfl]
  · rename_i hne
    refine Option.ext fun x => ?_
    rw [lookup_eq_some (hu.insert hi hk), lookup_eq_some hu]
    refine exists_congr fun j => ?_
    rw [getElem?_put hle]
    split
    · rename_i hj
      subst hj
      refine iff_of_false (fun he => ?_) (hempty _)
      cases he
      exact hne rfl
    · exact Iff.rfl

theorem lookup_clear (hu : Unique l) (hi : l[i]? = some (some (k, v))) (k' : κ) :
    lookup (put l i none) k' = if k' = k then none else lookup l k' := by
  have hle : i ≤ l.length := Nat.le_of_lt (List.getElem?_eq_some_iff.1 hi).1
  split
  · rename_i he
    subst he
    refine lookup_eq_none.2 fun j x hj => ?_
    rw [getElem?_put hle] at hj
    split at hj
    · cases hj
    · rename_i hne
      exact hne (hu j i _ x v hj hi)
  · rename_i hne
    refine Option.ext fun x => ?_
    rw [lookup_eq_some (hu.clear hi), lookup_eq_some hu]
    refine exists_congr fun j => ?_
    rw [getElem?_put hle]
    split
    · rename_i hj
      subst hj
      rw [hi]
      refine iff_of_false nofun fun he => ?_
      cases he
      exact hne rfl
    · exact Iff.rfl

end

end Xv6.Lib.SlotMap
