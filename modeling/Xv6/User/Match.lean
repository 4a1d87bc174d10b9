import Mathlib.Data.List.Basic

/-!
# The matcher of `grep`

Strings are the bytes before the NUL. The matcher is compared with a reading of the pattern as a
sequence of items.
-/

namespace Xv6.Grep

abbrev star : BitVec 8 := 42
abbrev dot : BitVec 8 := 46
abbrev dollar : BitVec 8 := 36
abbrev caret : BitVec 8 := 94

/-- The loop of `matchstar`; `here` is `matchhere` for the rest of the pattern. -/
def starLoop (c : BitVec 8) (here : List (BitVec 8) → Bool) : List (BitVec 8) → Bool
  | [] => here []
  | x :: text => if here (x :: text) then true else if x = c ∨ c = dot then starLoop c here text else false

/-- The last test of `matchhere`; `here` is `matchhere` for the rest of the pattern. -/
def oneChar (c : BitVec 8) (here : List (BitVec 8) → Bool) : List (BitVec 8) → Bool
  | [] => false
  | x :: text => if c = dot ∨ c = x then here text else false

def matchhere : List (BitVec 8) → List (BitVec 8) → Bool
  | [], _ => true
  -- After one character `matchhere` is called with the empty pattern.
  | [c], text => if c = dollar then text.isEmpty else oneChar c (fun _ => true) text
  | c :: s :: re, text =>
    if s = star then starLoop c (matchhere re) text else oneChar c (matchhere (s :: re)) text

def matchstar (c : BitVec 8) (re text : List (BitVec 8)) : Bool := starLoop c (matchhere re) text

/-- The loop of `match`. -/
def matchLoop (re : List (BitVec 8)) : List (BitVec 8) → Bool
  | [] => matchhere re []
  | x :: text => if matchhere re (x :: text) then true else matchLoop re text

/-- `match`. -/
def matchText (re text : List (BitVec 8)) : Bool :=
  if re.head? = some caret then matchhere re.tail text else matchLoop re text

/-! ## Patterns -/

inductive Item where
  | one (c : BitVec 8)
  | many (c : BitVec 8)
  /-- The end of the text. -/
  | eot
  deriving DecidableEq, Repr

/-- The items of a pattern. -/
def items : List (BitVec 8) → List Item
  | [] => []
  | [c] => if c = dollar then [.eot] else [.one c]
  | c :: s :: re => if s = star then .many c :: items re else .one c :: items (s :: re)

/-- The characters that `c` stands for. -/
def Stands (c x : BitVec 8) : Prop := c = dot ∨ c = x

/-- The items match `w`, where `rest` follows. -/
def Denotes : List Item → List (BitVec 8) → List (BitVec 8) → Prop
  | [], w, _ => w = []
  | .one c :: is, w, rest => ∃ x w', w = x :: w' ∧ Stands c x ∧ Denotes is w' rest
  | .many c :: is, w, rest => ∃ u w', w = u ++ w' ∧ (∀ x ∈ u, Stands c x) ∧ Denotes is w' rest
  | .eot :: is, w, rest => w = [] ∧ rest = [] ∧ Denotes is w rest

/-! ## The matcher -/

variable {c : BitVec 8} {re text : List (BitVec 8)} {here : List (BitVec 8) → Bool}

theorem starLoop_iff : starLoop c here text = true ↔
    ∃ u t, text = u ++ t ∧ (∀ x ∈ u, Stands c x) ∧ here t = true := by
  induction text with
  | nil =>
    constructor
    · exact fun h => ⟨[], [], rfl, nofun, h⟩
    · rintro ⟨u, t, he, -, ht⟩
      obtain ⟨rfl, rfl⟩ := List.append_eq_nil_iff.1 he.symm
      exact ht
  | cons x text ih =>
    unfold starLoop
    split
    · next h => exact iff_of_true rfl ⟨[], x :: text, rfl, nofun, h⟩
    · next hno =>
      have hx : (x = c ∨ c = dot) ↔ Stands c x := or_comm.trans (or_congr_right eq_comm)
      split
      · next hs =>
        rw [hx] at hs
        rw [ih]
        constructor
        · rintro ⟨u, t, rfl, hu, ht⟩
          exact ⟨x :: u, t, rfl, List.forall_mem_cons.2 ⟨hs, hu⟩, ht⟩
        · rintro ⟨u, t, he, hu, ht⟩
          cases u with
          | nil => exact absurd (he ▸ ht) hno
          | cons y u =>
            obtain ⟨rfl, rfl⟩ := List.cons.inj he
            exact ⟨u, t, rfl, (List.forall_mem_cons.1 hu).2, ht⟩
      · next hs =>
        refine iff_of_false Bool.false_ne_true ?_
        rintro ⟨u, t, he, hu, ht⟩
        cases u with
        | nil => exact hno (he ▸ ht)
        | cons y u =>
          obtain ⟨rfl, -⟩ := List.cons.inj he
          exact hs (hx.2 (List.forall_mem_cons.1 hu).1)

theorem oneChar_iff : oneChar c here text = true ↔ ∃ x t, text = x :: t ∧ Stands c x ∧ here t = true := by
  cases text with
  | nil => exact iff_of_false Bool.false_ne_true nofun
  | cons x text =>
    rw [oneChar]
    split
    · next hs =>
      constructor
      · exact fun h => ⟨x, text, rfl, hs, h⟩
      · rintro ⟨y, t, he, -, ht⟩
        obtain ⟨rfl, rfl⟩ := List.cons.inj he
        exact ht
    · next hs =>
      refine iff_of_false Bool.false_ne_true ?_
      rintro ⟨y, t, he, hy, -⟩
      obtain ⟨rfl, rfl⟩ := List.cons.inj he
      exact hs hy

/-- The text begins with a match of the items. -/
def Begins (is : List Item) (text : List (BitVec 8)) : Prop := ∃ w rest, text = w ++ rest ∧ Denotes is w rest

theorem begins_one {is : List Item} : Begins (.one c :: is) text ↔ ∃ x t, text = x :: t ∧ Stands c x ∧ Begins is t := by
  constructor
  · rintro ⟨w, rest, rfl, x, w', rfl, hs, hd⟩
    exact ⟨x, w' ++ rest, rfl, hs, w', rest, rfl, hd⟩
  · rintro ⟨x, t, rfl, hs, w, rest, rfl, hd⟩
    exact ⟨x :: w, rest, rfl, x, w, rfl, hs, hd⟩

theorem begins_many {is : List Item} : Begins (.many c :: is) text ↔
    ∃ u t, text = u ++ t ∧ (∀ x ∈ u, Stands c x) ∧ Begins is t := by
  constructor
  · rintro ⟨w, rest, rfl, u, w', rfl, hu, hd⟩
    exact ⟨u, w' ++ rest, List.append_assoc .., hu, w', rest, rfl, hd⟩
  · rintro ⟨u, t, rfl, hu, w, rest, rfl, hd⟩
    exact ⟨u ++ w, rest, (List.append_assoc ..).symm, u, w, rfl, hu, hd⟩

theorem begins_eot : Begins [.eot] text ↔ text = [] := by
  constructor
  · rintro ⟨w, rest, rfl, rfl, rfl, -⟩
    rfl
  · rintro rfl
    exact ⟨[], [], rfl, rfl, rfl, rfl⟩

/-- `matchhere` tells whether the text begins with a match. -/
theorem matchhere_iff : ∀ (re text : List (BitVec 8)), matchhere re text = true ↔ Begins (items re) text
  | [], text => iff_of_true rfl ⟨[], text, rfl, rfl⟩
  | [c], text => by
    unfold matchhere items
    split
    · rw [begins_eot, List.isEmpty_iff]
    · rw [oneChar_iff, begins_one]
      exact exists_congr fun x => exists_congr fun t => and_congr_right fun _ => and_congr_right fun _ =>
        iff_of_true rfl ⟨[], t, rfl, rfl⟩
  | c :: s :: re, text => by
    unfold matchhere items
    split
    · rw [starLoop_iff, begins_many]
      exact exists_congr fun u => exists_congr fun t => and_congr_right fun _ => and_congr_right fun _ =>
        matchhere_iff re t
    · rw [oneChar_iff, begins_one]
      exact exists_congr fun x => exists_congr fun t => and_congr_right fun _ => and_congr_right fun _ =>
        matchhere_iff (s :: re) t

theorem matchLoop_iff : matchLoop re text = true ↔ ∃ u t, text = u ++ t ∧ Begins (items re) t := by
  induction text with
  | nil =>
    unfold matchLoop
    rw [matchhere_iff]
    constructor
    · exact fun h => ⟨[], [], rfl, h⟩
    · rintro ⟨u, t, he, ht⟩
      obtain ⟨rfl, rfl⟩ := List.append_eq_nil_iff.1 he.symm
      exact ht
  | cons x text ih =>
    unfold matchLoop
    split
    · next h => exact iff_of_true rfl ⟨[], x :: text, rfl, (matchhere_iff ..).1 h⟩
    · next hno =>
      rw [ih]
      constructor
      · rintro ⟨u, t, rfl, ht⟩
        exact ⟨x :: u, t, rfl, ht⟩
      · rintro ⟨u, t, he, ht⟩
        cases u with
        | nil => exact absurd ((matchhere_iff ..).2 (he ▸ ht)) hno
        | cons y u =>
          obtain ⟨rfl, rfl⟩ := List.cons.inj he
          exact ⟨u, t, rfl, ht⟩

/-- The matcher finds a substring that the pattern denotes: at the beginning if the pattern begins
with `^`, and anywhere if not. -/
theorem matchText_iff (re text : List (BitVec 8)) : matchText re text = true ↔
    ∃ u w rest, text = u ++ w ++ rest ∧
      if re.head? = some caret then u = [] ∧ Denotes (items re.tail) w rest
      else Denotes (items re) w rest := by
  unfold matchText
  split
  · rw [matchhere_iff]
    constructor
    · rintro ⟨w, rest, rfl, hd⟩
      exact ⟨[], w, rest, rfl, rfl, hd⟩
    · rintro ⟨_, w, rest, rfl, rfl, hd⟩
      exact ⟨w, rest, rfl, hd⟩
  · rw [matchLoop_iff]
    constructor
    · rintro ⟨u, _, rfl, w, rest, rfl, hd⟩
      exact ⟨u, w, rest, (List.append_assoc ..).symm, hd⟩
    · rintro ⟨u, w, rest, rfl, hd⟩
      exact ⟨u, w ++ rest, List.append_assoc .., w, rest, rfl, hd⟩

end Xv6.Grep
