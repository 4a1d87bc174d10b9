import Xv6.Fs.ByteFile
import Xv6.Lib.SlotMap

/-!
# Directories as maps

`dirSlots f` reads the bytes of a directory as slots, keyed by the `DIRSIZ` bytes that `strncpy`
makes of a name: `namecmp` compares exactly these.
-/

namespace Xv6

open Lib

variable {v : Volume} {s s' : Fs} {l L : List Nat} {dp off i k : Nat} {f de name : List (BitVec 8)}

/-! ### Names -/

theorem length_strncpy : ∀ (n : Nat) (p : List (BitVec 8)), (strncpy n p).length = n
  | 0, _ => rfl
  | n + 1, _ => congrArg (· + 1) (length_strncpy n _)

/-- `strncmp` says equal when `strncpy` makes the same bytes. -/
theorem strncmpEq_iff : ∀ (n : Nat) (p q : List (BitVec 8)),
    strncmpEq n p q = true ↔ strncpy n p = strncpy n q
  | 0, _, _ => iff_of_true rfl rfl
  | n + 1, p, q => by
    unfold strncmpEq strncpy
    by_cases hpq : p.headD 0 = q.headD 0
    · by_cases hp : p.headD 0 = 0
      · rw [if_neg fun hc => hc.1 hp, if_pos hp, if_pos (hpq ▸ hp), hpq]
        exact iff_of_true (beq_self_eq_true _) rfl
      · rw [if_pos ⟨hp, hpq⟩, if_neg hp, if_neg (hpq ▸ hp), hpq, strncmpEq_iff n]
        exact (List.cons_inj_right _).symm
    · rw [if_neg fun hc => hpq hc.2]
      exact iff_of_false (by simpa using hpq) fun he => hpq (List.cons.inj he).1

/-- The bytes that stand for a name in a directory. -/
def nameKey (name : List (BitVec 8)) : List (BitVec 8) := strncpy DIRSIZ name

theorem namecmp_iff (p q : List (BitVec 8)) : namecmp p q = true ↔ nameKey p = nameKey q :=
  strncmpEq_iff DIRSIZ p q

theorem strncpy_succ (n : Nat) (p : List (BitVec 8)) :
    strncpy (n + 1) p = p.headD 0 :: strncpy n (if p.headD 0 = 0 then [] else p.tail) := rfl

/-- C strings with one entry name have the same first bytes. -/
theorem take_of_strncpy : ∀ (n : Nat) (p q : List (BitVec 8)), 0 ∉ p → 0 ∉ q → strncpy n p = strncpy n q →
    p.take n = q.take n
  | 0, _, _, _, _, _ => rfl
  | n + 1, p, q, hp, hq, h => by
    rw [strncpy_succ, strncpy_succ] at h
    obtain ⟨hhead, htail⟩ := List.cons.inj h
    match p, q with
    | [], [] => rfl
    | [], y :: q =>
      obtain rfl : 0 = y := hhead
      exact absurd List.mem_cons_self hq
    | x :: p, [] =>
      obtain rfl : x = 0 := hhead
      exact absurd List.mem_cons_self hp
    | x :: p, y :: q =>
      obtain rfl : x = y := hhead
      have hx : x ≠ 0 := fun h0 => hp (h0 ▸ List.mem_cons_self)
      rw [List.headD_cons, List.headD_cons, if_neg hx, if_neg hx, List.tail_cons, List.tail_cons] at htail
      rw [List.take_succ_cons, List.take_succ_cons, take_of_strncpy n p q
        (fun h0 => hp (List.mem_cons_of_mem _ h0)) (fun h0 => hq (List.mem_cons_of_mem _ h0)) htail]

theorem strncpy_idem : ∀ (n : Nat) (p : List (BitVec 8)), strncpy n (strncpy n p) = strncpy n p
  | 0, _ => rfl
  | n + 1, p => by
    rw [strncpy_succ n p, strncpy_succ, List.headD_cons, List.tail_cons]
    by_cases hp : p.headD 0 = 0
    · rw [if_pos hp, if_pos hp]
    · rw [if_neg hp, if_neg hp, strncpy_idem n]

theorem nameKey_idem (name : List (BitVec 8)) : nameKey (nameKey name) = nameKey name :=
  strncpy_idem DIRSIZ name

/-! ### Entries -/

theorem length_dirent (inum : Nat) (name : List (BitVec 8)) : (dirent inum name).length = DIRENT := by
  unfold dirent
  rw [List.length_append, length_strncpy]
  rfl

theorem direntInum_dirent (inum : Nat) (name : List (BitVec 8)) :
    direntInum (dirent inum name) = inum % 2 ^ 16 := by
  have h0 : (dirent inum name).getD 0 0 = BitVec.ofNat 8 inum := rfl
  have h1 : (dirent inum name).getD 1 0 = BitVec.ofNat 8 (inum / 256) := rfl
  unfold direntInum
  rw [h0, h1, BitVec.toNat_ofNat, BitVec.toNat_ofNat]
  omega

/-- What the bytes of an entry hold. -/
def slotOf (de : List (BitVec 8)) : Option (List (BitVec 8) × Nat) :=
  if direntInum de = 0 then none else some (nameKey (de.drop 2), direntInum de)

theorem slotOf_dirent {inum : Nat} (h : 0 < inum) (hlt : inum < 2 ^ 16) (name : List (BitVec 8)) :
    slotOf (dirent inum name) = some (nameKey name, inum) := by
  have hinum : direntInum (dirent inum name) = inum := by
    rw [direntInum_dirent, Nat.mod_eq_of_lt hlt]
  have hname : (dirent inum name).drop 2 = nameKey name := rfl
  unfold slotOf
  rw [hinum, if_neg h.ne', hname, nameKey_idem]

theorem slotOf_zero : slotOf (List.replicate DIRENT 0) = none := by decide

/-- The bytes of the `k`-th entry. -/
def entryBytes (f : List (BitVec 8)) (k : Nat) : List (BitVec 8) := (f.drop (DIRENT * k)).take DIRENT

/-- The entries of a directory. -/
def dirSlots (f : List (BitVec 8)) : List (Option (List (BitVec 8) × Nat)) :=
  (List.range (f.length / DIRENT)).map fun k => slotOf (entryBytes f k)

@[simp] theorem length_dirSlots : (dirSlots f).length = f.length / DIRENT := by
  unfold dirSlots
  rw [List.length_map, List.length_range]

theorem getElem?_dirSlots (hk : k < f.length / DIRENT) :
    (dirSlots f)[k]? = some (slotOf (entryBytes f k)) := by
  unfold dirSlots
  rw [List.getElem?_map, List.getElem?_range hk]
  rfl

theorem length_entryBytes (hk : k < f.length / DIRENT) : (entryBytes f k).length = DIRENT := by
  unfold entryBytes
  rw [List.length_take, List.length_drop]
  simp only [DIRENT] at *
  omega

theorem getD_entryBytes {m : Nat} (hm : m < DIRENT) :
    (entryBytes f k).getD m 0 = f.getD (DIRENT * k + m) 0 := by
  unfold entryBytes
  rw [List.getD_eq_getElem?_getD, List.getElem?_take_of_lt hm, List.getElem?_drop,
    List.getD_eq_getElem?_getD]

/-- Entries are equal when their bytes are. -/
theorem ext_getD {p q : List (BitVec 8)} (hp : p.length = DIRENT) (hq : q.length = DIRENT)
    (h : ∀ m, m < DIRENT → p.getD m 0 = q.getD m 0) : p = q := by
  refine List.ext_getElem (hp.trans hq.symm) fun m hm hm' => ?_
  rw [← List.getD_eq_getElem _ 0 hm, ← List.getD_eq_getElem _ 0 hm']
  exact h m (hp ▸ hm)

/-- Writing one entry, which may be the one after the last. -/
theorem dirSlots_splice (hf : f.length % DIRENT = 0) (hde : de.length = DIRENT)
    (hk : k ≤ f.length / DIRENT) :
    dirSlots (splice f (DIRENT * k) de) = SlotMap.put (dirSlots f) k (slotOf de) := by
  have hoff : DIRENT * k ≤ f.length := by
    simp only [DIRENT] at *
    omega
  have hlen : (splice f (DIRENT * k) de).length / DIRENT = max (f.length / DIRENT) (k + 1) := by
    rw [length_splice hoff, hde]
    simp only [DIRENT] at *
    omega
  refine List.ext_getElem? fun j => ?_
  rw [SlotMap.getElem?_put (by rw [length_dirSlots]; exact hk)]
  by_cases hj : j < max (f.length / DIRENT) (k + 1)
  · have hnew := length_entryBytes (f := splice f (DIRENT * k) de) (k := j) (by rw [hlen]; exact hj)
    rw [getElem?_dirSlots (by rw [hlen]; exact hj)]
    split
    · rename_i hjk
      subst hjk
      refine congrArg (fun e => some (slotOf e)) (ext_getD hnew hde fun m hm => ?_)
      rw [getD_entryBytes hm, getD_splice hoff, hde, if_pos (by omega), Nat.add_sub_cancel_left]
    · rename_i hjk
      rw [getElem?_dirSlots (by omega)]
      refine congrArg (fun e => some (slotOf e)) (ext_getD hnew (length_entryBytes (by omega))
        fun m hm => ?_)
      rw [getD_entryBytes hm, getD_splice hoff, hde, if_neg, getD_entryBytes hm]
      simp only [DIRENT] at *
      omega
  · rw [List.getElem?_eq_none (by rw [length_dirSlots, hlen]; omega), if_neg (by omega),
      List.getElem?_eq_none (by rw [length_dirSlots]; omega)]

end Xv6
