import Mathlib.Data.List.GetD

/-!
# Strings in memory

A C string is the bytes from an address up to the first NUL.
-/

namespace Xv6.Lib

/-- The string at `p`, if it is shorter than `k`. -/
def cstr (b : Nat → BitVec 8) : Nat → Nat → List (BitVec 8)
  | 0, _ => []
  | k + 1, p => if b p = 0 then [] else b p :: cstr b k (p + 1)

variable {b b' : Nat → BitVec 8} {p k : Nat} {t : List (BitVec 8)}

/-- The string `t` is at `p`. -/
structure Str (b : Nat → BitVec 8) (p : Nat) (t : List (BitVec 8)) : Prop where
  byte : ∀ i, i < t.length → b (p + i) = t.getD i 0
  nul : b (p + t.length) = 0
  text : 0 ∉ t

theorem Str.tail {x : BitVec 8} (h : Str b p (x :: t)) : Str b (p + 1) t := by
  refine ⟨fun i hi => ?_, ?_, fun h0 => h.text (List.mem_cons_of_mem _ h0)⟩
  · have := h.byte (i + 1) (Nat.succ_lt_succ hi)
    rwa [Nat.add_comm i 1, ← Nat.add_assoc, Nat.add_comm 1 i, List.getD_cons_succ] at this
  · have := h.nul
    rwa [List.length_cons, Nat.add_comm t.length 1, ← Nat.add_assoc] at this

theorem Str.head {x : BitVec 8} (h : Str b p (x :: t)) : b p = x := h.byte 0 (Nat.succ_pos _)

theorem cstr_of_str (h : Str b p t) (hk : t.length < k) : cstr b k p = t := by
  induction t generalizing p k with
  | nil =>
    obtain ⟨k, rfl⟩ := Nat.exists_eq_succ_of_ne_zero (Nat.ne_of_gt hk)
    exact if_pos h.nul
  | cons x t ih =>
    obtain ⟨k, rfl⟩ := Nat.exists_eq_succ_of_ne_zero (Nat.ne_of_gt (Nat.lt_of_le_of_lt (Nat.zero_le _) hk))
    have hx : x ≠ 0 := fun h0 => h.text (h0 ▸ List.mem_cons_self)
    rw [cstr, h.head, if_neg hx, ih h.tail (Nat.lt_of_succ_lt_succ hk)]

end Xv6.Lib
