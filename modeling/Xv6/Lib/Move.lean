import Mathlib.Algebra.Group.Nat.Defs
import Mathlib.Logic.Function.Basic

/-!
# Copies within one memory

A memory is a function from addresses, which wrap around, to bytes. `copyUp` and `copyDown` are the
two loops of a copy. `Moved` is what a copy through a temporary leaves. Downwards that is right
when the source starts below the destination. Upwards the source is read after it was overwritten
when the destination starts inside it: what arrives is the part of the source before the
destination, over and over.
-/

namespace Xv6.Lib

variable {w : Nat} {α : Type}

/-- The address `i` places after `p`. -/
def ahead (p : BitVec w) (i : Nat) : BitVec w := p + BitVec.ofNat w i

/-- `n` times `*d++ = *s++`. -/
def copyUp : Nat → BitVec w → BitVec w → (BitVec w → α) → BitVec w → α
  | 0, _, _, m => m
  | n + 1, d, s, m => copyUp n (d + 1) (s + 1) (Function.update m d (m s))

/-- `n` times `*--d = *--s`. -/
def copyDown : Nat → BitVec w → BitVec w → (BitVec w → α) → BitVec w → α
  | 0, _, _, m => m
  | n + 1, d, s, m => copyDown n (d - 1) (s - 1) (Function.update m (d - 1) (m (s - 1)))

/-- `m'` has at `d` the `n` bytes that `m` has at `s`, and is like `m` elsewhere. -/
structure Moved (m m' : BitVec w → α) (d s : BitVec w) (n : Nat) : Prop where
  bytes : ∀ i < n, m' (ahead d i) = m (ahead s i)
  rest : ∀ a, (∀ i < n, a ≠ ahead d i) → m' a = m a

variable {m m' m'' : BitVec w → α} {d s a p q : BitVec w} {i j n : Nat}

@[simp] theorem ahead_zero (p : BitVec w) : ahead p 0 = p := BitVec.add_zero p

theorem ahead_succ (p : BitVec w) (i : Nat) : ahead (p + 1) i = ahead p (i + 1) := by
  unfold ahead
  rw [Nat.add_comm i 1, BitVec.ofNat_add, ← BitVec.add_assoc]
  rfl

theorem ahead_sub_one (p : BitVec w) (i : Nat) : ahead p (i + 1) - 1 = ahead p i := by
  unfold ahead
  rw [BitVec.ofNat_add, ← BitVec.add_assoc]
  exact BitVec.add_sub_cancel _ _

theorem toNat_ahead (h : p.toNat + i < 2 ^ w) : (ahead p i).toNat = p.toNat + i := by
  unfold ahead
  rw [BitVec.toNat_add, BitVec.toNat_ofNat, Nat.mod_eq_of_lt (Nat.lt_of_le_of_lt (Nat.le_add_left ..) h),
    Nat.mod_eq_of_lt h]

theorem ahead_eq_iff (hp : p.toNat + i < 2 ^ w) (hq : q.toNat + j < 2 ^ w) :
    ahead p i = ahead q j ↔ p.toNat + i = q.toNat + j := by
  rw [← toNat_ahead hp, ← toNat_ahead hq]
  exact BitVec.toNat_inj.symm

/-- What a copy leaves is determined. -/
theorem Moved.unique (h : Moved m m' d s n) (h' : Moved m m'' d s n) : m' = m'' := by
  funext a
  by_cases ha : ∃ i < n, a = ahead d i
  · obtain ⟨i, hi, rfl⟩ := ha
    rw [h.bytes i hi, h'.bytes i hi]
  · have hout : ∀ i < n, a ≠ ahead d i := fun i hi hc => ha ⟨i, hi, hc⟩
    rw [h.rest a hout, h'.rest a hout]

/-! ## Upwards -/

/-- The last byte of a copy upwards is read from what the others left. -/
theorem copyUp_succ (n : Nat) (d s : BitVec w) (m : BitVec w → α) : copyUp (n + 1) d s m =
    Function.update (copyUp n d s m) (ahead d n) (copyUp n d s m (ahead s n)) := by
  induction n generalizing d s m with
  | zero =>
    rw [ahead_zero, ahead_zero]
    rfl
  | succ n ih =>
    rw [copyUp, ih, ahead_succ, ahead_succ]
    rfl

theorem copyUp_rest (ha : ∀ i < n, a ≠ ahead d i) : copyUp n d s m a = m a := by
  induction n with
  | zero => rfl
  | succ n ih =>
    rw [copyUp_succ, Function.update_of_ne (ha n (Nat.lt_succ_self n))]
    exact ih fun i hi => ha i (Nat.lt_succ_of_lt hi)

/-- The offset in the source of the byte that arrives at offset `i`. -/
def echo (d s : BitVec w) (i : Nat) : Nat := if s < d then i % (d.toNat - s.toNat) else i

theorem copyUp_bytes (hs : s.toNat + n ≤ 2 ^ w) (hd : d.toNat + n ≤ 2 ^ w) (hi : i < n) :
    copyUp n d s m (ahead d i) = m (ahead s (echo d s i)) := by
  induction n generalizing i with
  | zero => exact absurd hi (Nat.not_lt_zero i)
  | succ n ih =>
    rw [copyUp_succ]
    by_cases hin : i = n
    · subst hin
      rw [Function.update_self]
      by_cases hback : s < d ∧ d.toNat ≤ s.toNat + i
      · -- The byte was overwritten before: it lies `d - s` places back in the destination.
        have hlt : s.toNat < d.toNat := hback.1
        have hat : ahead s i = ahead d (s.toNat + i - d.toNat) :=
          (ahead_eq_iff (by omega) (by omega)).2 (by omega)
        rw [hat, ih (by omega) (by omega) (by omega)]
        unfold echo
        rw [if_pos hback.1, if_pos hback.1, show s.toNat + i - d.toNat = i - (d.toNat - s.toNat) by omega,
          ← Nat.mod_eq_sub_mod (by omega)]
      · have hecho : echo d s i = i := by
          unfold echo
          split
          · next hlt =>
            have hnot : ¬ d.toNat ≤ s.toNat + i := fun hc => hback ⟨hlt, hc⟩
            exact Nat.mod_eq_of_lt (by omega)
          · rfl
        rw [hecho]
        refine copyUp_rest fun j hj hc => hback ?_
        have := (ahead_eq_iff (by omega) (by omega)).1 hc
        exact ⟨BitVec.lt_def.2 (by omega), by omega⟩
    · rw [Function.update_of_ne, ih (by omega) (by omega) (by omega)]
      intro hc
      have := (ahead_eq_iff (by omega) (by omega)).1 hc
      omega

/-- A copy upwards is right exactly when the destination does not start inside the source, or the
source repeats itself at that distance. -/
theorem copyUp_moved_iff (hs : s.toNat + n ≤ 2 ^ w) (hd : d.toNat + n ≤ 2 ^ w) :
    Moved m (copyUp n d s m) d s n ↔ (s < d → ∀ i, i + (d.toNat - s.toNat) < n →
      m (ahead s (i + (d.toNat - s.toNat))) = m (ahead s i)) := by
  constructor
  · intro h hlt i hi
    have hpos : s.toNat < d.toNat := hlt
    have hfar := h.bytes _ hi
    have hnear := h.bytes i (by omega)
    rw [copyUp_bytes hs hd hi] at hfar
    rw [copyUp_bytes hs hd (by omega)] at hnear
    rw [← hfar, ← hnear]
    unfold echo
    rw [if_pos hlt, if_pos hlt, Nat.add_mod_right]
  · intro h
    refine ⟨fun i hi => ?_, fun a ha => copyUp_rest ha⟩
    rw [copyUp_bytes hs hd hi]
    unfold echo
    split
    · next hlt =>
      have hpos : s.toNat < d.toNat := hlt
      -- Go back by whole periods to the part before the destination.
      induction i using Nat.strongRecOn with
      | ind i ih =>
        by_cases hfirst : i < d.toNat - s.toNat
        · rw [Nat.mod_eq_of_lt hfirst]
        · have hback := h hlt (i - (d.toNat - s.toNat)) (by omega)
          rw [Nat.sub_add_cancel (Nat.le_of_not_lt hfirst)] at hback
          rw [Nat.mod_eq_sub_mod (Nat.le_of_not_lt hfirst), ih (i - (d.toNat - s.toNat)) (by omega) (by omega), hback]
    · rfl

/-! ## Downwards -/

/-- From the ends of the ranges downwards, with the source below the destination. -/
theorem copyDown_moved (hd : d.toNat + n ≤ 2 ^ w) (hlt : s ≤ d) :
    Moved m (copyDown n (ahead d n) (ahead s n) m) d s n := by
  have hle : s.toNat ≤ d.toNat := hlt
  induction n generalizing m with
  | zero => exact ⟨fun i hi => absurd hi (Nat.not_lt_zero i), fun _ _ => rfl⟩
  | succ n ih =>
    rw [copyDown, ahead_sub_one, ahead_sub_one]
    have hih := @ih (Function.update m (ahead d n) (m (ahead s n))) (by omega)
    have hne : ∀ i < n, ahead d i ≠ ahead d n ∧ ahead s i ≠ ahead d n := by
      refine fun i hi => ⟨fun hc => ?_, fun hc => ?_⟩
      · have := (ahead_eq_iff (by omega) (by omega)).1 hc
        omega
      · have := (ahead_eq_iff (by omega) (by omega)).1 hc
        omega
    refine ⟨fun i hi => ?_, fun a ha => ?_⟩
    · by_cases hin : i = n
      · rw [hin, hih.rest _ fun j hj hc => (hne j hj).1 hc.symm, Function.update_self]
      · rw [hih.bytes i (by omega), Function.update_of_ne (hne i (by omega)).2]
    · rw [hih.rest a fun i hi => ha i (Nat.lt_succ_of_lt hi), Function.update_of_ne (ha n (Nat.lt_succ_self n))]

end Xv6.Lib
