import Xv6.Swap.Name

/-!
# `atoi` of the user library

`atoi` reads back what `itoa` writes. The sum `n*10 + *s` can leave the range of an `int` at the last
digit; the arithmetic is modulo `2 ^ 32`, and the subtraction brings it back.
-/

namespace Xv6

open Lib

/-- The loop of `atoi`: a `char` is signed. -/
def atoiLoop (b : Nat → BitVec 8) : Nat → Nat → Word → Option Word
  | 0, _, _ => none
  | fuel + 1, s, n =>
    if 48 ≤ (b s).toInt ∧ (b s).toInt ≤ 57 then atoiLoop b fuel (s + 1) (n * 10 + (b s).signExtend 32 - 48)
    else some n

/-- `atoi` of a pointer, which may be null. -/
def atoi (b : Nat → BitVec 8) (fuel : Nat) : Option Nat → Option Word
  | none => some 0
  | some s => atoiLoop b fuel s 0

variable {b : Nat → BitVec 8} {t : List (BitVec 8)} {p d n fuel : Nat} {v : Word}

theorem digitByte_read (h : d < 10) :
    (48 ≤ (digitByte d).toInt ∧ (digitByte d).toInt ≤ 57) ∧
      v * 10 + (digitByte d).signExtend 32 - 48 = v * 10 + BitVec.ofNat 32 d := by
  have hval : ∀ d < 10, (48 ≤ (digitByte d).toInt ∧ (digitByte d).toInt ≤ 57) ∧
      (digitByte d).signExtend 32 = BitVec.ofNat 32 d + 48 := by decide
  obtain ⟨hdigit, hext⟩ := hval d h
  refine ⟨hdigit, ?_⟩
  rw [hext, ← BitVec.add_assoc]
  exact BitVec.add_sub_cancel _ _

/-- A string of digits is read to its NUL. -/
theorem atoiLoop_str (ht : Str b p t) (hd : ∀ x ∈ t, ∃ d, d < 10 ∧ x = digitByte d) (hf : t.length < fuel) :
    atoiLoop b fuel p v = some (t.foldl (fun n x => n * 10 + x.signExtend 32 - 48) v) := by
  induction t generalizing p fuel v with
  | nil =>
    obtain ⟨fuel, rfl⟩ := Nat.exists_eq_succ_of_ne_zero (Nat.ne_of_gt hf)
    have h0 : b p = 0 := ht.nul
    rw [atoiLoop, h0, if_neg (by decide)]
    rfl
  | cons x t ih =>
    obtain ⟨fuel, rfl⟩ := Nat.exists_eq_succ_of_ne_zero (Nat.ne_of_gt (Nat.lt_of_le_of_lt (Nat.zero_le _) hf))
    obtain ⟨d, hlt, rfl⟩ := hd x List.mem_cons_self
    rw [atoiLoop, ht.head, if_pos (digitByte_read (v := v) hlt).1,
      ih ht.tail (fun y hy => hd y (List.mem_cons_of_mem _ hy)) (Nat.lt_of_succ_lt_succ hf)]
    rfl

theorem foldl_decimal (n : Nat) :
    (decimal n).foldl (fun n x => n * 10 + x.signExtend 32 - 48) (0 : Word) = BitVec.ofNat 32 n := by
  induction n using Nat.strong_induction_on with
  | _ n ih =>
    rcases Nat.lt_or_ge n 10 with hlt | hge
    · rw [decimal_of_lt hlt, List.foldl_cons, List.foldl_nil, (digitByte_read hlt).2]
      exact BitVec.zero_add _
    · rw [decimal_of_le hge, List.foldl_append, ih (n / 10) (Nat.div_lt_self (by omega) (by decide)),
        List.foldl_cons, List.foldl_nil, (digitByte_read (Nat.mod_lt n (by decide))).2,
        show (10 : Word) = BitVec.ofNat 32 10 from rfl, ← BitVec.ofNat_mul, ← BitVec.ofNat_add, Nat.div_add_mod']

/-- The string that `itoa` leaves. -/
theorem str_itoa (n : Nat) (b : Nat → BitVec 8) (p : Nat) : Str (itoa n b p) p (decimal n) := by
  refine ⟨fun i hi => ?_, ?_, fun h0 => ?_⟩
  · rw [itoa_eq, if_pos (by omega), Nat.add_sub_cancel_left, List.getD_append _ _ _ _ hi]
  · rw [itoa_eq, if_pos (by omega), Nat.add_sub_cancel_left, List.getD_append_right _ _ _ _ (Nat.le_refl _), Nat.sub_self]
    rfl
  · obtain ⟨d, hd, hx⟩ := mem_decimal h0
    exact digitByte_ne_zero hd hx.symm

theorem atoi_itoa (n : Nat) (b : Nat → BitVec 8) (p : Nat) (hf : (decimal n).length < fuel) :
    atoi (itoa n b p) fuel (some p) = some (BitVec.ofNat 32 n) := by
  rw [atoi, atoiLoop_str (str_itoa n b p) (fun _ hx => mem_decimal hx) hf, foldl_decimal]

/-- `itoa` writes the sign, the digits without leading zeros and the NUL, and nothing else, and
`atoi` reads the number back. -/
theorem itoa_decimal (i : Int) (hi : -2 ^ 31 < i ∧ i < 2 ^ 31) (b : Nat → BitVec 8) (p : Nat) :
    (∀ n : Nat, i = n → (0 < n → (decimal n).head? ≠ some (digitByte 0)) ∧ decimal 0 = [48] ∧
      (∀ k, itoa i b p k =
        if p ≤ k ∧ k ≤ p + (decimal n).length then (decimal n ++ [0]).getD (k - p) 0 else b k) ∧
      ∀ fuel, (decimal n).length < fuel →
        (atoi (itoa i b p) fuel (some p)).map BitVec.toInt = some i) ∧
    (i < 0 → ∀ k, itoa i b p k =
      if p ≤ k ∧ k ≤ p + (decimal i.natAbs).length + 1 then (45 :: decimal i.natAbs ++ [0]).getD (k - p) 0
      else b k) := by
  refine ⟨fun n hn => ?_, fun hneg k => itoa_neg_eq hneg b p k⟩
  subst hn
  refine ⟨head_decimal, decimal_of_lt (by decide), itoa_eq n b p, fun fuel hf => ?_⟩
  rw [atoi_itoa n b p hf, Option.map_some, BitVec.toInt_eq_toNat_of_lt, BitVec.toNat_ofNat,
    Nat.mod_eq_of_lt (by omega)]
  rw [BitVec.toNat_ofNat, Nat.mod_eq_of_lt (by omega)]
  omega

theorem itoa_decimal_largest : (atoi (itoa 2147483647 (fun _ => 1) 8) 32 (some 8)).map BitVec.toInt = some 2147483647 :=
  ((itoa_decimal 2147483647 (by decide) (fun _ => 1) 8).1 2147483647 rfl).2.2.2 32 <| by
    have : (decimal 2147483647).length ≤ 9 + 1 := length_decimal_le_iff.2 (by decide)
    omega

end Xv6
