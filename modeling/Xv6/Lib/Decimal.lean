import Mathlib.Data.List.Basic
import Mathlib.Data.Nat.Digits.Defs

/-!
# Decimal numerals

The digits of a number as bytes, most significant first, without leading zeros.
-/

namespace Xv6.Lib

/-- The digit `d`. -/
def digitByte (d : Nat) : BitVec 8 := BitVec.ofNat 8 (48 + d)

/-- The decimal numeral of `n`. -/
def decimal (n : Nat) : List (BitVec 8) :=
  if n = 0 then [digitByte 0] else (Nat.digits 10 n).reverse.map digitByte

variable {m n k : Nat}

theorem digitByte_ne_zero (h : n < 10) : digitByte n ≠ 0 := by
  intro h0
  have := congrArg BitVec.toNat h0
  unfold digitByte at this
  rw [BitVec.toNat_ofNat, Nat.mod_eq_of_lt (by omega)] at this
  exact absurd this (by simp)

theorem digitByte_inj (hm : m < 10) (hn : n < 10) (h : digitByte m = digitByte n) : m = n := by
  have := congrArg BitVec.toNat h
  unfold digitByte at this
  rw [BitVec.toNat_ofNat, BitVec.toNat_ofNat, Nat.mod_eq_of_lt (by omega), Nat.mod_eq_of_lt (by omega)] at this
  omega

theorem decimal_of_lt (h : n < 10) : decimal n = [digitByte n] := by
  unfold decimal
  split
  · next h0 => rw [h0]
  · next h0 => rw [Nat.digits_of_lt 10 n h0 h, List.reverse_singleton, List.map_singleton]

/-- The last digit. -/
theorem decimal_of_le (h : 10 ≤ n) : decimal n = decimal (n / 10) ++ [digitByte (n % 10)] := by
  unfold decimal
  rw [if_neg (by omega), if_neg (by omega), Nat.digits_def' (by decide) (by omega), List.reverse_cons,
    List.map_append, List.map_singleton]

theorem decimal_ne_nil (n : Nat) : decimal n ≠ [] := by
  rcases Nat.lt_or_ge n 10 with h | h
  · rw [decimal_of_lt h]
    exact List.cons_ne_nil _ _
  · rw [decimal_of_le h]
    exact List.append_ne_nil_of_right_ne_nil _ (List.cons_ne_nil _ _)

/-- The numeral does not start with a zero. -/
theorem head_decimal (h : 0 < n) : (decimal n).head? ≠ some (digitByte 0) := by
  induction n using Nat.strong_induction_on with
  | _ n ih =>
    rcases Nat.lt_or_ge n 10 with hlt | hge
    · rw [decimal_of_lt hlt, List.head?_cons]
      exact fun hc => absurd (digitByte_inj hlt (by decide) (Option.some.inj hc)) (Nat.ne_of_gt h)
    · rw [decimal_of_le hge, List.head?_append_of_ne_nil _ (decimal_ne_nil _)]
      exact ih (n / 10) (Nat.div_lt_self h (by decide)) (by omega)

/-- A number with at most `k + 1` digits. -/
theorem length_decimal_le_iff : (decimal n).length ≤ k + 1 ↔ n < 10 ^ (k + 1) := by
  induction k generalizing n with
  | zero =>
    rcases Nat.lt_or_ge n 10 with h | h
    · rw [decimal_of_lt h]
      exact iff_of_true (Nat.le_refl _) h
    · rw [decimal_of_le h, List.length_append]
      have := List.length_pos_iff.2 (decimal_ne_nil (n / 10))
      refine iff_of_false ?_ (Nat.not_lt.2 h)
      rw [List.length_singleton]
      omega
  | succ k ih =>
    rcases Nat.lt_or_ge n 10 with h | h
    · rw [decimal_of_lt h]
      refine iff_of_true (Nat.le_add_left ..) (h.trans_le ?_)
      exact Nat.le_self_pow (Nat.succ_ne_zero _) 10
    · rw [decimal_of_le h, List.length_append, List.length_singleton, Nat.add_le_add_iff_right, ih,
        Nat.pow_succ 10 (k + 1), Nat.div_lt_iff_lt_mul (by decide)]

theorem decimal_injective : Function.Injective decimal := by
  intro m
  induction m using Nat.strong_induction_on with
  | _ m ih =>
    intro n h
    have hlen := congrArg List.length h
    rcases Nat.lt_or_ge m 10 with hm | hm
    · have hn : n < 10 := by
        have hone : (decimal n).length ≤ 0 + 1 := by rw [← hlen, decimal_of_lt hm]; exact Nat.le_refl _
        exact length_decimal_le_iff.1 hone
      rw [decimal_of_lt hm, decimal_of_lt hn] at h
      exact digitByte_inj hm hn (List.cons.inj h).1
    · have hn : 10 ≤ n := by
        by_contra hlt
        have hone : (decimal m).length ≤ 0 + 1 := by
          rw [hlen, decimal_of_lt (Nat.lt_of_not_le hlt)]
          exact Nat.le_refl _
        exact absurd (length_decimal_le_iff.1 hone) (Nat.not_lt.2 hm)
      rw [decimal_of_le hm, decimal_of_le hn] at h
      obtain ⟨hdiv, hmod⟩ := List.append_inj' h rfl
      have hq := ih (m / 10) (Nat.div_lt_self (by omega) (by decide)) hdiv
      have hr := digitByte_inj (Nat.mod_lt _ (by decide)) (Nat.mod_lt _ (by decide)) (List.cons.inj hmod).1
      omega

theorem mem_decimal {x : BitVec 8} (h : x ∈ decimal n) : ∃ d, d < 10 ∧ x = digitByte d := by
  induction n using Nat.strong_induction_on with
  | _ n ih =>
    rcases Nat.lt_or_ge n 10 with hlt | hge
    · rw [decimal_of_lt hlt, List.mem_singleton] at h
      exact ⟨n, hlt, h⟩
    · rw [decimal_of_le hge, List.mem_append, List.mem_singleton] at h
      rcases h with h | h
      · exact ih (n / 10) (Nat.div_lt_self (by omega) (by decide)) h
      · exact ⟨n % 10, Nat.mod_lt _ (by decide), h⟩

end Xv6.Lib
