import Mathlib.Algebra.BigOperators.Group.Finset.Basic
import Mathlib.Algebra.Order.BigOperators.Group.Finset
import Mathlib.Data.Fintype.BigOperators

/-!
# Counting by sums over an initial segment

Exclusive ownership and "recorded exactly once" are counting statements: a sum
of indicators equals one. An operation of the modelled code changes one term of
such a sum, so the rules here say what happens to a sum when one term changes,
and read single terms and pairs of terms off a bounded sum.
-/

namespace Xv6.Lib

open Finset

/-- The indicator of a proposition. -/
def ind (c : Prop) [Decidable c] : Nat := if c then 1 else 0

@[simp] theorem ind_true {c : Prop} [Decidable c] (h : c) : ind c = 1 := if_pos h

@[simp] theorem ind_false {c : Prop} [Decidable c] (h : ¬ c) : ind c = 0 := if_neg h

theorem ind_le_one (c : Prop) [Decidable c] : ind c ≤ 1 := by
  unfold ind; split <;> omega

theorem ind_pos {c : Prop} [Decidable c] : 0 < ind c ↔ c := by
  unfold ind; split <;> simp_all

theorem ind_congr {c d : Prop} [Decidable c] [Decidable d] (h : c ↔ d) : ind c = ind d := by
  by_cases hc : c
  · rw [ind_true hc, ind_true (h.mp hc)]
  · rw [ind_false hc, ind_false (fun hd => hc (h.mpr hd))]

theorem count_cons_ind (a c : Nat) (l : List Nat) : (a :: l).count c = l.count c + ind (a = c) := by
  rw [List.count_cons]
  by_cases h : a = c <;> simp [h]

/-- Count one more of `i`. -/
def bump (m : Nat → Nat) (i : Nat) : Nat → Nat := fun k => m k + ind (i = k)

theorem bump_self (m : Nat → Nat) (i : Nat) : bump m i i = m i + 1 := by simp [bump]

theorem bump_of_ne (m : Nat → Nat) {i k : Nat} (h : k ≠ i) : bump m i k = m k := by
  simp [bump, Ne.symm h]

variable {n i j : Nat} {g q : Nat → Nat}

/-- Changing the term at `i` changes the sum by the difference. -/
theorem sum_range_change (hi : i < n) (h : ∀ k < n, k ≠ i → q k = g k) :
    ∑ k ∈ range n, q k + g i = ∑ k ∈ range n, g k + q i := by
  have hmem : i ∈ range n := mem_range.mpr hi
  rw [← add_sum_erase _ q hmem, ← add_sum_erase _ g hmem]
  have : ∑ k ∈ (range n).erase i, q k = ∑ k ∈ (range n).erase i, g k := by
    refine sum_congr rfl fun k hk => ?_
    obtain ⟨hne, hk⟩ := mem_erase.mp hk
    exact h k (mem_range.mp hk) hne
  omega

theorem sum_range_congr (h : ∀ k < n, q k = g k) : ∑ k ∈ range n, q k = ∑ k ∈ range n, g k :=
  sum_congr rfl fun k hk => h k (mem_range.mp hk)

theorem sum_range_zero (h : ∀ k < n, g k = 0) : ∑ k ∈ range n, g k = 0 :=
  sum_eq_zero fun k hk => h k (mem_range.mp hk)

theorem sum_range_one (h : ∀ k < n, g k = 1) : ∑ k ∈ range n, g k = n := by
  rw [sum_range_congr h, sum_const, card_range]
  exact Nat.mul_one n

/-- A sum of zeros and ones is at most the number of its terms. -/
theorem sum_range_le (h : ∀ k < n, g k ≤ 1) : ∑ k ∈ range n, g k ≤ n := by
  have hsum := sum_le_sum fun k hk => h k (mem_range.mp hk)
  rwa [sum_range_one (g := fun _ => 1) fun _ _ => rfl] at hsum

theorem term_le_sum (g : Nat → Nat) (hi : i < n) : g i ≤ ∑ k ∈ range n, g k :=
  single_le_sum (f := g) (fun _ _ => Nat.zero_le _) (mem_range.mpr hi)

theorem pair_le_sum (g : Nat → Nat) (hi : i < n) (hj : j < n) (hne : i ≠ j) :
    g i + g j ≤ ∑ k ∈ range n, g k := by
  have hmem : i ∈ range n := mem_range.mpr hi
  have hj' : j ∈ (range n).erase i := mem_erase.mpr ⟨Ne.symm hne, mem_range.mpr hj⟩
  rw [← add_sum_erase _ g hmem]
  have := single_le_sum (f := g) (fun _ _ => Nat.zero_le _) hj'
  omega

/-- A smaller sum that lacks the term at `i`. -/
theorem sum_add_term_le (hi : i < n) (h : ∀ k < n, g k ≤ q k) (h0 : g i = 0) :
    ∑ k ∈ range n, g k + q i ≤ ∑ k ∈ range n, q k := by
  have hmem : i ∈ range n := mem_range.mpr hi
  rw [← add_sum_erase _ g hmem, ← add_sum_erase _ q hmem, h0]
  have : ∑ k ∈ (range n).erase i, g k ≤ ∑ k ∈ (range n).erase i, q k :=
    sum_le_sum fun k hk => h k (mem_range.mp (mem_of_mem_erase hk))
  omega

theorem exists_pos_of_sum_pos (h : 0 < ∑ k ∈ range n, g k) : ∃ i < n, 0 < g i := by
  by_contra hc
  have : ∑ k ∈ range n, g k = 0 := sum_range_zero fun k hk => by
    by_contra h0
    exact hc ⟨k, hk, by omega⟩
  omega

/-- Changing one value of a function changes a sum over all its values by the difference. -/
theorem sum_update {ι α : Type} [Fintype ι] [DecidableEq ι] (v : α → Int) (f : ι → α) (p : ι)
    (x : α) : ∑ r, v (Function.update f p x r) = ∑ r, v (f r) - v (f p) + v x := by
  have hrest : ∑ r ∈ univ.erase p, v (Function.update f p x r) = ∑ r ∈ univ.erase p, v (f r) :=
    sum_congr rfl fun r hr => by rw [Function.update_of_ne (ne_of_mem_erase hr)]
  rw [← add_sum_erase _ _ (mem_univ p), ← add_sum_erase univ (fun r => v (f r)) (mem_univ p), hrest,
    Function.update_self]
  omega

/-- Two functions that differ at one point have sums that differ by those two values. -/
theorem sum_change {ι : Type} [Fintype ι] [DecidableEq ι] {f g : ι → Nat} (p : ι)
    (h : ∀ r, r ≠ p → g r = f r) : ∑ r, g r + f p = ∑ r, f r + g p := by
  have hrest : ∑ r ∈ univ.erase p, g r = ∑ r ∈ univ.erase p, f r :=
    sum_congr rfl fun r hr => h r (ne_of_mem_erase hr)
  rw [← add_sum_erase _ g (mem_univ p), ← add_sum_erase _ f (mem_univ p), hrest]
  omega

end Xv6.Lib
