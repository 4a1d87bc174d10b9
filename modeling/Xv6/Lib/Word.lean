import Mathlib.Data.Nat.Bitwise
import Mathlib.Tactic.IntervalCases

/-!
# 32-bit words that carry a page number and twelve flag bits

Page table entries and swap table entries have the same shape: bits 31..12 are
a page number, bits 11..0 are flags. `pageNo` reads the first part, `has w f`
tests a flag mask. `pageNo` commutes with `|||` and `&&&`, and a word made of a
page number alone has no flag, so an expression built with masks splits into
its two halves.
-/

namespace Xv6.Lib

abbrev Word : Type := BitVec 32

/-- Bits 31..12. -/
def pageNo (w : Word) : Nat := (w >>> 12).toNat

/-- The word of page `n` with no flag set. -/
def pageWord (n : Nat) : Word := BitVec.ofNat 32 (n * 4096)

/-- `w & f` is not zero. -/
def has (w f : Word) : Bool := w &&& f != 0#32

theorem pageNo_eq_div (w : Word) : pageNo w = w.toNat / 4096 := by
  simp [pageNo, BitVec.toNat_ushiftRight, Nat.shiftRight_eq_div_pow]

theorem pageNo_lt (w : Word) : pageNo w < 2 ^ 20 := by
  have := w.isLt
  rw [pageNo_eq_div]
  omega

theorem pageNo_or (v w : Word) : pageNo (v ||| w) = pageNo v ||| pageNo w := by
  simp [pageNo, BitVec.ushiftRight_or_distrib, BitVec.toNat_or]

theorem pageNo_and (v w : Word) : pageNo (v &&& w) = pageNo v &&& pageNo w := by
  simp [pageNo, BitVec.ushiftRight_and_distrib, BitVec.toNat_and]

/-- Masking with a word whose upper half is all ones keeps the page number. -/
theorem pageNo_and_mask (v : Word) {m : Word} (h : pageNo m = 2 ^ 20 - 1) :
    pageNo (v &&& m) = pageNo v := by
  rw [pageNo_and, h, Nat.and_two_pow_sub_one_eq_mod]
  exact Nat.mod_eq_of_lt (pageNo_lt v)

/-- Setting flags keeps the page number. -/
theorem pageNo_or_flag (v : Word) {f : Word} (h : pageNo f = 0) : pageNo (v ||| f) = pageNo v := by
  rw [pageNo_or, h, Nat.or_zero]

theorem pageNo_pageWord {n : Nat} (h : n < 2 ^ 20) : pageNo (pageWord n) = n := by
  rw [pageNo_eq_div, pageWord, BitVec.toNat_ofNat]
  omega

theorem getLsbD_pageWord (n : Nat) {k : Nat} (h : k < 12) : (pageWord n).getLsbD k = false := by
  have h4096 : n * 4096 = 2 ^ 12 * n := by omega
  rw [pageWord, BitVec.getLsbD_ofNat, h4096, Nat.testBit_two_pow_mul]
  simp; omega

theorem has_twoPow (w : Word) {k : Nat} (h : k < 32) :
    has w (BitVec.twoPow 32 k) = w.getLsbD k := by
  have hne : BitVec.twoPow 32 k ≠ 0#32 := by
    intro e
    have := congrArg BitVec.toNat e
    rw [BitVec.toNat_twoPow_of_lt h] at this
    have : 0 < 2 ^ k := Nat.two_pow_pos k
    simp_all
  unfold has
  rw [BitVec.and_twoPow]
  cases w.getLsbD k <;> simp [hne]

theorem has_or (v w : Word) {k : Nat} (hk : k < 32) :
    has (v ||| w) (BitVec.twoPow 32 k) =
      (has v (BitVec.twoPow 32 k) || has w (BitVec.twoPow 32 k)) := by
  simp only [has_twoPow _ hk, BitVec.getLsbD_or]

theorem has_and (v w : Word) {k : Nat} (hk : k < 32) :
    has (v &&& w) (BitVec.twoPow 32 k) =
      (has v (BitVec.twoPow 32 k) && has w (BitVec.twoPow 32 k)) := by
  simp only [has_twoPow _ hk, BitVec.getLsbD_and]

theorem has_bit {j k : Nat} (hj : j < 32) (hk : k < 32) :
    has (BitVec.twoPow 32 j) (BitVec.twoPow 32 k) = decide (j = k) := by
  rw [has_twoPow _ hk, BitVec.getLsbD_twoPow]
  simp [hj]

/-- Clearing bit `j`. -/
theorem has_clear (w : Word) {j k : Nat} (hj : j < 32) (hk : k < 32) :
    has (w &&& ~~~BitVec.twoPow 32 j) (BitVec.twoPow 32 k) =
      (has w (BitVec.twoPow 32 k) && !decide (j = k)) := by
  rw [has_and _ _ hk, has_twoPow (~~~BitVec.twoPow 32 j) hk, BitVec.getLsbD_not,
    BitVec.getLsbD_twoPow]
  simp [hj, hk]

theorem has_zero (f : Word) : has 0 f = false := by simp [has]

/-- A page number alone has no flag below bit 12. -/
theorem has_pageWord (n : Nat) {k : Nat} (h : k < 12) :
    has (pageWord n) (BitVec.twoPow 32 k) = false := by
  rw [has_twoPow _ (by omega), getLsbD_pageWord n h]

/-- `w & ~0xFFF` as an address. -/
theorem toNat_and_not_4095 (w : Word) : (w &&& ~~~0xFFF#32).toNat = pageNo w * 4096 := by
  have hp : pageNo (w &&& ~~~0xFFF#32) = pageNo w := pageNo_and_mask w (by decide)
  have hf : (w &&& ~~~0xFFF#32).toNat % 2 ^ 12 = 0 := by
    apply Nat.eq_of_testBit_eq
    intro i
    rw [Nat.testBit_mod_two_pow, BitVec.testBit_toNat, BitVec.getLsbD_and]
    by_cases hi : i < 12
    · have : (~~~0xFFF#32).getLsbD i = false := by
        interval_cases i <;> decide
      rw [this]
      simp
    · simp [hi]
  rw [pageNo_eq_div] at hp
  omega

end Xv6.Lib
