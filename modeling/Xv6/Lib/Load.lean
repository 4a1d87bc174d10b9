import Xv6.Lib.Word

/-!
# Words at any address

A memory is a function from addresses to bytes. `load m a` is the 32-bit word at the bytes
`a .. a + 3`, least significant first.
-/

namespace Xv6.Lib

variable {m m' : Nat → BitVec 8} {a b : Nat}

def load (m : Nat → BitVec 8) (a : Nat) : Word := m (a + 3) ++ m (a + 2) ++ m (a + 1) ++ m a

def store (m : Nat → BitVec 8) (a : Nat) (w : Word) : Nat → BitVec 8 := fun x =>
  if a ≤ x ∧ x < a + 4 then w.extractLsb' (8 * (x - a)) 8 else m x

theorem load_congr (h : ∀ x, a ≤ x → x < a + 4 → m' x = m x) : load m' a = load m a := by
  unfold load
  rw [h (a + 3) (by omega) (by omega), h (a + 2) (by omega) (by omega), h (a + 1) (by omega) (by omega),
    h a (by omega) (by omega)]

theorem load_store_of_disjoint (h : a + 4 ≤ b ∨ b + 4 ≤ a) (w : Word) : load (store m b w) a = load m a := by
  refine load_congr fun x hx hx' => if_neg ?_
  omega

theorem load_store_self (m : Nat → BitVec 8) (a : Nat) (w : Word) : load (store m a w) a = w := by
  have hbyte : ∀ i, i < 4 → store m a w (a + i) = w.extractLsb' (8 * i) 8 := by
    intro i hi
    unfold store
    rw [if_pos (by omega), Nat.add_sub_cancel_left]
  unfold load
  rw [hbyte 3 (by omega), hbyte 2 (by omega), hbyte 1 (by omega), show store m a w a = w.extractLsb' 0 8 from hbyte 0 (by omega)]
  refine BitVec.eq_of_getLsbD_eq fun k hk => ?_
  simp only [BitVec.getLsbD_append, BitVec.getLsbD_extractLsb']
  by_cases h0 : k < 8
  · rw [if_pos h0, Nat.zero_add, decide_eq_true h0, Bool.true_and]
  by_cases h1 : k - 8 < 8
  · rw [if_neg h0, if_pos h1, decide_eq_true h1, Bool.true_and, show 8 * 1 + (k - 8) = k by omega]
  by_cases h2 : k - 8 - 8 < 8
  · rw [if_neg h0, if_neg h1, if_pos h2, decide_eq_true h2, Bool.true_and, show 8 * 2 + (k - 8 - 8) = k by omega]
  · rw [if_neg h0, if_neg h1, if_neg h2, show 8 * 3 + (k - 8 - 8 - 8) = k by omega, decide_eq_true (by omega),
      Bool.true_and]

end Xv6.Lib
