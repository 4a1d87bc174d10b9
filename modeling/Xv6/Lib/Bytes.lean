import Mathlib.Logic.Function.Basic
import Xv6.Lib.Word

/-!
# Words and bits in a buffer of bytes

A buffer is a function from offsets to bytes. `getWord d j` is the `j`-th 32-bit word of `d`,
least significant byte first; `testBit d k` is the `k`-th bit, least significant bit of each byte
first. Both come with the two laws of an update: what was written is read, and nothing else
changes.
-/

namespace Xv6.Lib

variable {d : Nat → BitVec 8}

/-- The `j`-th word. -/
def getWord (d : Nat → BitVec 8) (j : Nat) : Word :=
  d (4 * j + 3) ++ d (4 * j + 2) ++ d (4 * j + 1) ++ d (4 * j)

/-- Store `w` as the `j`-th word. -/
def setWord (d : Nat → BitVec 8) (j : Nat) (w : Word) : Nat → BitVec 8 := fun k =>
  if k / 4 = j then w.extractLsb' (8 * (k % 4)) 8 else d k

theorem getWord_setWord_self (d : Nat → BitVec 8) (j : Nat) (w : Word) :
    getWord (setWord d j w) j = w := by
  have h0 : 4 * j / 4 = j := by omega
  have h1 : (4 * j + 1) / 4 = j := by omega
  have h2 : (4 * j + 2) / 4 = j := by omega
  have h3 : (4 * j + 3) / 4 = j := by omega
  unfold getWord setWord
  rw [if_pos h0, if_pos h1, if_pos h2, if_pos h3, show 4 * j % 4 = 0 by omega,
    show (4 * j + 1) % 4 = 1 by omega, show (4 * j + 2) % 4 = 2 by omega,
    show (4 * j + 3) % 4 = 3 by omega]
  refine BitVec.eq_of_getLsbD_eq fun k hk => ?_
  simp only [BitVec.getLsbD_append, BitVec.getLsbD_extractLsb']
  split
  · simp [*]
  · split
    · rw [show 8 * 1 + (k - 8) = k by omega]
      simp [*]
    · split
      · rw [show 8 * 2 + (k - 8 - 8) = k by omega]
        simp [*]
      · rw [show 8 * 3 + (k - 8 - 8 - 8) = k by omega, decide_eq_true (by omega), Bool.true_and]

theorem getWord_setWord_of_ne {i j : Nat} (h : i ≠ j) (w : Word) :
    getWord (setWord d j w) i = getWord d i := by
  unfold getWord setWord
  rw [if_neg (by omega), if_neg (by omega), if_neg (by omega), if_neg (by omega)]

theorem getWord_congr {d' : Nat → BitVec 8} {i j : Nat}
    (h : ∀ r < 4, d (4 * i + r) = d' (4 * j + r)) : getWord d i = getWord d' j := by
  unfold getWord
  rw [h 3 (by omega), h 2 (by omega), h 1 (by omega), show d (4 * i) = d' (4 * j) from h 0 (by omega)]

/-- The buffer with the words `w`. -/
def ofWords (w : Nat → Word) : Nat → BitVec 8 := fun k => (w (k / 4)).extractLsb' (8 * (k % 4)) 8

@[simp] theorem getWord_ofWords (w : Nat → Word) (j : Nat) : getWord (ofWords w) j = w j := by
  refine Eq.trans (getWord_congr fun r hr => ?_) (getWord_setWord_self (fun _ => 0) j (w j))
  have hdiv : (4 * j + r) / 4 = j := by omega
  unfold ofWords setWord
  rw [if_pos hdiv, hdiv]

@[simp] theorem getWord_zero (j : Nat) : getWord (fun _ => 0) j = 0 := by
  change (0#8 ++ 0#8 ++ 0#8 ++ 0#8 : BitVec 32) = 0#32
  decide

/-- The mask of bit `k` in its byte. -/
def bitMask (k : Nat) : BitVec 8 := 1#8 <<< (k % 8)

def testBit (d : Nat → BitVec 8) (k : Nat) : Bool := d (k / 8) &&& bitMask k != 0

def setBit (d : Nat → BitVec 8) (k : Nat) : Nat → BitVec 8 :=
  Function.update d (k / 8) (d (k / 8) ||| bitMask k)

def clearBit (d : Nat → BitVec 8) (k : Nat) : Nat → BitVec 8 :=
  Function.update d (k / 8) (d (k / 8) &&& ~~~bitMask k)

theorem testBit_eq (d : Nat → BitVec 8) (k : Nat) : testBit d k = (d (k / 8)).getLsbD (k % 8) := by
  have hk : k % 8 < 8 := Nat.mod_lt _ (by decide)
  have hmask : bitMask k = BitVec.twoPow 8 (k % 8) := (BitVec.twoPow_eq 8 (k % 8)).symm
  have hne : BitVec.twoPow 8 (k % 8) ≠ 0#8 := by
    intro e
    have := congrArg BitVec.toNat e
    rw [BitVec.toNat_twoPow_of_lt hk] at this
    have : 0 < 2 ^ (k % 8) := Nat.two_pow_pos _
    simp_all
  unfold testBit
  rw [hmask, BitVec.and_twoPow]
  cases (d (k / 8)).getLsbD (k % 8)
  · rfl
  · exact bne_iff_ne.2 hne

theorem getLsbD_bitMask {i k : Nat} (h : i / 8 = k / 8) :
    (bitMask k).getLsbD (i % 8) = decide (i = k) := by
  have hi : i % 8 < 8 := Nat.mod_lt _ (by decide)
  unfold bitMask
  rw [← BitVec.twoPow_eq, BitVec.getLsbD_twoPow, decide_eq_true (Nat.mod_lt k (by decide)),
    Bool.true_and]
  exact decide_eq_decide.2 ⟨fun h' => by omega, fun h' => by rw [h']⟩

theorem testBit_setBit (d : Nat → BitVec 8) (i k : Nat) :
    testBit (setBit d k) i = (testBit d i || decide (i = k)) := by
  rw [testBit_eq, testBit_eq]
  unfold setBit
  by_cases h : i / 8 = k / 8
  · rw [h, Function.update_self, BitVec.getLsbD_or, getLsbD_bitMask h]
  · rw [Function.update_of_ne h, decide_eq_false (fun e => h (by rw [e])), Bool.or_false]

theorem testBit_clearBit (d : Nat → BitVec 8) (i k : Nat) :
    testBit (clearBit d k) i = (testBit d i && !decide (i = k)) := by
  have hi : i % 8 < 8 := Nat.mod_lt _ (by decide)
  rw [testBit_eq, testBit_eq]
  unfold clearBit
  by_cases h : i / 8 = k / 8
  · rw [h, Function.update_self, BitVec.getLsbD_and, BitVec.getLsbD_not, decide_eq_true hi,
      Bool.true_and, getLsbD_bitMask h]
  · rw [Function.update_of_ne h, decide_eq_false (fun e => h (by rw [e])), Bool.not_false,
      Bool.and_true]

/-- The bits of a word are the bits of the buffer. -/
theorem getLsbD_getWord (d : Nat → BitVec 8) (j : Nat) {k : Nat} (hk : k < 32) :
    (getWord d j).getLsbD k = testBit d (32 * j + k) := by
  rw [testBit_eq]
  unfold getWord
  simp only [BitVec.getLsbD_append]
  split
  · rw [show (32 * j + k) / 8 = 4 * j by omega, show (32 * j + k) % 8 = k by omega]
  · split
    · rw [show (32 * j + k) / 8 = 4 * j + 1 by omega, show (32 * j + k) % 8 = k - 8 by omega]
    · split
      · rw [show (32 * j + k) / 8 = 4 * j + 2 by omega, show (32 * j + k) % 8 = k - 8 - 8 by omega]
      · rw [show (32 * j + k) / 8 = 4 * j + 3 by omega, show (32 * j + k) % 8 = k - 8 - 8 - 8 by omega]

/-- The buffer whose first `n` bits are set. -/
def firstBits (n : Nat) : Nat → BitVec 8 := (List.range n).foldl setBit fun _ => 0

theorem testBit_firstBits (n k : Nat) : testBit (firstBits n) k = decide (k < n) := by
  unfold firstBits
  induction n with
  | zero =>
    rw [List.range_zero, List.foldl_nil]
    unfold testBit
    simp
  | succ n ih =>
    rw [List.range_succ, List.foldl_append, List.foldl_cons, List.foldl_nil, testBit_setBit, ih]
    rw [← Bool.decide_or]
    exact decide_eq_decide.2 (by omega)

end Xv6.Lib
