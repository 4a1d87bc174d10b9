import Mathlib.Data.List.TakeWhile
import Xv6.Fs.DirSlots
import Xv6.Lib.CString
import Xv6.Lib.Decimal

/-!
# The names of swap files

`createSwapFile` and `removeSwapFile` build the path of the swap file in a buffer of `DIGITS` bytes.
It holds the numbers of seven digits.
-/

namespace Xv6

open Lib

abbrev DIGITS : Nat := 14

/-- The first loop of `itoa`: `p` moves to the end of the numeral. -/
def itoaEnd (p shifter : Nat) : Nat :=
  if shifter / 10 = 0 then p + 1 else itoaEnd (p + 1) (shifter / 10)
termination_by shifter
decreasing_by omega

/-- The second loop of `itoa`: `p` moves back, and digits are written. -/
def itoaPut (b : Nat → BitVec 8) (p i : Nat) : Nat → BitVec 8 :=
  if i / 10 = 0 then Function.update b (p - 1) (digitByte (i % 10))
  else itoaPut (Function.update b (p - 1) (digitByte (i % 10))) (p - 1) (i / 10)
termination_by i
decreasing_by omega

/-- `itoa` of an `int` other than the smallest, into the buffer from `p` on. -/
def itoa (i : Int) (b : Nat → BitVec 8) (p : Nat) : Nat → BitVec 8 :=
  if i < 0 then
    let e := itoaEnd (p + 1) i.natAbs
    itoaPut (Function.update (Function.update b p 45) e 0) e i.natAbs
  else
    let e := itoaEnd p i.natAbs
    itoaPut (Function.update b e 0) e i.natAbs

/-- `"/.swap"`. -/
def swapDir : List (BitVec 8) := [47, 46, 115, 119, 97, 112]

/-- The buffer `path`, and the stack that follows it. -/
def swapPath (pid : Nat) (b : Nat → BitVec 8) : Nat → BitVec 8 :=
  itoa pid (fun i => if i < 6 then swapDir.getD i 0 else b i) 6

/-- The string that is in the buffer then. -/
def swapFile (pid : Nat) (b : Nat → BitVec 8) : List (BitVec 8) := cstr (swapPath pid b) 32 0

/-- The name that `nameiparent` takes from the path. -/
def swapName (pid : Nat) (b : Nat → BitVec 8) : List (BitVec 8) :=
  ((skipelem (swapFile pid b)).map Prod.fst).getD []

/-! ## `itoa` -/

variable {b : Nat → BitVec 8} {p i n k pid q : Nat}

theorem itoaEnd_eq (p n : Nat) : itoaEnd p n = p + (decimal n).length := by
  induction n using Nat.strong_induction_on generalizing p with
  | _ n ih =>
    rw [itoaEnd]
    split
    · next h0 => rw [decimal_of_lt (by omega), List.length_singleton]
    · next h0 =>
      have hn : 10 ≤ n := by omega
      rw [ih (n / 10) (by omega), decimal_of_le hn, List.length_append, List.length_singleton]
      omega

/-- The digits end before `p`, and nothing else is written. -/
theorem itoaPut_eq (hp : (decimal n).length ≤ p) (k : Nat) : itoaPut b p n k =
    if p - (decimal n).length ≤ k ∧ k < p then (decimal n).getD (k - (p - (decimal n).length)) 0 else b k := by
  induction n using Nat.strong_induction_on generalizing p b with
  | _ n ih =>
    rw [itoaPut]
    split
    · next h0 =>
      have hn : n < 10 := by omega
      rw [decimal_of_lt hn, List.length_singleton] at hp ⊢
      rw [Nat.mod_eq_of_lt hn]
      by_cases hk : k = p - 1
      · rw [hk, Function.update_self, if_pos (by omega), Nat.sub_self]
        rfl
      · rw [Function.update_of_ne hk, if_neg (by omega)]
    · next h0 =>
      rw [decimal_of_le (by omega), List.length_append, List.length_singleton] at hp ⊢
      rw [ih (n / 10) (by omega) (by omega), show p - 1 - (decimal (n / 10)).length =
        p - ((decimal (n / 10)).length + 1) by omega]
      by_cases hk : k = p - 1
      · have hlast : k - (p - ((decimal (n / 10)).length + 1)) = (decimal (n / 10)).length := by omega
        rw [if_neg (by omega), if_pos (by omega), hlast, List.getD_append_right _ _ _ _ (Nat.le_refl _),
          Nat.sub_self, hk, Function.update_self]
        rfl
      · rw [Function.update_of_ne hk]
        by_cases hin : p - ((decimal (n / 10)).length + 1) ≤ k ∧ k < p - 1
        · rw [if_pos hin, if_pos (by omega), List.getD_append _ _ _ _ (by omega)]
        · rw [if_neg hin, if_neg (by omega)]

/-- The two loops leave the numeral from `p` on with its NUL, and nothing else is written. -/
theorem numeral_eq (n : Nat) (b : Nat → BitVec 8) (p k : Nat) :
    itoaPut (Function.update b (itoaEnd p n) 0) (itoaEnd p n) n k =
      if p ≤ k ∧ k ≤ p + (decimal n).length then (decimal n ++ [0]).getD (k - p) 0 else b k := by
  rw [itoaEnd_eq, itoaPut_eq (Nat.le_add_left ..), Nat.add_sub_cancel]
  by_cases he : k = p + (decimal n).length
  · subst he
    rw [if_neg (by omega), if_pos (by omega), Nat.add_sub_cancel_left, List.getD_append_right _ _ _ _ (Nat.le_refl _),
      Nat.sub_self, Function.update_self]
    rfl
  · rw [Function.update_of_ne he]
    by_cases hin : p ≤ k ∧ k < p + (decimal n).length
    · rw [if_pos hin, if_pos (by omega), List.getD_append _ _ _ _ (by omega)]
    · rw [if_neg hin, if_neg (by omega)]

/-- What `itoa` leaves for a number that is not negative. -/
theorem itoa_eq (n : Nat) (b : Nat → BitVec 8) (p k : Nat) : itoa n b p k =
    if p ≤ k ∧ k ≤ p + (decimal n).length then (decimal n ++ [0]).getD (k - p) 0 else b k := by
  unfold itoa
  rw [if_neg (by omega), Int.natAbs_natCast]
  exact numeral_eq n b p k

/-- What `itoa` leaves for a negative number. -/
theorem itoa_neg_eq {i : Int} (hi : i < 0) (b : Nat → BitVec 8) (p k : Nat) : itoa i b p k =
    if p ≤ k ∧ k ≤ p + (decimal i.natAbs).length + 1 then (45 :: decimal i.natAbs ++ [0]).getD (k - p) 0
    else b k := by
  unfold itoa
  rw [if_pos hi]
  rw [numeral_eq]
  by_cases hk : k = p
  · subst hk
    rw [if_neg (by omega), if_pos (by omega), Nat.sub_self, Function.update_self]
    rfl
  · rw [Function.update_of_ne hk]
    by_cases hin : p ≤ k ∧ k ≤ p + (decimal i.natAbs).length + 1
    · rw [if_pos (by omega), if_pos hin, List.cons_append, show k - p = k - (p + 1) + 1 by omega, List.getD_cons_succ]
    · rw [if_neg (by omega), if_neg hin]

/-! ## The path -/

theorem swapPath_eq (pid : Nat) (b : Nat → BitVec 8) (k : Nat) : swapPath pid b k =
    if k ≤ 6 + (decimal pid).length then (swapDir ++ decimal pid ++ [0]).getD k 0 else b k := by
  have hdir : swapDir.length = 6 := rfl
  unfold swapPath
  rw [itoa_eq, List.append_assoc]
  by_cases h6 : k < 6
  · rw [if_neg (by omega), if_pos h6, if_pos (by omega), List.getD_append _ _ _ _ (hdir ▸ h6)]
  · rw [if_neg h6, List.getD_append_right swapDir _ _ _ (hdir ▸ Nat.le_of_not_lt h6), hdir]
    by_cases hin : k ≤ 6 + (decimal pid).length
    · rw [if_pos ⟨Nat.le_of_not_lt h6, hin⟩, if_pos hin]
    · rw [if_neg fun h => hin h.2, if_neg hin]

theorem not_mem_swap {x : BitVec 8} (hx : x = 0 ∨ x = slash) : x ∉ [46, 115, 119, 97, 112] ++ decimal pid := by
  intro hmem
  rcases List.mem_append.1 hmem with hmem | hmem
  · rcases hx with rfl | rfl
    · exact absurd hmem (by decide)
    · exact absurd hmem (by decide)
  · obtain ⟨d, hd, rfl⟩ := mem_decimal hmem
    have hval : (digitByte d).toNat = 48 + d := by
      unfold digitByte
      rw [BitVec.toNat_ofNat, Nat.mod_eq_of_lt (by omega)]
    rcases hx with hx | hx
    · rw [hx, show (0 : BitVec 8).toNat = 0 from rfl] at hval
      omega
    · rw [hx, show slash.toNat = 47 from rfl] at hval
      omega

theorem swapFile_eq (hpid : pid < 2 ^ 31) (b : Nat → BitVec 8) : swapFile pid b = swapDir ++ decimal pid := by
  have hlen : (decimal pid).length ≤ 9 + 1 := length_decimal_le_iff.2 (by omega)
  have hdir : swapDir.length = 6 := rfl
  refine cstr_of_str ⟨fun i hi => ?_, ?_, ?_⟩ (by rw [List.length_append, hdir]; omega)
  · rw [List.length_append, hdir] at hi
    rw [Nat.zero_add, swapPath_eq, if_pos (Nat.le_of_lt hi), List.getD_append _ _ _ _ (by
      rw [List.length_append, hdir]
      exact hi)]
  · rw [Nat.zero_add, swapPath_eq, List.length_append, hdir, if_pos (Nat.le_refl _),
      List.getD_append_right _ _ _ _ (by rw [List.length_append, hdir]), List.length_append, hdir, Nat.sub_self]
    rfl
  · intro h0
    rcases List.mem_cons.1 (show 0 ∈ 47 :: ([46, 115, 119, 97, 112] ++ decimal pid) from h0) with h0 | h0
    · exact absurd h0 (by decide)
    · exact not_mem_swap (.inl rfl) h0

theorem swapName_eq (hpid : pid < 2 ^ 31) (b : Nat → BitVec 8) :
    swapName pid b = [46, 115, 119, 97, 112] ++ (decimal pid).take 9 := by
  have hne : ∀ x ∈ [46, 115, 119, 97, 112] ++ decimal pid, (x != slash) = true := by
    intro x hx
    rw [bne_iff_ne]
    rintro rfl
    exact not_mem_swap (.inr rfl) hx
  have hdrop : (swapDir ++ decimal pid).dropWhile (· == slash) = [46, 115, 119, 97, 112] ++ decimal pid := rfl
  unfold swapName
  rw [swapFile_eq hpid]
  unfold skipelem
  rw [hdrop]
  change (([46, 115, 119, 97, 112] ++ decimal pid).takeWhile (· != slash)).take DIRSIZ = _
  rw [List.takeWhile_eq_self_iff.2 hne]
  rfl

/-- The first nine digits. -/
theorem take_decimal (hpid : pid < 2 ^ 31) :
    (decimal pid).take 9 = decimal (if pid < 10 ^ 9 then pid else pid / 10) := by
  split
  · next h => rw [List.take_of_length_le (length_decimal_le_iff.2 h)]
  · next h =>
    have hlen : (decimal (pid / 10)).length = 9 := by
      have hle : (decimal (pid / 10)).length ≤ 8 + 1 := length_decimal_le_iff.2 (by omega)
      have hge : ¬ (decimal (pid / 10)).length ≤ 7 + 1 := fun hc => by
        have := length_decimal_le_iff.1 hc
        omega
      omega
    rw [decimal_of_le (by omega), ← hlen, List.take_left]

/-- The number of which the name has the digits. -/
def swapKey (pid : Nat) : Nat := if pid < 10 ^ 9 then pid else pid / 10

theorem namecmp_swapName (hpid : pid < 2 ^ 31) (hq : q < 2 ^ 31) (b b' : Nat → BitVec 8) :
    namecmp (swapName pid b) (nameKey (swapName q b')) = true ↔ swapKey pid = swapKey q := by
  have hnul : ∀ n, 0 ∉ [46, 115, 119, 97, 112] ++ decimal (swapKey n) := fun n => not_mem_swap (.inl rfl)
  rw [namecmp_iff, nameKey_idem, swapName_eq hpid, swapName_eq hq, take_decimal hpid, take_decimal hq]
  constructor
  · intro h
    have htake := take_of_strncpy _ _ _ (hnul pid) (hnul q) h
    have hlen : ∀ n, n < 2 ^ 31 → ([46, 115, 119, 97, 112] ++ decimal (swapKey n)).length ≤ DIRSIZ := by
      intro n hn
      have hkey : (decimal (swapKey n)).length ≤ 8 + 1 := by
        rw [length_decimal_le_iff]
        unfold swapKey
        split <;> omega
      rw [List.length_append]
      exact Nat.add_le_add_left hkey 5
    rw [List.take_of_length_le (hlen pid hpid), List.take_of_length_le (hlen q hq)] at htake
    exact decimal_injective (List.append_cancel_left htake)
  · intro h
    exact congrArg (fun n => nameKey ([46, 115, 119, 97, 112] ++ decimal n)) h

/-- The path fits in the buffer: whatever the stack holds, nothing past the buffer changes. -/
def SwapPathFits (pid : Nat) : Prop := ∀ b k, DIGITS ≤ k → swapPath pid b k = b k

theorem swapPathFits_iff : SwapPathFits pid ↔ pid < 10 ^ 7 := by
  constructor
  · intro h
    by_contra hge
    have hlen : 14 ≤ 6 + (decimal pid).length := by
      have : ¬ (decimal pid).length ≤ 6 + 1 := fun hc => hge (length_decimal_le_iff.1 hc)
      omega
    -- Where the NUL goes there was something else.
    have := h (fun _ => 1) (6 + (decimal pid).length) hlen
    rw [swapPath_eq, if_pos (Nat.le_refl _), List.getD_append_right _ _ _ _ (by
      rw [List.length_append]
      exact Nat.le_refl _), List.length_append, show swapDir.length = 6 from rfl, Nat.sub_self] at this
    exact absurd this (by decide)
  · intro h b k hk
    have hlen : (decimal pid).length ≤ 6 + 1 := length_decimal_le_iff.2 h
    rw [swapPath_eq, if_neg (by simp only [DIGITS] at hk; omega)]

/-- The path of a process fits and its name is unlike that of any other exactly for the numbers of
seven digits. -/
theorem swapPath_safe_iff (pid : Nat) (hpid : 1 ≤ pid ∧ pid < 2 ^ 31) :
    (SwapPathFits pid ∧ ∀ q, 1 ≤ q → q < 2 ^ 31 → q ≠ pid → ∀ b b',
      namecmp (swapName pid b) (nameKey (swapName q b')) = false) ↔ pid < 10 ^ 7 := by
  constructor
  · exact fun h => swapPathFits_iff.1 h.1
  · intro h
    refine ⟨swapPathFits_iff.2 h, fun q _ hq hne b b' => ?_⟩
    rw [← Bool.not_eq_true, namecmp_swapName hpid.2 hq]
    unfold swapKey
    rw [if_pos (by omega)]
    split <;> omega

/-- The first number whose path does not fit: the NUL is the fifteenth byte. -/
theorem swapPath_overflows : swapPath 10000000 (fun _ => 1) 14 = 0 ∧ DIGITS ≤ 14 := by
  have hlen : (decimal 10000000).length = 8 := by
    have hle : (decimal 10000000).length ≤ 7 + 1 := length_decimal_le_iff.2 (by decide)
    have hge : ¬ (decimal 10000000).length ≤ 6 + 1 := fun hc => absurd (length_decimal_le_iff.1 hc) (by decide)
    omega
  refine ⟨?_, Nat.le_refl _⟩
  rw [swapPath_eq, hlen, if_pos (by decide), List.getD_append_right _ _ _ _ (by
    rw [List.length_append, hlen]
    decide), List.length_append, hlen]
  rfl

theorem swapPath_safe_one : SwapPathFits 1 := ((swapPath_safe_iff 1 (by decide)).2 (by decide)).1

end Xv6
