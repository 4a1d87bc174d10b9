import Mathlib.Algebra.Group.Nat.Defs
import Mathlib.Data.List.Basic

/-!
# Ring buffers with free-running counters

A buffer of `cap` places with two `w`-bit counters that are never reset: `nread` counts the
elements taken out, `nwrite` those put in, both modulo `2 ^ w`. Element `k` is at place
`k % cap`. `Holds R st rt` says that `st` was put in and `rt` taken out so far. The rules need
`cap ∣ 2 ^ w`, without which the place of an element would jump when a counter wraps.
-/

namespace Xv6.Lib

/-- The places beyond `cap` are not used. -/
structure Ring (w : Nat) (α : Type) where
  data : Nat → α
  nread : BitVec w
  nwrite : BitVec w

namespace Ring

variable {w : Nat} {α : Type}

def put (R : Ring w α) (cap : Nat) (a : α) : Ring w α :=
  ⟨Function.update R.data (R.nwrite.toNat % cap) a, R.nread, R.nwrite + 1⟩

def front (R : Ring w α) (cap : Nat) : α := R.data (R.nread.toNat % cap)

def drop (R : Ring w α) : Ring w α := { R with nread := R.nread + 1 }

/-- The element that was put in last. -/
def last (R : Ring w α) (cap : Nat) : α := R.data ((R.nwrite - 1).toNat % cap)

/-- Take the last element back. -/
def takeBack (R : Ring w α) : Ring w α := { R with nwrite := R.nwrite - 1 }

/-- `st` was put in and `rt` taken out. -/
structure Holds (cap : Nat) (R : Ring w α) (st rt : List α) : Prop where
  before : rt <+: st
  room : st.length ≤ rt.length + cap
  nread : R.nread = BitVec.ofNat w rt.length
  nwrite : R.nwrite = BitVec.ofNat w st.length
  data : ∀ k, rt.length ≤ k → (hk : k < st.length) → R.data (k % cap) = st[k]

variable {cap : Nat} {R : Ring w α} {st rt : List α} {a : α}

theorem ofNat_mod (hcap : cap ∣ 2 ^ w) (n : Nat) : (BitVec.ofNat w n).toNat % cap = n % cap := by
  rw [BitVec.toNat_ofNat, Nat.mod_mod_of_dvd _ hcap]

theorem Holds.sub (h : Holds cap R st rt) :
    R.nwrite - R.nread = BitVec.ofNat w (st.length - rt.length) := by
  obtain ⟨d, hd⟩ := Nat.exists_eq_add_of_le h.before.length_le
  rw [h.nread, h.nwrite, hd, Nat.add_sub_cancel_left, BitVec.ofNat_add, BitVec.add_comm,
    BitVec.add_sub_cancel]

/-- The difference of the counters is the number of elements in the buffer. -/
theorem Holds.count (h : Holds cap R st rt) (hcap : cap < 2 ^ w) :
    (R.nwrite - R.nread).toNat = st.length - rt.length := by
  have hroom := h.room
  rw [h.sub, BitVec.toNat_ofNat]
  exact Nat.mod_eq_of_lt (by omega)

theorem Holds.empty_iff (h : Holds cap R st rt) (hcap : cap < 2 ^ w) :
    R.nread = R.nwrite ↔ st.length = rt.length := by
  have hcount := h.count hcap
  have hle := h.before.length_le
  constructor
  · intro e
    rw [e, BitVec.sub_self, BitVec.toNat_zero] at hcount
    omega
  · intro e
    rw [h.nread, h.nwrite, e]

theorem Holds.full_iff (h : Holds cap R st rt) (hcap : cap < 2 ^ w) :
    R.nwrite = R.nread + BitVec.ofNat w cap ↔ st.length = rt.length + cap := by
  have hcount := h.count hcap
  constructor
  · intro e
    rw [e, BitVec.add_comm, BitVec.add_sub_cancel, BitVec.toNat_ofNat, Nat.mod_eq_of_lt hcap] at hcount
    have hle := h.before.length_le
    omega
  · intro e
    rw [h.nread, h.nwrite, e, BitVec.ofNat_add]

/-- Places of elements that are in the buffer at the same time differ. -/
theorem place_ne {k n : Nat} (hk : k < n) (hn : n < k + cap) : k % cap ≠ n % cap := by
  intro e
  have hzero : (n - k) % cap = 0 := Nat.sub_mod_eq_zero_of_mod_eq e.symm
  rw [Nat.mod_eq_of_lt (by omega)] at hzero
  omega

/-- An element goes in where nothing is waiting. -/
theorem Holds.put (h : Holds cap R st rt) (hdvd : cap ∣ 2 ^ w) (hroom : st.length < rt.length + cap)
    (a : α) : Holds cap (R.put cap a) (st ++ [a]) rt := by
  have hplace : R.nwrite.toNat % cap = st.length % cap := by rw [h.nwrite, ofNat_mod hdvd]
  have hlen : (st ++ [a]).length = st.length + 1 := by simp
  refine ⟨h.before.trans (List.prefix_append _ _), by omega, h.nread, ?_, fun k hk hlt => ?_⟩
  · unfold Ring.put
    rw [hlen, BitVec.ofNat_add, h.nwrite]
    rfl
  · unfold Ring.put
    dsimp only
    rw [hplace]
    by_cases e : k = st.length
    · subst e
      rw [Function.update_self, List.getElem_append_right (Nat.le_refl _)]
      simp
    · have hk' : k < st.length := by omega
      rw [Function.update_of_ne (place_ne hk' (by omega)), List.getElem_append_left hk']
      exact h.data k hk hk'

/-- The element that comes out is the next one of those put in. -/
theorem Holds.drop (h : Holds cap R st rt) (hdvd : cap ∣ 2 ^ w) (hne : st.length ≠ rt.length) :
    Holds cap R.drop st (rt ++ [R.front cap]) := by
  have hle := h.before.length_le
  have hlt : rt.length < st.length := by omega
  have hfront : R.front cap = st[rt.length] := by
    unfold Ring.front
    rw [h.nread, ofNat_mod hdvd]
    exact h.data _ (Nat.le_refl _) hlt
  have hlen : (rt ++ [R.front cap]).length = rt.length + 1 := by simp
  have hroom := h.room
  refine ⟨?_, by omega, ?_, h.nwrite, fun k hk hks => h.data k (by omega) hks⟩
  · rw [hfront]
    obtain ⟨u, rfl⟩ := h.before
    cases u with
    | nil => exact absurd (congrArg List.length (List.append_nil rt)) hne
    | cons x u =>
      rw [List.getElem_append_right (Nat.le_refl _)]
      exact ⟨u, by simp⟩
  · unfold Ring.drop
    rw [hlen, BitVec.ofNat_add, h.nread]
    rfl

theorem ofNat_succ_sub_one (n : Nat) : BitVec.ofNat w (n + 1) - 1 = BitVec.ofNat w n := by
  rw [BitVec.ofNat_add]
  exact BitVec.add_sub_cancel ..

/-- The last element, if it has not been taken out. -/
theorem Holds.last (h : Holds cap R (st ++ [a]) rt) (hdvd : cap ∣ 2 ^ w) (hlt : rt.length ≤ st.length) :
    R.last cap = a := by
  have hlen : (st ++ [a]).length = st.length + 1 := by simp
  unfold Ring.last
  rw [h.nwrite, hlen, ofNat_succ_sub_one, ofNat_mod hdvd, h.data st.length hlt (by omega),
    List.getElem_append_right (Nat.le_refl _)]
  simp

theorem Holds.takeBack (h : Holds cap R (st ++ [a]) rt) (hbefore : rt <+: st) : Holds cap R.takeBack st rt := by
  have hlen : (st ++ [a]).length = st.length + 1 := by simp
  have hroom := h.room
  refine ⟨hbefore, by omega, h.nread, ?_, fun k hk hlt => ?_⟩
  · unfold Ring.takeBack
    rw [h.nwrite, hlen, ofNat_succ_sub_one]
  · have hsame : (st ++ [a])[k] = st[k] := List.getElem_append_left hlt
    rw [← hsame]
    exact h.data k hk (by omega)

end Ring

end Xv6.Lib
