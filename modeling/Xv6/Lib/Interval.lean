import Mathlib.Data.List.Basic
import Mathlib.Data.List.Pairwise

/-!
# Lists of intervals

An interval is a start and a length. `times B x` counts the intervals of `B` that contain `x`; two
lists cover the same points equally often when their `times` agree. Cutting, joining and moving
intervals are then sums, and disjointness is `Once`.
-/

namespace Xv6.Lib

def covers (x : Nat) (b : Nat × Nat) : Bool := decide (b.1 ≤ x ∧ x < b.1 + b.2)

/-- How many intervals contain `x`. -/
def times (B : List (Nat × Nat)) (x : Nat) : Nat := B.countP (covers x)

/-- No point is in two intervals. -/
def Once (B : List (Nat × Nat)) : Prop := ∀ x, times B x ≤ 1

def Disj (a b : Nat × Nat) : Prop := a.1 + a.2 ≤ b.1 ∨ b.1 + b.2 ≤ a.1

variable {B C : List (Nat × Nat)} {a b : Nat × Nat} {x : Nat}

theorem times_cons (b : Nat × Nat) (B : List (Nat × Nat)) (x : Nat) :
    times (b :: B) x = times [b] x + times B x := by
  rw [← List.singleton_append]
  exact List.countP_append

theorem times_append (B C : List (Nat × Nat)) (x : Nat) : times (B ++ C) x = times B x + times C x :=
  List.countP_append

theorem times_single (b : Nat × Nat) (x : Nat) : times [b] x = if b.1 ≤ x ∧ x < b.1 + b.2 then 1 else 0 := by
  unfold times covers
  rw [List.countP_singleton]
  split_ifs <;> simp_all

theorem times_perm (h : B.Perm C) (x : Nat) : times B x = times C x := h.countP_eq _

/-- An interval cut in two. -/
theorem times_join (s n k x : Nat) : times [(s, n + k)] x = times [(s, n)] x + times [(s + n, k)] x := by
  rw [times_single, times_single, times_single]
  dsimp only
  split_ifs <;> omega

theorem times_pos_of_mem (hb : b ∈ B) (h1 : b.1 ≤ x) (h2 : x < b.1 + b.2) : 0 < times B x :=
  List.countP_pos_iff.2 ⟨b, hb, decide_eq_true ⟨h1, h2⟩⟩

theorem exists_of_times_pos (h : 0 < times B x) : ∃ b ∈ B, b.1 ≤ x ∧ x < b.1 + b.2 := by
  obtain ⟨b, hb, hx⟩ := List.countP_pos_iff.1 h
  exact ⟨b, hb, of_decide_eq_true hx⟩

theorem Disj.symm (h : Disj a b) : Disj b a := Or.symm h

instance : Std.Symm Disj := ⟨fun _ _ h => h.symm⟩

/-- Intervals that share no point are disjoint. -/
theorem Once.pairwise : ∀ {B : List (Nat × Nat)}, Once B → (∀ b ∈ B, 0 < b.2) → B.Pairwise Disj
  | [], _, _ => .nil
  | b :: B, h, hpos => by
    have hB : Once B := by
      intro x
      have := h x
      rw [times_cons] at this
      omega
    refine .cons (fun c hc => ?_) (Once.pairwise hB fun c hc => hpos c (List.mem_cons_of_mem _ hc))
    by_contra hmeet
    unfold Disj at hmeet
    have hb := hpos b List.mem_cons_self
    have hc' := hpos c (List.mem_cons_of_mem _ hc)
    -- The later start is in both.
    have hx := h (max b.1 c.1)
    have hin := times_pos_of_mem (x := max b.1 c.1) hc (Nat.le_max_right ..) (by omega)
    rw [times_cons, times_single, if_pos (by omega)] at hx
    omega

end Xv6.Lib
