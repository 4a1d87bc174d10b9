import Mathlib.Logic.Function.Basic
import Mathlib.Data.List.Basic

/-!
# Packing a table in place

A loop runs over a table `P` and moves every entry that is taken to the first place not yet
used, leaving `z` behind. `Compacted P T taken z i` describes the table `T` it has made of `P`
when the entries below `i` are done.
-/

namespace Xv6.Lib

variable {α : Type} {P T : Nat → α} {taken : α → Bool} {z : α} {i : Nat}

/-- The indices below `i` with a taken entry, in order. -/
def takenBelow (P : Nat → α) (taken : α → Bool) (i : Nat) : List Nat :=
  (List.range i).filter fun k => taken (P k)

theorem takenBelow_succ (P : Nat → α) (taken : α → Bool) (i : Nat) :
    takenBelow P taken (i + 1) =
      if taken (P i) then takenBelow P taken i ++ [i] else takenBelow P taken i := by
  unfold takenBelow
  rw [List.range_succ, List.filter_append]
  cases h : taken (P i) <;> simp [h]

theorem takenBelow_length_le (P : Nat → α) (taken : α → Bool) (i : Nat) :
    (takenBelow P taken i).length ≤ i := by
  simpa [takenBelow] using List.length_filter_le (fun k => taken (P k)) (List.range i)

theorem mem_takenBelow {k : Nat} : k ∈ takenBelow P taken i ↔ k < i ∧ taken (P k) = true := by
  simp [takenBelow]

/-- `T` is `P` with the taken entries below `i` at the front. -/
structure Compacted (P T : Nat → α) (taken : α → Bool) (z : α) (i : Nat) : Prop where
  front : ∀ (n : Nat) (h : n < (takenBelow P taken i).length),
    T n = P ((takenBelow P taken i).get ⟨n, h⟩)
  gap : ∀ n, (takenBelow P taken i).length ≤ n → n < i → T n = if taken (P n) then z else P n
  rest : ∀ n, i ≤ n → T n = P n

namespace Compacted

theorem start (P : Nat → α) (taken : α → Bool) (z : α) : Compacted P P taken z 0 where
  front n h := absurd h (Nat.not_lt_zero n)
  gap n _ h := absurd h (Nat.not_lt_zero n)
  rest _ _ := rfl

theorem skip (h : Compacted P T taken z i) (hi : taken (P i) = false) :
    Compacted P T taken z (i + 1) := by
  have hl : takenBelow P taken (i + 1) = takenBelow P taken i := by
    rw [takenBelow_succ, hi]
    rfl
  refine ⟨?_, ?_, fun n hn => h.rest n (by omega)⟩
  · rw [hl]
    exact h.front
  · rw [hl]
    intro n h1 h2
    by_cases he : n = i
    · rw [he, h.rest i (Nat.le_refl i), hi]
      rfl
    · exact h.gap n h1 (by omega)

/-- The entry at `i` moves to the end of the front part. -/
theorem move (h : Compacted P T taken z i) (hi : taken (P i) = true) {T' : Nat → α}
    (hT : ∀ n, T' n = if n = (takenBelow P taken i).length then T i else if n = i then z else T n) :
    Compacted P T' taken z (i + 1) := by
  have hl : takenBelow P taken (i + 1) = takenBelow P taken i ++ [i] := by
    rw [takenBelow_succ, hi]
    rfl
  have hlen : (takenBelow P taken (i + 1)).length = (takenBelow P taken i).length + 1 := by
    rw [hl, List.length_append, List.length_singleton]
  have hle := takenBelow_length_le P taken i
  refine ⟨fun n hn => ?_, fun n h1 h2 => ?_, fun n hn => ?_⟩
  · rw [hT n]
    by_cases he : n = (takenBelow P taken i).length
    · rw [if_pos he, h.rest i (Nat.le_refl i)]
      simp [hl, he]
    · have hn' : n < (takenBelow P taken i).length := by omega
      rw [if_neg he, if_neg (by omega), h.front n hn']
      simp [hl, List.getElem_append_left hn']
  · rw [hT n, if_neg (by omega)]
    by_cases he : n = i
    · rw [if_pos he, he, hi]
      rfl
    · rw [if_neg he]
      exact h.gap n (by omega) (by omega)
  · rw [hT n, if_neg (by omega), if_neg (by omega)]
    exact h.rest n (by omega)

/-- The taken entries of the result are a front part of it. -/
theorem taken_eq (h : Compacted P T taken z i) (hz : taken z = false) :
    takenBelow T taken i = List.range (takenBelow P taken i).length := by
  obtain ⟨d, hd⟩ := Nat.exists_eq_add_of_le (takenBelow_length_le P taken i)
  have hfront : ∀ n ∈ List.range (takenBelow P taken i).length, taken (T n) = true := by
    intro n hn
    rw [List.mem_range] at hn
    rw [h.front n hn]
    exact (mem_takenBelow.1 (List.get_mem _ _)).2
  have hback : ∀ n ∈ (List.range d).map ((takenBelow P taken i).length + ·), ¬ taken (T n) = true := by
    intro n hn
    obtain ⟨m, hm, rfl⟩ := List.mem_map.1 hn
    rw [List.mem_range] at hm
    rw [h.gap _ (by omega) (by omega)]
    split
    · rw [hz]
      exact Bool.false_ne_true
    · assumption
  have hsplit : List.range i = List.range (takenBelow P taken i).length ++
      (List.range d).map ((takenBelow P taken i).length + ·) := by
    rw [← List.range_add, ← hd]
  unfold takenBelow at hfront hback hsplit ⊢
  rw [hsplit, List.filter_append, List.filter_eq_self.2 hfront, List.filter_eq_nil_iff.2 hback,
    List.append_nil, ← hsplit]

end Compacted

end Xv6.Lib
