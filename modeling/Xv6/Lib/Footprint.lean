import Mathlib.Data.Finset.Card
import Mathlib.Data.Finset.Lattice.Basic
import Xv6.Lib.Wp

/-!
# Footprints

A system that appends places to a log. `Spends log A n s s'` says that what was appended between
`s` and `s'` lies in `A` and in at most `n` places more: `A` is paid for once, `n` by each step.
-/

namespace Xv6.Lib

variable {σ ι : Type} [DecidableEq ι] {log : σ → List ι} {A C : Finset ι} {n m : Nat} {x : ι}
  {s s1 s2 : σ}

def Spends (log : σ → List ι) (A : Finset ι) (n : Nat) (s s' : σ) : Prop :=
  ∃ B : Finset ι, B.card ≤ n ∧ ∃ new, log s' = log s ++ new ∧ ∀ x ∈ new, x ∈ A ∪ B

namespace Spends

theorem of_eq (h : log s1 = log s) : Spends log A 0 s s1 :=
  ⟨∅, le_rfl, [], by rw [h, List.append_nil], nofun⟩

theorem of_append (h : log s1 = log s ++ [x]) (hx : x ∈ A) : Spends log A 0 s s1 :=
  ⟨∅, le_rfl, [x], h, fun y hy => by rwa [List.mem_singleton.1 hy, Finset.union_empty]⟩

theorem mono (h : Spends log A n s s1) (hA : A ⊆ C) (hn : n ≤ m) : Spends log C m s s1 := by
  obtain ⟨B, hB, new, hnew, hin⟩ := h
  exact ⟨B, hB.trans hn, new, hnew, fun y hy => Finset.union_subset_union_left hA (hin y hy)⟩

theorem trans (h1 : Spends log A n s s1) (h2 : Spends log A m s1 s2) :
    Spends log A (n + m) s s2 := by
  obtain ⟨B, hB, new, hnew, hin⟩ := h1
  obtain ⟨B', hB', new', hnew', hin'⟩ := h2
  refine ⟨B ∪ B', (Finset.card_union_le B B').trans (Nat.add_le_add hB hB'), new ++ new', ?_, ?_⟩
  · rw [hnew', hnew, List.append_assoc]
  · intro y hy
    rcases List.mem_append.1 hy with hy | hy
    · exact Finset.union_subset_union_right Finset.subset_union_left (hin y hy)
    · exact Finset.union_subset_union_right Finset.subset_union_right (hin' y hy)

/-- One more place of the fixed ones is paid for. -/
theorem charge (h : Spends log (insert x A) n s s1) : Spends log A (n + 1) s s1 := by
  obtain ⟨B, hB, new, hnew, hin⟩ := h
  refine ⟨insert x B, (Finset.card_insert_le x B).trans (Nat.succ_le_succ hB), new, hnew, ?_⟩
  intro y hy
  have := hin y hy
  rwa [Finset.insert_union, ← Finset.union_insert] at this

/-- All of the fixed places are paid for. -/
theorem charge_all (h : Spends log A n s s1) : Spends log ∅ (n + A.card) s s1 := by
  obtain ⟨B, hB, new, hnew, hin⟩ := h
  refine ⟨A ∪ B, ?_, new, hnew, fun y hy => by rw [Finset.empty_union]; exact hin y hy⟩
  have := Finset.card_union_le A B
  omega

/-- A budget for all of it. -/
theorem fits (h : Spends log A n s s1) (hm : n + A.card ≤ m) : Spends log ∅ m s s1 :=
  h.charge_all.mono (Finset.Subset.refl _) hm

/-- Two programs in a row. -/
theorem seq {α β : Type} {y : Prog σ α} {f : α → Prog σ β} {P : α → σ → Prop}
    (hy : wp y Anyway (fun a s1 => P a s1 ∧ Spends log A n s s1) s)
    (hf : ∀ a s1, P a s1 → wp (f a) Anyway (fun _ s2 => Spends log A m s1 s2) s1) :
    wp (y >>= f) Anyway (fun _ s2 => Spends log A (n + m) s s2) s :=
  wp_seq (wp_post hy fun a s1 h => wp_post (hf a s1 h.1) fun _ _ h2 => h.2.trans h2)

/-- The number of different places. -/
theorem card_le (h : Spends log ∅ n s s1) :
    ∃ new, log s1 = log s ++ new ∧ new.toFinset.card ≤ n := by
  obtain ⟨B, hB, new, hnew, hin⟩ := h
  refine ⟨new, hnew, (Finset.card_le_card fun y hy => ?_).trans hB⟩
  have := hin y (List.mem_toFinset.1 hy)
  rwa [Finset.empty_union] at this

end Spends

end Xv6.Lib
