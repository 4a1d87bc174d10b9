import Mathlib.Logic.Function.Basic

/-!
# Runs of labelled transition systems

`Run step s t s'` is a run from `s` to `s'` with trace `t`. `Run.invariant` is the rule for
what every step keeps, `Run.simulation` the one for what another system can match step by
step.
-/

namespace Xv6.Lib

variable {σ τ ℓ : Type}

/-- The steps of `t`, in order, lead from the first state to the last. -/
inductive Run (step : σ → ℓ → σ → Prop) : σ → List ℓ → σ → Prop
  | refl (s : σ) : Run step s [] s
  | step {s s' s'' : σ} {l : ℓ} {t : List ℓ} :
      step s l s' → Run step s' t s'' → Run step s (l :: t) s''

namespace Run

variable {step : σ → ℓ → σ → Prop} {s s' : σ} {t : List ℓ}

/-- What every step with a label in `C` keeps. -/
theorem invariant {I : σ → Prop} {C : ℓ → Prop} (hstep : ∀ {s l s'}, C l → I s → step s l s' → I s')
    (h : Run step s t s') (ht : ∀ l ∈ t, C l) (hs : I s) : I s' := by
  induction h with
  | refl => exact hs
  | step hl _ ih =>
    exact ih (fun l hm => ht l (List.mem_cons_of_mem _ hm)) (hstep (ht _ List.mem_cons_self) hs hl)

/-- What holds at the start and is kept by every step, of the trace so far and the state. -/
theorem trace {I : List ℓ → σ → Prop} (hstep : ∀ {t s l s'}, I t s → step s l s' → I (t ++ [l]) s')
    (h : Run step s t s') (h0 : I [] s) : I t s' := by
  suffices hgen : ∀ u, I u s → I (u ++ t) s' from hgen [] h0
  clear h0
  induction h with
  | refl => exact fun u hu => by rwa [List.append_nil]
  | step hl _ ih =>
    intro u hu
    have := ih _ (hstep hu hl)
    rwa [List.append_assoc] at this

/-- One step more. -/
theorem snoc {l : ℓ} {s'' : σ} (h : Run step s t s') (hl : step s' l s'') :
    Run step s (t ++ [l]) s'' := by
  induction h with
  | refl s => exact .step hl (.refl s'')
  | step ha _ ih => exact .step ha (ih hl)

theorem append {u : List ℓ} {s'' : σ} (h : Run step s t s') (h' : Run step s' u s'') : Run step s (t ++ u) s'' := by
  induction h with
  | refl => exact h'
  | step ha _ ih => exact .step ha (ih h')

/-- A run whose steps all meet a condition is a run of the steps that do. -/
theorem restrict {C : σ → ℓ → Prop} (h : Run step s t s')
    (hc : ∀ t1 l t2 s1 s2, t = t1 ++ l :: t2 → Run step s t1 s1 → step s1 l s2 → Run step s2 t2 s' → C s1 l) :
    Run (fun s l s' => step s l s' ∧ C s l) s t s' := by
  induction h with
  | refl s => exact .refl s
  | step hl hr ih =>
    refine .step ⟨hl, hc [] _ _ _ _ rfl (.refl _) hl hr⟩ (ih fun t1 l t2 s1 s2 ht h1 h2 h3 => ?_)
    exact hc (_ :: t1) l t2 s1 s2 (congrArg _ ht) (.step hl h1) h2 h3

/-- A run can be cut at any of its steps. -/
theorem split {t1 t2 : List ℓ} {l : ℓ} (h : Run step s (t1 ++ l :: t2) s') :
    ∃ s1 s2, Run step s t1 s1 ∧ step s1 l s2 ∧ Run step s2 t2 s' := by
  induction t1 generalizing s with
  | nil =>
    cases h with
    | step hl hr => exact ⟨s, _, .refl s, hl, hr⟩
  | cons a t1 ih =>
    cases h with
    | step ha hr =>
      obtain ⟨s1, s2, h1, hl, h2⟩ := ih hr
      exact ⟨s1, s2, .step ha h1, hl, h2⟩

/-- Every run is matched, with the same trace, by a run of a system that can match each step. -/
theorem simulation {astep : τ → ℓ → τ → Prop} {R : σ → τ → Prop} {a : τ}
    (hstep : ∀ {s l s' a}, R s a → step s l s' → ∃ a', astep a l a' ∧ R s' a')
    (h : Run step s t s') (hs : R s a) : ∃ a', Run astep a t a' ∧ R s' a' := by
  induction h generalizing a with
  | refl => exact ⟨a, .refl a, hs⟩
  | step hl _ ih =>
    obtain ⟨a1, h1, hr⟩ := hstep hs hl
    obtain ⟨a2, h2, hr'⟩ := ih hr
    exact ⟨a2, .step h1 h2, hr'⟩

end Run

/-- The steps that `next` gives when the actors of the list act in turn. -/
def follow {κ : Type} (next : σ → κ → Option (ℓ × σ)) : σ → List κ → Option (List ℓ × σ)
  | s, [] => some ([], s)
  | s, i :: is =>
    match next s i with
    | none => none
    | some (l, s1) => (follow next s1 is).map fun r => (l :: r.1, r.2)

theorem Run.of_follow {κ : Type} {step : σ → ℓ → σ → Prop} {next : σ → κ → Option (ℓ × σ)}
    (hnext : ∀ {s i l s'}, next s i = some (l, s') → step s l s') {is : List κ} :
    ∀ {s s' : σ} {t : List ℓ}, follow next s is = some (t, s') → Run step s t s' := by
  induction is with
  | nil =>
    intro s s' t h
    cases h
    exact .refl s
  | cons i is ih =>
    intro s s' t h
    unfold follow at h
    split at h
    · cases h
    · rename_i l s1 hl
      obtain ⟨⟨u, s2⟩, hu, he⟩ := Option.map_eq_some_iff.1 h
      obtain ⟨rfl, rfl⟩ := Prod.mk.inj he
      exact .step (hnext hl) (ih hu)

/-! ## What a trace says last -/

/-- The last thing that `f` reads in a trace. -/
def lastSome {β : Type} (f : ℓ → Option β) (t : List ℓ) : Option β := t.reverse.findSome? f

theorem lastSome_snoc {β : Type} (f : ℓ → Option β) (t : List ℓ) (l : ℓ) :
    lastSome f (t ++ [l]) = (f l).or (lastSome f t) := by
  unfold lastSome
  rw [List.reverse_append, List.reverse_singleton, List.singleton_append, List.findSome?_cons]
  cases f l <;> rfl

/-- When `P` last held in a trace, counted from 1; 0 if it never did. -/
def lastAt (P : ℓ → Bool) (t : List ℓ) : Nat := t.length - t.reverse.findIdx P

theorem lastAt_snoc (P : ℓ → Bool) (t : List ℓ) (l : ℓ) :
    lastAt P (t ++ [l]) = if P l then t.length + 1 else lastAt P t := by
  unfold lastAt
  rw [List.reverse_append, List.reverse_singleton, List.singleton_append, List.findIdx_cons,
    List.length_append, List.length_singleton]
  cases P l <;> simp

theorem lastAt_le (P : ℓ → Bool) (t : List ℓ) : lastAt P t ≤ t.length := Nat.sub_le ..

/-- How often `P` held in a trace after `R` last did. -/
def countSince (R P : ℓ → Bool) (t : List ℓ) : Nat :=
  (t.reverse.takeWhile fun l => !R l).countP P

theorem countSince_snoc (R P : ℓ → Bool) (t : List ℓ) (l : ℓ) :
    countSince R P (t ++ [l]) = if R l then 0 else countSince R P t + (P l).toNat := by
  unfold countSince
  rw [List.reverse_append, List.reverse_singleton, List.singleton_append, List.takeWhile_cons]
  cases R l
  · cases hP : P l <;> simp [hP]
  · rfl

end Xv6.Lib
