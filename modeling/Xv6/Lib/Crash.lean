import Mathlib.Data.List.Basic

/-!
# Programs that can be cut off

A `Durable σ α` runs on a state `σ` and lists the states in which it can be cut off: one
before each of its durable steps. `points` adds the state at the end. `chl x C Q s` says that
from `s` every cut satisfies `C` and that `x` ends with `Q`; the rules follow the constructors
of a `do` block. `Restarted` is what a recovery program that is run again after every cut can
end in.
-/

namespace Xv6.Lib

variable {σ α β : Type}

/-- A program with its cuts, its result and its final state. -/
def Durable (σ α : Type) : Type := σ → List σ × α × σ

namespace Durable

instance : Monad (Durable σ) where
  pure a := fun s => ([], a, s)
  bind x f := fun s =>
    let (t, a, s') := x s
    let (t', b, s'') := f a s'
    (t ++ t', b, s'')

/-- Read the state. -/
def get : Durable σ σ := fun s => ([], s, s)

/-- A change that is lost in a crash. -/
def modify (f : σ → σ) : Durable σ Unit := fun s => ([], (), f s)

/-- A durable step: the program can be cut off before it. -/
def step (f : σ → σ) : Durable σ Unit := fun s => ([s], (), f s)

/-- The states in which `x` can be cut off, the final one included. -/
def points (x : Durable σ α) (s : σ) : List σ := (x s).1 ++ [(x s).2.2]

end Durable

/-- Every cut of `x` satisfies `C`, and `x` ends with `Q`. -/
def chl (x : Durable σ α) (C : σ → Prop) (Q : α → σ → Prop) (s : σ) : Prop :=
  (∀ t ∈ (x s).1, C t) ∧ Q (x s).2.1 (x s).2.2

variable {C : σ → Prop} {s : σ}

theorem chl_pure {Q : α → σ → Prop} {a : α} (h : Q a s) : chl (pure a : Durable σ α) C Q s :=
  ⟨fun _ ht => (by cases ht), h⟩

theorem chl_seq {x : Durable σ α} {f : α → Durable σ β} {Q : β → σ → Prop}
    (h : chl x C (fun a => chl (f a) C Q) s) : chl (x >>= f) C Q s := by
  obtain ⟨hx, hf, hq⟩ := h
  refine ⟨fun t ht => ?_, hq⟩
  obtain ht | ht := List.mem_append.1 ht
  · exact hx t ht
  · exact hf t ht

theorem chl_get {Q : σ → σ → Prop} (h : Q s s) : chl Durable.get C Q s :=
  ⟨fun _ ht => (by cases ht), h⟩

theorem chl_modify {Q : Unit → σ → Prop} {f : σ → σ} (h : Q () (f s)) :
    chl (Durable.modify f) C Q s :=
  ⟨fun _ ht => (by cases ht), h⟩

theorem chl_step {Q : Unit → σ → Prop} {f : σ → σ} (hc : C s) (h : Q () (f s)) :
    chl (Durable.step f) C Q s :=
  ⟨fun t ht => by rw [List.mem_singleton.1 ht]; exact hc, h⟩

theorem chl_mono {D : σ → Prop} {x : Durable σ α} {Q R : α → σ → Prop} (h : chl x C Q s)
    (hc : ∀ t, C t → D t) (hq : ∀ a t, Q a t → R a t) : chl x D R s :=
  ⟨fun t ht => hc t (h.1 t ht), hq _ _ h.2⟩

theorem chl_post {x : Durable σ α} {Q R : α → σ → Prop} (h : chl x C Q s)
    (hq : ∀ a t, Q a t → R a t) : chl x C R s := chl_mono h (fun _ h => h) hq

/-- All the states a program can leave behind. -/
theorem chl_points {x : Durable σ α} (h : chl x C (fun _ => C) s) : ∀ t ∈ x.points s, C t := by
  intro t ht
  obtain ht | ht := List.mem_append.1 ht
  · exact h.1 t ht
  · rw [List.mem_singleton.1 ht]
    exact h.2

/-- The cuts of a sequence are those of its parts. -/
theorem points_seq (x : Durable σ α) (f : α → Durable σ β) (s : σ) :
    (x >>= f).points s = (x s).1 ++ (f (x s).2.1).points (x s).2.2 := by
  unfold Durable.points
  rw [← List.append_assoc]
  rfl

/-- The recovery program `x`, restarted in `boot d` after every cut, ends with `d'`. -/
inductive Restarted {δ : Type} (boot : δ → σ) (disk : σ → δ) (x : Durable σ Unit) : δ → δ → Prop
  | done (d : δ) : Restarted boot disk x d (disk (x (boot d)).2.2)
  | cut {d d' : δ} {t : σ} (ht : t ∈ (x (boot d)).1) (h : Restarted boot disk x (disk t) d') :
      Restarted boot disk x d d'

/-- What recovery keeps at every cut and at its end holds of what it ends in. -/
theorem Restarted.invariant {δ : Type} {boot : δ → σ} {disk : σ → δ} {x : Durable σ Unit}
    {I J : δ → Prop} {d d' : δ} (h : Restarted boot disk x d d')
    (hx : ∀ d, I d → chl x (fun t => I (disk t)) (fun _ t => J (disk t)) (boot d)) (hd : I d) :
    J d' := by
  induction h with
  | done d => exact (hx d hd).2
  | cut ht _ ih => exact ih ((hx _ hd).1 _ ht)

end Xv6.Lib
