import Mathlib.Logic.Function.Basic

/-!
# Weakest preconditions for stateful programs that can stop

`Prog σ α` is a computation over a state `σ` that returns an `α` or stops the
whole machine with a message. `wp x E Q s` says that from `s` the program `x`
either returns a value and a state satisfying `Q`, or stops with a message
satisfying `E`. `E := fun _ => False` is total correctness; `E := fun _ => True`
only speaks of the runs that return.

The rules follow the constructors of a `do` block. `wp_mono` and `wp_and` are
the structural rules; `wp_ok` and `of_wp` go to and from concrete runs.
-/

namespace Xv6.Lib

/-- Computations over `σ` that may stop with a message. -/
abbrev Prog (σ α : Type) : Type := StateT σ (Except String) α

variable {σ α β : Type}

/-- From `s`, `x` returns with `Q` or stops with `E`. -/
def wp (x : Prog σ α) (E : String → Prop) (Q : α → σ → Prop) (s : σ) : Prop :=
  match x s with
  | .ok (a, s') => Q a s'
  | .error m => E m

variable {E E' : String → Prop} {s : σ}

@[simp] theorem wp_pure (a : α) (Q : α → σ → Prop) :
    wp (pure a : Prog σ α) E Q s ↔ Q a s := Iff.rfl

@[simp] theorem wp_bind (x : Prog σ α) (f : α → Prog σ β) (Q : β → σ → Prop) :
    wp (x >>= f) E Q s ↔ wp x E (fun a => wp (f a) E Q) s := by
  have hx : (x >>= f) s = (x s >>= fun p => f p.1 p.2) := rfl
  unfold wp
  rw [hx]
  cases x s <;> rfl

/-- `wp_bind` as a rule to apply. -/
theorem wp_seq {x : Prog σ α} {f : α → Prog σ β} {Q : β → σ → Prop}
    (h : wp x E (fun a => wp (f a) E Q) s) : wp (x >>= f) E Q s := (wp_bind x f Q).mpr h

@[simp] theorem wp_get (Q : σ → σ → Prop) : wp (get : Prog σ σ) E Q s ↔ Q s s := Iff.rfl

@[simp] theorem wp_set (t : σ) (Q : PUnit → σ → Prop) :
    wp (set t : Prog σ PUnit) E Q s ↔ Q ⟨⟩ t := Iff.rfl

@[simp] theorem wp_modify (f : σ → σ) (Q : PUnit → σ → Prop) :
    wp (modify f : Prog σ PUnit) E Q s ↔ Q ⟨⟩ (f s) := Iff.rfl

@[simp] theorem wp_throw (m : String) (Q : α → σ → Prop) :
    wp (throw m : Prog σ α) E Q s ↔ E m := Iff.rfl

theorem get_wp {Q : σ → σ → Prop} (h : Q s s) : wp (get : Prog σ σ) E Q s := h

theorem set_wp {t : σ} {Q : PUnit → σ → Prop} (h : Q ⟨⟩ t) : wp (set t : Prog σ PUnit) E Q s := h

theorem modify_wp {f : σ → σ} {Q : PUnit → σ → Prop} (h : Q ⟨⟩ (f s)) :
    wp (modify f : Prog σ PUnit) E Q s := h

theorem wp_ite {c : Prop} [Decidable c] {x y : Prog σ α} {Q : α → σ → Prop} :
    wp (if c then x else y) E Q s ↔ (c → wp x E Q s) ∧ (¬ c → wp y E Q s) := by
  by_cases h : c <;> simp [h]

theorem wp_mono {x : Prog σ α} {Q R : α → σ → Prop} (h : wp x E Q s)
    (hE : ∀ m, E m → E' m) (hQ : ∀ a t, Q a t → R a t) : wp x E' R s := by
  unfold wp at *
  cases hx : x s with
  | ok p => rw [hx] at h; exact hQ _ _ h
  | error m => rw [hx] at h; exact hE _ h

/-- `wp_mono` at a fixed stopping condition. -/
theorem wp_post {x : Prog σ α} {Q R : α → σ → Prop} (h : wp x E Q s)
    (hQ : ∀ a t, Q a t → R a t) : wp x E R s :=
  wp_mono h (fun _ h => h) hQ

/-- The first two of three programs, taken together. -/
theorem wp_seq_assoc {γ : Type} {x : Prog σ α} {y : α → Prog σ β} {f : β → Prog σ γ}
    {Q : γ → σ → Prop} (h : wp (x >>= y) E (fun b => wp (f b) E Q) s) :
    wp (x >>= fun a => y a >>= f) E Q s :=
  wp_seq (wp_post ((wp_bind x y _).1 h) fun _ _ h => wp_seq h)

theorem wp_and {x : Prog σ α} {Q R : α → σ → Prop} (h1 : wp x E Q s) (h2 : wp x E' R s) :
    wp x (fun m => E m ∧ E' m) (fun a t => Q a t ∧ R a t) s := by
  unfold wp at *
  cases hx : x s with
  | ok p => rw [hx] at h1 h2; exact ⟨h1, h2⟩
  | error m => rw [hx] at h1 h2; exact ⟨h1, h2⟩

/-- Nothing is said of a run that stops. -/
abbrev Anyway : String → Prop := fun _ => True

theorem wp_anyway {x : Prog σ α} {Q : α → σ → Prop} (h : wp x E Q s) : wp x Anyway Q s :=
  wp_mono h (fun _ _ => trivial) fun _ _ h => h

theorem wp_trivial (x : Prog σ α) : wp x Anyway (fun _ _ => True) s := by
  unfold wp
  cases x s with
  | ok p => trivial
  | error m => trivial

/-- Everything may happen. -/
theorem wp_all {x : Prog σ α} {Q : α → σ → Prop} (hE : ∀ m, E m) (hQ : ∀ a t, Q a t) : wp x E Q s :=
  wp_mono (wp_trivial x) (fun m _ => hE m) fun a t _ => hQ a t

theorem wp_both {x : Prog σ α} {Q R : α → σ → Prop} (h1 : wp x E Q s) (h2 : wp x Anyway R s) :
    wp x Anyway (fun a t => Q a t ∧ R a t) s := wp_anyway (wp_and h1 h2)

/-- A run that returns has the postcondition. -/
theorem of_wp {x : Prog σ α} {Q : α → σ → Prop} (h : wp x E Q s) {a : α} {t : σ}
    (hx : x s = .ok (a, t)) : Q a t := by
  unfold wp at h; rw [hx] at h; exact h

/-- A run that stops has an allowed message. -/
theorem stop_of_wp {x : Prog σ α} {Q : α → σ → Prop} (h : wp x E Q s) {m : String}
    (hx : x s = .error m) : E m := by
  unfold wp at h; rw [hx] at h; exact h

theorem wp_ok {x : Prog σ α} {Q : α → σ → Prop} {a : α} {t : σ} (hx : x s = .ok (a, t))
    (h : Q a t) : wp x E Q s := by
  unfold wp; rw [hx]; exact h

theorem seq_of_ok {x : Prog σ α} {f : α → Prog σ β} {a : α} {t : σ} (hx : x s = .ok (a, t)) :
    (x >>= f) s = f a t := by
  change (x s >>= fun p => f p.1 p.2) = _
  rw [hx]
  rfl

/-- With no message allowed, the program returns. -/
theorem exists_of_wp {x : Prog σ α} {Q : α → σ → Prop} (h : wp x (fun _ => False) Q s) :
    ∃ a t, x s = .ok (a, t) ∧ Q a t := by
  unfold wp at h
  cases hx : x s with
  | ok p => rw [hx] at h; exact ⟨p.1, p.2, rfl, h⟩
  | error m => rw [hx] at h; exact h.elim

/-- A run returns, and what it returns passes a test. -/
def returns (r : Except String (α × σ)) (test : α → σ → Bool) : Bool :=
  match r with
  | .ok (a, t) => test a t
  | .error _ => false

theorem of_returns {r : Except String (α × σ)} {test : α → σ → Bool} (h : returns r test = true) :
    ∃ a t, r = .ok (a, t) ∧ test a t = true := by
  cases r with
  | ok p => exact ⟨p.1, p.2, rfl, h⟩
  | error m => cases h

/-- A run stops with this message. -/
def stops (r : Except String α) (m : String) : Bool :=
  match r with
  | .ok _ => false
  | .error m' => decide (m' = m)

theorem of_stops {r : Except String α} {m : String} (h : stops r m = true) : r = .error m := by
  cases r with
  | ok a => cases h
  | error m' => rw [of_decide_eq_true h]

/-- A program that stops only for lack of fuel returns with enough of it. -/
theorem exists_fuel {x : Nat → Prog σ α} {Q : α → σ → Prop} {b : Nat}
    (h : ∀ fuel, wp (x fuel) (fun _ => fuel ≤ b) Q s) : ∃ fuel a t, x fuel s = .ok (a, t) ∧ Q a t := by
  have htotal : wp (x (b + 1)) (fun _ => False) Q s :=
    wp_mono (h (b + 1)) (fun _ hk => Nat.not_succ_le_self b hk) fun _ _ h => h
  exact ⟨b + 1, exists_of_wp htotal⟩

end Xv6.Lib
