import Xv6.Sched.Sleep

/-!
# No wakeup is lost

A process that is about to sleep has tested the condition under `lk` and holds `lk` or
`ptable.lock` until it is SLEEPING. So either the condition is still false, or a waker has set it
after the test and has not come to the slot of the sleeper yet (`SleepInv.going`).
-/

namespace Xv6

open Lib

namespace Pc

/-- A process at this point holds `ptable.lock`. -/
def holdsPt (same : Bool) : Pc → Bool
  | .forkret => true
  | .sleepRelease => true
  | .setChan => true
  | .setState => true
  | .sched => true
  | .tidy => true
  | .sleepReturn => true
  | .scan _ => true
  | .wakeupRelease => true
  | .yieldSet _ => true
  | .yieldSched _ => true
  | .yieldReturn _ => true
  | .test => same
  | .leave => same
  | .setCond => same
  | .wakeRelease => same
  | _ => false

/-- A process at this point holds `lk`, a lock of its own. -/
def holdsLk (same : Bool) : Pc → Bool
  | .test => !same
  | .sleepAcquire => !same
  | .sleepRelease => !same
  | .leave => !same
  | .setCond => !same
  | .wakeupAcquire => !same
  | .scan _ => !same
  | .wakeupRelease => !same
  | .wakeRelease => !same
  | _ => false

/-- Points that only the code for a separate `lk` has. -/
def separate : Pc → Bool
  | .sleepAcquire => true
  | .sleepRelease => true
  | .sleepReturn => true
  | .wakeupAcquire => true
  | .wakeupRelease => true
  | _ => false

/-- Between the test of the condition and the point where `lk` is given up. -/
def tested : Pc → Bool
  | .sleepAcquire => true
  | .sleepRelease => true
  | _ => false

/-- Where a process is when it is not on a CPU. -/
def parked : Pc → Bool
  | .forkret => true
  | .tidy => true
  | .yieldReturn _ => true
  | _ => false

/-- Where `p->chan` is set. -/
def hasChan : Pc → Bool
  | .setState => true
  | .sched => true
  | .tidy => true
  | _ => false

/-- Not at `sched`, and not a waker with slots to come. -/
def plain : Pc → Bool
  | .sched => false
  | .yieldSched _ => false
  | .wakeupAcquire => false
  | .scan _ => false
  | _ => true

/-- Not on the way to `SLEEPING`. -/
def safe : Pc → Bool
  | .sleepAcquire => false
  | .sleepRelease => false
  | .setChan => false
  | .setState => false
  | .sched => false
  | .tidy => false
  | _ => true

/-- A waker here will still come to slot `p`. -/
def Pending (a : Pc) (p : Nat) : Prop := a = .wakeupAcquire ∨ ∃ j ≤ p, a = .scan j

end Pc

/-- About to sleep, or asleep. -/
def Sleeper.Going (x : Sleeper) : Prop :=
  x.pc = .setChan ∨ x.pc = .setState ∨ x.state = .sleeping

variable {n : Nat} {κ : Type}

structure SleepInv (same : Bool) (s : SleepSys n κ) : Prop where
  /-- `ptable.lock` is held by a scheduler in its loop or by a process that has it. -/
  pt : ∀ c, s.ptable = some c ↔
    s.cpu c = .loop ∨ ∃ p, s.cpu c = .run p ∧ (s.proc p).pc.holdsPt same = true
  lk : ∀ c, s.lk = some c ↔ ∃ p, s.cpu c = .run p ∧ (s.proc p).pc.holdsLk same = true
  /-- A process runs on one CPU. -/
  one : ∀ c d p, s.cpu c = .run p → s.cpu d = .run p → c = d
  off : ∀ p, (∀ c, s.cpu c ≠ .run p) → (s.proc p).pc.parked = true
  sleeping : ∀ p, (s.proc p).state = .sleeping →
    (s.proc p).pc = .sched ∨ (s.proc p).pc = .tidy ∧ ∀ c, s.cpu c ≠ .run p
  runnable : ∀ p, (s.proc p).state = .runnable →
    (∃ h, (s.proc p).pc = .yieldSched h) ∨ ∀ c, s.cpu c ≠ .run p
  chan : ∀ p, (s.proc p).pc.hasChan = true → (s.proc p).chan = true
  apart : same = true → ∀ p, (s.proc p).pc.separate = false
  tested : ∀ p, (s.proc p).pc.tested = true → s.cond = false
  going : ∀ p, (s.proc p).Going → s.cond = false ∨ ∃ q, (s.proc q).pc.Pending p.val

namespace SleepInv

variable {same : Bool} {s : SleepSys n κ} {c d : κ} {p q : Fin n}

/-- Two CPUs do not hold `ptable.lock` at once. -/
theorem pt_unique (h : SleepInv same s) (hc : s.cpu c = .run p)
    (hp : (s.proc p).pc.holdsPt same = true) (hd : s.cpu d = .run q)
    (hq : (s.proc q).pc.holdsPt same = true) : p = q := by
  have h1 := (h.pt c).2 (.inr ⟨p, hc, hp⟩)
  have h2 := (h.pt d).2 (.inr ⟨q, hd, hq⟩)
  obtain rfl := Option.some.inj (h1.symm.trans h2)
  exact Cpu.run.inj (hc.symm.trans hd)

theorem lk_unique (h : SleepInv same s) (hc : s.cpu c = .run p)
    (hp : (s.proc p).pc.holdsLk same = true) (hd : s.cpu d = .run q)
    (hq : (s.proc q).pc.holdsLk same = true) : p = q := by
  have h1 := (h.lk c).2 ⟨p, hc, hp⟩
  have h2 := (h.lk d).2 ⟨q, hd, hq⟩
  obtain rfl := Option.some.inj (h1.symm.trans h2)
  exact Cpu.run.inj (hc.symm.trans hd)

/-- Who is not at a resting point is on a CPU. -/
theorem on (h : SleepInv same s) (hp : (s.proc p).pc.parked = false) : ∃ c, s.cpu c = .run p := by
  by_contra hno
  have := h.off p fun c hc => hno ⟨c, hc⟩
  rw [hp] at this
  cases this

end SleepInv

/-- What a step of a CPU does to a lock: nothing, take it or release it. -/
def LockMove (old new : Bool) (l m : Option κ) (c : κ) : Prop :=
  (old = new ∧ m = l) ∨ (old = false ∧ new = true ∧ l = none ∧ m = some c) ∨
    (old = true ∧ new = false ∧ m = none)

theorem LockMove.self {old new : Bool} {l m : Option κ} {c : κ} (h : LockMove old new l m c)
    (hl : l = some c ↔ old = true) : m = some c ↔ new = true := by
  obtain ⟨rfl, rfl⟩ | ⟨-, rfl, -, rfl⟩ | ⟨-, rfl, rfl⟩ := h
  · exact hl
  · exact ⟨fun _ => rfl, fun _ => rfl⟩
  · exact ⟨nofun, nofun⟩

theorem LockMove.other {old new : Bool} {l m : Option κ} {c d : κ} (h : LockMove old new l m c)
    (hl : l = some c ↔ old = true) (hd : d ≠ c) : m = some d ↔ l = some d := by
  obtain ⟨rfl, rfl⟩ | ⟨-, -, rfl, rfl⟩ | ⟨ho, -, rfl⟩ := h
  · exact Iff.rfl
  · exact ⟨fun e => absurd (Option.some.inj e).symm hd, nofun⟩
  · rw [hl.2 ho]
    exact ⟨nofun, fun e => absurd (Option.some.inj e).symm hd⟩

namespace SleepInv

variable {same : Bool} {s : SleepSys n κ} {c : κ} {p : Fin n} {x : Sleeper}

/-- What holds of `x` and of the others holds after the change of slot `p`. -/
theorem forall_update {P : Fin n → Sleeper → Prop} {f : Fin n → Sleeper} (hx : P p x)
    (hf : ∀ q, q ≠ p → P q (f q)) (q : Fin n) : P q (Function.update f p x q) := by
  by_cases e : q = p
  · rw [e, Function.update_self]
    exact hx
  · rw [Function.update_of_ne e]
    exact hf q e

/-- The running process `p` moves on, takes or releases locks, and may set the condition. -/
theorem move (h : SleepInv same s) (hc : s.cpu c = .run p) {cond : Bool} {l m : Option κ}
    (hpt : LockMove ((s.proc p).pc.holdsPt same) (x.pc.holdsPt same) s.ptable m c)
    (hlk : LockMove ((s.proc p).pc.holdsLk same) (x.pc.holdsLk same) s.lk l c)
    (hsleeping : x.state = .sleeping → x.pc = .sched)
    (hrunnable : x.state = .runnable → ∃ h, x.pc = .yieldSched h)
    (hchan : x.pc.hasChan = true → x.chan = true)
    (hapart : same = true → x.pc.separate = false)
    (htested : x.pc.tested = true → cond = false)
    (hothers : ∀ q, q ≠ p → (s.proc q).pc.tested = true → cond = false)
    (hgoing : ∀ q, (Function.update s.proc p x q).Going →
      cond = false ∨ ∃ r, (Function.update s.proc p x r).pc.Pending q.val) :
    SleepInv same ⟨cond, l, m, s.cpu, Function.update s.proc p x⟩ := by
  have hrun : ∀ {q}, s.cpu c = .run q → q = p := fun e => Cpu.run.inj (e.symm.trans hc)
  have hother : ∀ {d q}, d ≠ c → s.cpu d = .run q → q ≠ p := by
    rintro d q hd hq rfl
    exact hd (h.one d c q hq hc)
  have hptc : s.ptable = some c ↔ (s.proc p).pc.holdsPt same = true := by
    rw [h.pt c]
    constructor
    · rintro (hl | ⟨q, hq, hh⟩)
      · rw [hc] at hl
        cases hl
      · rwa [hrun hq] at hh
    · exact fun hh => .inr ⟨p, hc, hh⟩
  have hlkc : s.lk = some c ↔ (s.proc p).pc.holdsLk same = true := by
    rw [h.lk c]
    constructor
    · rintro ⟨q, hq, hh⟩
      rwa [hrun hq] at hh
    · exact fun hh => ⟨p, hc, hh⟩
  refine ⟨fun d => ?_, fun d => ?_, h.one, ?_, ?_, ?_, ?_, fun hs => ?_, ?_, hgoing⟩
  · by_cases e : d = c
    · subst e
      dsimp only
      rw [hpt.self hptc]
      constructor
      · exact fun hx => .inr ⟨p, hc, by rwa [Function.update_self]⟩
      · rintro (hl | ⟨q, hq, hh⟩)
        · exact absurd (hl.symm.trans hc) nofun
        · rwa [hrun hq, Function.update_self] at hh
    · dsimp only
      rw [hpt.other hptc e, h.pt d]
      refine or_congr Iff.rfl (exists_congr fun q => and_congr_right fun hq => ?_)
      rw [Function.update_of_ne (hother e hq)]
  · by_cases e : d = c
    · subst e
      dsimp only
      rw [hlk.self hlkc]
      constructor
      · exact fun hx => ⟨p, hc, by rwa [Function.update_self]⟩
      · rintro ⟨q, hq, hh⟩
        rwa [hrun hq, Function.update_self] at hh
    · dsimp only
      rw [hlk.other hlkc e, h.lk d]
      refine exists_congr fun q => and_congr_right fun hq => ?_
      rw [Function.update_of_ne (hother e hq)]
  · exact forall_update (P := fun q y => (∀ c, s.cpu c ≠ .run q) → y.pc.parked = true)
      (fun hno => absurd hc (hno c)) fun q _ => h.off q
  · exact forall_update (P := fun q y => y.state = .sleeping →
      y.pc = .sched ∨ y.pc = .tidy ∧ ∀ c, s.cpu c ≠ .run q) (fun hx => .inl (hsleeping hx))
      fun q _ => h.sleeping q
  · exact forall_update (P := fun q y => y.state = .runnable →
      (∃ h, y.pc = .yieldSched h) ∨ ∀ c, s.cpu c ≠ .run q) (fun hx => .inl (hrunnable hx))
      fun q _ => h.runnable q
  · exact forall_update (P := fun _ y => y.pc.hasChan = true → y.chan = true) hchan
      fun q _ => h.chan q
  · exact forall_update (P := fun _ y => y.pc.separate = false) (hapart hs)
      fun q _ => h.apart hs q
  · exact forall_update (P := fun _ y => y.pc.tested = true → cond = false) htested hothers

/-- The condition stays, `p` is about to sleep only if the condition is false, and a waker does not
skip slots. -/
theorem going_move (h : SleepInv same s)
    (hx : x.Going → (s.proc p).Going ∨ s.cond = false)
    (hpend : ∀ r : Fin n, (s.proc p).pc.Pending r → x.pc.Pending r) (q : Fin n)
    (hq : (Function.update s.proc p x q).Going) :
    s.cond = false ∨ ∃ r, (Function.update s.proc p x r).pc.Pending q.val := by
  have hold : (s.proc q).Going ∨ s.cond = false := by
    by_cases e : q = p
    · rw [e, Function.update_self] at hq
      rw [e]
      exact hx hq
    · rw [Function.update_of_ne e] at hq
      exact .inl hq
  obtain hold | hcond := hold
  · obtain hcond | ⟨r, hr⟩ := h.going q hold
    · exact .inl hcond
    · refine .inr ⟨r, ?_⟩
      by_cases e : r = p
      · rw [e, Function.update_self]
        exact hpend _ (e ▸ hr)
      · rwa [Function.update_of_ne e]
  · exact .inl hcond

/-- `p` moves on with its state; it does not touch the condition. -/
theorem goto (h : SleepInv same s) (hc : s.cpu c = .run p) {l m : Option κ}
    (hstate : x.state = (s.proc p).state)
    (hpt : LockMove ((s.proc p).pc.holdsPt same) (x.pc.holdsPt same) s.ptable m c)
    (hlk : LockMove ((s.proc p).pc.holdsLk same) (x.pc.holdsLk same) s.lk l c)
    (hsched : (s.proc p).pc ≠ .sched) (hyield : ∀ h, (s.proc p).pc ≠ .yieldSched h)
    (hchan : x.pc.hasChan = true → x.chan = true) (hapart : same = true → x.pc.separate = false)
    (htested : x.pc.tested = true → s.cond = false)
    (hgo : x.pc = .setChan ∨ x.pc = .setState → (s.proc p).Going ∨ s.cond = false)
    (hpend : ∀ r : Fin n, (s.proc p).pc.Pending r → x.pc.Pending r) :
    SleepInv same ⟨s.cond, l, m, s.cpu, Function.update s.proc p x⟩ := by
  have hawake : x.state ≠ .sleeping := fun hst => by
    obtain hs | ⟨-, hno⟩ := h.sleeping p (hstate.symm.trans hst)
    · exact hsched hs
    · exact hno c hc
  refine h.move hc hpt hlk (fun hst => absurd hst hawake) (fun hst => ?_) hchan hapart htested
    (fun q _ hq => h.tested q hq) (h.going_move (fun hx => ?_) hpend)
  · obtain ⟨k, hk⟩ | hno := h.runnable p (hstate.symm.trans hst)
    · exact absurd hk (hyield k)
    · exact absurd hc (hno c)
  · obtain hx | hx | hx := hx
    · exact hgo (.inl hx)
    · exact hgo (.inr hx)
    · exact absurd hx hawake

theorem plain_not {a : Pc} (h : a.plain = true) :
    a ≠ .sched ∧ (∀ k, a ≠ .yieldSched k) ∧ ∀ r, ¬ a.Pending r := by
  refine ⟨?_, ?_, ?_⟩
  · rintro rfl
    cases h
  · rintro k rfl
    cases h
  · rintro r (rfl | ⟨j, -, rfl⟩) <;> cases h

theorem safe_not {a : Pc} (h : a.safe = true) :
    a.hasChan = false ∧ a.tested = false ∧ a ≠ .setChan ∧ a ≠ .setState := by
  refine ⟨?_, ?_, ?_, ?_⟩
  · cases a <;> first | rfl | cases h
  · cases a <;> first | rfl | cases h
  · rintro rfl
    cases h
  · rintro rfl
    cases h

/-- A step towards `SLEEPING`. -/
theorem toward (h : SleepInv same s) (hc : s.cpu c = .run p) {l m : Option κ} {a : Pc}
    (hp : (s.proc p).pc = a) (ha : a.plain = true) (hstate : x.state = (s.proc p).state)
    (hpt : LockMove (a.holdsPt same) (x.pc.holdsPt same) s.ptable m c)
    (hlk : LockMove (a.holdsLk same) (x.pc.holdsLk same) s.lk l c)
    (hchan : x.pc.hasChan = true → x.chan = true) (hapart : same = true → x.pc.separate = false)
    (htested : x.pc.tested = true → s.cond = false)
    (hgo : x.pc = .setChan ∨ x.pc = .setState → (s.proc p).Going ∨ s.cond = false) :
    SleepInv same ⟨s.cond, l, m, s.cpu, Function.update s.proc p x⟩ := by
  subst hp
  obtain ⟨hsched, hyield, hpend⟩ := plain_not ha
  exact h.goto hc hstate hpt hlk hsched hyield hchan hapart htested hgo
    fun r hr => absurd hr (hpend r)

/-- A step that has nothing to do with sleeping and waking. -/
theorem plain (h : SleepInv same s) (hc : s.cpu c = .run p) {l m : Option κ} {a : Pc}
    (hp : (s.proc p).pc = a) (ha : a.plain = true) (hx : x.pc.safe = true)
    (hstate : x.state = (s.proc p).state)
    (hpt : LockMove (a.holdsPt same) (x.pc.holdsPt same) s.ptable m c)
    (hlk : LockMove (a.holdsLk same) (x.pc.holdsLk same) s.lk l c)
    (hapart : same = true → x.pc.separate = false) :
    SleepInv same ⟨s.cond, l, m, s.cpu, Function.update s.proc p x⟩ := by
  obtain ⟨hchan, htested, hset, hstt⟩ := safe_not hx
  refine h.toward hc hp ha hstate hpt hlk (fun hx => ?_) hapart (fun hx => ?_) ?_
  · rw [hchan] at hx
    cases hx
  · rw [htested] at hx
    cases hx
  · rintro (hx | hx)
    · exact absurd hx hset
    · exact absurd hx hstt

/-- A process that is not on a CPU will find `ptable.lock` held for it. -/
theorem parked_holds (same : Bool) {a : Pc} (h : a.parked = true) : a.holdsPt same = true ∧
    a.holdsLk same = false ∧ a.separate = false ∧ a.tested = false := by
  cases a <;> first | exact ⟨rfl, rfl, rfl, rfl⟩ | cases h

theorem tested_holds (same : Bool) {a : Pc} (h : a.tested = true) : a.separate = true ∧ a.parked = false ∧
    a.holdsLk same = !same := by
  cases a <;> first | exact ⟨rfl, rfl, rfl⟩ | cases h

/-- `wakeup1` at slot `j`: afterwards the process there does not sleep. -/
theorem wake (h : SleepInv same s) (hc : s.cpu c = .run p) {j : Fin n}
    (hp : (s.proc p).pc = .scan j.val) :
    SleepInv same (s.wake j) ∧ ¬ ((s.wake j).proc j).Going ∧ (s.wake j).proc p = s.proc p := by
  have hnot : ∀ {a : Pc}, a.holdsPt same = true → a.parked = false → a ≠ .scan j.val →
      (s.proc j).pc ≠ a := by
    rintro a ha hon hne hj
    obtain ⟨d, hd⟩ := h.on (p := j) (by rw [hj]; exact hon)
    have := h.pt_unique hd (by rw [hj]; exact ha) hc (by rw [hp]; rfl)
    rw [← this, hj] at hp
    exact hne hp
  have hchan : (s.proc j).pc ≠ .setChan := hnot rfl rfl nofun
  have hset : (s.proc j).pc ≠ .setState := hnot rfl rfl nofun
  have hsched : (s.proc j).pc ≠ .sched := hnot rfl rfl nofun
  unfold SleepSys.wake
  split
  · rename_i hsl
    obtain ⟨hst, -⟩ := hsl
    obtain hs | ⟨ht, hoff⟩ := h.sleeping j hst
    · exact absurd hs hsched
    have hpj : p ≠ j := by
      rintro rfl
      rw [hp] at ht
      cases ht
    let s' := s.set j { s.proc j with state := .runnable }
    have hpc : ∀ q, (s'.proc q).pc = (s.proc q).pc :=
      forall_update (P := fun q y => y.pc = (s.proc q).pc) rfl fun _ _ => rfl
    have hstate : ∀ q, (s'.proc q).state = .sleeping → (s.proc q).state = .sleeping :=
      forall_update (P := fun q y => y.state = .sleeping → (s.proc q).state = .sleeping) nofun
        fun _ _ hst => hst
    refine ⟨⟨fun d => ?_, fun d => ?_, h.one, fun q hq => ?_, fun q hq => ?_, ?_, ?_,
      fun hs q => ?_, fun q => ?_, fun q hq => ?_⟩, ?_, Function.update_of_ne hpj _ _⟩
    · refine (h.pt d).trans (or_congr Iff.rfl (exists_congr fun q => and_congr_right fun _ => ?_))
      rw [hpc]
    · refine (h.lk d).trans (exists_congr fun q => and_congr_right fun _ => ?_)
      rw [hpc]
    · rw [hpc]
      exact h.off q hq
    · rw [hpc]
      exact h.sleeping q (hstate q hq)
    · exact forall_update (P := fun q y => y.state = .runnable →
        (∃ h, y.pc = .yieldSched h) ∨ ∀ d, s.cpu d ≠ .run q) (fun _ => .inr hoff)
        fun q _ => h.runnable q
    · exact forall_update (P := fun _ y => y.pc.hasChan = true → y.chan = true) (h.chan j)
        fun q _ => h.chan q
    · rw [hpc]
      exact h.apart hs q
    · rw [hpc]
      exact h.tested q
    · have hold : (s.proc q).Going := by
        obtain hx | hx | hx := hq
        · exact .inl ((hpc q).symm.trans hx)
        · exact .inr (.inl ((hpc q).symm.trans hx))
        · exact .inr (.inr (hstate q hx))
      obtain hcond | ⟨r, hr⟩ := h.going q hold
      · exact .inl hcond
      · exact .inr ⟨r, by rw [hpc]; exact hr⟩
    · rintro (hx | hx | hx)
      · exact hchan ((hpc j).symm.trans hx)
      · exact hset ((hpc j).symm.trans hx)
      · have hself : s'.proc j = { s.proc j with state := .runnable } := Function.update_self _ _ _
        rw [show (s.set j _).proc j = _ from hself] at hx
        cases hx
  · rename_i hsl
    refine ⟨h, ?_, rfl⟩
    rintro (hx | hx | hx)
    · exact hchan hx
    · exact hset hx
    · refine hsl ⟨hx, h.chan j ?_⟩
      obtain hs | ⟨ht, -⟩ := h.sleeping j hx
      · rw [hs]
        rfl
      · rw [ht]
        rfl

/-- `wakeup1` goes on to the next slot. -/
theorem scan (h : SleepInv same s) (hc : s.cpu c = .run p) {j : Fin n}
    (hp : (s.proc p).pc = .scan j.val) :
    SleepInv same ((s.wake j).goto p (.scan (j.val + 1))) := by
  obtain ⟨hw, hj, hself⟩ := h.wake hc hp
  have hp' : ((s.wake j).proc p).pc = .scan j.val := by rw [hself, hp]
  have hc' : (s.wake j).cpu c = .run p := by
    unfold SleepSys.wake
    split <;> exact hc
  refine hw.move hc' (.inl ⟨by rw [hp']; rfl, rfl⟩) (.inl ⟨by rw [hp']; rfl, rfl⟩) (fun hst => ?_)
    (fun hst => ?_) nofun (fun _ => rfl) nofun (fun q _ hq => hw.tested q hq) fun q hq => ?_
  · obtain hs | ⟨ht, -⟩ := hw.sleeping p hst
    · rw [hp'] at hs
      cases hs
    · rw [hp'] at ht
      cases ht
  · obtain ⟨k, hk⟩ | hno := hw.runnable p hst
    · rw [hp'] at hk
      cases hk
    · exact absurd hc' (hno c)
  · -- slot `j` needs no waker any more, later ones still have this one
    have hold : ((s.wake j).proc q).Going := by
      by_cases e : q = p
      · rw [e, Function.update_self] at hq
        obtain hx | hx | hx := hq
        · cases hx
        · cases hx
        · rw [e]
          exact .inr (.inr hx)
      · rwa [Function.update_of_ne e] at hq
    have hqj : q ≠ j := by
      rintro rfl
      exact hj hold
    obtain hcond | ⟨r, hr⟩ := hw.going q hold
    · exact .inl hcond
    · refine .inr ⟨r, ?_⟩
      by_cases e : r = p
      · rw [e, Function.update_self]
        rw [e, hp'] at hr
        obtain hr | ⟨i, hi, hr⟩ := hr
        · cases hr
        · have := Fin.val_ne_of_ne hqj
          have hij := Pc.scan.inj hr
          exact .inr ⟨j.val + 1, by omega, rfl⟩
      · rwa [Function.update_of_ne e]

/-- `cond = 1`: whoever is about to sleep has this waker to come. -/
theorem setCond (h : SleepInv same s) (hc : s.cpu c = .run p) (hp : (s.proc p).pc = .setCond)
    {a : Pc} (ha : a = if same then .scan 0 else .wakeupAcquire) :
    SleepInv same ({ s with cond := true }.goto p a) := by
  have hpend : ∀ r, a.Pending r := by
    intro r
    rw [ha]
    cases same
    · exact .inl rfl
    · exact .inr ⟨0, Nat.zero_le _, rfl⟩
  refine h.move hc (.inl ⟨?_, rfl⟩) (.inl ⟨?_, rfl⟩) (fun hst => ?_) (fun hst => ?_) ?_ ?_ ?_ ?_
    fun q _ => .inr ⟨p, by rw [Function.update_self]; exact hpend _⟩
  · rw [hp, ha]
    cases same <;> rfl
  · rw [hp, ha]
    cases same <;> rfl
  · obtain hs | ⟨ht, -⟩ := h.sleeping p hst
    · rw [hp] at hs
      cases hs
    · rw [hp] at ht
      cases ht
  · obtain ⟨k, hk⟩ | hno := h.runnable p hst
    · rw [hp] at hk
      cases hk
    · exact absurd hc (hno c)
  · rw [ha]
    cases same <;> nofun
  · rintro rfl
    rw [ha]
    rfl
  · rw [ha]
    cases same <;> nofun
  · -- another process past its test would hold `lk`
    intro q hq ht
    obtain ⟨hsep, hon, hlk⟩ := tested_holds same ht
    have hsame : same = false := by
      cases same with
      | false => rfl
      | true => exact absurd ((h.apart rfl q).symm.trans hsep) nofun
    rw [hsame] at hlk
    obtain ⟨d, hd⟩ := h.on hon
    refine absurd (h.lk_unique hd (by rw [hsame]; exact hlk) hc ?_) hq
    rw [hp, hsame]
    rfl

/-! ## Locks -/

variable {s' : SleepSys n κ}

/-- `acquire(lk)` by a process that is to go on at `a`. -/
theorem takeLk (h : SleepInv same s) (hc : s.cpu c = .run p) {k : Home} {a : Pc}
    (hp : (s.proc p).pc = .home k) (ha : a = .test ∨ a = .setCond)
    (hs : (s.takeLk same c).map (fun s1 => s1.goto p a) = some s') : SleepInv same s' := by
  obtain ⟨s1, hs1, rfl⟩ := Option.map_eq_some_iff.1 hs
  have hsafe : a.safe = true ∧ a.separate = false ∧ a.holdsPt same = same ∧
      a.holdsLk same = !same := by
    obtain rfl | rfl := ha <;> exact ⟨rfl, rfl, rfl, rfl⟩
  obtain ⟨hsafe, hsep, hhp, hhl⟩ := hsafe
  unfold SleepSys.takeLk at hs1
  cases same with
  | true =>
    unfold SleepSys.takePt at hs1
    rw [if_pos rfl] at hs1
    split at hs1
    · rename_i hfree
      cases hs1
      exact h.plain hc hp rfl hsafe rfl (.inr (.inl ⟨rfl, hhp, hfree, rfl⟩))
        (.inl ⟨hhl.symm, rfl⟩) fun _ => hsep
    · cases hs1
  | false =>
    rw [if_neg Bool.false_ne_true] at hs1
    split at hs1
    · rename_i hfree
      cases hs1
      exact h.plain hc hp rfl hsafe rfl (.inl ⟨hhp.symm, rfl⟩)
        (.inr (.inl ⟨rfl, hhl, hfree, rfl⟩)) fun _ => hsep
    · cases hs1

/-- `release(lk)` at the end of a job. -/
theorem dropLk (h : SleepInv same s) (hc : s.cpu c = .run p) {a : Pc}
    (hp : (s.proc p).pc = a) (ha : a = .leave ∨ a = .wakeRelease) :
    SleepInv same ((s.dropLk same).goto p (.home .next)) := by
  have hplain : a.plain = true ∧ a.holdsPt same = same ∧ a.holdsLk same = !same := by
    obtain rfl | rfl := ha <;> exact ⟨rfl, rfl, rfl⟩
  obtain ⟨hplain, hhp, hhl⟩ := hplain
  cases same with
  | true =>
    exact h.plain hc hp hplain rfl rfl (.inr (.inr ⟨hhp, rfl, rfl⟩)) (.inl ⟨hhl, rfl⟩) fun _ => rfl
  | false =>
    exact h.plain hc hp hplain rfl rfl (.inl ⟨hhp, rfl⟩) (.inr (.inr ⟨hhl, rfl, rfl⟩)) fun _ => rfl

/-- `acquire(&ptable.lock)` by a process that is to go on at `a`. -/
theorem takePt {a : Pc}
    (hs : (s.takePt c).map (fun s1 => s1.goto p a) = some s')
    (hstep : s.ptable = none → SleepInv same ({ s with ptable := some c }.goto p a)) :
    SleepInv same s' := by
  obtain ⟨s1, hs1, rfl⟩ := Option.map_eq_some_iff.1 hs
  unfold SleepSys.takePt at hs1
  split at hs1
  · rename_i hfree
    cases hs1
    exact hstep hfree
  · cases hs1

/-- The test of the condition: `p` is on its way to sleep only if it is false. -/
theorem test (h : SleepInv same s) (hc : s.cpu c = .run p) (hp : (s.proc p).pc = .test) :
    SleepInv same
      (s.goto p (if s.cond then .leave else if same then .setChan else .sleepAcquire)) := by
  by_cases hcond : s.cond = true
  · rw [if_pos hcond]
    exact h.plain hc hp rfl rfl rfl (.inl ⟨rfl, rfl⟩) (.inl ⟨rfl, rfl⟩) fun _ => rfl
  · rw [if_neg hcond]
    rw [Bool.not_eq_true] at hcond
    cases same with
    | true =>
      exact h.toward hc hp rfl rfl (.inl ⟨rfl, rfl⟩) (.inl ⟨rfl, rfl⟩) nofun (fun _ => rfl) nofun
        fun _ => .inr hcond
    | false =>
      exact h.toward hc hp rfl rfl (.inl ⟨rfl, rfl⟩) (.inl ⟨rfl, rfl⟩) nofun nofun
        (fun _ => hcond) fun _ => .inr hcond

/-- `sleep` up to `p->state = SLEEPING`, for a separate `lk`. -/
theorem sleepAcquire (h : SleepInv same s) (hc : s.cpu c = .run p)
    (hp : (s.proc p).pc = .sleepAcquire) (hfree : s.ptable = none) :
    SleepInv same ({ s with ptable := some c }.goto p .sleepRelease) := by
  have hcond := h.tested p (by rw [hp]; rfl)
  have hsame : same = true → Pc.separate .sleepRelease = false := fun e => by
    have := h.apart e p
    rw [hp] at this
    cases this
  exact h.toward hc hp rfl rfl (.inr (.inl ⟨rfl, rfl, hfree, rfl⟩)) (.inl ⟨rfl, rfl⟩) nofun hsame
    (fun _ => hcond) fun _ => .inr hcond

theorem sleepRelease (h : SleepInv same s) (hc : s.cpu c = .run p)
    (hp : (s.proc p).pc = .sleepRelease) : SleepInv same ((s.dropLk same).goto p .setChan) := by
  have hcond := h.tested p (by rw [hp]; rfl)
  cases same with
  | true =>
    have := h.apart rfl p
    rw [hp] at this
    cases this
  | false =>
    exact h.toward hc hp rfl rfl (.inl ⟨rfl, rfl⟩) (.inr (.inr ⟨rfl, rfl, rfl⟩)) nofun nofun nofun
      fun _ => .inr hcond

theorem setState (h : SleepInv same s) (hc : s.cpu c = .run p) (hp : (s.proc p).pc = .setState) :
    SleepInv same (s.set p { s.proc p with state := .sleeping, pc := .sched }) := by
  refine h.move hc (.inl ⟨by rw [hp]; rfl, rfl⟩) (.inl ⟨by rw [hp]; rfl, rfl⟩) (fun _ => rfl) nofun
    (fun _ => h.chan p (by rw [hp]; rfl)) (fun _ => rfl) nofun (fun q _ hq => h.tested q hq)
    (h.going_move (fun _ => .inl (.inr (.inl hp))) fun r hr => ?_)
  rw [hp] at hr
  obtain hr | ⟨j, -, hr⟩ := hr <;> cases hr

theorem yieldSet (h : SleepInv same s) (hc : s.cpu c = .run p) {k : Home}
    (hp : (s.proc p).pc = .yieldSet k) :
    SleepInv same (s.set p { s.proc p with state := .runnable, pc := .yieldSched k }) := by
  refine h.move hc (.inl ⟨by rw [hp]; rfl, rfl⟩) (.inl ⟨by rw [hp]; rfl, rfl⟩) nofun
    (fun _ => ⟨k, rfl⟩) nofun (fun _ => rfl) nofun (fun q _ hq => h.tested q hq)
    (h.going_move ?_ fun r hr => ?_)
  · rintro (hx | hx | hx) <;> cases hx
  · rw [hp] at hr
    obtain hr | ⟨j, -, hr⟩ := hr <;> cases hr

/-- A waker takes `ptable.lock` and starts at slot 0. -/
theorem wakeupAcquire (h : SleepInv same s) (hc : s.cpu c = .run p)
    (hp : (s.proc p).pc = .wakeupAcquire) (hfree : s.ptable = none) :
    SleepInv same ({ s with ptable := some c }.goto p (.scan 0)) := by
  refine h.goto hc rfl (.inr (.inl ⟨by rw [hp]; rfl, rfl, hfree, rfl⟩))
    (.inl ⟨by rw [hp]; rfl, rfl⟩) ?_ ?_ nofun (fun _ => rfl) nofun ?_
    fun r _ => .inr ⟨0, Nat.zero_le _, rfl⟩
  · rw [hp]
    nofun
  · rw [hp]
    nofun
  · rintro (hx | hx) <;> cases hx

/-- The scan has come to the end of the table. -/
theorem scanned (h : SleepInv same s) (hc : s.cpu c = .run p) {j : Nat}
    (hp : (s.proc p).pc = .scan j) (hj : ¬ j < n) :
    SleepInv same (s.goto p (if same then .wakeRelease else .wakeupRelease)) := by
  have hpend : ∀ r : Fin n, ¬ (s.proc p).pc.Pending r := by
    rw [hp]
    rintro r (hr | ⟨i, hi, hr⟩)
    · cases hr
    · have := Pc.scan.inj hr
      have := r.isLt
      omega
  refine h.goto hc rfl (.inl ⟨?_, rfl⟩) (.inl ⟨?_, rfl⟩) ?_ ?_ ?_ ?_ ?_ ?_
    fun r hr => absurd hr (hpend r)
  · rw [hp]
    cases same <;> rfl
  · rw [hp]
    cases same <;> rfl
  · rw [hp]
    nofun
  · rw [hp]
    nofun
  · cases same <;> nofun
  · rintro rfl
    rfl
  · cases same <;> nofun
  · cases same <;> rintro (hx | hx) <;> cases hx

variable [DecidableEq κ]

/-- `sched`: CPU `c` goes on in the scheduler, with `ptable.lock`. -/
theorem park (h : SleepInv same s) (hc : s.cpu c = .run p) {a : Pc}
    (hpt : (s.proc p).pc.holdsPt same = true) (hlk : (s.proc p).pc.holdsLk same = false)
    (ha : a.parked = true) (htidy : (s.proc p).state = .sleeping → a = .tidy)
    (hchan : a.hasChan = true → (s.proc p).chan = true)
    (hpend : ∀ r : Fin n, ¬ (s.proc p).pc.Pending r) : SleepInv same (s.park c p a) := by
  obtain ⟨-, -, hsep, htested⟩ := parked_holds same ha
  have hcpu : (s.park c p a).cpu c = .loop := Function.update_self _ _ _
  have hcpu' : ∀ d, d ≠ c → (s.park c p a).cpu d = s.cpu d := fun d hd =>
    Function.update_of_ne hd _ _
  have hother : ∀ {d q}, d ≠ c → s.cpu d = .run q → q ≠ p := by
    rintro d q hd hq rfl
    exact hd (h.one d c q hq hc)
  have hoff : ∀ d, (s.park c p a).cpu d ≠ .run p := by
    intro d hd
    by_cases e : d = c
    · rw [e, hcpu] at hd
      cases hd
    · rw [hcpu' d e] at hd
      exact hother e hd rfl
  have hoff' : ∀ {q}, (∀ d, s.cpu d ≠ .run q) → ∀ d, (s.park c p a).cpu d ≠ .run q := by
    intro q hq d hd
    by_cases e : d = c
    · rw [e, hcpu] at hd
      cases hd
    · rw [hcpu' d e] at hd
      exact hq d hd
  have hproc : ∀ {q}, q ≠ p → (s.park c p a).proc q = s.proc q := fun hq =>
    Function.update_of_ne hq _ _
  refine ⟨fun d => ?_, fun d => ?_, fun d e q hd he => ?_, ?_, ?_, ?_, ?_, fun hs => ?_, ?_, ?_⟩
  · by_cases e : d = c
    · rw [e]
      exact ⟨fun _ => .inl hcpu, fun _ => (h.pt c).2 (.inr ⟨p, hc, hpt⟩)⟩
    · rw [hcpu' d e]
      refine (h.pt d).trans (or_congr Iff.rfl (exists_congr fun q => and_congr_right fun hq => ?_))
      rw [hproc (hother e hq)]
  · by_cases e : d = c
    · rw [e, hcpu]
      refine (h.lk c).trans ⟨?_, nofun⟩
      rintro ⟨q, hq, hh⟩
      rw [Cpu.run.inj (hq.symm.trans hc), hlk] at hh
      cases hh
    · rw [hcpu' d e]
      refine (h.lk d).trans (exists_congr fun q => and_congr_right fun hq => ?_)
      rw [hproc (hother e hq)]
  · have hdc : d ≠ c := by
      rintro rfl
      rw [hcpu] at hd
      cases hd
    have hec : e ≠ c := by
      rintro rfl
      rw [hcpu] at he
      cases he
    rw [hcpu' d hdc] at hd
    rw [hcpu' e hec] at he
    exact h.one d e q hd he
  · refine forall_update (P := fun q y => (∀ d, (s.park c p a).cpu d ≠ .run q) → y.pc.parked = true)
      (fun _ => ha) fun q hq hno => h.off q fun d hd => ?_
    by_cases e : d = c
    · rw [e, hc] at hd
      exact hq (Cpu.run.inj hd).symm
    · exact hno d ((hcpu' d e).trans hd)
  · refine forall_update (P := fun q y => y.state = .sleeping →
      y.pc = .sched ∨ y.pc = .tidy ∧ ∀ d, (s.park c p a).cpu d ≠ .run q)
      (fun hst => .inr ⟨htidy hst, hoff⟩) fun q _ hst => ?_
    obtain hs | ⟨ht, hno⟩ := h.sleeping q hst
    · exact .inl hs
    · exact .inr ⟨ht, hoff' hno⟩
  · refine forall_update (P := fun q y => y.state = .runnable →
      (∃ h, y.pc = .yieldSched h) ∨ ∀ d, (s.park c p a).cpu d ≠ .run q)
      (fun _ => .inr hoff) fun q _ hst => ?_
    obtain hs | hno := h.runnable q hst
    · exact .inl hs
    · exact .inr (hoff' hno)
  · exact forall_update (P := fun _ y => y.pc.hasChan = true → y.chan = true) hchan
      fun q _ => h.chan q
  · exact forall_update (P := fun _ y => y.pc.separate = false) hsep fun q _ => h.apart hs q
  · refine forall_update (P := fun _ y => y.pc.tested = true → s.cond = false) (fun hx => ?_)
      fun q _ => h.tested q
    rw [show a.tested = true from hx] at htested
    cases htested
  · refine h.going_move (fun hx => ?_) fun r hr => absurd hr (hpend r)
    obtain hx | hx | hx := hx
    · rw [show a = _ from hx] at ha
      cases ha
    · rw [show a = _ from hx] at ha
      cases ha
    · exact .inl (.inr (.inr hx))

/-- The scheduler of `c` takes or releases `ptable.lock`. -/
theorem schedule (h : SleepInv same s) {x : Cpu n} {m : Option κ} (hx : ∀ q, x ≠ .run q)
    (hc : ∀ q, s.cpu c ≠ .run q) (hm : m = some c ↔ x = .loop)
    (hm' : ∀ d, d ≠ c → (m = some d ↔ s.ptable = some d)) :
    SleepInv same { s with ptable := m, cpu := Function.update s.cpu c x } := by
  have hrun : ∀ d q, Function.update s.cpu c x d = .run q ↔ s.cpu d = .run q := by
    intro d q
    by_cases e : d = c
    · rw [e, Function.update_self]
      exact ⟨fun hq => absurd hq (hx q), fun hq => absurd hq (hc q)⟩
    · rw [Function.update_of_ne e]
  have hoff : ∀ {q}, (∀ d, Function.update s.cpu c x d ≠ .run q) ↔ ∀ d, s.cpu d ≠ .run q := by
    intro q
    exact forall_congr' fun d => not_congr (hrun d q)
  refine ⟨fun d => ?_, fun d => ?_, fun d e q hd he => ?_, fun q hq => h.off q (hoff.1 hq),
    fun q hq => ?_, fun q hq => ?_, h.chan, h.apart, h.tested, h.going⟩
  · dsimp only
    by_cases e : d = c
    · subst e
      rw [hm, Function.update_self]
      refine ⟨.inl, ?_⟩
      rintro (hl | ⟨q, hq, -⟩)
      · exact hl
      · exact absurd hq (hx q)
    · rw [hm' d e, h.pt d, Function.update_of_ne e]
  · dsimp only
    rw [h.lk d]
    exact exists_congr fun q => and_congr_left fun _ => (hrun d q).symm
  · exact h.one d e q ((hrun d q).1 hd) ((hrun e q).1 he)
  · obtain hs | ⟨ht, hno⟩ := h.sleeping q hq
    · exact .inl hs
    · exact .inr ⟨ht, hoff.2 hno⟩
  · obtain hs | hno := h.runnable q hq
    · exact .inl hs
    · exact .inr (hoff.2 hno)

/-- The scheduler of `c` switches to `p`. -/
theorem pick (h : SleepInv same s) (hc : s.cpu c = .loop) (hp : (s.proc p).state = .runnable) :
    SleepInv same ((s.set p { s.proc p with state := .running }).setCpu c (.run p)) := by
  have hpt := (h.pt c).2 (.inl hc)
  -- a process in `yield` before `sched` would hold `ptable.lock` too
  have hoff : ∀ d, s.cpu d ≠ .run p := by
    obtain ⟨k, hk⟩ | hno := h.runnable p hp
    · obtain ⟨d, hd⟩ := h.on (p := p) (by rw [hk]; rfl)
      have := (h.pt d).2 (.inr ⟨p, hd, by rw [hk]; rfl⟩)
      obtain rfl := Option.some.inj (hpt.symm.trans this)
      rw [hc] at hd
      cases hd
    · exact hno
  have hpark := h.off p hoff
  obtain ⟨hholds, hnolk, -, -⟩ := parked_holds same hpark
  let s' := (s.set p { s.proc p with state := .running }).setCpu c (.run p)
  have hpc : ∀ q, (s'.proc q).pc = (s.proc q).pc :=
    forall_update (P := fun q y => y.pc = (s.proc q).pc) rfl fun _ _ => rfl
  have hstate : ∀ q, (s'.proc q).state = .sleeping → (s.proc q).state = .sleeping :=
    forall_update (P := fun q y => y.state = .sleeping → (s.proc q).state = .sleeping) nofun
      fun _ _ hst => hst
  have hcpu : s'.cpu c = .run p := Function.update_self _ _ _
  have hcpu' : ∀ d, d ≠ c → s'.cpu d = s.cpu d := fun d hd => Function.update_of_ne hd _ _
  have hoff' : ∀ {q}, q ≠ p → (∀ d, s.cpu d ≠ .run q) → ∀ d, s'.cpu d ≠ .run q := by
    intro q hq hno d hd
    by_cases e : d = c
    · rw [e, hcpu] at hd
      exact hq (Cpu.run.inj hd).symm
    · rw [hcpu' d e] at hd
      exact hno d hd
  refine ⟨fun d => ?_, fun d => ?_, fun d e q hd he => ?_, fun q hq => ?_, ?_, ?_, ?_,
    fun hs q => ?_, fun q => ?_, fun q hq => ?_⟩
  · by_cases e : d = c
    · rw [e]
      exact ⟨fun _ => .inr ⟨p, hcpu, by rw [hpc]; exact hholds⟩, fun _ => hpt⟩
    · rw [hcpu' d e]
      refine (h.pt d).trans (or_congr Iff.rfl (exists_congr fun q => and_congr_right fun _ => ?_))
      rw [hpc]
  · by_cases e : d = c
    · rw [e]
      constructor
      · intro hlk
        obtain ⟨q, hq, -⟩ := (h.lk c).1 hlk
        rw [hc] at hq
        cases hq
      · rintro ⟨q, hq, hh⟩
        rw [hpc, ← Cpu.run.inj (hcpu.symm.trans hq), hnolk] at hh
        cases hh
    · rw [hcpu' d e]
      refine (h.lk d).trans (exists_congr fun q => and_congr_right fun _ => ?_)
      rw [hpc]
  · by_cases hd' : d = c <;> by_cases he' : e = c
    · rw [hd', he']
    · rw [hd', hcpu] at hd
      rw [hcpu' e he', ← Cpu.run.inj hd] at he
      exact absurd he (hoff e)
    · rw [he', hcpu] at he
      rw [hcpu' d hd', ← Cpu.run.inj he] at hd
      exact absurd hd (hoff d)
    · rw [hcpu' d hd'] at hd
      rw [hcpu' e he'] at he
      exact h.one d e q hd he
  · rw [hpc]
    refine h.off q fun d hd => ?_
    by_cases e : d = c
    · rw [e, hc] at hd
      cases hd
    · exact hq d ((hcpu' d e).trans hd)
  · refine forall_update (P := fun q y => y.state = .sleeping →
      y.pc = .sched ∨ y.pc = .tidy ∧ ∀ d, s'.cpu d ≠ .run q) nofun fun q hq hst => ?_
    obtain hs | ⟨ht, hno⟩ := h.sleeping q hst
    · exact .inl hs
    · exact .inr ⟨ht, hoff' hq hno⟩
  · refine forall_update (P := fun q y => y.state = .runnable →
      (∃ h, y.pc = .yieldSched h) ∨ ∀ d, s'.cpu d ≠ .run q) nofun fun q hq hst => ?_
    obtain hs | hno := h.runnable q hst
    · exact .inl hs
    · exact .inr (hoff' hq hno)
  · exact forall_update (P := fun _ y => y.pc.hasChan = true → y.chan = true) (h.chan p)
      fun q _ => h.chan q
  · rw [hpc]
    exact h.apart hs q
  · rw [hpc]
    exact h.tested q
  · have hold : (s.proc q).Going := by
      obtain hx | hx | hx := hq
      · exact .inl ((hpc q).symm.trans hx)
      · exact .inr (.inl ((hpc q).symm.trans hx))
      · exact .inr (.inr (hstate q hx))
    obtain hcond | ⟨r, hr⟩ := h.going q hold
    · exact .inl hcond
    · exact .inr ⟨r, by rw [hpc]; exact hr⟩

/-! ## Every step keeps the invariant -/

theorem procStep (h : SleepInv same s) (hc : s.cpu c = .run p)
    (hs : s.procStep same c p = some s') : SleepInv same s' := by
  have hsep := fun e => h.apart e p
  unfold SleepSys.procStep at hs
  dsimp only at hs
  split at hs
  -- between jobs
  · rename_i hp
    split at hs
    · cases hs
    · cases hs
      exact h.plain hc hp rfl rfl rfl (.inl ⟨rfl, rfl⟩) (.inl ⟨rfl, rfl⟩) fun _ => rfl
    · cases hs
      exact h.plain hc hp rfl rfl rfl (.inl ⟨rfl, rfl⟩) (.inl ⟨rfl, rfl⟩) fun _ => rfl
  · rename_i hp
    cases hs
    exact h.plain hc hp rfl rfl rfl (.inr (.inr ⟨rfl, rfl, rfl⟩)) (.inl ⟨rfl, rfl⟩) fun _ => rfl
  · rename_i hp
    exact h.takeLk hc hp (.inl rfl) hs
  -- `sleep`
  · rename_i hp
    cases hs
    exact h.test hc hp
  · rename_i hp
    exact takePt hs (h.sleepAcquire hc hp)
  · rename_i hp
    cases hs
    exact h.sleepRelease hc hp
  · rename_i hp
    cases hs
    exact h.toward hc hp rfl rfl (.inl ⟨rfl, rfl⟩) (.inl ⟨rfl, rfl⟩) (fun _ => rfl) (fun _ => rfl)
      nofun fun _ => .inl (.inl hp)
  · rename_i hp
    cases hs
    exact h.setState hc hp
  · rename_i hp
    cases hs
    refine h.park hc (by rw [hp]; rfl) (by rw [hp]; rfl) rfl (fun _ => rfl)
      (fun _ => h.chan p (by rw [hp]; rfl)) fun r hr => ?_
    rw [hp] at hr
    obtain hr | ⟨j, -, hr⟩ := hr <;> cases hr
  · rename_i hp
    cases hs
    cases same with
    | true => exact h.plain hc hp rfl rfl rfl (.inl ⟨rfl, rfl⟩) (.inl ⟨rfl, rfl⟩) fun _ => rfl
    | false => exact h.plain hc hp rfl rfl rfl (.inl ⟨rfl, rfl⟩) (.inl ⟨rfl, rfl⟩) nofun
  · rename_i hp
    cases hs
    exact h.plain hc hp rfl rfl rfl (.inr (.inr ⟨rfl, rfl, rfl⟩)) (.inl ⟨rfl, rfl⟩) fun _ => rfl
  · rename_i hp
    cases hs
    exact h.dropLk hc hp (.inl rfl)
  -- a waker
  · rename_i hp
    exact h.takeLk hc hp (.inr rfl) hs
  · rename_i hp
    cases hs
    exact h.setCond hc hp rfl
  · rename_i hp
    exact takePt hs (h.wakeupAcquire hc hp)
  · rename_i j hp
    split at hs
    · rename_i hj
      cases hs
      exact h.scan (j := ⟨j, hj⟩) hc hp
    · rename_i hj
      cases hs
      exact h.scanned hc hp hj
  · rename_i hp
    cases hs
    cases same with
    | true =>
      rw [hp] at hsep
      cases hsep rfl
    | false =>
      exact h.plain hc hp rfl rfl rfl (.inr (.inr ⟨rfl, rfl, rfl⟩)) (.inl ⟨rfl, rfl⟩) nofun
  · rename_i hp
    cases hs
    exact h.dropLk hc hp (.inr rfl)
  -- `yield`
  · rename_i k hp
    refine takePt hs fun hfree => ?_
    exact h.plain hc hp rfl rfl rfl (.inr (.inl ⟨rfl, rfl, hfree, rfl⟩)) (.inl ⟨rfl, rfl⟩)
      fun _ => rfl
  · rename_i k hp
    cases hs
    exact h.yieldSet hc hp
  · rename_i k hp
    cases hs
    refine h.park hc (by rw [hp]; rfl) (by rw [hp]; rfl) rfl (fun hst => ?_) nofun fun r hr => ?_
    · obtain hx | ⟨hx, -⟩ := h.sleeping p hst
      · rw [hp] at hx
        cases hx
      · rw [hp] at hx
        cases hx
    · rw [hp] at hr
      obtain hr | ⟨j, -, hr⟩ := hr <;> cases hr
  · rename_i k hp
    cases hs
    exact h.plain hc hp rfl rfl rfl (.inr (.inr ⟨rfl, rfl, rfl⟩)) (.inl ⟨rfl, rfl⟩) fun _ => rfl

theorem step (h : SleepInv same s) {a : κ × Choice n} (hs : SleepStep same s a s') :
    SleepInv same s' := by
  obtain ⟨c, k⟩ := a
  unfold SleepStep SleepSys.next at hs
  cases k with
  | go =>
    dsimp only at hs
    split at hs
    · rename_i hc
      obtain ⟨s1, hs1, rfl⟩ := Option.map_eq_some_iff.1 hs
      unfold SleepSys.takePt at hs1
      split at hs1
      · rename_i hfree
        cases hs1
        refine h.schedule nofun (by rw [hc]; nofun) ⟨fun _ => rfl, fun _ => rfl⟩ fun d hd => ?_
        rw [hfree]
        exact ⟨fun e => absurd (Option.some.inj e).symm hd, nofun⟩
      · cases hs1
    · rename_i hc
      cases hs
      refine h.schedule nofun (by rw [hc]; nofun) ⟨nofun, nofun⟩ fun d hd => ?_
      rw [(h.pt c).2 (.inl hc)]
      exact ⟨nofun, fun e => absurd (Option.some.inj e).symm hd⟩
    · rename_i p hc
      exact h.procStep hc hs
  | tick =>
    dsimp only at hs
    split at hs
    · rename_i p hc
      split at hs
      · rename_i k hp
        cases hs
        exact h.plain hc hp rfl rfl rfl (.inl ⟨rfl, rfl⟩) (.inl ⟨rfl, rfl⟩) fun _ => rfl
      · cases hs
    · cases hs
  | pick p =>
    dsimp only at hs
    split at hs
    · rename_i hx
      cases hs
      exact h.pick hx.1 hx.2
    · cases hs

omit [DecidableEq κ] in
theorem start (jobs : Fin n → List Job) :
    SleepInv same (SleepSys.start jobs : SleepSys n κ) where
  pt := fun c => ⟨nofun, by rintro (hx | ⟨p, hx, -⟩) <;> cases hx⟩
  lk := fun c => ⟨nofun, by rintro ⟨p, hx, -⟩; cases hx⟩
  one := fun _ _ _ hx => by cases hx
  off := fun _ _ => rfl
  sleeping := fun _ hx => by cases hx
  runnable := fun _ _ => .inr fun _ => nofun
  chan := fun _ hx => by cases hx
  apart := fun _ _ => rfl
  tested := fun _ hx => by cases hx
  going := fun _ hx => by obtain hx | hx | hx := hx <;> cases hx

end SleepInv

/-- Sleepers and wakers on any number of CPUs, with `lk` a lock of its own or `ptable.lock`: once
the condition is true and no waker is on the way from setting it to the end of the scan in
`wakeup1`, nobody sleeps on the channel. -/
theorem no_lost_wakeup [DecidableEq κ] {same : Bool} {jobs : Fin n → List Job} {s : SleepSys n κ}
    {t : List (κ × Choice n)} (h : Run (SleepStep same) (SleepSys.start jobs) t s)
    (hcond : s.cond = true)
    (hno : ∀ q, (s.proc q).pc ≠ .wakeupAcquire ∧ ∀ j, (s.proc q).pc ≠ .scan j) (p : Fin n) :
    ¬ ((s.proc p).state = .sleeping ∧ (s.proc p).chan = true) := by
  have hinv : SleepInv same s :=
    h.invariant (C := fun _ => True) (fun _ hi hs => hi.step hs) (fun _ _ => trivial) (.start jobs)
  rintro ⟨hst, -⟩
  obtain hfalse | ⟨q, hq⟩ := hinv.going p (.inr (.inr hst))
  · rw [hcond] at hfalse
    cases hfalse
  · obtain hq | ⟨j, -, hq⟩ := hq
    · exact (hno q).1 hq
    · exact (hno q).2 j hq

/-- The step of a CPU, labelled. -/
def SleepSys.act [DecidableEq κ] (same : Bool) (s : SleepSys n κ) (a : κ × Choice n) :
    Option ((κ × Choice n) × SleepSys n κ) :=
  (s.next same a.1 a.2).map fun s' => (a, s')

theorem SleepSys.step_of_act [DecidableEq κ] {same : Bool} {s s' : SleepSys n κ}
    {i a : κ × Choice n} (h : s.act same i = some (a, s')) : SleepStep same s a s' := by
  obtain ⟨s1, hs1, he⟩ := Option.map_eq_some_iff.1 h
  obtain ⟨rfl, rfl⟩ := Prod.mk.inj he
  exact hs1

/-- Process 0 sleeps, process 1 wakes it. -/
def sleeperAndWaker : Fin 2 → List Job
  | 0 => [.sleeper]
  | 1 => [.waker]

theorem no_lost_wakeup_two : ∃ t s,
    Run (SleepStep false) (SleepSys.start sleeperAndWaker : SleepSys 2 (Fin 2)) t s ∧
    s.cond = true ∧ (s.proc 0).pc = .tidy ∧
    ¬ ((s.proc 0).state = .sleeping ∧ (s.proc 0).chan = true) := by
  have hfollow : (follow (SleepSys.act false) (SleepSys.start sleeperAndWaker : SleepSys 2 (Fin 2))
      ([(0, .go), (0, .pick 0)] ++ List.replicate 10 (0, .go) ++ [(1, .go), (1, .pick 1)] ++
        List.replicate 8 (1, .go))).map
      (fun r => (r.2.cond, (r.2.proc 0).pc, (r.2.proc 1).pc)) =
      some (true, .tidy, .wakeupRelease) := by decide
  obtain ⟨⟨t, s⟩, hs, he⟩ := Option.map_eq_some_iff.1 hfollow
  obtain ⟨hcond, he⟩ := Prod.mk.inj he
  obtain ⟨h0, h1⟩ := Prod.mk.inj he
  have hrun : Run (SleepStep false) (SleepSys.start sleeperAndWaker) t s :=
    Run.of_follow SleepSys.step_of_act hs
  refine ⟨t, s, hrun, hcond, h0, no_lost_wakeup hrun hcond (fun q => ?_) 0⟩
  match q with
  | 0 => exact ⟨by rw [show (s.proc 0).pc = _ from h0]; nofun,
      fun j => by rw [show (s.proc 0).pc = _ from h0]; nofun⟩
  | 1 => exact ⟨by rw [show (s.proc 1).pc = _ from h1]; nofun,
      fun j => by rw [show (s.proc 1).pc = _ from h1]; nofun⟩

end Xv6
