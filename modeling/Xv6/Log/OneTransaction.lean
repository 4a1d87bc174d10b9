import Xv6.Log.GroupInv

/-!
# An operation is in one transaction

The trace of a run says which operations were open and which blocks were logged since the last
commit. `Traced` ties both to the state; it makes the transaction that `write_head` commits the
set of blocks logged since the one before.
-/

namespace Xv6

open Lib

theorem of_some_pair {α β : Type} {x : α × β} {a : α} {b : β} (h : some x = some (a, b)) :
    x.1 = a ∧ x.2 = b := by
  cases h
  exact ⟨rfl, rfl⟩

section

variable {ι : Type} {p q : ι} {t : List (LogLabel ι)} {e : LogEvent} {b : Word}

/-- What a step does to the blocks logged since the last commit. -/
def logStep (bs : List Word) (a : LogLabel ι) : List Word :=
  match a.event with
  | .logged b => bs ++ [b]
  | .committed _ => []
  | _ => bs

/-- The blocks logged since the last commit. -/
def since (t : List (LogLabel ι)) : List Word := t.foldl logStep []

/-- No commit in `t`. -/
def NoCommit (t : List (LogLabel ι)) : Prop := ∀ a ∈ t, ∀ T, a.event ≠ .committed T

theorem since_append_one (t : List (LogLabel ι)) (a : LogLabel ι) :
    since (t ++ [a]) = logStep (since t) a := by
  unfold since
  rw [List.foldl_append]
  rfl

/-- Logged blocks stay until the next commit. -/
theorem mem_since_append {u : List (LogLabel ι)} (hu : NoCommit u) (h : b ∈ since t) :
    b ∈ since (t ++ u) := by
  induction u using List.reverseRecOn with
  | nil => rwa [List.append_nil]
  | append_singleton u a ih =>
    have hb := ih fun x hx => hu x (List.mem_append_left _ hx)
    rw [← List.append_assoc, since_append_one]
    unfold logStep
    split
    · exact List.mem_append_left _ hb
    · rename_i T hT
      exact absurd hT (hu a (List.mem_append_right _ (List.mem_singleton_self a)) T)
    · exact hb

theorem mem_since_logged {u : List (LogLabel ι)} (hu : NoCommit u) (h : ⟨p, .logged b⟩ ∈ u) :
    b ∈ since (t ++ u) := by
  obtain ⟨u1, u2, rfl⟩ := List.append_of_mem h
  have hu2 : NoCommit u2 := fun x hx =>
    hu x (List.mem_append_right _ (List.mem_cons_of_mem _ hx))
  have hcut : t ++ (u1 ++ ⟨p, .logged b⟩ :: u2) = (t ++ u1 ++ [⟨p, .logged b⟩]) ++ u2 := by simp
  rw [hcut]
  refine mem_since_append hu2 ?_
  rw [since_append_one]
  exact List.mem_append_right _ (List.mem_singleton_self b)

variable [DecidableEq ι]

/-- Operations of `p` begun less operations ended. -/
def opens (p : ι) (t : List (LogLabel ι)) : Int := t.count ⟨p, .begun⟩ - t.count ⟨p, .ended⟩

/-- What `p` may do between a `begin_op` and the `end_op` that belongs to it: it never ends more
operations than it has begun in between. -/
def Operation (p : ι) (op : List (LogLabel ι)) : Prop := ∀ u, u <+: op → 0 ≤ opens p u

theorem opens_append (t u : List (LogLabel ι)) : opens p (t ++ u) = opens p t + opens p u := by
  unfold opens
  rw [List.count_append, List.count_append]
  omega

theorem opens_begun (p : ι) : opens p [⟨p, .begun⟩] = 1 := by
  unfold opens
  simp

theorem opens_ended (p : ι) : opens p [⟨p, .ended⟩] = -1 := by
  unfold opens
  simp

theorem opens_other (h : q ≠ p) : opens q [⟨p, e⟩] = 0 := by
  have hne : ∀ e', (⟨p, e⟩ : LogLabel ι) ≠ ⟨q, e'⟩ := fun e' hc =>
    h (congrArg LogLabel.proc hc).symm
  unfold opens
  simp [hne]

/-- Events that neither begin nor end an operation. -/
theorem opens_quiet (hb : e ≠ .begun) (he : e ≠ .ended) : opens q [⟨p, e⟩] = 0 := by
  unfold opens
  simp [hb, he]

end

/-- Between the first `write_head` and `log.lh.n = 0`. -/
def LogPos.installing : LogPos → Bool
  | .commit (.install _) => true
  | .commit .clear => true
  | _ => false

theorem LogPos.installing_committing {c : LogPos} (h : c.installing = true) :
    c.committing = true := by
  unfold installing at h
  split at h
  · rfl
  · rfl
  · cases h

section

variable {ι : Type} [DecidableEq ι]

/-- What the trace says about the state. -/
structure Traced (t : List (LogLabel ι)) (s : LogSys ι) : Prop where
  held : ∀ p, ((s.proc p).held : Int) = opens p t
  since : (∀ p, (s.proc p).pos.installing = false) → ∀ b, b ∈ s.lh.blocks ↔ b ∈ since t
  past : ∀ p, (s.proc p).pos.installing = true → Xv6.since t = []

variable {s s' : LogSys ι} {o : Option ι} {p : ι} {x : LogProc} {t : List (LogLabel ι)}
  {e : LogEvent} {l : LogArea} {a : LogLabel ι}

/-- A step that logs and commits nothing. -/
theorem Traced.next (h : Traced t s)
    (hheld : ∀ q, ((s'.proc q).held : Int) = (s.proc q).held + opens q [⟨p, e⟩])
    (hblocks : s'.lh = s.lh) (hpos : ∀ q, (s'.proc q).pos.installing = (s.proc q).pos.installing)
    (hsince : ∀ bs, logStep bs (⟨p, e⟩ : LogLabel ι) = bs) : Traced (t ++ [⟨p, e⟩]) s' := by
  have hs : Xv6.since (t ++ [⟨p, e⟩]) = Xv6.since t := by rw [since_append_one, hsince]
  refine ⟨fun q => ?_, fun hq b => ?_, fun q hq => ?_⟩
  · rw [hheld, h.held, opens_append]
  · rw [hblocks, hs]
    exact h.since (fun q => (hpos q).symm.trans (hq q)) b
  · rw [hs]
    exact h.past q ((hpos q).symm.trans hq)

/-- `p` moves; it begins, ends, logs and commits nothing. -/
theorem Traced.set (h : Traced t s) (hheld : x.held = (s.proc p).held)
    (hpos : x.pos.installing = (s.proc p).pos.installing) (hb : e ≠ .begun) (he : e ≠ .ended)
    (hsince : ∀ bs, logStep bs (⟨p, e⟩ : LogLabel ι) = bs) : Traced (t ++ [⟨p, e⟩]) (s.set p x) := by
  refine h.next (fun q => ?_) rfl (fun q => ?_) hsince
  · rw [opens_quiet hb he, add_zero]
    by_cases hq : q = p
    · rw [hq, LogSys.set_self, hheld]
    · rw [LogSys.set_ne _ _ hq]
  · by_cases hq : q = p
    · rw [hq, LogSys.set_self, hpos]
    · rw [LogSys.set_ne _ _ hq]

/-- `p` begins or ends an operation. -/
theorem Traced.count (h : Traced t s) (hheld : (x.held : Int) = (s.proc p).held + opens p [⟨p, e⟩])
    (hpos : x.pos.installing = (s.proc p).pos.installing)
    (hsince : ∀ bs, logStep bs (⟨p, e⟩ : LogLabel ι) = bs) {k : Int} {c : Bool} :
    Traced (t ++ [⟨p, e⟩]) ({ s with outstanding := k, committing := c }.set p x) := by
  refine h.next (fun q => ?_) rfl (fun q => ?_) hsince
  · by_cases hq : q = p
    · rw [hq, LogSys.set_self, hheld]
    · rw [LogSys.set_ne _ _ hq, opens_other hq, add_zero]
  · by_cases hq : q = p
    · rw [hq, LogSys.set_self, hpos]
    · rw [LogSys.set_ne _ _ hq]

omit [DecidableEq ι] in
theorem LogSys.wakeup_held (s : LogSys ι) (q : ι) : (s.wakeup.proc q).held = (s.proc q).held := by
  unfold wakeup
  dsimp only
  split <;> rfl

omit [DecidableEq ι] in
theorem LogSys.wakeup_installing (s : LogSys ι) (q : ι) :
    (s.wakeup.proc q).pos.installing = (s.proc q).pos.installing := by
  unfold wakeup
  dsimp only
  split
  · rename_i ha
    rw [ha]
    rfl
  · rfl

theorem Traced.wakeup (h : Traced t s) : Traced t s.wakeup := by
  refine ⟨fun q => ?_, fun hq => ?_, fun q hq => ?_⟩
  · rw [LogSys.wakeup_held]
    exact h.held q
  · exact h.since fun q => (s.wakeup_installing q).symm.trans (hq q)
  · exact h.past q ((s.wakeup_installing q).symm.trans hq)

theorem Traced.call (h : Traced t s) (hp : (s.proc p).pos = .out) (hs : s.call p = some s') :
    Traced (t ++ [⟨p, .tau⟩]) s' := by
  unfold LogSys.call at hs
  split at hs
  · cases hs
  all_goals
    obtain rfl := Option.some.inj hs
    exact h.set rfl (by rw [hp]; rfl) nofun nofun fun _ => rfl

theorem Traced.test (h : Traced t s) {bad : Prop} [Decidable bad] {msg : String} {c : LogPos}
    (hpos : c.installing = (s.proc p).pos.installing) :
    Traced (t ++ [⟨p, .tau⟩]) (s.test p bad msg c) := by
  unfold LogSys.test
  split
  · refine h.next (fun q => ?_) rfl (fun _ => rfl) fun _ => rfl
    have hquiet : opens q [⟨p, .tau⟩] = 0 := opens_quiet nofun nofun
    rw [hquiet, add_zero]
    rfl
  · exact h.set rfl hpos nofun nofun fun _ => rfl

theorem Traced.beginOp (h : Traced t s) (hp : (s.proc p).pos = .beginOp) :
    Traced (t ++ [⟨p, (s.beginOp p).1⟩]) (s.beginOp p).2 := by
  have hsleep : Traced (t ++ [⟨p, .slept (s.proc p).held⟩]) (s.goto p .asleep) :=
    h.set rfl (by rw [hp]; rfl) nofun nofun fun _ => rfl
  unfold LogSys.beginOp
  split
  · exact hsleep
  · split
    · exact hsleep
    · exact h.count (by rw [opens_begun]; rfl) (by rw [hp]; rfl) fun _ => rfl

/-- The first `write_head`. -/
theorem Traced.committed (h : Traced t s) :
    Traced (t ++ [⟨p, .committed s.lh.blocks⟩]) (s.goto p (.commit (.install 0))) := by
  have hsince : Xv6.since (t ++ [⟨p, .committed s.lh.blocks⟩]) = [] := since_append_one _ _
  have hquiet : ∀ q, opens q [⟨p, .committed s.lh.blocks⟩] = 0 := fun q => opens_quiet nofun nofun
  refine ⟨fun q => ?_, fun hq => ?_, fun _ _ => hsince⟩
  · rw [opens_append, hquiet, add_zero, ← h.held q]
    exact congrArg _ (LogSys.goto_held s q)
  · have := hq p
    rw [LogSys.goto, LogSys.set_self] at this
    cases this

/-- `log.lh.n = 0`: nothing was logged since `write_head`. -/
theorem Traced.clear (h : Traced t s) (hp : (s.proc p).pos = .commit .clear) :
    Traced (t ++ [⟨p, .tau⟩]) ({ s with lh := { s.lh with n := 0 } }.goto p (.commit .erase)) := by
  have hsince : Xv6.since (t ++ [⟨p, .tau⟩]) = [] := by
    rw [since_append_one]
    exact h.past p (by rw [hp]; rfl)
  have hquiet : ∀ q, opens q [⟨p, .tau⟩] = 0 := fun q => opens_quiet nofun nofun
  refine ⟨fun q => ?_, fun _ b => ?_, fun _ _ => hsince⟩
  · rw [opens_append, hquiet, add_zero, ← h.held q]
    exact congrArg _ (LogSys.goto_held _ q)
  · rw [hsince]
    exact ⟨fun hb => hb, fun hb => hb⟩

theorem Traced.commitStep (h : Traced t s) {c : CommitPos}
    (hp : (s.proc p).pos = .commit c) :
    Traced (t ++ [⟨p, (s.commitStep p c).1⟩]) (s.commitStep p c).2 := by
  have hgoto : ∀ c', LogPos.installing (.commit c') = LogPos.installing (.commit c) →
      Traced (t ++ [⟨p, .tau⟩]) (s.goto p (.commit c')) := fun c' hc =>
    h.set rfl (by rw [hp]; exact hc) nofun nofun fun _ => rfl
  cases c with
  | start =>
    refine hgoto _ ?_
    split <;> rfl
  | writeLog tail =>
    refine hgoto _ ?_
    split <;> rfl
  | writeHead => exact h.committed
  | install tail =>
    refine hgoto _ ?_
    split <;> rfl
  | clear => exact h.clear hp
  | erase => exact hgoto _ rfl
  | done =>
    have hw : s.wakeup.proc p = s.proc p := LogSys.wakeup_self (by rw [hp]; nofun)
    have hx : LogPos.installing .out = (s.wakeup.proc p).pos.installing := by rw [hw, hp]; rfl
    have hquiet : opens p [⟨p, .tau⟩] = 0 := opens_quiet nofun nofun
    exact h.wakeup.count (e := .tau) (k := s.outstanding) (c := false)
      (x := { s.wakeup.proc p with pos := .out }) (by rw [hquiet, add_zero]) hx fun _ => rfl

/-- The steps that log a block or commit a transaction. -/
theorem LogStep.event (hs : LogStep l s a s') :
    (∀ b, a.event = .logged b → (s.proc a.proc).pos = .logWrite b) ∧
    (∀ T, a.event = .committed T →
      (s.proc a.proc).pos = .commit .writeHead ∧ T = s.lh.blocks) := by
  obtain ⟨p, e⟩ := a
  unfold LogStep LogSys.next at hs
  dsimp only at hs ⊢
  split at hs
  · cases hs
  split at hs
  · obtain ⟨s1, -, he⟩ := Option.map_eq_some_iff.1 hs
    obtain ⟨rfl, -⟩ := Prod.mk.inj he
    exact ⟨by simp, by simp⟩
  · obtain ⟨rfl, -⟩ := of_some_pair hs
    unfold LogSys.beginOp
    split
    · exact ⟨by simp, by simp⟩
    · split <;> exact ⟨by simp, by simp⟩
  · obtain ⟨rfl, -⟩ := of_some_pair hs
    exact ⟨by simp, by simp⟩
  · obtain ⟨rfl, -⟩ := of_some_pair hs
    exact ⟨by simp, by simp⟩
  · obtain ⟨rfl, -⟩ := of_some_pair hs
    exact ⟨by simp, by simp⟩
  · obtain ⟨rfl, -⟩ := of_some_pair hs
    exact ⟨by simp, by simp⟩
  · rename_i b hp
    obtain ⟨rfl, -⟩ := of_some_pair hs
    refine ⟨fun b' hb => ?_, by simp⟩
    cases hb
    exact hp
  · obtain ⟨rfl, -⟩ := of_some_pair hs
    unfold LogSys.endOp
    dsimp only
    split
    · exact ⟨by simp, by simp⟩
    · split <;> exact ⟨by simp, by simp⟩
  · rename_i c hp
    obtain ⟨rfl, -⟩ := of_some_pair hs
    cases c
    case writeHead =>
      refine ⟨by simp [LogSys.commitStep], fun T hT => ?_⟩
      cases hT
      exact ⟨hp, rfl⟩
    all_goals exact ⟨by simp [LogSys.commitStep], by simp [LogSys.commitStep]⟩

variable [Fintype ι]

omit [DecidableEq ι] in
/-- While nobody commits the header has the blocks logged since the last commit. -/
theorem LogInv.not_installing (h : LogInv s none) (q : ι) :
    (s.proc q).pos.installing = false := by
  by_contra hc
  have hcom := LogPos.installing_committing (Bool.eq_true_of_not_eq_false hc)
  rw [h.owner q] at hcom
  cases hcom

theorem Traced.logWrite (h : Traced t s) (hi : LogInv s o) {b : Word}
    (hp : (s.proc p).pos = .logWrite b) : Traced (t ++ [⟨p, .logged b⟩]) (s.logWrite p b) := by
  have hheld : 0 < (s.proc p).held := (hi.ok p).inside (by rw [hp]; rfl)
  obtain rfl := hi.not_committing hheld
  have hsince : Xv6.since (t ++ [⟨p, .logged b⟩]) = Xv6.since t ++ [b] := since_append_one _ _
  have hnot : ∀ q, ((s.logWrite p b).proc q).pos.installing = false :=
    LogSys.forall_set (P := fun y => y.pos.installing = false) rfl hi.not_installing
  refine ⟨fun q => ?_, fun _ c => ?_, fun q hq => ?_⟩
  · have hquiet : opens q [⟨p, .logged b⟩] = 0 := opens_quiet nofun nofun
    rw [opens_append, hquiet, add_zero, ← h.held q]
    exact congrArg _ (LogSys.goto_held _ q)
  · rw [hsince, List.mem_append, List.mem_singleton, ← h.since hi.not_installing c]
    exact LogHeader.mem_absorb hi.n
  · exact absurd ((hnot q).symm.trans hq) Bool.false_ne_true

theorem Traced.endOp (h : Traced t s) (hi : LogInv s o) (hp : (s.proc p).pos = .endOp) :
    Traced (t ++ [⟨p, (s.endOp p).1⟩]) (s.endOp p).2 := by
  have hheld : 0 < (s.proc p).held := (hi.ok p).inside (by rw [hp]; rfl)
  have hcom : s.committing = false := by
    rw [hi.flag, hi.not_committing hheld]
    rfl
  have hw : s.wakeup.proc p = s.proc p := LogSys.wakeup_self (by rw [hp]; nofun)
  unfold LogSys.endOp
  dsimp only
  rw [if_neg (by rw [hcom]; exact Bool.false_ne_true)]
  split
  · exact h.count (by rw [opens_ended]; dsimp only; omega) (by rw [hp]; rfl) fun _ => rfl
  · exact h.wakeup.count (by rw [opens_ended, hw]; dsimp only; omega) (by rw [hw, hp]; rfl)
      fun _ => rfl

/-- Trace and state agree after every step. -/
theorem Traced.step (h : Traced t s) (hi : LogInv s o) (hs : LogStep l s a s') :
    Traced (t ++ [a]) s' := by
  obtain ⟨p, e⟩ := a
  unfold LogStep LogSys.next at hs
  dsimp only at hs
  split at hs
  · cases hs
  split at hs
  · rename_i hp
    obtain ⟨s1, hcall, he⟩ := Option.map_eq_some_iff.1 hs
    obtain ⟨rfl, rfl⟩ := Prod.mk.inj he
    exact h.call hp hcall
  · rename_i hp
    obtain ⟨rfl, rfl⟩ := of_some_pair hs
    exact h.beginOp hp
  · rename_i hp
    obtain ⟨rfl, rfl⟩ := of_some_pair hs
    exact h.set rfl (by rw [hp]; rfl) (by simp) (by simp) fun _ => rfl
  · rename_i b hp
    obtain ⟨rfl, rfl⟩ := of_some_pair hs
    exact h.test (by rw [hp]; rfl)
  · rename_i b hp
    obtain ⟨rfl, rfl⟩ := of_some_pair hs
    exact h.test (by rw [hp]; rfl)
  · rename_i b hp
    obtain ⟨rfl, rfl⟩ := of_some_pair hs
    exact h.test (by rw [hp]; rfl)
  · rename_i b hp
    obtain ⟨rfl, rfl⟩ := of_some_pair hs
    exact h.logWrite hi hp
  · rename_i hp
    obtain ⟨rfl, rfl⟩ := of_some_pair hs
    exact h.endOp hi hp
  · rename_i c hp
    obtain ⟨rfl, rfl⟩ := of_some_pair hs
    exact h.commitStep hp

/-! ## Runs -/

variable {c : ι → List LogCall}

omit [DecidableEq ι] in
theorem LogInv.start (hc : ∀ p, Nested 0 (c p)) : LogInv (LogSys.start c) none where
  count := (Finset.sum_eq_zero fun _ _ => rfl).symm
  n := le_refl 0
  nodup := List.nodup_nil
  ok := fun p => ⟨hc p, nofun⟩
  owner := fun _ => ⟨nofun, nofun⟩
  flag := rfl
  idle := fun h => absurd rfl h
  empty := fun _ _ => rfl
  cleared := nofun

theorem reachable_logInv (hc : ∀ p, Nested 0 (c p)) (h : Run (LogStep l) (LogSys.start c) t s) :
    (∃ o, LogInv s o) ∧ Traced t s := by
  refine h.trace (I := fun t s => (∃ o, LogInv s o) ∧ Traced t s) ?_ ⟨⟨none, .start hc⟩, ?_⟩
  · rintro t s a s' ⟨⟨o, hi⟩, ht⟩ hs
    exact ⟨hi.step hs, ht.step hi hs⟩
  · exact ⟨fun _ => rfl, fun _ b => ⟨fun hb => hb, fun hb => hb⟩, nofun⟩

/-- At a commit no process has an operation open, and the transaction is what was logged since
the commit before. -/
theorem Traced.transaction (h : Traced t s) (hi : LogInv s o) {q : ι} {T : List Word}
    (hs : LogStep l s ⟨q, .committed T⟩ s') :
    (∀ p, opens p t = 0) ∧ T.Nodup ∧ ∀ b, b ∈ T ↔ b ∈ Xv6.since t := by
  obtain ⟨hq, rfl⟩ := hs.event.2 T rfl
  have ho : o = some q := (hi.owner q).1 (by rw [hq]; rfl)
  have hout := hi.idle (by rw [ho]; nofun)
  refine ⟨fun p => ?_, hi.nodup, h.since fun p => ?_⟩
  · have hle := hi.held_le p
    rw [← h.held p]
    omega
  · by_contra hc
    have hins := Bool.eq_true_of_not_eq_false hc
    have hp := (hi.owner p).1 (LogPos.installing_committing hins)
    obtain rfl := Option.some.inj (hp.symm.trans ho)
    rw [hq] at hins
    cases hins

/-- A commit runs only while no operation is open, and no block is logged meanwhile. The header
never has a block twice. A committed transaction has the blocks logged since the commit before.
No commit falls into an operation, so the next one has all its blocks. -/
theorem group_commit (hc : ∀ p, Nested 0 (c p)) (h : Run (LogStep l) (LogSys.start c) t s) :
    (∀ p, (s.proc p).pos.committing = true → s.outstanding = 0 ∧ ∀ q, (s.proc q).held = 0) ∧
    (∀ p b s', LogStep l s ⟨p, .logged b⟩ s' →
      s.committing = false ∧ ∀ q, (s.proc q).pos.committing = false) ∧
    s.lh.blocks.Nodup ∧
    (∀ t1 q T t2, t = t1 ++ ⟨q, .committed T⟩ :: t2 → T.Nodup ∧ ∀ b, b ∈ T ↔ b ∈ since t1) ∧
    (∀ t1 p op t2, t = t1 ++ ⟨p, .begun⟩ :: (op ++ ⟨p, .ended⟩ :: t2) → Operation p op →
      NoCommit op ∧ ∀ r q T t3, t2 = r ++ ⟨q, .committed T⟩ :: t3 → NoCommit r →
        ∀ b, ⟨p, .logged b⟩ ∈ op → b ∈ T) := by
  obtain ⟨⟨o, hi⟩, ht⟩ := reachable_logInv hc h
  have hat : ∀ t1 q T t2, t = t1 ++ ⟨q, .committed T⟩ :: t2 →
      (∀ p, opens p t1 = 0) ∧ T.Nodup ∧ ∀ b, b ∈ T ↔ b ∈ since t1 := by
    rintro t1 q T t2 rfl
    obtain ⟨s1, s2, h1, hs, -⟩ := h.split
    obtain ⟨⟨o1, hi1⟩, ht1⟩ := reachable_logInv hc h1
    exact ht1.transaction hi1 hs
  refine ⟨fun p hp => ?_, fun p b s' hs => ?_, hi.nodup, fun t1 q T t2 e => (hat t1 q T t2 e).2,
    fun t1 p op t2 e hop => ?_⟩
  · have hout := hi.idle (by rw [(hi.owner p).1 hp]; nofun)
    refine ⟨hout, fun q => ?_⟩
    have := hi.held_le q
    omega
  · have hp := hs.event.1 b rfl
    have ho := hi.not_committing ((hi.ok p).inside (by rw [hp]; rfl))
    refine ⟨by rw [hi.flag, ho]; rfl, fun q => ?_⟩
    by_contra hcom
    have hq := (hi.owner q).1 (Bool.eq_true_of_not_eq_false hcom)
    rw [ho] at hq
    cases hq
  · have hno : NoCommit op := by
      -- at a commit inside `op` process `p` would have this operation open
      rintro ⟨q, e'⟩ ha T rfl
      obtain ⟨u, v, rfl⟩ := List.append_of_mem ha
      have hcut : t = (t1 ++ ([⟨p, .begun⟩] ++ u)) ++
          ⟨q, .committed T⟩ :: (v ++ ⟨p, .ended⟩ :: t2) := by
        rw [e]
        simp
      have hz := (hat _ _ _ _ hcut).1 p
      have hu := hop u (List.prefix_append _ _)
      rw [opens_append, opens_append, opens_begun] at hz
      have h1 : 0 ≤ opens p t1 := by
        obtain ⟨s1, s2, hr, -, -⟩ := (e ▸ h).split
        have := (reachable_logInv hc hr).2.held p
        omega
      omega
    refine ⟨hno, fun r q T t3 e3 hr b hb => ?_⟩
    have hcut : t = ((t1 ++ [⟨p, .begun⟩]) ++ (op ++ (⟨p, .ended⟩ :: r))) ++
        ⟨q, .committed T⟩ :: t3 := by
      rw [e, e3]
      simp
    refine ((hat _ _ _ _ hcut).2.2 b).2 (mem_since_logged (p := p) ?_ (List.mem_append_left _ hb))
    intro x hx
    obtain hx | hx := List.mem_append.1 hx
    · exact hno x hx
    · obtain rfl | hx := List.mem_cons.1 hx
      · exact nofun
      · exact hr x hx

end

/-- Two processes with overlapping operations that share a block. -/
def twoWriters : Fin 2 → List LogCall
  | 0 => [.beginOp, .logWrite 40, .endOp]
  | 1 => [.beginOp, .logWrite 41, .logWrite 40, .endOp]

theorem group_commit_two : ∃ t1 q T s,
    Run (LogStep mkfsLog) (LogSys.start twoWriters) (t1 ++ [⟨q, .committed T⟩]) s ∧
    T = [40, 41] ∧ since t1 = [40, 41, 40] ∧ ∀ b, b ∈ T ↔ b ∈ since t1 := by
  have hc : ∀ p, Nested 0 (twoWriters p) := by decide
  have hfollow : (follow (LogSys.act mkfsLog) (LogSys.start twoWriters)
      [0, 0, 1, 1, 0, 0, 0, 0, 0, 1, 1, 1, 1, 1, 0, 0, 1, 1, 1, 1, 1, 1, 1, 1, 1, 1, 1, 1]).map
      (fun r => (r.1.getLast?, since r.1.dropLast)) =
      some (some ⟨1, .committed [40, 41]⟩, [40, 41, 40]) := by decide
  obtain ⟨⟨t, s⟩, hs, he⟩ := Option.map_eq_some_iff.1 hfollow
  obtain ⟨hlast, hsince⟩ := Prod.mk.inj he
  have hrun : Run (LogStep mkfsLog) (LogSys.start twoWriters) t s :=
    Run.of_follow LogSys.step_of_act hs
  have ht : t = t.dropLast ++ [⟨1, .committed [40, 41]⟩] :=
    (List.dropLast_append_getLast? _ hlast).symm
  have hcut := (group_commit hc hrun).2.2.2.1 _ _ _ _ ht
  exact ⟨t.dropLast, 1, [40, 41], s, ht ▸ hrun, rfl, hsince, hcut.2⟩

end Xv6
