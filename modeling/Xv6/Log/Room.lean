import Mathlib.Algebra.BigOperators.Ring.Finset
import Xv6.Log.OneTransaction

/-!
# Room in the log

`begin_op` reserves `MAXOPBLOCKS` blocks for each operation out of `LOGSIZE`, and `log_write`
gives up at `log.size - 1` blocks; the log that `mkfs` makes has `log.size = LOGSIZE`. Operations
of at most `MAXOPBLOCKS - 1` distinct blocks never meet that limit: each open operation has
blocks left, and an operation that was admitted next to others has cost more than it can use.
-/

namespace Xv6

open Lib

/-- One operation that logs the blocks `ws`. -/
def opCalls (ws : List Word) : List LogCall := .beginOp :: (ws.map .logWrite ++ [.endOp])

/-- The calls of operations one after another. -/
def scriptCalls (ops : List (List Word)) : List LogCall := ops.flatMap opCalls

/-- The distinct blocks of an operation are at most `B`. -/
def Within (B : Nat) (ops : List (List Word)) : Prop := ∀ ws ∈ ops, ws.toFinset.card ≤ B

theorem nested_map (ws : List Word) (cs : List LogCall) (h : Nested 0 cs) :
    Nested 1 (ws.map .logWrite ++ .endOp :: cs) := by
  induction ws with
  | nil => exact ⟨Nat.one_pos, h⟩
  | cons w ws ih => exact ⟨Nat.one_pos, ih⟩

theorem scriptCalls_cons (ws : List Word) (ops : List (List Word)) :
    scriptCalls (ws :: ops) = .beginOp :: (ws.map .logWrite ++ .endOp :: scriptCalls ops) := by
  unfold scriptCalls
  rw [List.flatMap_cons, opCalls, List.cons_append, List.append_assoc]
  rfl

theorem nested_scriptCalls (ops : List (List Word)) : Nested 0 (scriptCalls ops) := by
  induction ops with
  | nil => trivial
  | cons ws ops ih =>
    rw [scriptCalls_cons]
    exact nested_map ws _ ih

/-- The block that `log_write` is at work on. -/
def LogPos.writes : LogPos → Option Word
  | .testMax b => some b
  | .testSize b => some b
  | .testOpen b => some b
  | .logWrite b => some b
  | _ => none

/-- Where a process is in its operations; in the one that is open it has logged `D`. -/
inductive InOp : LogProc → Finset Word → Prop
  | idle {ops : List (List Word)} {D : Finset Word} (hops : Within 9 ops) :
      InOp ⟨scriptCalls ops, 0, .out⟩ D
  | entering {ws : List Word} {ops : List (List Word)} {D : Finset Word} {c : LogPos}
      (hpos : c = .beginOp ∨ c = .asleep) (hws : ws.toFinset.card ≤ 9) (hops : Within 9 ops) :
      InOp ⟨ws.map .logWrite ++ .endOp :: scriptCalls ops, 0, c⟩ D
  | inside {ws : List Word} {ops : List (List Word)} {D : Finset Word}
      (hws : (D ∪ ws.toFinset).card ≤ 9) (hops : Within 9 ops) :
      InOp ⟨ws.map .logWrite ++ .endOp :: scriptCalls ops, 1, .out⟩ D
  | writing {b : Word} {ws : List Word} {ops : List (List Word)} {D : Finset Word} {c : LogPos}
      (hpos : c.writes = some b) (hws : (D ∪ (b :: ws).toFinset).card ≤ 9) (hops : Within 9 ops) :
      InOp ⟨ws.map .logWrite ++ .endOp :: scriptCalls ops, 1, c⟩ D
  | ending {ops : List (List Word)} {D : Finset Word} (hD : D.card ≤ 9) (hops : Within 9 ops) :
      InOp ⟨scriptCalls ops, 1, .endOp⟩ D
  | committing {c : CommitPos} {ops : List (List Word)} {D : Finset Word} (hops : Within 9 ops) :
      InOp ⟨scriptCalls ops, 0, .commit c⟩ D

/-- The blocks an operation may still add to the header. -/
def spare (x : LogProc × Finset Word) : Int := if x.1.held = 0 then 0 else 9 - x.2.card

theorem InOp.card {x : LogProc} {D : Finset Word} (h : InOp x D) : x.held = 0 ∨ D.card ≤ 9 := by
  cases h with
  | idle => exact .inl rfl
  | entering => exact .inl rfl
  | inside hws => exact .inr (le_trans (Finset.card_le_card Finset.subset_union_left) hws)
  | writing _ hws => exact .inr (le_trans (Finset.card_le_card Finset.subset_union_left) hws)
  | ending hD => exact .inr hD
  | committing => exact .inl rfl

theorem InOp.spare_nonneg {x : LogProc} {D : Finset Word} (h : InOp x D) : 0 ≤ spare (x, D) := by
  unfold spare
  split
  · exact le_refl 0
  · obtain h | h := h.card
    · contradiction
    · dsimp only
      omega

/-- An operation can use nine blocks. -/
theorem spare_le (x : LogProc) (D : Finset Word) : spare (x, D) ≤ 9 * x.held := by
  unfold spare
  split
  · positivity
  · have : 0 < x.held := Nat.pos_of_ne_zero ‹_›
    dsimp only
    omega

theorem InOp.woken {calls : List LogCall} {held : Nat} {D : Finset Word}
    (h : InOp ⟨calls, held, .asleep⟩ D) : InOp ⟨calls, held, .beginOp⟩ D := by
  cases h with
  | entering _ hws hops => exact .entering (.inl rfl) hws hops
  | writing hpos => cases hpos

section

variable {ι : Type} [Fintype ι]

/-- The header and the blocks still to come leave `log_write` its limit. -/
structure Room (s : LogSys ι) (did : ι → Finset Word) : Prop where
  inOp : ∀ p, InOp (s.proc p) (did p)
  sub : ∀ p, 0 < (s.proc p).held → ∀ b ∈ did p, b ∈ s.lh.blocks
  total : s.lh.n + ∑ p, spare (s.proc p, did p) ≤ 28
  calm : s.panicked ≠ some "too big a transaction"

variable {s s' : LogSys ι} {did : ι → Finset Word} {p : ι} {x : LogProc} {D : Finset Word}
  {o : Option ι} {l : LogArea}

theorem Room.n_le (h : Room s did) : s.lh.n ≤ 28 := by
  have hsum : 0 ≤ ∑ p, spare (s.proc p, did p) :=
    Finset.sum_nonneg fun p _ => (h.inOp p).spare_nonneg
  have := h.total
  omega

/-- What the process at `c` may be doing. -/
theorem Room.at (h : Room s did) {c : LogPos} (hp : (s.proc p).pos = c) :
    InOp ⟨(s.proc p).calls, (s.proc p).held, c⟩ (did p) := by
  rw [← hp]
  exact h.inOp p

/-- An operation admitted next to others leaves them their nine blocks; one admitted alone finds
the log empty. -/
theorem LogInv.admit (hi : LogInv s none) (did : ι → Finset Word)
    (hroom : s.lh.n + (s.outstanding + 1) * 10 ≤ 30) :
    s.lh.n + ∑ q, spare (s.proc q, did q) + 9 ≤ 28 := by
  have hsum : ∑ q, spare (s.proc q, did q) ≤ 9 * s.outstanding := by
    rw [hi.count, Finset.mul_sum]
    exact Finset.sum_le_sum fun q _ => spare_le _ _
  have hpos : 0 ≤ s.outstanding := by
    rw [hi.count]
    exact Finset.sum_nonneg fun q _ => Int.natCast_nonneg _
  have hzero := hi.empty rfl
  obtain hz | hz := hpos.eq_or_lt
  · have := hzero hz.symm
    omega
  · omega

theorem Room.wakeup (h : Room s did) : Room s.wakeup did := by
  refine ⟨fun q => ?_, fun q hq => ?_, ?_, h.calm⟩
  · unfold LogSys.wakeup
    dsimp only
    split
    · rename_i ha
      have hq := h.inOp q
      rcases hx : s.proc q with ⟨calls, held, pos⟩
      rw [hx] at hq ha
      dsimp only at ha ⊢
      subst ha
      exact hq.woken
    · exact h.inOp q
  · rw [LogSys.wakeup_held] at hq
    exact h.sub q hq
  · refine le_trans (le_of_eq (congrArg (s.lh.n + ·) (Finset.sum_congr rfl fun q _ => ?_))) h.total
    unfold spare
    dsimp only
    rw [LogSys.wakeup_held]

variable [DecidableEq ι]

omit [Fintype ι] in
theorem update_pair (f : ι → LogProc) (g : ι → Finset Word) (q : ι) :
    (Function.update f p x q, Function.update g p D q) =
      Function.update (fun q => (f q, g q)) p (x, D) q := by
  by_cases e : q = p
  · rw [e, Function.update_self, Function.update_self, Function.update_self]
  · rw [Function.update_of_ne e, Function.update_of_ne e, Function.update_of_ne e]

/-- The sum after `p` has moved. -/
theorem sum_spare (s : LogSys ι) (did : ι → Finset Word) :
    ∑ q, spare ((s.set p x).proc q, Function.update did p D q) =
      ∑ q, spare (s.proc q, did q) - spare (s.proc p, did p) + spare (x, D) := by
  have h := sum_update spare (fun q => (s.proc q, did q)) p (x, D)
  rw [← h]
  exact Finset.sum_congr rfl fun q _ => congrArg spare (update_pair s.proc did q)

/-- `p` moves: what is to be shown about it and about the sum. -/
theorem Room.set (h : Room s did) (hx : InOp x D) {g : LogHeader} {k : Int} {c : Bool}
    (hsub : 0 < x.held → ∀ b ∈ D, b ∈ g.blocks)
    (hgrow : ∀ q, q ≠ p → 0 < (s.proc q).held → ∀ b ∈ s.lh.blocks, b ∈ g.blocks)
    (htotal : g.n + (∑ q, spare (s.proc q, did q) - spare (s.proc p, did p) + spare (x, D)) ≤ 28) :
    Room ({ s with lh := g, outstanding := k, committing := c }.set p x)
      (Function.update did p D) := by
  refine ⟨fun q => ?_, fun q hq b hb => ?_, ?_, h.calm⟩
  · by_cases e : q = p
    · rw [e, LogSys.set_self, Function.update_self]
      exact hx
    · rw [LogSys.set_ne _ _ e, Function.update_of_ne e]
      exact h.inOp q
  · by_cases e : q = p
    · rw [e, LogSys.set_self] at hq
      rw [e, Function.update_self] at hb
      exact hsub hq b hb
    · rw [LogSys.set_ne _ _ e] at hq
      rw [Function.update_of_ne e] at hb
      exact hgrow q e hq b (h.sub q hq b hb)
  · exact le_trans (le_of_eq (congrArg (g.n + ·) (sum_spare _ did))) htotal

/-- `p` moves and neither begins nor ends an operation. -/
theorem Room.goto (h : Room s did) (hx : InOp x (did p)) (hheld : x.held = (s.proc p).held) :
    Room (s.set p x) did := by
  have hspare : spare (x, did p) = spare (s.proc p, did p) := by
    unfold spare
    dsimp only
    rw [hheld]
  have := h.set (p := p) (x := x) (D := did p) (g := s.lh) (k := s.outstanding)
    (c := s.committing) hx (fun hpos => h.sub p (hheld ▸ hpos)) (fun _ _ _ _ hb => hb)
    (by rw [hspare]; have := h.total; omega)
  rwa [Function.update_eq_self] at this

/-! ## Every step leaves room -/

theorem Room.call (h : Room s did) (hp : (s.proc p).pos = .out) (hs : s.call p = some s') :
    Room s' did := by
  have hin := h.at hp
  unfold LogSys.call at hs
  rcases hx : s.proc p with ⟨calls, held, pos⟩
  rw [hx] at hin hs
  dsimp only at hin hs
  cases hin with
  | @idle ops _ hops =>
    cases ops with
    | nil => cases hs
    | cons ws ops =>
      rw [scriptCalls_cons] at hs
      obtain rfl := Option.some.inj hs
      refine h.goto (.entering (.inl rfl) (hops ws List.mem_cons_self) fun w hw => ?_) (by rw [hx])
      exact hops w (List.mem_cons_of_mem _ hw)
  | @inside ws ops _ hws hops =>
    cases ws with
    | nil =>
      obtain rfl := Option.some.inj hs
      refine h.goto (.ending ?_ hops) (by rw [hx])
      rwa [List.toFinset_nil, Finset.union_empty] at hws
    | cons w ws =>
      obtain rfl := Option.some.inj hs
      exact h.goto (.writing rfl hws hops) (by rw [hx])
  | entering hpos => obtain hc | hc := hpos <;> cases hc
  | writing hpos => cases hpos

theorem Room.beginOp (h : Room s did) (hi : LogInv s o) (hp : (s.proc p).pos = .beginOp) :
    ∃ did', Room (s.beginOp p).2 did' := by
  have hin := h.at hp
  rcases hx : s.proc p with ⟨calls, held, pos⟩
  rw [hx] at hin
  dsimp only at hin
  cases hin with
  | writing hpos => cases hpos
  | entering _ hws hops =>
    have hsleep : Room (s.goto p .asleep) did := by
      refine h.goto ?_ rfl
      rw [hx]
      exact .entering (.inr rfl) hws hops
    unfold LogSys.beginOp
    split
    · exact ⟨did, hsleep⟩
    · rename_i hcom
      split
      · exact ⟨did, hsleep⟩
      · rename_i hroom
        rw [hi.flag, Option.isSome_iff_ne_none, not_not] at hcom
        subst hcom
        have htotal := hi.admit did (not_lt.1 hroom)
        have hold : spare (s.proc p, did p) = 0 := if_pos (by rw [hx])
        refine ⟨_, h.set (D := ∅) (g := s.lh) ?_ (fun _ b hb => ?_) (fun _ _ _ _ hb => hb) ?_⟩
        · rw [hx]
          exact .inside (by rwa [Finset.empty_union]) hops
        · exact absurd hb (Finset.notMem_empty b)
        · have hnew : spare ((⟨(s.proc p).calls, (s.proc p).held + 1, .out⟩ : LogProc), ∅) = 9 := rfl
          rw [hold, hnew]
          omega

theorem Room.test (h : Room s did) {bad : Prop} [Decidable bad] {msg : String} {c d : LogPos}
    {b : Word} (hp : (s.proc p).pos = c) (hc : c.writes = some b) (hd : d.writes = some b)
    (hok : ¬ bad) : Room (s.test p bad msg d) did := by
  have hin := h.at hp
  rcases hx : s.proc p with ⟨calls, held, pos⟩
  rw [hx] at hin
  dsimp only at hin
  unfold LogSys.test
  rw [if_neg hok]
  refine h.goto ?_ rfl
  rw [hx]
  dsimp only
  cases hin with
  | idle => cases hc
  | entering hpos =>
    obtain rfl | rfl := hpos <;> cases hc
  | inside => cases hc
  | writing hpos hws hops =>
    obtain rfl := Option.some.inj (hc.symm.trans hpos)
    exact .writing hd hws hops
  | ending => cases hc
  | committing => cases hc

theorem Room.logWrite (h : Room s did) (hi : LogInv s o) {b : Word}
    (hp : (s.proc p).pos = .logWrite b) : ∃ did', Room (s.logWrite p b) did' := by
  have hin := h.at hp
  have hsub := h.sub p
  rcases hx : s.proc p with ⟨calls, held, pos⟩
  rw [hx] at hin hsub
  dsimp only at hin hsub
  cases hin with
  | entering hpos => obtain hc | hc := hpos <;> cases hc
  | @writing b' ws ops _ _ hpos hws hops =>
    obtain rfl := Option.some.inj hpos
    have hold : spare (s.proc p, did p) = 9 - (did p).card := if_neg (by rw [hx]; exact one_ne_zero)
    have hnew : ∀ x : LogProc, x.held = 1 →
        spare (x, insert b (did p)) = 9 - (insert b (did p)).card := fun x hx1 =>
      if_neg (by rw [hx1]; exact one_ne_zero)
    refine ⟨_, h.set (D := insert b (did p)) (g := s.lh.absorb b) ?_ (fun _ c hc => ?_)
      (fun _ _ _ c hc => (LogHeader.mem_absorb hi.n).2 (.inl hc)) ?_⟩
    · dsimp only
      rw [hx]
      refine .inside ?_ hops
      rwa [Finset.insert_union, ← Finset.union_insert, ← List.toFinset_cons]
    · obtain rfl | hc := Finset.mem_insert.1 hc
      · exact (LogHeader.mem_absorb hi.n).2 (.inr rfl)
      · exact (LogHeader.mem_absorb hi.n).2 (.inl (hsub Nat.one_pos c hc))
    · -- a block new to the operation costs it one of its spare blocks
      rw [hold, hnew _ (by rw [hx])]
      have htotal := h.total
      by_cases hb : b ∈ did p
      · rw [LogHeader.absorb_mem (hsub Nat.one_pos b hb), Finset.insert_eq_of_mem hb]
        omega
      · rw [Finset.card_insert_of_notMem hb]
        have hn : (s.lh.absorb b).n ≤ s.lh.n + 1 := LogHeader.absorb_le
        push_cast
        omega

theorem Room.endOp (h : Room s did) (hi : LogInv s o) (hp : (s.proc p).pos = .endOp) :
    Room (s.endOp p).2 did := by
  have hheld : 0 < (s.proc p).held := (hi.ok p).inside (by rw [hp]; rfl)
  have hcom : s.committing = false := by
    rw [hi.flag, hi.not_committing hheld]
    rfl
  have hw : s.wakeup.proc p = s.proc p := LogSys.wakeup_self (by rw [hp]; nofun)
  have hin := h.at hp
  have hold := (h.inOp p).spare_nonneg
  have htotal := h.total
  rcases hx : s.proc p with ⟨calls, held, pos⟩
  rw [hx] at hin hold hw
  dsimp only at hin
  unfold LogSys.endOp
  dsimp only
  rw [if_neg (by rw [hcom]; exact Bool.false_ne_true), hx]
  cases hin with
  | entering hpos => obtain hc | hc := hpos <;> cases hc
  | writing hpos => cases hpos
  | @ending ops _ hD hops =>
    -- the spare blocks of `p` are given up
    have hspare : ∀ c, spare (⟨scriptCalls ops, 0, c⟩, did p) = 0 := fun _ => rfl
    split
    · have := h.set (p := p) (D := did p) (g := s.lh) (k := s.outstanding - 1) (c := true)
        (.committing (c := .start) hops) (fun hc => absurd hc (Nat.lt_irrefl 0))
        (fun _ _ _ _ hb => hb) (by rw [hx, hspare]; omega)
      rwa [Function.update_eq_self] at this
    · have := h.wakeup.set (p := p) (D := did p) (g := s.lh) (k := s.outstanding - 1)
        (c := s.committing) (.idle hops) (fun hc => absurd hc (Nat.lt_irrefl 0))
        (fun _ _ _ _ hb => hb) (by
          have hwt : s.lh.n + ∑ q, spare (s.wakeup.proc q, did q) ≤ 28 := h.wakeup.total
          rw [hw, hspare]
          omega)
      rwa [Function.update_eq_self] at this

theorem Room.commitStep (h : Room s did) (hi : LogInv s o) {c : CommitPos}
    (hp : (s.proc p).pos = .commit c) : Room (s.commitStep p c).2 did := by
  have hin := h.at hp
  rcases hx : s.proc p with ⟨calls, held, pos⟩
  rw [hx] at hin
  dsimp only at hin
  cases hin with
  | entering hpos => obtain hc | hc := hpos <;> cases hc
  | writing hpos => cases hpos
  | @committing _ ops _ hops =>
    have hspare : spare (s.proc p, did p) = 0 := if_pos (by rw [hx])
    have hspare' : ∀ c, spare ({ s.proc p with pos := c }, did p) = 0 := fun c => if_pos (by rw [hx])
    have hgoto : ∀ c', Room (s.goto p (.commit c')) did := fun c' => by
      refine h.goto ?_ rfl
      rw [hx]
      exact .committing hops
    cases c with
    | start => exact hgoto _
    | writeLog tail => exact hgoto _
    | writeHead => exact hgoto _
    | install tail => exact hgoto _
    | clear =>
      have hzero : ∀ q, ¬ 0 < (s.proc q).held := fun q hq => by
        have hcom := (hi.owner p).1 (by rw [hp]; rfl)
        rw [hi.not_committing hq] at hcom
        cases hcom
      have := h.set (p := p) (D := did p) (g := { s.lh with n := 0 }) (k := s.outstanding)
        (c := s.committing) (x := { s.proc p with pos := .commit .erase })
        (by rw [hx]; exact .committing hops) (fun hc => absurd hc (hzero p))
        (fun q _ hq => absurd hq (hzero q)) (by
          have htotal := h.total
          have hn := hi.n
          rw [hspare, hspare']
          dsimp only
          omega)
      rw [Function.update_eq_self] at this
      exact this
    | erase => exact hgoto _
    | done =>
      have hw : s.wakeup.proc p = s.proc p := LogSys.wakeup_self (by rw [hp]; nofun)
      have := h.wakeup.set (p := p) (D := did p) (g := s.lh) (k := s.outstanding) (c := false)
        (x := { s.proc p with pos := .out }) (by rw [hx]; exact .idle hops)
        (fun hc => absurd hc (by rw [hx]; exact Nat.lt_irrefl 0)) (fun _ _ _ _ hb => hb) (by
          have hwt : s.lh.n + ∑ q, spare (s.wakeup.proc q, did q) ≤ 28 := h.wakeup.total
          rw [hw, hspare, hspare']
          omega)
      rw [Function.update_eq_self, ← hw] at this
      exact this

theorem Room.step (h : Room s did) (hi : LogInv s o) {a : LogLabel ι}
    (hs : LogStep mkfsLog s a s') : ∃ did', Room s' did' := by
  have hn := h.n_le
  obtain ⟨p, e⟩ := a
  unfold LogStep LogSys.next at hs
  dsimp only at hs
  split at hs
  · cases hs
  split at hs
  · rename_i hp
    obtain ⟨s1, hcall, he⟩ := Option.map_eq_some_iff.1 hs
    obtain ⟨-, rfl⟩ := Prod.mk.inj he
    exact ⟨did, h.call hp hcall⟩
  · rename_i hp
    obtain ⟨-, rfl⟩ := of_some_pair hs
    exact h.beginOp hi hp
  · rename_i hp
    obtain ⟨-, rfl⟩ := of_some_pair hs
    exact ⟨did, h.goto (h.at hp).woken rfl⟩
  · rename_i b hp
    obtain ⟨-, rfl⟩ := of_some_pair hs
    exact ⟨did, h.test hp rfl rfl (not_le.2 (lt_of_le_of_lt hn (by decide)))⟩
  · rename_i b hp
    obtain ⟨-, rfl⟩ := of_some_pair hs
    exact ⟨did, h.test hp rfl rfl (not_le.2 (lt_of_le_of_lt hn (by decide)))⟩
  · rename_i b hp
    obtain ⟨-, rfl⟩ := of_some_pair hs
    have hheld : 0 < (s.proc p).held := (hi.ok p).inside (by rw [hp]; rfl)
    have hout := hi.held_le p
    exact ⟨did, h.test hp rfl rfl (by omega)⟩
  · rename_i b hp
    obtain ⟨-, rfl⟩ := of_some_pair hs
    exact h.logWrite hi hp
  · rename_i hp
    obtain ⟨-, rfl⟩ := of_some_pair hs
    exact ⟨did, h.endOp hi hp⟩
  · rename_i c hp
    obtain ⟨-, rfl⟩ := of_some_pair hs
    exact ⟨did, h.commitStep hi hp⟩

/-- Operations of at most nine distinct blocks never find the log full. -/
theorem Within.calm {ops : ι → List (List Word)} (hops : ∀ p, Within 9 (ops p))
    {t : List (LogLabel ι)} (h : Run (LogStep mkfsLog) (LogSys.start fun p => scriptCalls (ops p)) t s) :
    s.panicked ≠ some "too big a transaction" := by
  have hall := h.invariant (I := fun s => (∃ o, LogInv s o) ∧ ∃ did, Room s did)
    (C := fun _ => True) ?_ (fun _ _ => trivial) ⟨⟨none, .start fun p => nested_scriptCalls _⟩, ?_⟩
  · obtain ⟨-, did, hroom⟩ := hall
    exact hroom.calm
  · rintro s a s' - ⟨⟨o, hi⟩, did, hr⟩ hs
    exact ⟨hi.step hs, hr.step hi hs⟩
  · refine ⟨fun _ => ∅, fun p => .idle (hops p), fun p hp => absurd hp (Nat.lt_irrefl 0), ?_, nofun⟩
    have hsum : ∑ p : ι, spare ((LogSys.start fun p => scriptCalls (ops p)).proc p, ∅) = 0 :=
      Finset.sum_eq_zero fun _ _ => rfl
    rw [hsum]
    exact (by decide : (0 : Int) + 0 ≤ 28)

end

/-- Three operations of ten blocks each, thirty blocks in all. -/
def threeOps : Fin 3 → List (List Word) := fun p =>
  [(List.range 10).map fun i => BitVec.ofNat 32 (100 + 10 * p.val + i)]

/-- All three begin; then they log their blocks one operation after another. -/
def threeOpsOrder : List (Fin 3) :=
  [0, 0, 1, 1, 2, 2] ++ List.replicate 50 0 ++ List.replicate 50 1 ++ List.replicate 48 2

theorem threeOps_within (p : Fin 3) : Within MAXOPBLOCKS (threeOps p) := by
  intro ws hws
  rw [List.mem_singleton.1 hws]
  exact le_trans (List.toFinset_card_le _) (by rw [List.length_map, List.length_range])

theorem threeOps_run : ∃ t s, Run (LogStep mkfsLog) (LogSys.start fun p => scriptCalls (threeOps p))
    t s ∧ s.panicked = some "too big a transaction" := by
  have hfollow : (follow (LogSys.act mkfsLog) (LogSys.start fun p => scriptCalls (threeOps p))
      threeOpsOrder).map (fun r => r.2.panicked) = some (some "too big a transaction") := by
    decide +kernel
  obtain ⟨⟨t, s⟩, hs, he⟩ := Option.map_eq_some_iff.1 hfollow
  exact ⟨t, s, Run.of_follow LogSys.step_of_act hs, he⟩

/-- `log_write` never panics for want of room exactly when no operation may log
`MAXOPBLOCKS` distinct blocks. -/
theorem log_room (B : Nat) :
    (∀ (ι : Type) [DecidableEq ι] [Fintype ι] (ops : ι → List (List Word)),
      (∀ p, Within B (ops p)) → ∀ t s,
      Run (LogStep mkfsLog) (LogSys.start fun p => scriptCalls (ops p)) t s →
      s.panicked ≠ some "too big a transaction") ↔ B < MAXOPBLOCKS := by
  constructor
  · intro h
    by_contra hB
    obtain ⟨t, s, hrun, hpanic⟩ := threeOps_run
    refine h (Fin 3) threeOps (fun p ws hws => ?_) t s hrun hpanic
    exact le_trans (threeOps_within p ws hws) (not_lt.1 hB)
  · intro hB ι _ _ ops hops t s hrun
    exact Within.calm (fun p ws hws => le_trans (hops p ws hws) (Nat.le_of_lt_succ hB)) hrun

/-- Ten distinct blocks in each of three operations: the thirtieth `log_write` panics. -/
theorem log_room_three : (∀ p, Within MAXOPBLOCKS (threeOps p)) ∧
    ∃ t s, Run (LogStep mkfsLog) (LogSys.start fun p => scriptCalls (threeOps p)) t s ∧
      s.panicked = some "too big a transaction" :=
  ⟨threeOps_within, threeOps_run⟩

end Xv6
