import Xv6.Log.Group

/-!
# The invariant of group commit

`LogInv s o`: `o` is the process that commits, if any. Operations are counted by `outstanding`;
while a process commits there are none, so no `log_write` can be at work.
-/

namespace Xv6

open Lib

/-! ## The header -/

namespace LogHeader

variable {h : LogHeader} {b : Word}

theorem mem_blocks : b ∈ h.blocks ↔ ∃ i < h.n.toNat, h.block i = b := by
  unfold blocks
  rw [List.mem_map]
  exact exists_congr fun i => and_congr_left fun _ => List.mem_range

/-- The loop of `log_write` finds the block. -/
theorem slot_mem (hb : b ∈ h.blocks) : h.slot b < h.n.toNat ∧ h.block (h.slot b) = b := by
  obtain ⟨i, hi, hib⟩ := mem_blocks.1 hb
  unfold slot
  cases hf : (List.range h.n.toNat).find? fun i => h.block i == b with
  | none =>
    have hno := List.find?_eq_none.1 hf i (List.mem_range.2 hi)
    exact absurd (beq_iff_eq.2 hib) hno
  | some j =>
    have hj := List.find?_some hf
    exact ⟨List.mem_range.1 (List.mem_of_find?_eq_some hf), beq_iff_eq.1 hj⟩

/-- The loop runs to the end. -/
theorem slot_not_mem (hb : b ∉ h.blocks) : h.slot b = h.n.toNat := by
  unfold slot
  rw [List.find?_eq_none.2]
  · rfl
  · intro i hi hc
    exact hb (mem_blocks.2 ⟨i, List.mem_range.1 hi, beq_iff_eq.1 hc⟩)

theorem absorb_mem (hb : b ∈ h.blocks) : h.absorb b = h := by
  obtain ⟨hlt, hblock⟩ := slot_mem hb
  unfold absorb
  rw [if_neg (by omega)]
  congr
  exact Function.update_eq_self_iff.2 hblock.symm

theorem absorb_new (hn : 0 ≤ h.n) (hb : b ∉ h.blocks) :
    (h.absorb b).n = h.n + 1 ∧ (h.absorb b).blocks = h.blocks ++ [b] := by
  have hs := slot_not_mem hb
  have hn1 : (h.absorb b).n = h.n + 1 := if_pos hs
  refine ⟨hn1, ?_⟩
  have htn : (h.n + 1).toNat = h.n.toNat + 1 := by omega
  unfold blocks
  rw [hn1, htn, List.range_succ, List.map_append]
  congr 1
  · refine List.map_congr_left fun i hi => ?_
    have hlt := List.mem_range.1 hi
    exact Function.update_of_ne (by omega) _ _
  · exact congrArg (fun x => [x]) ((congrArg (fun i => Function.update h.block (h.slot b) b i)
      hs.symm).trans (Function.update_self _ _ _))

theorem absorb_n_le (hn : 0 ≤ h.n) : h.n ≤ (h.absorb b).n := by
  by_cases hb : b ∈ h.blocks
  · rw [absorb_mem hb]
  · have := (absorb_new hn hb).1
    omega

theorem absorb_le : (h.absorb b).n ≤ h.n + 1 := by
  unfold absorb
  dsimp only
  split <;> omega

theorem mem_absorb (hn : 0 ≤ h.n) {c : Word} :
    c ∈ (h.absorb b).blocks ↔ c ∈ h.blocks ∨ c = b := by
  by_cases hb : b ∈ h.blocks
  · rw [absorb_mem hb]
    exact ⟨.inl, fun hc => hc.elim id fun e => e ▸ hb⟩
  · rw [(absorb_new hn hb).2, List.mem_append, List.mem_singleton]

theorem absorb_nodup (hn : 0 ≤ h.n) (hd : h.blocks.Nodup) : (h.absorb b).blocks.Nodup := by
  by_cases hb : b ∈ h.blocks
  · rw [absorb_mem hb]
    exact hd
  · rw [(absorb_new hn hb).2]
    exact List.nodup_append'.2 ⟨hd, List.nodup_singleton b, List.disjoint_singleton.2 hb⟩

end LogHeader

/-! ## The invariant -/

/-- In `commit` or in the last section of `end_op`. -/
def LogPos.committing : LogPos → Bool
  | .commit _ => true
  | _ => false

/-- `log.lh.n` has been cleared. -/
def LogPos.cleared : LogPos → Bool
  | .commit .erase => true
  | .commit .done => true
  | _ => false

/-- In `log_write` or before the first section of `end_op`. -/
def LogPos.inside : LogPos → Bool
  | .testMax _ => true
  | .testSize _ => true
  | .testOpen _ => true
  | .logWrite _ => true
  | .endOp => true
  | _ => false

/-- The depth that the calls still to come start from. -/
def LogProc.depth (x : LogProc) : Nat :=
  match x.pos with
  | .beginOp => x.held + 1
  | .asleep => x.held + 1
  | .endOp => x.held - 1
  | _ => x.held

structure LogProc.Ok (x : LogProc) : Prop where
  calls : Nested x.depth x.calls
  inside : x.pos.inside = true → 0 < x.held

theorem LogProc.Ok.nested {x : LogProc} {a : LogPos} (h : x.Ok) (hp : x.pos = a) :
    Nested (LogProc.depth ⟨x.calls, x.held, a⟩) x.calls := by
  rw [← hp]
  exact h.calls

section

variable {ι : Type} [Fintype ι]

/-- `o` is the process that commits. -/
structure LogInv (s : LogSys ι) (o : Option ι) : Prop where
  count : s.outstanding = ∑ p, ((s.proc p).held : Int)
  n : 0 ≤ s.lh.n
  nodup : s.lh.blocks.Nodup
  ok : ∀ p, (s.proc p).Ok
  owner : ∀ p, (s.proc p).pos.committing = true ↔ o = some p
  flag : s.committing = o.isSome
  idle : o ≠ none → s.outstanding = 0
  empty : o = none → s.outstanding = 0 → s.lh.n = 0
  cleared : ∀ p, (s.proc p).pos.cleared = true → s.lh.n = 0

variable {s : LogSys ι} {o : Option ι} {p : ι} {x : LogProc}

theorem LogInv.held_le (h : LogInv s o) (p : ι) : ((s.proc p).held : Int) ≤ s.outstanding := by
  rw [h.count]
  exact Finset.single_le_sum (f := fun p => ((s.proc p).held : Int))
    (fun q _ => Int.natCast_nonneg _) (Finset.mem_univ p)

/-- While a process has an operation open nobody commits. -/
theorem LogInv.not_committing (h : LogInv s o) (hp : 0 < (s.proc p).held) : o = none := by
  by_contra ho
  have := h.idle ho
  have := h.held_le p
  omega

omit [Fintype ι] in
theorem LogSys.wakeup_self {p : ι} {s : LogSys ι} (hp : (s.proc p).pos ≠ .asleep) :
    s.wakeup.proc p = s.proc p := if_neg hp

theorem LogInv.wakeup (h : LogInv s o) : LogInv s.wakeup o := by
  have hproc : ∀ q, (s.wakeup.proc q = s.proc q) ∨ ((s.proc q).pos = .asleep ∧
      s.wakeup.proc q = { s.proc q with pos := .beginOp }) := by
    intro q
    by_cases e : (s.proc q).pos = .asleep
    · exact .inr ⟨e, if_pos e⟩
    · exact .inl (if_neg e)
  refine ⟨?_, h.n, h.nodup, fun q => ?_, fun q => ?_, h.flag, h.idle, h.empty, fun q => ?_⟩
  · refine h.count.trans (Finset.sum_congr rfl fun q _ => ?_)
    obtain e | ⟨-, e⟩ := hproc q <;> rw [e]
  · obtain e | ⟨ha, e⟩ := hproc q
    · rw [e]
      exact h.ok q
    · rw [e]
      refine ⟨?_, nofun⟩
      have hcalls := (h.ok q).nested ha
      exact hcalls
  · rw [← h.owner q]
    obtain e | ⟨ha, e⟩ := hproc q
    · rw [e]
    · rw [e, ha]
      rfl
  · obtain e | ⟨-, e⟩ := hproc q
    · rw [e]
      exact h.cleared q
    · rw [e]
      intro hc
      cases hc

theorem LogInv.die (h : LogInv s o) (msg : String) : LogInv (s.die msg) o :=
  ⟨h.count, h.n, h.nodup, h.ok, h.owner, h.flag, h.idle, h.empty, h.cleared⟩

/-- `log.lh.n = 0`. -/
theorem LogInv.clear (h : LogInv s o) : LogInv { s with lh := { s.lh with n := 0 } } o :=
  ⟨h.count, le_refl 0, List.nodup_nil, h.ok, h.owner, h.flag, h.idle, fun _ _ => rfl,
    fun _ _ => rfl⟩

/-- The section of `log_write`, while an operation is open. -/
theorem LogInv.absorb (h : LogInv s o) (hp : 0 < (s.proc p).held) (b : Word) :
    LogInv { s with lh := s.lh.absorb b } o := by
  have hout := h.held_le p
  refine ⟨h.count, le_trans h.n (LogHeader.absorb_n_le h.n), LogHeader.absorb_nodup h.n h.nodup,
    h.ok, h.owner, h.flag, h.idle, fun _ he => ?_, fun q hq => ?_⟩
  · exact absurd he (show s.outstanding ≠ 0 by omega)
  · -- a process past `log.lh.n = 0` commits, against `hp`
    have hcom : (s.proc q).pos.committing = true := by
      unfold LogPos.cleared at hq
      split at hq
      · rename_i e
        rw [e]
        rfl
      · rename_i e
        rw [e]
        rfl
      · cases hq
    rw [h.owner q, h.not_committing hp] at hcom
    cases hcom

variable [DecidableEq ι]

theorem LogInv.sum_set (h : LogInv s o) :
    ∑ q, (((s.set p x).proc q).held : Int) = s.outstanding - (s.proc p).held + x.held := by
  rw [h.count]
  exact sum_update (fun y : LogProc => (y.held : Int)) s.proc p x

theorem LogInv.owner_set (h : LogInv s o) (hcom : x.pos.committing = (s.proc p).pos.committing)
    (q : ι) : ((s.set p x).proc q).pos.committing = true ↔ o = some q := by
  by_cases e : q = p
  · rw [e, LogSys.set_self, hcom]
    exact h.owner p
  · rw [LogSys.set_ne _ _ e]
    exact h.owner q

theorem LogInv.cleared_set (h : LogInv s o) (hclr : x.pos.cleared = true → s.lh.n = 0) (q : ι) :
    ((s.set p x).proc q).pos.cleared = true → s.lh.n = 0 :=
  LogSys.forall_set (P := fun y => y.pos.cleared = true → s.lh.n = 0) hclr h.cleared q

/-- `p` moves and keeps its operations. -/
theorem LogInv.set (h : LogInv s o) (hheld : x.held = (s.proc p).held) (hok : x.Ok)
    (hcom : x.pos.committing = (s.proc p).pos.committing)
    (hclr : x.pos.cleared = true → s.lh.n = 0) : LogInv (s.set p x) o := by
  refine ⟨?_, h.n, h.nodup, LogSys.forall_set hok h.ok, h.owner_set hcom, h.flag, h.idle,
    h.empty, h.cleared_set hclr⟩
  rw [h.sum_set, hheld, Int.sub_add_cancel]
  rfl

/-- The last part of `begin_op`. -/
theorem LogInv.begun (h : LogInv s o) (ho : o = none) (hp : (s.proc p).pos = .beginOp) :
    LogInv ({ s with outstanding := s.outstanding + 1 }.set p
      ⟨(s.proc p).calls, (s.proc p).held + 1, .out⟩) o := by
  have hcalls := (h.ok p).nested hp
  have hpos := h.held_le p
  refine ⟨?_, h.n, h.nodup, LogSys.forall_set ⟨hcalls, nofun⟩ h.ok,
    h.owner_set (by rw [hp]; rfl), h.flag, fun hc => absurd ho hc, fun _ he => ?_,
    h.cleared_set nofun⟩
  · have hsum := h.sum_set (p := p) (x := ⟨(s.proc p).calls, (s.proc p).held + 1, .out⟩)
    have : s.outstanding + 1 =
        s.outstanding - (s.proc p).held + ((s.proc p).held + 1 : Nat) := by omega
    exact this.trans hsum.symm
  · have : s.outstanding + 1 = 0 := he
    omega

/-- `end_op` of an operation that is not the last one. -/
theorem LogInv.ended (h : LogInv s o) (hp : (s.proc p).pos = .endOp)
    (hne : s.outstanding - 1 ≠ 0) :
    LogInv ({ s with outstanding := s.outstanding - 1 }.set p
      ⟨(s.proc p).calls, (s.proc p).held - 1, .out⟩) o := by
  have hheld : 0 < (s.proc p).held := (h.ok p).inside (by rw [hp]; rfl)
  have hcalls := (h.ok p).nested hp
  refine ⟨?_, h.n, h.nodup, LogSys.forall_set ⟨hcalls, nofun⟩ h.ok,
    h.owner_set (by rw [hp]; rfl), h.flag, fun hc => absurd (h.not_committing hheld) hc,
    fun _ he => absurd he hne, h.cleared_set nofun⟩
  have hsum := h.sum_set (p := p) (x := ⟨(s.proc p).calls, (s.proc p).held - 1, .out⟩)
  have : s.outstanding - 1 = s.outstanding - (s.proc p).held + ((s.proc p).held - 1 : Nat) := by
    omega
  exact this.trans hsum.symm

/-- `end_op` of the last operation: `p` commits. -/
theorem LogInv.commits (h : LogInv s o) (hp : (s.proc p).pos = .endOp)
    (hlast : s.outstanding - 1 = 0) :
    LogInv ({ s with outstanding := s.outstanding - 1, committing := true }.set p
      ⟨(s.proc p).calls, (s.proc p).held - 1, .commit .start⟩) (some p) := by
  have hheld : 0 < (s.proc p).held := (h.ok p).inside (by rw [hp]; rfl)
  have hcalls := (h.ok p).nested hp
  have ho := h.not_committing hheld
  refine ⟨?_, h.n, h.nodup, LogSys.forall_set ⟨hcalls, nofun⟩ h.ok, fun q => ?_,
    rfl, fun _ => hlast, nofun, h.cleared_set nofun⟩
  · have hsum := h.sum_set (p := p) (x := ⟨(s.proc p).calls, (s.proc p).held - 1, .commit .start⟩)
    have : s.outstanding - 1 = s.outstanding - (s.proc p).held + ((s.proc p).held - 1 : Nat) := by
      omega
    exact this.trans hsum.symm
  · by_cases e : q = p
    · rw [e, LogSys.set_self]
      exact ⟨fun _ => rfl, fun _ => rfl⟩
    · rw [LogSys.set_ne _ _ e]
      have hq : ¬ (s.proc q).pos.committing = true := by
        rw [h.owner q, ho]
        exact nofun
      exact ⟨fun hc => absurd hc hq, fun hc => absurd (Option.some.inj hc).symm e⟩

/-- The last section of `end_op` after a commit. -/
theorem LogInv.released (h : LogInv s o) (hp : (s.proc p).pos = .commit .done) :
    LogInv ({ s with committing := false }.set p { s.proc p with pos := .out }) none := by
  have ho : o = some p := (h.owner p).1 (by rw [hp]; rfl)
  have hn := h.cleared p (by rw [hp]; rfl)
  have hcalls := (h.ok p).nested hp
  refine ⟨?_, h.n, h.nodup, LogSys.forall_set ⟨hcalls, nofun⟩ h.ok, fun q => ?_,
    rfl, fun hc => absurd rfl hc, fun _ _ => hn, h.cleared_set nofun⟩
  · have hsum := h.sum_set (p := p) (x := { s.proc p with pos := .out })
    have : s.outstanding = s.outstanding - (s.proc p).held + ((s.proc p).held : Nat) := by omega
    exact this.trans hsum.symm
  · by_cases e : q = p
    · rw [e, LogSys.set_self]
      exact ⟨nofun, nofun⟩
    · rw [LogSys.set_ne _ _ e, h.owner q, ho]
      exact ⟨fun hc => absurd (Option.some.inj hc).symm e, nofun⟩

/-! ## Every step keeps it -/

variable {l : LogArea} {a : LogLabel ι} {s' : LogSys ι}

theorem LogInv.call (h : LogInv s o) (hp : (s.proc p).pos = .out) (hs : s.call p = some s') :
    LogInv s' o := by
  have hcalls := (h.ok p).nested hp
  unfold LogSys.call at hs
  split at hs
  · cases hs
  · rename_i cs hc
    rw [hc] at hcalls
    obtain rfl := Option.some.inj hs
    exact h.set rfl ⟨hcalls, nofun⟩ (by rw [hp]; rfl) nofun
  · rename_i b cs hc
    rw [hc] at hcalls
    obtain rfl := Option.some.inj hs
    exact h.set rfl ⟨hcalls.2, fun _ => hcalls.1⟩ (by rw [hp]; rfl) nofun
  · rename_i cs hc
    rw [hc] at hcalls
    obtain rfl := Option.some.inj hs
    exact h.set rfl ⟨hcalls.2, fun _ => hcalls.1⟩ (by rw [hp]; rfl) nofun

theorem LogInv.beginOp (h : LogInv s o) (hp : (s.proc p).pos = .beginOp) :
    LogInv (s.beginOp p).2 o := by
  have hcalls := (h.ok p).nested hp
  have hsleep : LogInv (s.goto p .asleep) o :=
    h.set rfl ⟨hcalls, nofun⟩ (by rw [hp]; rfl) nofun
  unfold LogSys.beginOp
  split
  · exact hsleep
  · rename_i hcom
    split
    · exact hsleep
    · refine h.begun ?_ hp
      rw [h.flag, Option.isSome_iff_ne_none, not_not] at hcom
      exact hcom

theorem LogInv.test (h : LogInv s o) {bad : Prop} [Decidable bad] {msg : String} {c : LogPos}
    (hin : (s.proc p).pos.inside = true) (hdepth : (s.proc p).depth = (s.proc p).held)
    (hcom : (s.proc p).pos.committing = false)
    (hc : LogProc.depth ⟨(s.proc p).calls, (s.proc p).held, c⟩ = (s.proc p).held)
    (hc' : c.committing = false) (hclr : c.cleared = false) :
    LogInv (s.test p bad msg c) o := by
  unfold LogSys.test
  split
  · exact h.die msg
  · refine h.set rfl ⟨?_, fun _ => (h.ok p).inside hin⟩ (hc'.trans hcom.symm) fun hx => ?_
    · have hcalls := (h.ok p).calls
      rw [hdepth] at hcalls
      exact hc ▸ hcalls
    · exact absurd (hclr.symm.trans hx) Bool.false_ne_true

theorem LogInv.logWrite (h : LogInv s o) {b : Word} (hp : (s.proc p).pos = .logWrite b) :
    LogInv (s.logWrite p b) o := by
  have hheld : 0 < (s.proc p).held := (h.ok p).inside (by rw [hp]; rfl)
  have hcalls := (h.ok p).nested hp
  exact (h.absorb hheld b).set rfl ⟨hcalls, nofun⟩ (by rw [hp]; rfl) nofun

theorem LogInv.endOp (h : LogInv s o) (hp : (s.proc p).pos = .endOp) :
    ∃ o', LogInv (s.endOp p).2 o' := by
  have hheld : 0 < (s.proc p).held := (h.ok p).inside (by rw [hp]; rfl)
  have hcom : s.committing = false := by
    rw [h.flag, h.not_committing hheld]
    rfl
  have hw : s.wakeup.proc p = s.proc p := LogSys.wakeup_self (by rw [hp]; nofun)
  unfold LogSys.endOp
  dsimp only
  rw [if_neg (by rw [hcom]; exact Bool.false_ne_true)]
  split
  · rename_i hlast
    exact ⟨some p, h.commits hp hlast⟩
  · rename_i hne
    have := h.wakeup.ended (p := p) (by rw [hw]; exact hp) hne
    rw [hw] at this
    exact ⟨o, this⟩

theorem LogInv.commitStep (h : LogInv s o) {c : CommitPos} (hp : (s.proc p).pos = .commit c) :
    ∃ o', LogInv (s.commitStep p c).2 o' := by
  have hcalls := (h.ok p).nested hp
  -- steps that only move `p` inside the commit
  have hgoto : ∀ c', (LogPos.cleared (.commit c') = true → s.lh.n = 0) →
      LogInv (s.goto p (.commit c')) o := fun c' hclr =>
    h.set rfl ⟨hcalls, nofun⟩ (by rw [hp]; rfl) hclr
  cases c with
  | start =>
    by_cases hn : 0 < s.lh.n
    · exact ⟨o, hgoto _ (by rw [if_pos hn]; nofun)⟩
    · have := h.n
      exact ⟨o, hgoto _ fun _ => by omega⟩
  | writeLog tail =>
    refine ⟨o, hgoto _ ?_⟩
    split <;> nofun
  | writeHead => exact ⟨o, hgoto _ nofun⟩
  | install tail =>
    refine ⟨o, hgoto _ ?_⟩
    split <;> nofun
  | clear => exact ⟨o, h.clear.set rfl ⟨hcalls, nofun⟩ (by rw [hp]; rfl) fun _ => rfl⟩
  | erase => exact ⟨o, hgoto _ fun _ => h.cleared p (by rw [hp]; rfl)⟩
  | done =>
    have hw : s.wakeup.proc p = s.proc p := LogSys.wakeup_self (by rw [hp]; nofun)
    have := h.wakeup.released (p := p) (by rw [hw]; exact hp)
    exact ⟨none, this⟩

theorem LogInv.step (h : LogInv s o) (hs : LogStep l s a s') : ∃ o', LogInv s' o' := by
  unfold LogStep LogSys.next at hs
  split at hs
  · cases hs
  split at hs
  · rename_i hp
    obtain ⟨s1, hcall, he⟩ := Option.map_eq_some_iff.1 hs
    obtain rfl := congrArg Prod.snd he
    exact ⟨o, h.call hp hcall⟩
  · rename_i hp
    obtain rfl := congrArg Prod.snd (Option.some.inj hs)
    exact ⟨o, h.beginOp hp⟩
  · rename_i hp
    obtain rfl := congrArg Prod.snd (Option.some.inj hs)
    have hcalls := (h.ok a.proc).nested hp
    exact ⟨o, h.set rfl ⟨hcalls, nofun⟩ (by rw [hp]; rfl) nofun⟩
  · rename_i b hp
    obtain rfl := congrArg Prod.snd (Option.some.inj hs)
    exact ⟨o, h.test (by rw [hp]; rfl) (by unfold LogProc.depth; rw [hp]) (by rw [hp]; rfl) rfl rfl
      rfl⟩
  · rename_i b hp
    obtain rfl := congrArg Prod.snd (Option.some.inj hs)
    exact ⟨o, h.test (by rw [hp]; rfl) (by unfold LogProc.depth; rw [hp]) (by rw [hp]; rfl) rfl rfl
      rfl⟩
  · rename_i b hp
    obtain rfl := congrArg Prod.snd (Option.some.inj hs)
    exact ⟨o, h.test (by rw [hp]; rfl) (by unfold LogProc.depth; rw [hp]) (by rw [hp]; rfl) rfl rfl
      rfl⟩
  · rename_i b hp
    obtain rfl := congrArg Prod.snd (Option.some.inj hs)
    exact ⟨o, h.logWrite hp⟩
  · rename_i hp
    obtain rfl := congrArg Prod.snd (Option.some.inj hs)
    exact h.endOp hp
  · rename_i c hp
    obtain rfl := congrArg Prod.snd (Option.some.inj hs)
    exact h.commitStep hp

end

end Xv6
