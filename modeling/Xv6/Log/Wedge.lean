import Xv6.Log.OneTransaction

/-!
# Operations that wait for themselves

`exec` calls `removeSwapFile`, `createSwapFile` and `writeToSwapFile` between its own `begin_op`
and `end_op`. Each of them begins an operation of its own. If it has to sleep there, it waits for
an `end_op` that its own process cannot reach.
-/

namespace Xv6

open Lib

section

variable {ι : Type}

/-- Who sleeps in `begin_op` has no operation open. -/
def SleepsFree (s : LogSys ι) : Prop := ∀ p, (s.proc p).pos = .asleep → (s.proc p).held = 0

variable [DecidableEq ι] {s s' : LogSys ι} {p : ι} {x : LogProc} {l : LogArea} {a : LogLabel ι}

theorem SleepsFree.set (h : SleepsFree s) (hx : x.pos = .asleep → x.held = 0) :
    SleepsFree (s.set p x) :=
  LogSys.forall_set (P := fun y => y.pos = .asleep → y.held = 0) hx h

omit [DecidableEq ι] in
theorem SleepsFree.wakeup (h : SleepsFree s) : SleepsFree s.wakeup := by
  intro q hq
  rw [LogSys.wakeup_held]
  refine h q ?_
  unfold LogSys.wakeup at hq
  dsimp only at hq
  split at hq
  · cases hq
  · exact hq

theorem SleepsFree.test (h : SleepsFree s) {bad : Prop} [Decidable bad] {msg : String} {c : LogPos}
    (hc : c ≠ .asleep) : SleepsFree (s.test p bad msg c) := by
  unfold LogSys.test
  split
  · exact h
  · exact h.set fun ha => absurd ha hc

theorem SleepsFree.endOp (h : SleepsFree s) : SleepsFree (s.endOp p).2 := by
  unfold LogSys.endOp
  dsimp only
  split
  · exact h
  · split
    · exact SleepsFree.set (s := { s with outstanding := s.outstanding - 1, committing := true }) h
        nofun
    · exact SleepsFree.set (s := { s.wakeup with outstanding := s.outstanding - 1 }) h.wakeup nofun

theorem SleepsFree.commitStep (h : SleepsFree s) {c : CommitPos} :
    SleepsFree (s.commitStep p c).2 := by
  cases c with
  | clear => exact SleepsFree.set (s := { s with lh := { s.lh with n := 0 } }) h nofun
  | done => exact SleepsFree.set (s := { s.wakeup with committing := false }) h.wakeup nofun
  | _ => exact h.set nofun

/-- `begin_op` puts only processes to sleep that have no operation open. -/
def LogLabel.Free (a : LogLabel ι) : Prop := ∀ k, a.event = .slept k → k = 0

theorem SleepsFree.step (h : SleepsFree s) (ha : a.Free) (hs : LogStep l s a s') :
    SleepsFree s' := by
  obtain ⟨p, e⟩ := a
  unfold LogStep LogSys.next at hs
  dsimp only at hs
  split at hs
  · cases hs
  split at hs
  · obtain ⟨s1, hcall, he⟩ := Option.map_eq_some_iff.1 hs
    obtain ⟨-, rfl⟩ := Prod.mk.inj he
    unfold LogSys.call at hcall
    split at hcall
    · cases hcall
    all_goals
      obtain rfl := Option.some.inj hcall
      exact h.set (by simp)
  · obtain ⟨rfl, rfl⟩ := of_some_pair hs
    have hsleep : LogLabel.Free (⟨p, .slept (s.proc p).held⟩ : LogLabel ι) →
        SleepsFree (s.goto p .asleep) := fun hk => h.set fun _ => hk _ rfl
    unfold LogSys.beginOp at ha ⊢
    split at ha
    · rename_i hcom
      rw [if_pos hcom]
      exact hsleep ha
    · rename_i hcom
      rw [if_neg hcom]
      split at ha
      · rename_i hfull
        rw [if_pos hfull]
        exact hsleep ha
      · rename_i hroom
        rw [if_neg hroom]
        exact SleepsFree.set (s := { s with outstanding := s.outstanding + 1 }) h (by simp)
  · obtain ⟨-, rfl⟩ := of_some_pair hs
    exact h.set (by simp)
  · obtain ⟨-, rfl⟩ := of_some_pair hs
    exact h.test (by simp)
  · obtain ⟨-, rfl⟩ := of_some_pair hs
    exact h.test (by simp)
  · obtain ⟨-, rfl⟩ := of_some_pair hs
    exact h.test (by simp)
  · obtain ⟨-, rfl⟩ := of_some_pair hs
    exact SleepsFree.set (s := { s with lh := s.lh.absorb _ }) h (by simp)
  · obtain ⟨-, rfl⟩ := of_some_pair hs
    exact h.endOp
  · rename_i c _
    obtain ⟨-, rfl⟩ := of_some_pair hs
    exact h.commitStep

end

end Xv6
