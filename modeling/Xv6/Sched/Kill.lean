import Xv6.Sched.TableInv

/-!
# Whom `kill` kills

`kill` takes the first slot with the given `pid`, whatever its state, and neither `allocproc` nor
`fork` clears `killed`. A process is killed by no one but those who name it as long as `kill` finds
no UNUSED slot and no `fork` gives back a slot that has been killed in between.
-/

namespace Xv6

open Lib

variable {n : Nat} {init p c : Fin n} {s s' : Table n} {t u : List (TabLabel n)} {a : TabLabel n}
  {pid : Int}

/-- Step `a` kills the process with this `pid` in slot `c`. -/
def TabLabel.Strikes (a : TabLabel n) (c : Fin n) (pid : Int) : Prop :=
  (∃ d, a.event = .kill pid d) ∨ (a.event = .trap ∧ a.proc = c)

/-- One of the steps of `u` kills it. -/
def Struck (u : List (TabLabel n)) (c : Fin n) (pid : Int) : Prop := ∃ a ∈ u, a.Strikes c pid

/-- `u` is the part of `t` since the process with this `pid` in slot `c` was created. -/
def Born (init : Fin n) (t : List (TabLabel n)) (c : Fin n) (pid : Int) (u : List (TabLabel n)) :
    Prop :=
  (c = init ∧ u = t) ∨ ∃ t1 b, t = t1 ++ b :: u ∧ b.event = .alloc c pid

/-- `kill` does not find an UNUSED slot, and `fork` does not give back a slot that is killed. -/
def Tidy (s : Table n) (a : TabLabel n) : Prop :=
  (∀ pid c, a.event = .kill pid (some c) → (s.proc c).state ≠ .unused) ∧
    ∀ c, a.event = .forkFailed c → (s.proc c).killed = false

def TidyStep (init : Fin n) (s : Table n) (a : TabLabel n) (s' : Table n) : Prop :=
  TabStep init s a s' ∧ Tidy s a

theorem Born.append (h : Born init t c pid u) (a : TabLabel n) :
    Born init (t ++ [a]) c pid (u ++ [a]) := by
  rcases h with ⟨hc, rfl⟩ | ⟨t1, b, rfl, hb⟩
  · exact .inl ⟨hc, rfl⟩
  · exact .inr ⟨t1, b, by rw [List.append_assoc]; rfl, hb⟩

theorem Struck.append (h : Struck u c pid) (a : TabLabel n) : Struck (u ++ [a]) c pid := by
  obtain ⟨b, hb, hs⟩ := h
  exact ⟨b, List.mem_append_left _ hb, hs⟩

theorem Struck.now (h : a.Strikes c pid) : Struck (u ++ [a]) c pid :=
  ⟨a, List.mem_append_right _ (List.mem_singleton_self a), h⟩

structure KillInv (init : Fin n) (t : List (TabLabel n)) (s : Table n) : Prop extends
    TabInv init s where
  clean : ∀ c, (s.proc c).state = .unused → (s.proc c).killed = false
  struck : ∀ c, (s.proc c).state ≠ .unused →
    ∃ u, Born init t c (s.proc c).pid u ∧ ((s.proc c).killed = true → Struck u c (s.proc c).pid)

/-- A slot before and after a step that kills whom it names only. -/
structure SlotSafe (a : TabLabel n) (c : Fin n) (x y : Slot n) : Prop where
  clean : y.state = .unused → y.killed = false
  struck : y.state ≠ .unused →
    (a.event = .alloc c y.pid ∧ y.killed = false) ∨
      (x.state ≠ .unused ∧ y.pid = x.pid ∧
        (y.killed = true → x.killed = true ∨ a.Strikes c x.pid))

namespace KillInv

theorem safe (h : KillInv init t s) (h' : TabInv init s')
    (hslot : ∀ c, SlotSafe a c (s.proc c) (s'.proc c)) : KillInv init (t ++ [a]) s' := by
  refine ⟨h', fun c => (hslot c).clean, fun c hc => ?_⟩
  rcases (hslot c).struck hc with ⟨he, hk⟩ | ⟨hu, hp, hk⟩
  · refine ⟨[], .inr ⟨t, a, rfl, he⟩, fun hk' => ?_⟩
    cases hk.symm.trans hk'
  · obtain ⟨u, hb, hs⟩ := h.struck c hu
    rw [hp]
    refine ⟨u ++ [a], hb.append a, fun hk' => ?_⟩
    rcases hk hk' with hk | hk
    · exact (hs hk).append a
    · exact .now hk

/-- A slot whose `pid` and `killed` stay, and that is as much in use as before. -/
theorem same (h : KillInv init t s) {y : Slot n} (hpid : y.pid = (s.proc c).pid)
    (hkilled : y.killed = (s.proc c).killed)
    (hstate : y.state = .unused ↔ (s.proc c).state = .unused) : SlotSafe a c (s.proc c) y :=
  ⟨fun hy => hkilled.trans (h.clean c (hstate.1 hy)),
    fun hy => .inr ⟨mt hstate.2 hy, hpid, fun hk => .inl (hkilled ▸ hk)⟩⟩

theorem step (h : KillInv init t s) (hs : TidyStep init s a s') : KillInv init (t ++ [a]) s' := by
  obtain ⟨hs, hkill, hfork⟩ := hs
  have heff := hs.effect
  have hinv := h.toTabInv.step heff
  generalize he : a.event = e at heff
  have hrefl : ∀ c, SlotSafe a c (s.proc c) (s.proc c) := fun c => h.same rfl rfl Iff.rfl
  have hone : ∀ {k : Int} {q : Fin n} {y : Slot n}, SlotSafe a q (s.proc q) y →
      ∀ c, SlotSafe a c (s.proc c) (({ s with nextpid := k }.set q y).proc c) := fun hy =>
    Table.forall_set (Q := fun c y => SlotSafe a c (s.proc c) y) hy fun c _ => hrefl c
  -- `fork` and `wait` change another slot and move the position of the process.
  have htwo : ∀ {k : Int} {q : Fin n} {y : Slot n} {pc : TabPc n}, SlotSafe a q (s.proc q) y →
      ∀ c, SlotSafe a c (s.proc c) ((({ s with nextpid := k }.set q y).set a.proc
        { s.proc a.proc with pc := pc }).proc c) := fun hy =>
    Table.forall_set (Q := fun c y => SlotSafe a c (s.proc c) y) (h.same rfl rfl Iff.rfl)
      fun c _ => hone hy c
  refine h.safe hinv ?_
  cases heff with
  | idle | killNone => exact hrefl
  | move x hp hx hpid _ hkilled =>
    exact hone (h.same hpid hkilled (iff_of_false (hx.ne rfl) (hp.ne rfl)))
  | trap hp =>
    refine hone ⟨fun hu => ?_, fun hu => ?_⟩
    · cases hp.symm.trans hu
    · exact .inr ⟨hu, rfl, fun _ => .inr (.inr ⟨he, rfl⟩)⟩
  | waitFailed => exact hone (h.same rfl rfl Iff.rfl)
  | alloc c hp _ hc =>
    -- The slot was UNUSED, so its flag is clear.
    refine htwo ⟨fun hu => ?_, fun _ => .inl ⟨he, h.clean c hc⟩⟩
    cases hu
  | forkFailed c => exact htwo ⟨fun _ => hfork c he, fun hu => absurd rfl hu⟩
  | setParent c => exact htwo (h.same rfl rfl Iff.rfl)
  | forked c hp hpc =>
    have hc : (s.proc c).state ≠ .unused := by
      rw [h.child _ c (by rw [hpc]; rfl)]
      nofun
    exact htwo (h.same rfl rfl (iff_of_false (fun hu => nomatch hu) hc))
  | exited hp =>
    intro c
    refine h.same Table.exit_pid (by rw [Table.exit_proc]) ?_
    by_cases hcp : c = a.proc
    · rw [hcp, Table.exit_self]
      exact iff_of_false nofun (hp.ne rfl)
    · exact Table.exit_state hcp rfl
  | reaped c => exact htwo ⟨fun _ => rfl, fun hu => absurd rfl hu⟩
  | kill c =>
    have hc := hkill _ c he
    refine hone ⟨fun hu => ?_, fun _ => ?_⟩
    · dsimp only at hu
      split at hu
      · cases hu
      · exact absurd hu hc
    · exact .inr ⟨hc, rfl, fun _ => .inr (.inl ⟨_, he⟩)⟩

theorem boot : KillInv init [] (Table.boot init) := by
  have hkilled : ∀ c, ((Table.boot init).proc c).killed = false := by
    intro c
    unfold Table.boot
    dsimp only
    split <;> rfl
  refine ⟨.boot, fun c _ => hkilled c, fun c hc => ?_⟩
  have hinit : c = init := by
    by_contra hne
    exact hc (by unfold Table.boot; dsimp only; rw [if_neg hne])
  refine ⟨[], .inl ⟨hinit, rfl⟩, fun hk => ?_⟩
  cases (hkilled c).symm.trans hk

end KillInv

/-- In every run in which `kill` finds no UNUSED slot and `fork` gives back no killed slot: a
process is killed only if it has been named to `kill`, or has trapped, since it was created; it is
created with `killed` clear; and `kill` returns 0 only for the `pid` of a process. -/
theorem kill_named (h : Run (TidyStep init) (Table.boot init) t s) :
    (∀ c, (s.proc c).state ≠ .unused → (s.proc c).killed = true →
      ∃ u, Born init t c (s.proc c).pid u ∧ Struck u c (s.proc c).pid) ∧
    (∀ a s', TidyStep init s a s' →
      (∀ c pid, a.event = .alloc c pid → (s'.proc c).pid = pid ∧ (s'.proc c).killed = false) ∧
      ∀ c pid, a.event = .kill pid (some c) →
        (s.proc c).pid = pid ∧ (s.proc c).state ≠ .unused) := by
  have hinv : KillInv init t s := h.trace (I := KillInv init) (fun h hs => h.step hs) .boot
  refine ⟨fun c hc hk => ?_, fun a s' hs => ⟨fun c pid he => ?_, fun c pid he => ?_⟩⟩
  · obtain ⟨u, hb, hu⟩ := hinv.struck c hc
    exact ⟨u, hb, hu hk⟩
  · have heff := hs.1.effect
    rw [he] at heff
    cases heff with
    | alloc _ hp _ hc =>
      have hne : c ≠ a.proc := by
        intro hcp
        rw [hcp] at hc
        exact hp.ne rfl hc
      rw [Table.set_of_ne _ hne, Table.set_self]
      exact ⟨rfl, hinv.clean c hc⟩
  · refine ⟨?_, hs.2.1 pid c he⟩
    have heff := hs.1.effect
    rw [he] at heff
    cases heff with
    | kill => rfl

/-- `init` forks a process and kills it by its `pid`. -/
def killChild : List (Fin 2 × TabAct) :=
  [(0, .schedule), (0, .fork), (0, .forkStep true), (0, .forkStep true), (0, .forkStep true),
    (0, .forkStep true), (0, .forkStep true), (0, .kill 2)]

instance (s : Table n) (a : TabLabel n) : Decidable (Tidy s a) :=
  decidable_of_iff ((match a.event with
      | .kill _ (some c) => decide ((s.proc c).state ≠ .unused)
      | .forkFailed c => !(s.proc c).killed
      | _ => true) = true) <| by
    unfold Tidy
    split <;> simp_all

/-- The tidy step that `k` names, with its label. -/
def Table.tidyAct (init : Fin n) (s : Table n) (k : Fin n × TabAct) :
    Option (TabLabel n × Table n) :=
  (s.act init k).filter fun r => Tidy s r.1

theorem tidyStep_of_act {k : Fin n × TabAct} (h : s.tidyAct init k = some (a, s')) :
    TidyStep init s a s' := by
  obtain ⟨hact, ht⟩ := Option.filter_eq_some_iff.1 h
  exact ⟨tabStep_of_act hact, of_decide_eq_true ht⟩

theorem kill_named_child : ∃ t s, Run (TidyStep 0) (Table.boot (0 : Fin 2)) t s ∧
    (s.proc 1).state = .runnable ∧ (s.proc 1).killed = true ∧
    ∃ u, Born 0 t 1 (s.proc 1).pid u ∧ Struck u 1 (s.proc 1).pid := by
  have hfollow : (follow (Table.tidyAct 0) (Table.boot (0 : Fin 2)) killChild).map
      (fun r => ((r.2.proc 1).state, (r.2.proc 1).killed)) = some (.runnable, true) := by decide
  obtain ⟨⟨t, s⟩, hs, he⟩ := Option.map_eq_some_iff.1 hfollow
  obtain ⟨hst, hk⟩ := Prod.mk.inj he
  have hrun : Run (TidyStep 0) (Table.boot (0 : Fin 2)) t s := Run.of_follow tidyStep_of_act hs
  exact ⟨t, s, hrun, hst, hk, (kill_named hrun).1 1 (by rw [hst]; nofun) hk⟩

/-- `init` calls `kill(0)` and forks. -/
def killZero : List (Fin 2 × TabAct) :=
  [(0, .schedule), (0, .kill 0), (0, .fork), (0, .forkStep true), (0, .forkStep true),
    (0, .forkStep true), (0, .forkStep true), (0, .forkStep true)]

/-- `kill(0)` finds an UNUSED slot and returns 0. The next process in that slot starts with
`killed` set, although no one has called `kill` with its `pid` and it has not trapped. -/
theorem kill_zero_strikes : ∃ t s, Run (TabStep 0) (Table.boot (0 : Fin 2)) t s ∧
    (∃ a ∈ t, a.event = .kill 0 (some 1)) ∧ (s.proc 1).state = .runnable ∧ (s.proc 1).pid = 2 ∧
    (s.proc 1).killed = true ∧ ∀ a ∈ t, a.event ≠ .trap ∧ ∀ d, a.event ≠ .kill 2 d := by
  have hfollow : (follow (Table.act 0) (Table.boot (0 : Fin 2)) killZero).map
      (fun r => (r.1.map TabLabel.event, (r.2.proc 1).state, (r.2.proc 1).pid,
        (r.2.proc 1).killed)) =
      some ([.tau, .kill 0 (some 1), .alloc 1 2, .tau, .tau, .tau, .tau, .forked 1 2],
        .runnable, 2, true) := by decide
  obtain ⟨⟨t, s⟩, hs, he⟩ := Option.map_eq_some_iff.1 hfollow
  obtain ⟨ht, he⟩ := Prod.mk.inj he
  obtain ⟨hst, he⟩ := Prod.mk.inj he
  obtain ⟨hpid, hk⟩ := Prod.mk.inj he
  have hmem : ∀ a ∈ t, a.event ∈ t.map TabLabel.event := fun a ha => List.mem_map_of_mem ha
  refine ⟨t, s, Run.of_follow tabStep_of_act hs, ?_, hst, hpid, hk, fun a ha => ?_⟩
  · apply List.mem_map.1
    rw [show t.map TabLabel.event = _ from ht]
    simp
  · have hev := hmem a ha
    rw [show t.map TabLabel.event = _ from ht] at hev
    simp only [List.mem_cons, List.not_mem_nil, or_false] at hev
    rcases hev with h | h | h | h | h | h | h | h <;> rw [h] <;> exact ⟨nofun, nofun⟩

end Xv6
