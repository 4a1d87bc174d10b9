import Mathlib.Data.List.Nodup
import Xv6.Sched.TableInv

/-!
# Every exited process is reaped once

The trace of a run says which processes have exited and which have been returned by `wait`.
`TabHist` ties it to the table: a ZOMBIE has exited and has not been reaped, and its parent is
the process that forked it, or `init`.
-/

namespace Xv6

open Lib

variable {n : Nat} {init p c : Fin n} {s s' : Table n} {t : List (TabLabel n)} {a : TabLabel n}
  {x y : Slot n} {pc : TabPc n}

def TabLabel.exit (a : TabLabel n) : Option Int :=
  match a.event with
  | .exited => some a.pid
  | _ => none

def TabLabel.reap (a : TabLabel n) : Option Int :=
  match a.event with
  | .reaped _ pid => some pid
  | _ => none

/-- The processes that have exited, by `pid`. -/
def exitedPids (t : List (TabLabel n)) : List Int := t.filterMap TabLabel.exit

/-- What the calls of `wait` have returned. -/
def reapedPids (t : List (TabLabel n)) : List Int := t.filterMap TabLabel.reap

theorem exitedPids_append (t : List (TabLabel n)) (a : TabLabel n) :
    exitedPids (t ++ [a]) = exitedPids t ++ a.exit.toList := by
  unfold exitedPids
  rw [List.filterMap_append]
  cases h : a.exit <;> simp [h]

theorem reapedPids_append (t : List (TabLabel n)) (a : TabLabel n) :
    reapedPids (t ++ [a]) = reapedPids t ++ a.reap.toList := by
  unfold reapedPids
  rw [List.filterMap_append]
  cases h : a.reap <;> simp [h]

/-- The table and the trace so far. -/
structure TabHist (init : Fin n) (t : List (TabLabel n)) (s : Table n) : Prop extends
    TabInv init s where
  old : ∀ pid ∈ exitedPids t, pid < s.nextpid
  alive : ∀ c, (s.proc c).state ≠ .unused → (s.proc c).state ≠ .zombie →
    (s.proc c).pid ∉ exitedPids t
  dead : ∀ c, (s.proc c).state = .zombie →
    (s.proc c).pid ∈ exitedPids t ∧ (s.proc c).pid ∉ reapedPids t
  reaped_exited : ∀ pid ∈ reapedPids t, pid ∈ exitedPids t
  nodup : (reapedPids t).Nodup
  creator : ∀ c q, (s.proc c).Active ∨ (s.proc c).state = .zombie → (s.proc c).parent = some q →
    q = init ∨ ∃ a ∈ t, a.event = .forked c (s.proc c).pid ∧ a.pid = (s.proc q).pid

namespace TabHist

/-- A step in which no process exits and none is reaped. -/
theorem quiet (h : TabHist init t s) (h' : TabInv init s') (hexit : a.exit = none)
    (hreap : a.reap = none) (hn : s.nextpid ≤ s'.nextpid)
    (halive : ∀ c, (s'.proc c).state ≠ .unused → (s'.proc c).state ≠ .zombie →
      (s'.proc c).pid = s.nextpid ∨ ((s.proc c).state ≠ .unused ∧ (s.proc c).state ≠ .zombie ∧
        (s'.proc c).pid = (s.proc c).pid))
    (hdead : ∀ c, (s'.proc c).state = .zombie →
      (s.proc c).state = .zombie ∧ (s'.proc c).pid = (s.proc c).pid)
    (hcreator : ∀ c q, (s'.proc c).Active ∨ (s'.proc c).state = .zombie →
      (s'.proc c).parent = some q →
      (a.event = .forked c (s'.proc c).pid ∧ a.pid = (s'.proc q).pid) ∨
      (((s.proc c).Active ∨ (s.proc c).state = .zombie) ∧ (s.proc c).parent = some q ∧
        (s'.proc c).pid = (s.proc c).pid ∧ (s'.proc q).pid = (s.proc q).pid)) :
    TabHist init (t ++ [a]) s' := by
  have he : exitedPids (t ++ [a]) = exitedPids t := by
    rw [exitedPids_append, hexit]
    exact List.append_nil _
  have hr : reapedPids (t ++ [a]) = reapedPids t := by
    rw [reapedPids_append, hreap]
    exact List.append_nil _
  refine ⟨h', fun pid hp => ?_, fun c hu hz => ?_, fun c hc => ?_, fun pid hp => ?_, ?_,
    fun c q hc hq => ?_⟩
  · rw [he] at hp
    exact (h.old pid hp).trans_le hn
  · rw [he]
    rcases halive c hu hz with hp | ⟨hu0, hz0, hp⟩
    · rw [hp]
      exact fun hm => absurd (h.old _ hm) (lt_irrefl _)
    · rw [hp]
      exact h.alive c hu0 hz0
  · obtain ⟨hz, hp⟩ := hdead c hc
    rw [he, hr, hp]
    exact h.dead c hz
  · rw [he]
    rw [hr] at hp
    exact h.reaped_exited pid hp
  · rw [hr]
    exact h.nodup
  · rcases hcreator c q hc hq with hf | ⟨hc0, hq0, hpc, hpq⟩
    · exact .inr ⟨a, List.mem_append_right _ (List.mem_singleton_self a), hf⟩
    · rw [hpc, hpq]
      refine (h.creator c q hc0 hq0).imp_right ?_
      rintro ⟨b, hb, hf⟩
      exact ⟨b, List.mem_append_left _ hb, hf⟩

end TabHist

/-- A slot before and after a step that starts, ends and reaps no process in it. `k` is the pid
of a process that is being created. -/
structure SlotKept (k : Int) (x y : Slot n) : Prop where
  alive : y.state ≠ .unused → y.state ≠ .zombie →
    y.pid = k ∨ (x.state ≠ .unused ∧ x.state ≠ .zombie ∧ y.pid = x.pid)
  dead : y.state = .zombie → x.state = .zombie
  family : y.Active ∨ y.state = .zombie →
    (x.Active ∨ x.state = .zombie) ∧ y.parent = x.parent ∧ y.pid = x.pid
  pid : x.Active → y.pid = x.pid

theorem SlotKept.same {k : Int} {x y : Slot n} (hpid : y.pid = x.pid) (hparent : y.parent = x.parent)
    (hstate : y.state = x.state ∨ (x.Active ∧ y.Active)) : SlotKept k x y := by
  rcases hstate with he | ⟨hx, hy⟩
  · exact ⟨fun hu hz => .inr ⟨he ▸ hu, he ▸ hz, hpid⟩, fun hz => he ▸ hz,
      fun hy => ⟨hy.imp (fun ha => by rwa [Slot.Active, he] at ha) fun hz => he ▸ hz, hparent, hpid⟩,
      fun _ => hpid⟩
  · exact ⟨fun _ _ => .inr ⟨hx.ne rfl, hx.ne rfl, hpid⟩, fun hz => absurd hz (hy.ne rfl),
      fun _ => ⟨.inl hx, hparent, hpid⟩, fun _ => hpid⟩

theorem SlotKept.refl (k : Int) (x : Slot n) : SlotKept k x x := .same rfl rfl (.inl rfl)

/-- A slot without a process before and after. -/
theorem SlotKept.empty {k : Int} {x y : Slot n} (hx : x.state.active = false)
    (hy : y.state = .unused ∨
      (y.state = .embryo ∧ (y.pid = k ∨ (x.state = .embryo ∧ y.pid = x.pid)))) :
    SlotKept k x y := by
  have hinactive : ¬ (y.Active ∨ y.state = .zombie) := by
    rintro (ha | hz)
    · rcases hy with he | ⟨he, _⟩ <;> exact ha.ne rfl he
    · rcases hy with he | ⟨he, _⟩ <;> cases hz.symm.trans he
  refine ⟨fun hu _ => ?_, fun hz => absurd (.inr hz) hinactive, fun h => absurd h hinactive,
    fun ha => Bool.noConfusion (hx.symm.trans ha)⟩
  rcases hy with he | ⟨_, hk | ⟨hx, hk⟩⟩
  · exact absurd he hu
  · exact .inl hk
  · exact .inr ⟨by rw [hx]; nofun, by rw [hx]; nofun, hk⟩

namespace TabHist

theorem kept (h : TabHist init t s) (h' : TabInv init s') (hexit : a.exit = none)
    (hreap : a.reap = none) (hn : s.nextpid ≤ s'.nextpid)
    (hslot : ∀ c, SlotKept s.nextpid (s.proc c) (s'.proc c)) : TabHist init (t ++ [a]) s' := by
  refine h.quiet h' hexit hreap hn (fun c => (hslot c).alive) (fun c hc => ?_) fun c q hc hq => ?_
  · exact ⟨(hslot c).dead hc, ((hslot c).family (.inr hc)).2.2⟩
  · obtain ⟨hc0, hp, hpid⟩ := (hslot c).family hc
    rw [hp] at hq
    -- A parent is active, so it keeps its pid.
    obtain ⟨r, hr, ha⟩ := h.parent c (by rintro rfl; rw [h.root] at hq; cases hq) hc0
    obtain rfl : r = q := Option.some.inj (hr.symm.trans hq)
    exact .inr ⟨hc0, hq, hpid, (hslot r).pid ha⟩

theorem forked (h : TabHist init t s) (h' : TabInv init s') (hpid : a.pid = (s.proc p).pid)
    (he : a.event = .forked c (s.proc c).pid) (hp : (s.proc p).Active)
    (hpc : (s.proc p).pc = .start c)
    (hs' : s' = (s.set c { s.proc c with state := .runnable, pc := .user }).set p
      { s.proc p with pc := .user }) : TabHist init (t ++ [a]) s' := by
  have hchild : (s.proc p).pc.child = some c := by rw [hpc]; rfl
  have hc := h.child p c hchild
  have hne := h.child_ne hp hchild
  have hlinked := h.linked p c hchild (by rw [hpc]; trivial)
  have hat : s'.proc c = { s.proc c with state := .runnable, pc := .user } := by
    rw [hs', Table.set_of_ne _ hne, Table.set_self]
  have hslot : ∀ d, d ≠ c → SlotKept s.nextpid (s.proc d) (s'.proc d) := by
    intro d hd
    rw [hs']
    by_cases hdp : d = p
    · subst hdp
      rw [Table.set_self]
      exact .same rfl rfl (.inl rfl)
    · rw [Table.set_of_ne _ hdp, Table.set_of_ne _ hd]
      exact .refl _ _
  have hpids : ∀ d, (s.proc d).Active → (s'.proc d).pid = (s.proc d).pid := fun d hd =>
    (hslot d (by rintro rfl; exact hd.ne rfl hc)).pid hd
  refine h.quiet h' (by unfold TabLabel.exit; rw [he]) (by unfold TabLabel.reap; rw [he])
    (by rw [hs']; exact le_rfl) (fun d hu hz => ?_) (fun d hz => ?_) fun d q hd hq => ?_
  · by_cases hdc : d = c
    · subst hdc
      exact .inr ⟨by rw [hc]; nofun, by rw [hc]; nofun, by rw [hat]⟩
    · exact (hslot d hdc).alive hu hz
  · by_cases hdc : d = c
    · subst hdc
      rw [hat] at hz
      cases hz
    · exact ⟨(hslot d hdc).dead hz, ((hslot d hdc).family (.inr hz)).2.2⟩
  · by_cases hdc : d = c
    · subst hdc
      rw [hat] at hq ⊢
      obtain rfl : p = q := Option.some.inj (hlinked.symm.trans hq)
      exact .inl ⟨he, hpid.trans (hpids p hp).symm⟩
    · obtain ⟨hd0, hpar, hpd⟩ := (hslot d hdc).family hd
      rw [hpar] at hq
      obtain ⟨r, hr, ha⟩ := h.parent d (by rintro rfl; rw [h.root] at hq; cases hq) hd0
      obtain rfl : r = q := Option.some.inj (hr.symm.trans hq)
      exact .inr ⟨hd0, hq, hpd, hpids r ha⟩

theorem exited (h : TabHist init t s) (hpid : a.pid = (s.proc p).pid) (he : a.event = .exited)
    (hp : (s.proc p).Active) (hpc : (s.proc p).pc = .user) (hinit : p ≠ init) :
    TabHist init (t ++ [a]) (s.exit init p) := by
  have hexit : exitedPids (t ++ [a]) = exitedPids t ++ [(s.proc p).pid] := by
    rw [exitedPids_append, ← hpid]
    unfold TabLabel.exit
    rw [he]
    rfl
  have hreap : reapedPids (t ++ [a]) = reapedPids t := by
    rw [reapedPids_append]
    unfold TabLabel.reap
    rw [he]
    exact List.append_nil _
  have hnew : (s.proc p).pid ∉ exitedPids t := h.alive p (hp.ne rfl) (hp.ne rfl)
  refine ⟨h.toTabInv.exited hp hpc hinit, fun pid hm => ?_, fun c hu hz => ?_, fun c hz => ?_,
    fun pid hm => ?_, ?_, fun c q hc hq => ?_⟩
  · rw [Table.exit_nextpid]
    rw [hexit] at hm
    rcases List.mem_append.1 hm with hm | hm
    · exact h.old pid hm
    · rw [List.mem_singleton.1 hm]
      exact h.fresh p
  · have hcp : c ≠ p := by
      rintro rfl
      exact hz Table.exit_self
    have hu0 := mt (Table.exit_state hcp rfl).2 hu
    rw [hexit, Table.exit_pid]
    intro hm
    rcases List.mem_append.1 hm with hm | hm
    · exact h.alive c hu0 (mt (Table.exit_state hcp rfl).2 hz) hm
    · exact hcp (h.pid_inj c p hu0 (hp.ne rfl) (List.mem_singleton.1 hm))
  · rw [hexit, hreap, Table.exit_pid]
    by_cases hcp : c = p
    · rw [hcp]
      exact ⟨List.mem_append_right _ (List.mem_singleton_self _),
        fun hm => hnew (h.reaped_exited _ hm)⟩
    · obtain ⟨he, hr⟩ := h.dead c ((Table.exit_state hcp rfl).1 hz)
      exact ⟨List.mem_append_left _ he, hr⟩
  · rw [hreap] at hm
    rw [hexit]
    exact List.mem_append_left _ (h.reaped_exited pid hm)
  · rw [hreap]
    exact h.nodup
  · have hc0 : (s.proc c).Active ∨ (s.proc c).state = .zombie := by
      by_cases hcp : c = p
      · rw [hcp]
        exact .inl hp
      · exact hc.imp (Table.exit_active hcp).1 (Table.exit_state hcp rfl).1
    rw [Table.exit_parent] at hq
    by_cases hcp : (s.proc c).parent = some p
    · rw [if_pos hcp] at hq
      exact .inl (Option.some.inj hq).symm
    · rw [if_neg hcp] at hq
      rw [Table.exit_pid, Table.exit_pid]
      refine (h.creator c q hc0 hq).imp_right ?_
      rintro ⟨b, hb, hf⟩
      exact ⟨b, List.mem_append_left _ hb, hf⟩

theorem reaped (h : TabHist init t s) (he : a.event = .reaped c (s.proc c).pid)
    (hp : (s.proc p).Active) (hc : (s.proc c).state = .zombie)
    (hs' : s' = (s.set c { s.proc c with
      state := .unused, pid := 0, parent := none, killed := false }).set p
      { s.proc p with pc := .user }) : TabHist init (t ++ [a]) s' := by
  have hexit : exitedPids (t ++ [a]) = exitedPids t := by
    rw [exitedPids_append]
    unfold TabLabel.exit
    rw [he]
    exact List.append_nil _
  have hreap : reapedPids (t ++ [a]) = reapedPids t ++ [(s.proc c).pid] := by
    rw [reapedPids_append]
    unfold TabLabel.reap
    rw [he]
    rfl
  have hne : c ≠ p := by
    rintro rfl
    exact hp.ne rfl hc
  have hat : (s'.proc c).state = .unused := by
    rw [hs', Table.set_of_ne _ hne, Table.set_self]
  have hother : ∀ d, d ≠ c → (s'.proc d).state = (s.proc d).state ∧
      (s'.proc d).pid = (s.proc d).pid ∧ (s'.proc d).parent = (s.proc d).parent := by
    intro d hd
    rw [hs']
    by_cases hdp : d = p
    · subst hdp
      rw [Table.set_self]
      exact ⟨rfl, rfl, rfl⟩
    · rw [Table.set_of_ne _ hdp, Table.set_of_ne _ hd]
      exact ⟨rfl, rfl, rfl⟩
  refine ⟨by rw [hs']; exact h.toTabInv.reaped hp hc, fun pid hm => ?_, fun d hu hz => ?_,
    fun d hz => ?_, fun pid hm => ?_, ?_, fun d q hd hq => ?_⟩
  · rw [hs']
    rw [hexit] at hm
    exact h.old pid hm
  · have hdc : d ≠ c := by
      rintro rfl
      exact hu hat
    obtain ⟨hst, hpid, _⟩ := hother d hdc
    rw [hst] at hu hz
    rw [hexit, hpid]
    exact h.alive d hu hz
  · have hdc : d ≠ c := by
      rintro rfl
      cases hz.symm.trans hat
    obtain ⟨hst, hpid, _⟩ := hother d hdc
    rw [hst] at hz
    obtain ⟨hd, hr⟩ := h.dead d hz
    rw [hexit, hreap, hpid]
    refine ⟨hd, fun hm => ?_⟩
    rcases List.mem_append.1 hm with hm | hm
    · exact hr hm
    · exact hdc (h.pid_inj d c (by rw [hz]; nofun) (by rw [hc]; nofun) (List.mem_singleton.1 hm))
  · rw [hexit]
    rw [hreap] at hm
    rcases List.mem_append.1 hm with hm | hm
    · exact h.reaped_exited pid hm
    · rw [List.mem_singleton.1 hm]
      exact (h.dead c hc).1
  · rw [hreap]
    exact List.nodup_append.2 ⟨h.nodup, List.nodup_singleton _, fun x hx y hy he => by
      rw [he, List.mem_singleton.1 hy] at hx
      exact (h.dead c hc).2 hx⟩
  · have hdc : d ≠ c := by
      rintro rfl
      unfold Slot.Active at hd
      rw [hat] at hd
      rcases hd with hd | hd <;> cases hd
    obtain ⟨hst, hpid, hpar⟩ := hother d hdc
    unfold Slot.Active at hd
    rw [hst] at hd
    rw [hpar] at hq
    obtain ⟨r, hr, ha⟩ := h.parent d (by rintro rfl; rw [h.root] at hq; cases hq) hd
    obtain rfl : r = q := Option.some.inj (hr.symm.trans hq)
    have hrc : r ≠ c := by
      rintro rfl
      exact ha.ne rfl hc
    rw [hpid, (hother r hrc).2.1]
    refine (h.creator d r hd hq).imp_right ?_
    rintro ⟨b, hb, hf⟩
    exact ⟨b, List.mem_append_left _ hb, hf⟩

/-- A step that changes the slot of one process, which keeps its `pid` and its parent. -/
theorem one (h : TabHist init t s) (h' : TabInv init (s.set p x)) (hexit : a.exit = none)
    (hreap : a.reap = none) (hpid : x.pid = (s.proc p).pid) (hparent : x.parent = (s.proc p).parent)
    (hstate : x.state = (s.proc p).state ∨ ((s.proc p).Active ∧ x.Active)) :
    TabHist init (t ++ [a]) (s.set p x) :=
  h.kept h' hexit hreap le_rfl <|
    Table.forall_set (Q := fun c y => SlotKept s.nextpid (s.proc c) y) (.same hpid hparent hstate)
      fun _ _ => .refl _ _

/-- A step of `fork` on the slot `c`, in which no process is started. -/
theorem two {k : Int} (h : TabHist init t s)
    (h' : TabInv init (({ s with nextpid := k }.set c y).set p { s.proc p with pc := pc }))
    (hexit : a.exit = none) (hreap : a.reap = none) (hk : s.nextpid ≤ k)
    (hc : (s.proc c).state.active = false)
    (hy : y.state = .unused ∨ (y.state = .embryo ∧
      (y.pid = s.nextpid ∨ ((s.proc c).state = .embryo ∧ y.pid = (s.proc c).pid)))) :
    TabHist init (t ++ [a]) (({ s with nextpid := k }.set c y).set p { s.proc p with pc := pc }) :=
  h.kept h' hexit hreap hk <|
    Table.forall_set (Q := fun c y => SlotKept s.nextpid (s.proc c) y) (.same rfl rfl (.inl rfl))
      fun d _ => Table.forall_set (Q := fun c y => SlotKept s.nextpid (s.proc c) y) (.empty hc hy)
        (fun _ _ => .refl _ _) d

theorem step (h : TabHist init t s) (hs : TabStep init s a s') : TabHist init (t ++ [a]) s' := by
  have hinv := h.toTabInv.step hs.effect
  have heff := hs.effect
  have hpid := hs.1
  generalize he : a.event = e at heff
  -- What the event is decides what is added to the two lists.
  have hexit : e ≠ .exited → a.exit = none := by
    intro hne
    unfold TabLabel.exit
    split
    · rename_i ha
      exact absurd (he.symm.trans ha) hne
    · rfl
  have hreap : (∀ c pid, e ≠ .reaped c pid) → a.reap = none := by
    intro hne
    unfold TabLabel.reap
    split
    · rename_i ha
      exact absurd (he.symm.trans ha) (hne _ _)
    · rfl
  cases heff with
  | idle | killNone =>
    exact h.kept h.toTabInv (hexit nofun) (hreap nofun) le_rfl fun c => .refl _ _
  | move x hp hx hpid hparent =>
    exact h.one hinv (hexit nofun) (hreap nofun) hpid hparent (.inr ⟨hp, hx⟩)
  | trap => exact h.one hinv (hexit nofun) (hreap nofun) rfl rfl (.inl rfl)
  | waitFailed => exact h.one hinv (hexit nofun) (hreap nofun) rfl rfl (.inl rfl)
  | alloc c hp _ hc =>
    exact h.two hinv (hexit nofun) (hreap nofun) (by omega) (by rw [hc]; rfl) (.inr ⟨rfl, .inl rfl⟩)
  | forkFailed c hp hpc =>
    exact h.two hinv (hexit nofun) (hreap nofun) le_rfl (by rw [h.child _ c hpc]; rfl) (.inl rfl)
  | setParent c hp hpc =>
    have hc := h.child _ c (by rw [hpc]; rfl)
    exact h.two hinv (hexit nofun) (hreap nofun) le_rfl (by rw [hc]; rfl)
      (.inr ⟨hc, .inr ⟨hc, rfl⟩⟩)
  | forked c hp hpc => exact h.forked hinv hpid he hp hpc rfl
  | exited hp hpc hinit => exact h.exited hpid he hp hpc hinit
  | reaped c hp _ _ hc => exact h.reaped he hp hc rfl
  | kill c =>
    refine h.one hinv (hexit nofun) (hreap nofun) rfl rfl ?_
    by_cases hs : (s.proc c).state = .sleeping
    · exact .inr ⟨Slot.active_of_state hs rfl, by unfold Slot.Active; dsimp only; rw [if_pos hs]; rfl⟩
    · exact .inl (if_neg hs)

theorem boot : TabHist init [] (Table.boot init) := by
  have hparent : ∀ c, ((Table.boot init).proc c).parent = none := by
    intro c
    unfold Table.boot
    dsimp only
    split <;> rfl
  refine ⟨.boot, nofun, fun _ _ _ => List.not_mem_nil, fun c hc => ?_, nofun, List.nodup_nil,
    fun c q _ hq => by rw [hparent] at hq; cases hq⟩
  unfold Table.boot at hc
  dsimp only at hc
  split at hc <;> cases hc

theorem of_run (h : Run (TabStep init) (Table.boot init) t s) : TabHist init t s :=
  h.trace (I := TabHist init) (fun h hs => h.step hs) .boot

end TabHist

/-- A ZOMBIE stays one until `wait` returns its `pid`. -/
theorem Table.Effect.zombie {e : TabEvent n} (h : TabInv init s) (he : s.Effect init p e s')
    (hc : (s.proc c).state = .zombie) (hne : e ≠ .reaped c (s.proc c).pid) :
    (s'.proc c).state = .zombie ∧ (s'.proc c).pid = (s.proc c).pid := by
  have hactive : ∀ {q}, (s.proc q).Active → c ≠ q := by
    rintro q hq rfl
    exact hq.ne rfl hc
  have hchild : ∀ {q d}, (s.proc q).pc.child = some d → c ≠ d := by
    rintro q d hd rfl
    cases hc.symm.trans (h.child q c hd)
  cases he with
  | idle | killNone => exact ⟨hc, rfl⟩
  | move x hp | waitFailed hp =>
    rw [Table.set_of_ne _ (hactive hp)]
    exact ⟨hc, rfl⟩
  | trap hp =>
    rw [Table.set_of_ne _ (hactive (Slot.active_of_state hp rfl))]
    exact ⟨hc, rfl⟩
  | alloc d hp _ hd =>
    have hcd : c ≠ d := by
      rintro rfl
      cases hc.symm.trans hd
    rw [Table.set_of_ne _ (hactive hp), Table.set_of_ne _ hcd]
    exact ⟨hc, rfl⟩
  | forkFailed d hp hpc =>
    rw [Table.set_of_ne _ (hactive hp), Table.set_of_ne _ (hchild hpc)]
    exact ⟨hc, rfl⟩
  | setParent d hp hpc | forked d hp hpc =>
    rw [Table.set_of_ne _ (hactive hp), Table.set_of_ne _ (hchild (by rw [hpc]; rfl))]
    exact ⟨hc, rfl⟩
  | exited hp => exact ⟨(Table.exit_state (hactive hp) rfl).2 hc, Table.exit_pid⟩
  | reaped d hp =>
    have hcd : c ≠ d := by
      rintro rfl
      exact hne rfl
    rw [Table.set_of_ne _ (hactive hp), Table.set_of_ne _ hcd]
    exact ⟨hc, rfl⟩
  | kill d =>
    by_cases hcd : c = d
    · subst hcd
      rw [Table.set_self, hc]
      exact ⟨rfl, rfl⟩
    · rw [Table.set_of_ne _ hcd]
      exact ⟨hc, rfl⟩

theorem zombie_run {pid : Int} (h : Run (TabStep init) s t s') (hinv : TabInv init s)
    (hc : (s.proc c).state = .zombie) (hpid : (s.proc c).pid = pid)
    (ht : ∀ a ∈ t, a.event ≠ .reaped c pid) :
    (s'.proc c).state = .zombie ∧ (s'.proc c).pid = pid := by
  have hrun := h.invariant (C := fun a => a.event ≠ .reaped c pid)
    (I := fun s => TabInv init s ∧ (s.proc c).state = .zombie ∧ (s.proc c).pid = pid)
    (fun ha hi hs => ?_) ht ⟨hinv, hc, hpid⟩
  · exact hrun.2
  · obtain ⟨hz, hp⟩ := hs.effect.zombie hi.1 hi.2.1 (by rw [hi.2.2]; exact ha)
    exact ⟨hi.1.step hs.effect, hz, hp.trans hi.2.2⟩

/-- In every run from the table that `userinit` leaves: a process has a parent that has not
exited; nobody sleeps in `wait` with a ZOMBIE child; a `pid` is returned by `wait` once, to the
parent of the process that exited with it, which is its creator or `init`; its slot is not taken
before that; and `wait` returns `-1` to a process that is not killed only if it has no child. -/
theorem reaped_once (h : Run (TabStep init) (Table.boot init) t s) :
    (∀ p, p ≠ init → (s.proc p).state.live = true →
      ∃ q, (s.proc p).parent = some q ∧ (s.proc q).state ≠ .unused ∧ (s.proc q).state ≠ .zombie) ∧
    (∀ p q, (s.proc p).Waiting → (s.proc q).parent = some p → (s.proc q).state ≠ .zombie) ∧
    (reapedPids t).Nodup ∧
    (∀ a s' c pid, TabStep init s a s' → a.event = .reaped c pid →
      (s.proc c).state = .zombie ∧ (s.proc c).pid = pid ∧ pid ∈ exitedPids t ∧
      (s.proc c).parent = some a.proc ∧
      (a.proc = init ∨ ∃ b ∈ t, b.event = .forked c pid ∧ b.pid = a.pid)) ∧
    (∀ t1 t2 t3 a b pid, t = t1 ++ a :: (t2 ++ b :: t3) → a.event = .exited →
      b.event = .alloc a.proc pid → ∃ r ∈ t2, r.event = .reaped a.proc a.pid) ∧
    (∀ a s', TabStep init s a s' → a.event = .waitFailed → (s.proc a.proc).killed = false →
      ∀ q, (s.proc q).parent ≠ some a.proc) := by
  have hist := TabHist.of_run h
  refine ⟨fun p hp hl => ?_, fun p q hw hq hz => hist.awake p hw ⟨q, hq, hz⟩, hist.nodup,
    fun a s' c pid hs he => ?_, fun t1 t2 t3 a b pid ht ha hb => ?_, fun a s' hs he hk q hq => ?_⟩
  · have hlive : (s.proc p).Active ∨ (s.proc p).state = .zombie := by
      unfold Slot.Active
      cases hst : (s.proc p).state <;> rw [hst] at hl <;> simp_all [ProcState.live, ProcState.active]
    obtain ⟨q, hq, ha⟩ := hist.parent p hp hlive
    exact ⟨q, hq, ha.ne rfl, ha.ne rfl⟩
  · have heff := hs.effect
    rw [he] at heff
    cases heff with
    | reaped _ hp _ hparent hc =>
      refine ⟨hc, rfl, (hist.dead c hc).1, hparent, ?_⟩
      rw [hs.1]
      exact hist.creator c a.proc (.inr hc) hparent
  · subst ht
    obtain ⟨s1, s2, h1, hs, h2⟩ := h.split
    obtain ⟨s3, s4, h3, hs', _⟩ := h2.split
    have hinv1 := (TabHist.of_run h1).toTabInv
    by_contra hno
    have heff := hs.effect
    have heff' := hs'.effect
    have hinv2 := hinv1.step heff
    rw [ha] at heff
    rw [hb] at heff'
    cases heff with
    | exited hp =>
      obtain ⟨hz, _⟩ := zombie_run h3 hinv2 Table.exit_self (Table.exit_pid.trans hs.1.symm)
        fun r hr he => hno ⟨r, hr, he⟩
      cases heff' with
      | alloc _ _ _ hu => cases hz.symm.trans hu
  · have heff := hs.effect
    rw [he] at heff
    cases heff with
    | waitFailed _ _ hw =>
      rcases hw with hnone | hkilled
      · exact hnone q hq
      · cases hk.symm.trans hkilled

/-- The steps of `p` in a `fork` that succeeds. -/
def forkActs (p : Fin 3) : List (Fin 3 × TabAct) :=
  (p, .fork) :: List.replicate 5 (p, .forkStep true)

local instance neZero_three : NeZero 3 := ⟨by decide⟩

/-- `init` forks a process that forks another; both exit, the parent first. -/
def grandchild : List (Fin 3 × TabAct) :=
  [(0, .schedule)] ++ forkActs 0 ++ [(1, .schedule)] ++ forkActs 1 ++
    [(2, .schedule), (1, .exit), (2, .exit), (0, .wait), (0, .wait)]

theorem reaped_once_grandchild : ∃ t s, Run (TabStep 0) (Table.boot (0 : Fin 3)) t s ∧
    reapedPids t = [2, 3] ∧ (reapedPids t).Nodup := by
  have hfollow : (follow (Table.act 0) (Table.boot (0 : Fin 3)) grandchild).map
      (fun r => reapedPids r.1) = some [2, 3] := by decide
  obtain ⟨⟨t, s⟩, hs, ht⟩ := Option.map_eq_some_iff.1 hfollow
  have hrun : Run (TabStep 0) (Table.boot (0 : Fin 3)) t s := Run.of_follow tabStep_of_act hs
  exact ⟨t, s, hrun, ht, (reaped_once hrun).2.2.1⟩

end Xv6
