import Xv6.Sched.Table

/-!
# The invariant of the process table

What holds of the table between two critical sections: who is whose parent, which slot a `fork`
in progress owns, and that nobody sleeps in `wait` on a ZOMBIE.
-/

namespace Xv6

open Lib

variable {n : Nat} {init p c : Fin n} {s s' : Table n}

/-- What holds of the table between critical sections. -/
structure TabInv (init : Fin n) (s : Table n) : Prop where
  pos : 0 < s.nextpid
  fresh : ∀ c, (s.proc c).pid < s.nextpid
  pid_inj : ∀ c d, (s.proc c).state ≠ .unused → (s.proc d).state ≠ .unused →
    (s.proc c).pid = (s.proc d).pid → c = d
  init_active : (s.proc init).Active
  busy : ∀ p, (s.proc p).pc ≠ .user → (s.proc p).Active
  /-- A `fork` owns the slot it fills. -/
  child : ∀ p c, (s.proc p).pc.child = some c → (s.proc c).state = .embryo
  child_inj : ∀ p q c, (s.proc p).pc.child = some c → (s.proc q).pc.child = some c → p = q
  linked : ∀ p c, (s.proc p).pc.child = some c → (s.proc p).pc.Linked → (s.proc c).parent = some p
  parent : ∀ p, p ≠ init → (s.proc p).Active ∨ (s.proc p).state = .zombie →
    ∃ q, (s.proc p).parent = some q ∧ (s.proc q).Active
  root : (s.proc init).parent = none
  parent_ne : ∀ c, (s.proc c).parent ≠ some c
  awake : ∀ p, (s.proc p).Waiting → ¬ s.ZombieChild p

namespace Slot

variable {x : Slot n}

theorem Active.ne {t : ProcState} (h : x.Active) (ht : t.active = false) : x.state ≠ t := by
  rintro rfl
  exact Bool.noConfusion (ht.symm.trans h)

theorem Waiting.active (h : x.Waiting) : x.Active := active_of_state h.1 rfl

end Slot

namespace Table

variable {q : Fin n}

theorem exit_pid : ((s.exit init p).proc q).pid = (s.proc q).pid := by
  rw [exit_proc]

theorem exit_pc : ((s.exit init p).proc q).pc = (s.proc q).pc := by
  rw [exit_proc]

theorem exit_parent : ((s.exit init p).proc q).parent =
    if (s.proc q).parent = some p then some init else (s.proc q).parent := by
  rw [exit_proc]

theorem exit_self : ((s.exit init p).proc p).state = .zombie := by
  rw [exit_proc]
  exact if_pos rfl

theorem exit_active (hq : q ≠ p) : ((s.exit init p).proc q).Active ↔ (s.proc q).Active := by
  rw [exit_proc]
  unfold Slot.Active
  dsimp only
  rw [if_neg hq]
  split
  · rename_i hw
    exact iff_of_true rfl hw.2.active
  · exact Iff.rfl

theorem exit_state (hq : q ≠ p) {t : ProcState} (ht : t.active = false) :
    ((s.exit init p).proc q).state = t ↔ (s.proc q).state = t := by
  rw [exit_proc]
  dsimp only
  rw [if_neg hq]
  split
  · rename_i hw
    refine iff_of_false ?_ (hw.2.active.ne ht)
    rintro rfl
    cases ht
  · exact Iff.rfl

end Table

namespace TabInv

theorem child_ne (h : TabInv init s) (hp : (s.proc p).Active) (hc : (s.proc p).pc.child = some c) :
    c ≠ p := by
  rintro rfl
  exact hp.ne rfl (h.child c c hc)

/-- A change of one slot that keeps its `pid` and its parent. -/
theorem touch (h : TabInv init s) (x : Slot n) (hpid : x.pid = (s.proc p).pid)
    (hparent : x.parent = (s.proc p).parent)
    (hstate : x.state = (s.proc p).state ∨ ((s.proc p).Active ∧ x.Active))
    (hbusy : x.pc ≠ .user → x.Active)
    (hchild : ∀ c, x.pc.child = some c →
      (s.proc c).state = .embryo ∧ ∀ q, (s.proc q).pc.child = some c → q = p)
    (hlinked : ∀ c, x.pc.child = some c → x.pc.Linked → (s.proc c).parent = some p)
    (hwait : x.Waiting → ¬ s.ZombieChild p) : TabInv init (s.set p x) := by
  have hact : x.Active ↔ (s.proc p).Active := by
    rcases hstate with he | ⟨h0, h1⟩
    · unfold Slot.Active
      rw [he]
    · exact ⟨fun _ => h0, fun _ => h1⟩
  have hkeep : ∀ {t : ProcState}, t.active = false → (x.state = t ↔ (s.proc p).state = t) := by
    intro t ht
    rcases hstate with he | ⟨h0, h1⟩
    · rw [he]
    · exact iff_of_false (h1.ne ht) (h0.ne ht)
  -- Slot by slot, what the other slots see of the change.
  have hpids : ∀ q, ((s.set p x).proc q).pid = (s.proc q).pid :=
    Table.forall_set (Q := fun q x => x.pid = (s.proc q).pid) hpid fun _ _ => rfl
  have hparents : ∀ q, ((s.set p x).proc q).parent = (s.proc q).parent :=
    Table.forall_set (Q := fun q x => x.parent = (s.proc q).parent) hparent fun _ _ => rfl
  have hacts : ∀ q, ((s.set p x).proc q).Active ↔ (s.proc q).Active :=
    Table.forall_set (Q := fun q x => x.Active ↔ (s.proc q).Active) hact fun _ _ => Iff.rfl
  have hstates : ∀ {t : ProcState}, t.active = false →
      ∀ q, ((s.set p x).proc q).state = t ↔ (s.proc q).state = t := fun {t} ht =>
    Table.forall_set (Q := fun q x => x.state = t ↔ (s.proc q).state = t) (hkeep ht)
      fun _ _ => Iff.rfl
  have hz : ∀ r, (s.set p x).ZombieChild r ↔ s.ZombieChild r := fun r =>
    exists_congr fun c => by rw [hparents, hstates rfl]
  have howner : ∀ q c, ((s.set p x).proc q).pc.child = some c →
      (s.proc c).state = .embryo ∧ ∀ r, (s.proc r).pc.child = some c → r = q :=
    Table.forall_set (Q := fun q x => ∀ c, x.pc.child = some c →
        (s.proc c).state = .embryo ∧ ∀ r, (s.proc r).pc.child = some c → r = q)
      hchild fun q _ c hc => ⟨h.child q c hc, fun r hr => h.child_inj r q c hr hc⟩
  refine ⟨h.pos, fun c => ?_, fun c d hc hd he => ?_, (hacts init).2 h.init_active, ?_,
    fun q c hc => (hstates rfl c).2 (howner q c hc).1, fun q r c hq hr => ?_,
    fun q c => ?_, fun q hq hs => ?_, (hparents init).trans h.root,
    fun c => by rw [hparents]; exact h.parent_ne c, ?_⟩
  · rw [hpids]
    exact h.fresh c
  · rw [hpids, hpids] at he
    exact h.pid_inj c d (mt (hstates rfl c).2 hc) (mt (hstates rfl d).2 hd) he
  · exact Table.forall_set (Q := fun _ x => x.pc ≠ .user → x.Active) hbusy fun q _ => h.busy q
  · -- If neither is `p`, both owned `c` before.
    by_cases hp : q = p
    · by_cases hp' : r = p
      · rw [hp, hp']
      · rw [Table.set_of_ne _ hp'] at hr
        exact ((howner q c hq).2 r hr).symm
    · rw [Table.set_of_ne _ hp] at hq
      exact (howner r c hr).2 q hq
  · rw [hparents]
    exact Table.forall_set (Q := fun q x => x.pc.child = some c → x.pc.Linked →
      (s.proc c).parent = some q) (hlinked c) (fun q _ => h.linked q c) q
  · rw [hparents]
    rw [hacts, hstates rfl] at hs
    obtain ⟨r, hr, ha⟩ := h.parent q hq hs
    exact ⟨r, hr, (hacts r).2 ha⟩
  · intro q
    rw [hz]
    exact Table.forall_set (Q := fun q x => x.Waiting → ¬ s.ZombieChild q) hwait
      (fun q _ => h.awake q) q

/-- A change of a slot that holds no running process, made by none or by its owner. -/
theorem change (h : TabInv init s) (k : Int) (y : Slot n) (hc : (s.proc c).state.active = false)
    (hk : s.nextpid ≤ k) (hpc : y.pc = .user) (hpid : y.pid < k)
    (huniq : y.state ≠ .unused → ∀ d, d ≠ c → (s.proc d).state ≠ .unused → y.pid ≠ (s.proc d).pid)
    (howned : ∀ q, (s.proc q).pc.child = some c →
      y.state = .embryo ∧ ((s.proc q).pc.Linked → y.parent = some q))
    (hzombie : y.state ≠ .zombie)
    (hparent : y.Active → ∃ q, y.parent = some q ∧ (s.proc q).Active) (hself : y.parent ≠ some c) :
    TabInv init ({ s with nextpid := k }.set c y) := by
  have hne : ∀ {q}, (s.proc q).Active → q ≠ c := by
    rintro q hq rfl
    exact Bool.noConfusion (hc.symm.trans hq)
  have hother : ∀ {q}, q ≠ c → ({ s with nextpid := k }.set c y).proc q = s.proc q :=
    fun hq => Table.set_of_ne _ hq
  have hactive : ∀ {q}, (s.proc q).Active → (({ s with nextpid := k }.set c y).proc q).Active := by
    intro q hq
    rwa [hother (hne hq)]
  have hz : ∀ {r}, ({ s with nextpid := k }.set c y).ZombieChild r → s.ZombieChild r := by
    rintro r ⟨d, hd, hs⟩
    by_cases hdc : d = c
    · subst hdc
      rw [Table.set_self] at hs
      exact absurd hs hzombie
    · rw [hother hdc] at hd hs
      exact ⟨d, hd, hs⟩
  have howner : ∀ {q d}, (({ s with nextpid := k }.set c y).proc q).pc.child = some d →
      q ≠ c ∧ (s.proc q).pc.child = some d := by
    intro q d hd
    by_cases hq : q = c
    · subst hq
      rw [Table.set_self, hpc] at hd
      cases hd
    · rw [hother hq] at hd
      exact ⟨hq, hd⟩
  refine ⟨h.pos.trans_le hk,
    Table.forall_set (Q := fun _ x => x.pid < k) hpid fun d _ => (h.fresh d).trans_le hk,
    fun d e hd he hde => ?_, hactive h.init_active, ?_, fun q d hd => ?_, fun q r d hq hr =>
    h.child_inj q r d (howner hq).2 (howner hr).2, fun q d hd hl => ?_, fun q hq hs => ?_,
    by rw [hother (hne h.init_active)]; exact h.root,
    Table.forall_set (Q := fun q x => x.parent ≠ some q) hself fun q _ => h.parent_ne q, ?_⟩
  · by_cases hdc : d = c
    · by_cases hec : e = c
      · rw [hdc, hec]
      · subst hdc
        rw [Table.set_self] at hd hde
        rw [hother hec] at he hde
        exact absurd hde (huniq hd e hec he)
    · rw [hother hdc] at hd hde
      by_cases hec : e = c
      · subst hec
        rw [Table.set_self] at he hde
        exact absurd hde.symm (huniq he d hdc hd)
      · rw [hother hec] at he hde
        exact h.pid_inj d e hd he hde
  · exact Table.forall_set (Q := fun _ x => x.pc ≠ .user → x.Active) (fun hu => absurd hpc hu)
      fun q _ => h.busy q
  · obtain ⟨_, hd'⟩ := howner hd
    by_cases hdc : d = c
    · subst hdc
      rw [Table.set_self]
      exact (howned q hd').1
    · rw [hother hdc]
      exact h.child q d hd'
  · obtain ⟨hq, hd'⟩ := howner hd
    rw [hother hq] at hl
    by_cases hdc : d = c
    · subst hdc
      rw [Table.set_self]
      exact (howned q hd').2 hl
    · rw [hother hdc]
      exact h.linked q d hd' hl
  · by_cases hqc : q = c
    · subst hqc
      rw [Table.set_self] at hs ⊢
      obtain ⟨r, hr, ha⟩ := hparent (hs.resolve_right hzombie)
      exact ⟨r, hr, hactive ha⟩
    · rw [hother hqc] at hs ⊢
      obtain ⟨r, hr, ha⟩ := h.parent q hq hs
      exact ⟨r, hr, hactive ha⟩
  · intro q hq hzq
    by_cases hqc : q = c
    · subst hqc
      rw [Table.set_self] at hq
      exact nomatch hpc.symm.trans hq.2
    · rw [hother hqc] at hq
      exact h.awake q hq (hz hzq)

/-- Process `p` goes on in `fork` or leaves it, with nothing else changed. -/
theorem goto (h : TabInv init s) (hp : (s.proc p).Active) (pc : TabPc n)
    (hchild : ∀ c, pc.child = some c →
      (s.proc c).state = .embryo ∧ ∀ q, (s.proc q).pc.child = some c → q = p)
    (hlinked : ∀ c, pc.child = some c → pc.Linked → (s.proc c).parent = some p)
    (hpc : pc ≠ .wait) : TabInv init (s.set p { s.proc p with pc := pc }) :=
  h.touch _ rfl rfl (.inl rfl) (fun _ => hp) hchild hlinked fun hw => absurd hw.2 hpc

theorem leave (h : TabInv init s) (hp : (s.proc p).Active) :
    TabInv init (s.set p { s.proc p with pc := .user }) :=
  h.goto hp .user nofun nofun nofun

/-- When `p` has left `fork`, its slot belongs to no one. -/
theorem leave_owner (h : TabInv init s) (hc : (s.proc p).pc.child = some c) (q : Fin n) :
    ((s.set p { s.proc p with pc := .user }).proc q).pc.child ≠ some c := by
  by_cases hq : q = p
  · subst hq
    rw [Table.set_self]
    nofun
  · rw [Table.set_of_ne _ hq]
    exact fun hqc => hq (h.child_inj q p c hqc hc)

/-- An UNUSED or ZOMBIE slot belongs to no `fork`. -/
theorem not_owned (h : TabInv init s) (hc : (s.proc c).state ≠ .embryo) (q : Fin n) :
    (s.proc q).pc.child ≠ some c := fun hq => hc (h.child q c hq)

theorem idle_pc (h : TabInv init s) (hc : (s.proc c).state.active = false) :
    (s.proc c).pc = .user := by
  by_contra hne
  exact Bool.noConfusion (hc.symm.trans (h.busy c hne))

theorem alloc (h : TabInv init s) (hp : (s.proc p).Active) (hc : (s.proc c).state = .unused) :
    TabInv init (({ s with nextpid := s.nextpid + 1 }.set c
      { s.proc c with state := .embryo, pid := s.nextpid }).set p
      { s.proc p with pc := .kstack c }) := by
  have hc0 : (s.proc c).state.active = false := by rw [hc]; rfl
  have hne : p ≠ c := by
    rintro rfl
    exact hp.ne rfl hc
  have howned := h.not_owned (c := c) (by rw [hc]; nofun)
  have h1 := h.change (s.nextpid + 1) { s.proc c with state := .embryo, pid := s.nextpid } hc0
    (by omega) (h.idle_pc hc0) (Int.lt_succ _) (fun _ d _ _ => (h.fresh d).ne')
    (fun q hq => absurd hq (howned q)) nofun nofun (h.parent_ne c)
  have hp1 : ({ s with nextpid := s.nextpid + 1 }.set c
      { s.proc c with state := .embryo, pid := s.nextpid }).proc p = s.proc p :=
    Table.set_of_ne _ hne
  rw [← hp1]
  refine h1.goto (by rwa [hp1]) (.kstack c) (fun d hd => ?_) nofun nofun
  obtain rfl : c = d := Option.some.inj hd
  refine ⟨by rw [Table.set_self], fun q hq => ?_⟩
  by_cases hqc : q = c
  · subst hqc
    rw [Table.set_self, h.idle_pc hc0] at hq
    cases hq
  · rw [Table.set_of_ne _ hqc] at hq
    exact absurd hq (howned q)

theorem setParent (h : TabInv init s) (hp : (s.proc p).Active)
    (hpc : (s.proc p).pc = .setParent c) :
    TabInv init ((s.set c { s.proc c with parent := some p }).set p
      { s.proc p with pc := .initSwap c }) := by
  have hchild : (s.proc p).pc.child = some c := by rw [hpc]; rfl
  have hc := h.child p c hchild
  have hne := h.child_ne hp hchild
  have hc0 : (s.proc c).state.active = false := by rw [hc]; rfl
  have h1 := h.change s.nextpid { s.proc c with parent := some p } hc0 le_rfl (h.idle_pc hc0)
    (h.fresh c) (fun hu d hd hs he => hd (h.pid_inj d c hs hu he.symm))
    (fun q hq => ⟨hc, fun _ => by rw [h.child_inj q p c hq hchild]⟩) (by rw [hc]; nofun)
    (fun ha => absurd hc (Slot.Active.ne ha rfl)) fun he => hne (Option.some.inj he).symm
  have hp1 : (s.set c { s.proc c with parent := some p }).proc p = s.proc p :=
    Table.set_of_ne _ hne.symm
  rw [← hp1]
  refine h1.goto (by rw [show { s with nextpid := s.nextpid } = s from rfl, hp1]; exact hp)
    (.initSwap c) (fun d hd => ?_) (fun d hd _ => ?_) nofun
  · obtain rfl : c = d := Option.some.inj hd
    refine ⟨by rw [Table.set_self]; exact hc, fun q hq => ?_⟩
    by_cases hqc : q = c
    · subst hqc
      rw [Table.set_self, h.idle_pc hc0] at hq
      cases hq
    · rw [Table.set_of_ne _ hqc] at hq
      exact h.child_inj q p c hq hchild
  · obtain rfl : c = d := Option.some.inj hd
    rw [Table.set_self]

theorem forkFailed (h : TabInv init s) (hp : (s.proc p).Active)
    (hpc : (s.proc p).pc.child = some c) :
    TabInv init ((s.set c { s.proc c with state := .unused }).set p
      { s.proc p with pc := .user }) := by
  have hne := h.child_ne hp hpc
  have hc0 : (s.proc c).state.active = false := by rw [h.child p c hpc]; rfl
  have hcp : (s.set p { s.proc p with pc := .user }).proc c = s.proc c := Table.set_of_ne _ hne
  have h1 := h.leave hp
  rw [Table.set_comm hne]
  refine h1.change s.nextpid { s.proc c with state := .unused } (by rwa [hcp]) le_rfl
    (h.idle_pc hc0) (h.fresh c) (fun hu => absurd rfl hu)
    (fun q hq => absurd hq (h.leave_owner hpc q)) nofun nofun (h.parent_ne c)

theorem forked (h : TabInv init s) (hp : (s.proc p).Active) (hpc : (s.proc p).pc = .start c) :
    TabInv init ((s.set c { s.proc c with state := .runnable, pc := .user }).set p
      { s.proc p with pc := .user }) := by
  have hchild : (s.proc p).pc.child = some c := by rw [hpc]; rfl
  have hc := h.child p c hchild
  have hne := h.child_ne hp hchild
  have hc0 : (s.proc c).state.active = false := by rw [hc]; rfl
  have hcp : (s.set p { s.proc p with pc := .user }).proc c = s.proc c := Table.set_of_ne _ hne
  have hlinked := h.linked p c hchild (by rw [hpc]; trivial)
  rw [Table.set_comm hne]
  refine (h.leave hp).change s.nextpid { s.proc c with state := .runnable, pc := .user }
    (by rwa [hcp]) le_rfl rfl (h.fresh c) (fun _ d hd hs he => ?_)
    (fun q hq => absurd hq (h.leave_owner hchild q)) nofun
    (fun _ => ⟨p, hlinked, by rw [Table.set_self]; exact hp⟩) (h.parent_ne c)
  -- The pid of `c` has been its own since `allocproc`.
  have hcu : ((s.set p { s.proc p with pc := .user }).proc c).state ≠ .unused := by
    rw [hcp, hc]
    nofun
  refine hd ((h.leave hp).pid_inj d c hs hcu ?_)
  rw [hcp]
  exact he.symm

theorem reaped (h : TabInv init s) (hp : (s.proc p).Active) (hc : (s.proc c).state = .zombie) :
    TabInv init ((s.set c { s.proc c with
      state := .unused, pid := 0, parent := none, killed := false }).set p
      { s.proc p with pc := .user }) := by
  have hne : c ≠ p := by
    rintro rfl
    exact hp.ne rfl hc
  have hc0 : (s.proc c).state.active = false := by rw [hc]; rfl
  have hcp : (s.set p { s.proc p with pc := .user }).proc c = s.proc c := Table.set_of_ne _ hne
  have h1 := h.leave hp
  rw [Table.set_comm hne]
  exact h1.change s.nextpid _ (by rwa [hcp]) le_rfl (h.idle_pc hc0) h.pos (fun hu => absurd rfl hu)
    (fun q hq => absurd hq (h1.not_owned (by rw [hcp, hc]; nofun) q)) nofun nofun nofun

theorem exited (h : TabInv init s) (hp : (s.proc p).Active) (hpc : (s.proc p).pc = .user)
    (hinit : p ≠ init) : TabInv init (s.exit init p) := by
  have howner : ∀ {q c}, ((s.exit init p).proc q).pc.child = some c →
      q ≠ p ∧ c ≠ p ∧ (s.proc q).pc.child = some c := by
    intro q c hc
    rw [Table.exit_pc] at hc
    refine ⟨?_, ?_, hc⟩
    · rintro rfl
      rw [hpc] at hc
      cases hc
    · rintro rfl
      exact hp.ne rfl (h.child q _ hc)
  have hused : ∀ {q}, ((s.exit init p).proc q).state ≠ .unused → (s.proc q).state ≠ .unused := by
    intro q hq
    by_cases hqp : q = p
    · rw [hqp]
      exact hp.ne rfl
    · exact mt (Table.exit_state hqp rfl).2 hq
  refine ⟨?_, fun c => ?_, fun c d hc hd he => ?_, (Table.exit_active hinit.symm).2 h.init_active,
    fun q hq => ?_, fun q c hc => ?_, fun q r c hq hr => ?_, fun q c hc hl => ?_,
    fun q hq hs => ?_, ?_, fun c hc => ?_, fun q hq => ?_⟩
  · rw [Table.exit_nextpid]
    exact h.pos
  · rw [Table.exit_pid, Table.exit_nextpid]
    exact h.fresh c
  · rw [Table.exit_pid, Table.exit_pid] at he
    exact h.pid_inj c d (hused hc) (hused hd) he
  · rw [Table.exit_pc] at hq
    have hqp : q ≠ p := by
      rintro rfl
      exact hq hpc
    exact (Table.exit_active hqp).2 (h.busy q hq)
  · obtain ⟨_, hcp, hc'⟩ := howner hc
    exact (Table.exit_state hcp rfl).2 (h.child q c hc')
  · exact h.child_inj q r c (howner hq).2.2 (howner hr).2.2
  · obtain ⟨hqp, _, hc'⟩ := howner hc
    rw [Table.exit_pc] at hl
    have hpar := h.linked q c hc' hl
    rw [Table.exit_parent, if_neg (by rw [hpar]; exact fun he => hqp (Option.some.inj he))]
    exact hpar
  · -- The parent of `q` is `init`, or an active process other than `p`.
    have hs' : (s.proc q).Active ∨ (s.proc q).state = .zombie := by
      by_cases hqp : q = p
      · rw [hqp]
        exact .inl hp
      · exact hs.imp (Table.exit_active hqp).1 (Table.exit_state hqp rfl).1
    obtain ⟨r, hr, ha⟩ := h.parent q hq hs'
    rw [Table.exit_parent]
    by_cases hrp : r = p
    · rw [if_pos (by rw [hr, hrp])]
      exact ⟨init, rfl, (Table.exit_active hinit.symm).2 h.init_active⟩
    · rw [if_neg (by rw [hr]; exact fun he => hrp (Option.some.inj he))]
      exact ⟨r, hr, (Table.exit_active hrp).2 ha⟩
  · rw [Table.exit_parent, h.root]
    rfl
  · -- `init` has no parent, so it is not given to itself.
    rw [Table.exit_parent] at hc
    by_cases hcp : (s.proc c).parent = some p
    · rw [if_pos hcp, Option.some.injEq] at hc
      rw [← hc, h.root] at hcp
      cases hcp
    · rw [if_neg hcp] at hc
      exact h.parent_ne c hc
  · -- Who still sleeps in `wait` has not been woken, so `p` and the children of `p` are not
    -- among its ZOMBIE children.
    have hqp : q ≠ p := by
      rintro rfl
      exact Slot.Active.ne hq.active rfl Table.exit_self
    rw [Table.exit_proc] at hq
    have hq1 := hq.1
    dsimp only at hq1
    rw [if_neg hqp] at hq1
    have hasleep : ¬ (s.WokenBy init p q ∧ (s.proc q).Waiting) := by
      intro hw
      rw [if_pos hw] at hq1
      cases hq1
    rw [if_neg hasleep] at hq1
    have hwq : (s.proc q).Waiting := ⟨hq1, hq.2⟩
    have hnot : ¬ s.WokenBy init p q := fun hw => hasleep ⟨hw, hwq⟩
    rintro ⟨c, hc, hz⟩
    rw [Table.exit_parent] at hc
    by_cases hcp : c = p
    · subst hcp
      rw [if_neg (h.parent_ne c)] at hc
      exact hnot (.inl hc)
    · have hz' := (Table.exit_state hcp rfl).1 hz
      by_cases hcc : (s.proc c).parent = some p
      · rw [if_pos hcc] at hc
        exact hnot (.inr ⟨(Option.some.inj hc).symm, c, hcc, hz'⟩)
      · rw [if_neg hcc] at hc
        exact h.awake q hwq ⟨c, hc, hz'⟩

theorem step {e : TabEvent n} (h : TabInv init s) (he : s.Effect init p e s') :
    TabInv init s' := by
  -- `p` goes on with the slot it owned, if any.
  have hkept : ∀ {pc : TabPc n} c, pc.child = (s.proc p).pc.child → pc.child = some c →
      (s.proc c).state = .embryo ∧ ∀ q, (s.proc q).pc.child = some c → q = p := by
    intro pc c he hc
    rw [he] at hc
    exact ⟨h.child p c hc, fun q hq => h.child_inj q p c hq hc⟩
  cases he with
  | idle | killNone => exact h
  | move x hp hx hpid hparent _ hchild hlinked hwait =>
    exact h.touch x hpid hparent (.inr ⟨hp, hx⟩) (fun _ => hx) (fun c hc => hkept c hchild hc)
      (fun c hc hl => h.linked p c (hchild ▸ hc) (hlinked hl)) hwait
  | trap hp =>
    exact h.touch _ rfl rfl (.inl rfl) (h.busy p) (fun c hc => hkept c rfl hc)
      (fun c hc hl => h.linked p c hc hl) fun hw => nomatch hp.symm.trans hw.1
  | waitFailed hp => exact h.leave hp
  | alloc c hp _ hc => exact h.alloc hp hc
  | forkFailed c hp hpc => exact h.forkFailed hp hpc
  | setParent c hp hpc => exact h.setParent hp hpc
  | forked c hp hpc => exact h.forked hp hpc
  | exited hp hpc hinit => exact h.exited hp hpc hinit
  | reaped c hp _ _ hc => exact h.reaped hp hc
  | kill c =>
    have hactive : (s.proc c).Active → ({ s.proc c with
        killed := true
        state := if (s.proc c).state = .sleeping then .runnable else (s.proc c).state } :
        Slot n).Active := by
      intro ha
      unfold Slot.Active
      dsimp only
      split
      · rfl
      · exact ha
    refine h.touch _ rfl rfl ?_ (fun hpc => hactive (h.busy c hpc))
      (fun d hd => ⟨h.child c d hd, fun q hq => h.child_inj q c d hq hd⟩)
      (fun d hd hl => h.linked c d hd hl) fun hw => ?_
    · by_cases hs : (s.proc c).state = .sleeping
      · have ha := Slot.active_of_state hs rfl
        exact .inr ⟨ha, hactive ha⟩
      · exact .inl (if_neg hs)
    · have hs := hw.1
      dsimp only at hs
      split at hs
      · cases hs
      · rename_i hne
        exact absurd hs hne

theorem boot : TabInv init (Table.boot init) := by
  have hinit : (Table.boot init).proc init = ⟨.runnable, 1, none, false, .user⟩ := if_pos rfl
  have hother : ∀ {c}, c ≠ init → (Table.boot init).proc c = ⟨.unused, 0, none, false, .user⟩ :=
    fun hc => if_neg hc
  have hpc : ∀ c, ((Table.boot init).proc c).pc = .user := by
    intro c
    unfold Table.boot
    dsimp only
    split <;> rfl
  have hparent : ∀ c, ((Table.boot init).proc c).parent = none := by
    intro c
    unfold Table.boot
    dsimp only
    split <;> rfl
  have hused : ∀ {c}, ((Table.boot init).proc c).state ≠ .unused → c = init := by
    intro c hc
    by_contra hne
    exact hc (by rw [hother hne])
  refine ⟨two_pos, fun c => ?_, fun c d hc hd _ => (hused hc).trans (hused hd).symm,
    by rw [hinit]; rfl, fun c hc => absurd (hpc c) hc, fun p c hc => ?_, fun p q c hc => ?_,
    fun p c hc => ?_, fun p hp hs => ?_, hparent init, fun c hc => ?_, fun p hp => ?_⟩
  · unfold Table.boot
    dsimp only
    split <;> simp
  · rw [hpc] at hc
    cases hc
  · rw [hpc] at hc
    cases hc
  · rw [hpc] at hc
    cases hc
  · rw [hother hp] at hs
    rcases hs with hs | hs <;> cases hs
  · rw [hparent] at hc
    cases hc
  · exact nomatch (hpc p).symm.trans hp.2

end TabInv

end Xv6
