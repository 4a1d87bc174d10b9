import Xv6.Proc.Fork

/-!
# `exit` and `wait`

A process that exits gives up its swap file and becomes a zombie that keeps its frames. Its
parent's `wait` returns them: the kernel stack, then the address space, then the slot.
-/

namespace Xv6

open Lib Finset

/-- What `exit` leaves: slot `c` is a zombie, and the others may have a new parent. -/
structure Exited (c : Nat) (s s' : Kernel) : Prop where
  initproc : s'.initproc = s.initproc
  nextpid : s'.nextpid = s.nextpid
  dirs : s'.dirs = s.dirs
  self : (s'.proc c).state = .zombie
  other : ∀ p ≠ c, ∃ t, s'.proc p = { s.proc p with parent := t }

theorem reparent_proc (s : Kernel) (c p : Nat) :
    ∃ t, (reparent s c).proc p = { s.proc p with parent := t } := by
  unfold reparent
  dsimp only
  split <;> exact ⟨_, rfl⟩

/-- The state `exit` ends in. -/
def exited (s : Kernel) (c : Nat) : Kernel :=
  (reparent (s.setFile (s.proc c).pid none) c).setProc c
    { (reparent (s.setFile (s.proc c).pid none) c).proc c with state := .zombie }

theorem exited_self (s : Kernel) (c : Nat) :
    ∃ t, (exited s c).proc c = { s.proc c with parent := t, state := .zombie } := by
  obtain ⟨t, ht⟩ := reparent_proc (s.setFile (s.proc c).pid none) c c
  refine ⟨t, ?_⟩
  unfold exited
  rw [ht]
  exact Function.update_self _ _ _

theorem exited_other (s : Kernel) {c p : Nat} (h : p ≠ c) :
    ∃ t, (exited s c).proc p = { s.proc p with parent := t } := by
  obtain ⟨t, ht⟩ := reparent_proc (s.setFile (s.proc c).pid none) c p
  exact ⟨t, (Function.update_of_ne h _ _).trans ht⟩

theorem zombieChild_some {s : Kernel} {c k : Nat} (h : zombieChild s c = some k) :
    k < NPROC ∧ (s.proc k).parent = some c ∧ (s.proc k).state = .zombie := by
  have h1 := List.mem_range.mp (List.mem_of_find?_eq_some h)
  have h2 := List.find?_some h
  simp only [Bool.and_eq_true, beq_iff_eq] at h2
  exact ⟨h1, h2⟩

section

variable [Build] {E : String → Prop} {s s' : Kernel} {P : Pend} {F : Nat → Nat → Nat → Byte}
  {c k : Nat}

theorem Inv.exit (h : Inv s Pend.none F) (hr : Running s c) : Inv (exited s c) Pend.none F := by
  obtain ⟨t, hc⟩ := exited_self s c
  have hne : ∀ p, ((exited s c).proc p).state.active = true → p ≠ c := fun p ha => by
    rintro rfl
    rw [hc] at ha
    cases ha
  have hact : ∀ p, ((exited s c).proc p).state.active = true →
      (s.proc p).state.active = true := fun p ha => by
    obtain ⟨t, hp⟩ := exited_other s (hne p ha)
    rwa [hp] at ha
  refine h.of_fields (fun p => ?_) hact rfl rfl rfl h.quiet rfl rfl rfl fun p hp ha => ?_
  · by_cases e : p = c
    · rw [e, hc]
      exact ⟨(ProcState.live_of_active hr.active).symm, rfl, rfl, rfl⟩
    · obtain ⟨t, hp⟩ := exited_other s e
      rw [hp]
      exact ⟨rfl, rfl, rfl, rfl⟩
  · have e := hne p ha
    obtain ⟨t, hp'⟩ := exited_other s e
    have hok := h.procs p hp (hact p ha)
    have hfile : (exited s c).files (s.proc p).pid = s.files (s.proc p).pid :=
      Function.update_of_ne (h.pids p hp c hr.lt (hact p ha) hr.active e) _ _
    rw [hp', hfile]
    obtain ⟨g, hg, hst⟩ := hok.stored
    exact ⟨hok.agree.congr rfl rfl rfl rfl rfl, hok.below, hok.swapFile,
      ⟨g, hg, hst.of_slots fun _ _ _ => rfl⟩, hok.size⟩

theorem exit_inv (h : Inv s Pend.none F) (hr : Running s c) (hE : E "init exiting") :
    wp exit E (fun _ s' => Inv s' Pend.none F ∧ Exited c s s') s := by
  have hself := h.self hr
  obtain ⟨g, hg, -⟩ := hself.stored
  unfold exit
  refine wp_seq (get_wp ?_)
  rw [hr.cur]
  by_cases hi : c = s.initproc
  · rw [if_pos hi]
    exact hE
  · rw [if_neg hi]
    unfold destroySwap
    refine wp_seq (removeSwapFile_wp hself.swapFile hg (wp_seq (assertPanic_wp rfl
      (wp_seq (modify_wp (wp_seq (getProc_wp (setProc_wp ⟨h.exit hr, ?_⟩))))))))
    obtain ⟨t, hc⟩ := exited_self s c
    exact ⟨rfl, rfl, rfl, congrArg Proc.state hc, fun p hp => exited_other s hp⟩

/-! ## `wait` -/

/-- The frames of slot `k` are held by the kernel. -/
theorem Own.detach (h : Own s Pend.none) (hk : k < NPROC) (hlive : (s.proc k).state.live = true) :
    Own s (({ Pend.none with skip := k }.hold (s.proc k).kstack).withDir (s.proc k).pgdir) :=
  fun f => by
  have hold : procCount s NPROC k f = ind ((s.proc k).kstack = f) +
      dirCount (s.proc k).pgdir (s.dirs (s.proc k).pgdir) f := by
    unfold procCount counted
    rw [hlive, Bool.true_and, if_pos (by simpa using hk.ne)]
  have hnew : procCount s k k f = 0 := by
    unfold procCount counted
    rw [bne_self_eq_false, Bool.and_false, if_neg (by decide)]
  have hsum := sum_range_change (g := fun p => procCount s NPROC p f)
    (q := fun p => procCount s k p f) hk fun p hp hne => by
      unfold procCount counted
      rw [show (p != NPROC) = true by simpa using hp.ne, show (p != k) = true by simpa using hne]
  rw [hold, hnew] at hsum
  have h1 := h f
  rw [owned_withDir, owned_hold]
  unfold owned inUse at h1 ⊢
  rw [show Pend.none.skip = NPROC from rfl] at h1
  dsimp only
  omega

/-- A zombie's frames are taken over. -/
theorem Inv.detach (h : Inv s Pend.none F) (hk : k < NPROC) (hz : (s.proc k).state = .zombie) :
    Inv s (({ Pend.none with skip := k }.hold (s.proc k).kstack).withDir (s.proc k).pgdir) F := by
  have hcnt : ∀ p < NPROC, Xv6.counted s k p = true → Xv6.counted s Pend.none.skip p = true :=
    fun p hp hc => by
      rw [counted_none hp]
      exact (Bool.and_eq_true _ _ ▸ hc).1
  refine ⟨h.own.detach hk (by rw [hz]; rfl), fun p hp hc => h.dirs p hp (hcnt p hp hc),
    fun p hp hc => h.excl p hp (hcnt p hp hc), h.procs, fun p hp ha => ?_, h.pids, h.pidLt, h.quiet⟩
  rintro rfl
  rw [hz] at ha
  cases ha

/-- The slot is empty again. -/
theorem Inv.unskip (h : Inv s { Pend.none with skip := k } F) (hk : (s.proc k).state = .unused) :
    Inv s Pend.none F := by
  have hcnt : ∀ p < NPROC, Xv6.counted s Pend.none.skip p = Xv6.counted s k p := fun p hp => by
    rw [counted_none hp]
    unfold Xv6.counted
    by_cases e : p = k
    · rw [e, hk]; rfl
    · rw [show (p != k) = true by simpa using e, Bool.and_true]
  refine ⟨fun f => ?_, fun p hp hc => h.dirs p hp (by rw [← hc]; exact (hcnt p hp).symm),
    fun p hp hc => h.excl p hp (by rw [← hc]; exact (hcnt p hp).symm), h.procs,
    fun p hp _ => hp.ne, h.pids, h.pidLt, h.quiet⟩
  have hu : inUse s Pend.none f = inUse s { Pend.none with skip := k } f := by
    unfold inUse
    rw [sum_congr rfl fun p hp => ?_]
    unfold procCount
    rw [hcnt p (mem_range.1 hp)]
  have h1 := h.own f
  unfold owned at h1 ⊢
  rw [hu]
  exact h1

/-- What `wait` did: slot `k` is empty, the other processes go on. -/
structure Waited (k : Nat) (s s' : Kernel) : Prop where
  cur : s'.cur = s.cur
  cr3 : s'.cr3 = s.cr3
  initproc : s'.initproc = s.initproc
  nextpid : s'.nextpid = s.nextpid
  lt : k < NPROC
  zombie : (s.proc k).state = .zombie
  self : (s'.proc k).state = .unused
  other : ∀ p ≠ k, s'.proc p = s.proc p
  dirs : ∀ p < NPROC, p ≠ k → (s.proc p).state.live = true →
    s'.dirs (s.proc p).pgdir = s.dirs (s.proc p).pgdir

theorem wait_inv (h : Inv s Pend.none F) :
    wp wait E (fun _ s' => Inv s' Pend.none F ∧ (s' = s ∨ ∃ k, Waited k s s')) s := by
  unfold wait
  refine wp_seq (get_wp ?_)
  cases hz : zombieChild s s.cur with
  | none =>
    dsimp only
    split <;> exact ⟨h, .inl rfl⟩
  | some k =>
    obtain ⟨hk, -, hst⟩ := zombieChild_some hz
    have hd := h.detach hk hst
    have hex := h.excl k hk (by rw [counted_none hk, hst]; rfl)
    refine wp_seq (kfree_wp (Own.managed_held (P := Pend.withDir _ _) hd.own) ?_)
    have hskip : ∀ s', Xv6.counted s' k k = false := fun s' => by
      unfold Xv6.counted
      rw [bne_self_eq_false, Bool.and_false]
    have h1 : Inv ((s.freed (s.proc k).kstack).setProc k { s.proc k with kstack := 0 })
        (Pend.withDir { Pend.none with skip := k } (s.proc k).pgdir) F := by
      refine (Inv.give (P := Pend.withDir _ _) hd).offstage (k := k) (hskip _) (hskip _) ?_
        (fun p hp => Function.update_of_ne hp _ _) rfl le_rfl rfl rfl rfl (fun _ _ _ => rfl) hd.quiet
      rw [show Kernel.proc (Kernel.setProc _ k _) k = _ from Function.update_self _ _ _, hst]
      rfl
    refine wp_seq (getProc_wp (wp_seq (setProc_wp (wp_seq (wp_post (freevm_inv
      (P := { Pend.none with skip := k }) (F := F) h1 hex) ?_)))))
    rintro _ s2 ⟨h2, hb⟩
    refine wp_seq (getProc_wp (wp_seq (setProc_wp ?_)))
    have hself : ((s2.setProc k { s2.proc k with
        pid := 0, parent := none, killed := false, state := .unused }).proc k).state = .unused := by
      rw [show Kernel.proc (Kernel.setProc _ k _) k = _ from Function.update_self _ _ _]
    refine ⟨Inv.unskip (k := k) (h2.offstage (k := k) (hskip _) (hskip _) (by rw [hself]; rfl)
      (fun p hp => Function.update_of_ne hp _ _) rfl le_rfl rfl rfl rfl (fun _ _ _ => rfl) h2.quiet)
      hself, .inr ⟨k, hb.cur, hb.cr3, hb.initproc, hb.nextpid, hk, hst, hself, fun p hp => ?_,
      fun p hp hne hl => hb.dirs _ ?_⟩⟩
    · rw [show Kernel.proc (Kernel.setProc _ k _) p = _ from Function.update_of_ne hp _ _, hb.proc]
      exact Function.update_of_ne hp _ _
    · exact h.own.pgdir_ne hp hk hne (by rw [counted_none hp, hl])
        (by rw [counted_none hk, hst]; rfl)

end

end Xv6
