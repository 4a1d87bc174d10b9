import Xv6.Vm.Copy
import Xv6.Swap.Pack
import Xv6.Proc.Ops

/-!
# `fork`

The child's slot is set up while it is an embryo: a kernel stack, a copy of the parent's
address space, a copy of the parent's tables and a packed copy of its swap file. Its frames
are held by the kernel until the slot becomes runnable.
-/

namespace Xv6

open Lib Finset

/-- The processes of `s` go on in `s'` as they were. -/
structure Spared (s s' : Kernel) : Prop where
  cur : s'.cur = s.cur
  cr3 : s'.cr3 = s.cr3
  initproc : s'.initproc = s.initproc
  nextpid : s.nextpid ≤ s'.nextpid
  proc : ∀ p < NPROC, (s.proc p).state.live = true → s'.proc p = s.proc p
  dirs : ∀ p < NPROC, (s.proc p).state.live = true →
    s'.dirs (s.proc p).pgdir = s.dirs (s.proc p).pgdir

theorem Spared.refl (s : Kernel) : Spared s s :=
  ⟨rfl, rfl, rfl, le_rfl, fun _ _ _ => rfl, fun _ _ _ => rfl⟩

theorem Spared.trans {s s' s'' : Kernel} (h1 : Spared s s') (h2 : Spared s' s'') : Spared s s'' where
  cur := h2.cur.trans h1.cur
  cr3 := h2.cr3.trans h1.cr3
  initproc := h2.initproc.trans h1.initproc
  nextpid := h1.nextpid.trans h2.nextpid
  proc p hp hl := by
    have h := h1.proc p hp hl
    rw [h2.proc p hp (by rw [h]; exact hl), h]
  dirs p hp hl := by
    have h := h1.proc p hp hl
    have hd := h2.dirs p hp (by rw [h]; exact hl)
    rw [h] at hd
    rw [hd, h1.dirs p hp hl]

theorem Spared.running {s s' : Kernel} {c : Nat} (h : Spared s s') (hr : Running s c) :
    Running s' c := by
  have hp := h.proc c hr.lt (ProcState.live_of_active hr.active)
  exact ⟨h.cur.trans hr.cur, hr.lt, by rw [hp]; exact hr.active, by rw [h.cr3, hp, hr.cr3]⟩

/-- Changes to one slot that is not in use. -/
theorem Spared.of_slot {s s' : Kernel} {k : Nat} (hk : (s.proc k).state.live = false)
    (hother : ∀ p ≠ k, s'.proc p = s.proc p) (hcur : s'.cur = s.cur) (hcr3 : s'.cr3 = s.cr3)
    (hinit : s'.initproc = s.initproc) (hpid : s.nextpid ≤ s'.nextpid) (hdirs : s'.dirs = s.dirs) :
    Spared s s' :=
  ⟨hcur, hcr3, hinit, hpid, fun p _ hl => hother p (by rintro rfl; rw [hk] at hl; cases hl),
    fun p _ _ => by rw [hdirs]⟩

theorem unusedSlot_some {s : Kernel} {k : Nat} (h : unusedSlot s = some k) : k < NPROC ∧ (s.proc k).state = .unused := by
  have h1 := List.mem_range.mp (List.mem_of_find?_eq_some h)
  have h2 := List.find?_some h
  exact ⟨h1, by simpa using h2⟩

/-- No process is new in `s'`. -/
def NoneNew (s s' : Kernel) : Prop :=
  ∀ p, (s'.proc p).state.live = true → (s.proc p).state.live = true

/-- Slot `k` between `allocproc`, called in `s0`, and `RUNNABLE`. -/
structure Nascent (c k : Nat) (s0 s : Kernel) : Prop where
  lt : k < NPROC
  ne : k ≠ c
  free : (s0.proc k).state = .unused
  spared : Spared s0 s
  state : (s.proc k).state = .embryo
  others : ∀ p ≠ k, s.proc p = s0.proc p
  pid : (s.proc k).pid = s0.nextpid
  nextpid : s.nextpid = s0.nextpid + 1
  fresh : ∀ p < NPROC, (s0.proc p).state.active = true → (s0.proc p).pid < s0.nextpid

namespace Nascent

variable {s0 s s' : Kernel} {c k : Nat}

theorem hidden (h : Nascent c k s0 s) : (s.proc k).state.live = false := by rw [h.state]; rfl

theorem embryo (h : Nascent c k s0 s) : Embryo k s where
  hidden := h.hidden
  fresh p hp ha := by
    have hne : p ≠ k := by
      rintro rfl
      rw [h.state] at ha
      cases ha
    rw [h.others p hne] at ha ⊢
    rw [h.pid]
    exact (h.fresh p hp ha).ne

/-- The slot's other fields are written. -/
theorem setProc {q : Proc} (h : Nascent c k s0 s) (hst : q.state = .embryo)
    (hpid : q.pid = s0.nextpid) : Nascent c k s0 (s.setProc k q) := by
  have hk : (s.setProc k q).proc k = q := Function.update_self _ _ _
  have hp : ∀ p ≠ k, (s.setProc k q).proc p = s.proc p := fun p hp => Function.update_of_ne hp _ _
  exact ⟨h.lt, h.ne, h.free, h.spared.trans (Spared.of_slot h.hidden hp rfl rfl rfl le_rfl rfl),
    by rw [hk, hst], fun p hne => (hp p hne).trans (h.others p hne), by rw [hk, hpid], h.nextpid,
    h.fresh⟩

theorem withFile (h : Nascent c k s0 s) (f : SwapFile) : Nascent c k s0 (s.withFile k f) := by
  have h1 := h.setProc (q := { s.proc k with swapFile := true }) h.state h.pid
  exact ⟨h1.lt, h1.ne, h1.free, ⟨h1.spared.cur, h1.spared.cr3, h1.spared.initproc,
    h1.spared.nextpid, h1.spared.proc, h1.spared.dirs⟩, h1.state, h1.others, h1.pid, h1.nextpid,
    h1.fresh⟩

theorem of_packing {b : Nat} (h : Nascent c k s0 s) (hp : Packing k b s s') :
    Nascent c k s0 s' := by
  obtain ⟨a, ha⟩ := hp.self
  exact ⟨h.lt, h.ne, h.free, h.spared.trans (Spared.of_slot h.hidden hp.other hp.cur hp.cr3
    hp.initproc hp.nextpid.ge hp.dirs), by rw [ha]; exact h.state,
    fun p hne => (hp.other p hne).trans (h.others p hne), by rw [ha]; exact h.pid,
    hp.nextpid.trans h.nextpid, h.fresh⟩

theorem running (h : Nascent c k s0 s) (h' : Nascent c k s0 s') (hr : Running s c) :
    Running s' c := by
  have hc : s'.proc c = s.proc c := by rw [h'.others c h.ne.symm, h.others c h.ne.symm]
  exact ⟨by rw [h'.spared.cur, ← h.spared.cur, hr.cur], hr.lt, by rw [hc]; exact hr.active,
    by rw [h'.spared.cr3, ← h.spared.cr3, hr.cr3, hc]⟩

/-- Only frames, files and directories without a process changed. -/
theorem of_proc (h : Nascent c k s0 s) (hproc : s'.proc = s.proc) (hcur : s'.cur = s.cur)
    (hcr3 : s'.cr3 = s.cr3) (hinit : s'.initproc = s.initproc) (hpid : s'.nextpid = s.nextpid)
    (hdirs : ∀ p < NPROC, (s.proc p).state.live = true →
      s'.dirs (s.proc p).pgdir = s.dirs (s.proc p).pgdir) : Nascent c k s0 s' :=
  ⟨h.lt, h.ne, h.free, h.spared.trans ⟨hcur, hcr3, hinit, hpid.ge, fun p _ _ => by rw [hproc], hdirs⟩,
    by rw [hproc]; exact h.state, by rw [hproc]; exact h.others, by rw [hproc]; exact h.pid,
    hpid.trans h.nextpid, h.fresh⟩

theorem aside {P : Pend} (h : Nascent c k s0 s) (ha : Aside P s s') (hskip : P.skip = NPROC) :
    Nascent c k s0 s' := by
  obtain ⟨d, hb, hne⟩ := ha
  refine h.of_proc hb.proc hb.cur hb.cr3 hb.initproc hb.nextpid fun p hp hl => hb.dirs _ (hne p hp ?_)
  unfold counted
  rw [hl, hskip]
  simpa using hp.ne

/-- The slot is given back. -/
theorem drop {q : Proc} (h : Nascent c k s0 s) (hst : q.state = .unused) :
    Spared s0 (s.setProc k q) ∧ NoneNew s0 (s.setProc k q) := by
  have hp : ∀ p ≠ k, (s.setProc k q).proc p = s.proc p := fun p hp => Function.update_of_ne hp _ _
  refine ⟨h.spared.trans (Spared.of_slot h.hidden hp rfl rfl rfl le_rfl rfl), fun p hl => ?_⟩
  by_cases e : p = k
  · rw [e, show (s.setProc k q).proc k = q from Function.update_self _ _ _, hst] at hl
    cases hl
  · rwa [hp p e, h.others p e] at hl

end Nascent

section

variable [Build] {E : String → Prop} {s s1 s' : Kernel} {P : Pend} {F : Nat → Nat → Nat → Byte}
  {c d k : Nat}

theorem allocproc_inv (h : Inv s Pend.none F) (hr : Running s c) :
    wp allocproc E (fun r s' => match r with
      | none => Inv s' Pend.none F ∧ Spared s s' ∧ NoneNew s s' ∧
        (unusedSlot s = none ∧ s' = s ∨ ∃ k, unusedSlot s = some k ∧ s.freelist = [] ∧
          (s'.proc k).pid = s.nextpid)
      | some k => Nascent c k s s' ∧ Inv s' (Pend.none.hold (s'.proc k).kstack) F ∧
        unusedSlot s = some k ∧ s'.freelist.length + 1 = s.freelist.length) s := by
  unfold allocproc
  refine wp_seq (get_wp ?_)
  cases hu : unusedSlot s with
  | none => exact ⟨h, Spared.refl s, fun _ hl => hl, .inl ⟨rfl, rfl⟩⟩
  | some k =>
    obtain ⟨hk, hst⟩ := unusedSlot_some hu
    have hlive : (s.proc k).state.live = false := by rw [hst]; rfl
    have hkc : k ≠ c := by
      rintro rfl
      have := hr.active
      rw [hst] at this
      cases this
    have hb : ∀ p ≠ k, (s.born k).proc p = s.proc p := fun p hp => Function.update_of_ne hp _ _
    have hbk : (s.born k).proc k = { s.proc k with state := .embryo, pid := s.nextpid } :=
      Function.update_self _ _ _
    have h1 : Inv (s.born k) Pend.none F :=
      h.offstage (k := k) (counted_of_hidden hlive) (counted_of_hidden (by rw [hbk]; rfl))
        (by rw [hbk]; rfl) hb rfl (Nat.le_succ _) rfl rfl rfl (fun _ _ _ => rfl) h.quiet
    have hn : Nascent c k s (s.born k) :=
      ⟨hk, hkc, hst, Spared.of_slot hlive hb rfl rfl rfl (Nat.le_succ _) rfl, by rw [hbk], hb,
        by rw [hbk], rfl, h.pidLt⟩
    refine wp_seq (set_wp (wp_seq (kalloc_wp (fun hnil => ?_) fun f l hfl => ?_)))
    · -- no kernel stack
      have hn1 : Nascent c k s ((s.born k).taken []) :=
        hn.of_proc rfl rfl rfl rfl rfl fun _ _ _ => rfl
      refine wp_seq (getProc_wp (wp_seq (setProc_wp
        ⟨(h1.takeNone hnil).setHidden hn1.hidden rfl, (hn1.drop rfl).1, (hn1.drop rfl).2,
          .inr ⟨k, rfl, hnil, ?_⟩⟩)))
      rw [show Kernel.proc (Kernel.setProc _ k _) k = _ from Function.update_self _ _ _]
      exact hn1.pid
    · have hn1 : Nascent c k s ((s.born k).taken l) :=
        hn.of_proc rfl rfl rfl rfl rfl fun _ _ _ => rfl
      refine wp_seq (getProc_wp (wp_seq (setProc_wp ⟨hn1.setProc hn1.state hn1.pid, ?_, rfl, ?_⟩)))
      swap
      · rw [show s.freelist = f :: l from hfl]
        rfl
      have hks : ((((s.born k).taken l).setProc k { ((s.born k).taken l).proc k with
          kstack := f }).proc k).kstack = f := by simp only [Kernel.setProc, Function.update_self]
      rw [hks]
      exact (h1.take hfl).setHidden hn1.hidden hn1.hidden

/-- The slot is given back. -/
theorem dropChild_inv {s0 : Kernel} (h : Inv s (Pend.none.hold (s.proc k).kstack) F)
    (hn : Nascent c k s0 s) :
    wp (dropChild k) E (fun r s' => r = -1 ∧ Inv s' Pend.none F ∧ Spared s0 s' ∧ NoneNew s0 s' ∧
      (s'.proc k).pid = s0.nextpid) s := by
  have hn1 : Nascent c k s0 (s.freed (s.proc k).kstack) :=
    hn.of_proc rfl rfl rfl rfl rfl fun _ _ _ => rfl
  unfold dropChild
  refine wp_seq (getProc_wp (wp_seq (kfree_wp h.own.managed_held (wp_seq (getProc_wp
    (wp_seq (setProc_wp ⟨rfl, h.give.setHidden hn1.hidden rfl, (hn1.drop rfl).1, (hn1.drop rfl).2,
      ?_⟩)))))))
  rw [show Kernel.proc (Kernel.setProc _ k _) k = _ from Function.update_self _ _ _]
  exact hn1.pid

/-- The child's tables and swap file after `initSwap`. -/
structure Inherited (c k : Nat) (F : Nat → Nat → Nat → Byte) (s s' : Kernel) : Prop where
  dirs : s'.dirs = s.dirs
  mem : ∀ g ∉ s.freelist, s'.mem g = s.mem g
  self : ∃ a, s'.proc k =
    { (s.proc k).copyTables (s.proc c) with vpaSwap := a, swapFile := true }
  file : ∃ f j, s'.files (s.proc k).pid = some f ∧
    Packed (s'.proc k) (s.proc c) f (F c) MAX_SWAP_PAGES j

theorem initSwap_inv {s0 : Kernel} (h : Inv s P F) (hr : Running s c) (hn : Nascent c k s0 s)
    (hpar : (s.proc k).parent = some c)
    (hE : s.freelist = [] → E "(buff = kalloc()) != 0") :
    wp (initSwap k) E (fun r s' => r = 0 ∧ Inv s' P F ∧ Nascent c k s0 s' ∧
      Inherited c k F s s' ∧ s.freelist ≠ []) s := by
  have hself := h.self hr
  unfold initSwap
  refine wp_seq (getProc_wp ?_)
  rw [hpar]
  refine wp_seq (getProc_wp (wp_seq (setProc_wp ?_)))
  have h1 : Inv (s.setProc k ((s.proc k).copyTables (s.proc c))) P F :=
    h.setHidden hn.hidden hn.hidden
  have hn1 := hn.setProc (q := (s.proc k).copyTables (s.proc c)) hn.state hn.pid
  have hk1 : (s.setProc k ((s.proc k).copyTables (s.proc c))).proc k =
      (s.proc k).copyTables (s.proc c) := Function.update_self _ _ _
  refine wp_seq (createSwapFile_wp fun f => ?_)
  have h2 := h1.withFile hn1.embryo f
  have hn2 := hn1.withFile f
  have hk2 : ((s.setProc k ((s.proc k).copyTables (s.proc c))).withFile k f).proc k =
      { (s.proc k).copyTables (s.proc c) with swapFile := true } := by
    simp only [Kernel.withFile, Kernel.setProc, Kernel.setFile, Function.update_self]
  have hf2 : ((s.setProc k ((s.proc k).copyTables (s.proc c))).withFile k f).files (s.proc k).pid =
      some f := by
    simp only [Kernel.withFile, Kernel.setProc, Kernel.setFile, Function.update_self]
    exact Function.update_self _ _ _
  have hmem2 : ((s.setProc k ((s.proc k).copyTables (s.proc c))).withFile k f).mem = s.mem := rfl
  have hdirs2 : ((s.setProc k ((s.proc k).copyTables (s.proc c))).withFile k f).dirs = s.dirs := rfl
  have hfree2 : ((s.setProc k ((s.proc k).copyTables (s.proc c))).withFile k f).freelist =
    s.freelist := rfl
  generalize (s.setProc k ((s.proc k).copyTables (s.proc c))).withFile k f = s2 at *
  have hc2 : s2.proc c = s.proc c := by rw [hn2.others c hn.ne.symm, hn.others c hn.ne.symm]
  rw [if_neg (by decide)]
  refine wp_seq (kalloc_wp (fun hnil => hE (hfree2 ▸ hnil)) fun b l hfl => ?_)
  have hn3 : Nascent c k s0 (s2.taken l) := hn2.of_proc rfl rfl rfl rfl rfl fun _ _ _ => rfl
  refine wp_post (initSwapLoop_inv (P := P) (F := F) hn.ne MAX_SWAP_PAGES 0 0 (s2.taken l) f
    (by omega) (h2.take hfl) (hn.running hn3 hr) hn3.embryo ?_ ?_ ?_) ?_
  · exact congrArg Proc.swapFile hk2
  · rw [show (s2.taken l).proc k = _ from hk2]
    exact hf2
  · rw [show (s2.taken l).proc k = _ from hk2, show (s2.taken l).proc c = _ from hc2]
    exact Packed.start rfl hself.agree.swapLt
  · rintro r s' ⟨hr', h', hp', f', j', hf', hpk'⟩
    rw [show (s2.taken l).proc k = _ from hk2] at hf'
    rw [show (s2.taken l).proc c = _ from hc2] at hpk'
    obtain ⟨a, ha⟩ := hp'.self
    rw [show (s2.taken l).proc k = _ from hk2] at ha
    refine ⟨hr', h', hn3.of_packing hp', ⟨hp'.dirs.trans hdirs2, fun g hg => ?_, ⟨a, ha⟩, f', j',
      hf', hpk'⟩, by rw [← hfree2, hfl]; exact List.cons_ne_nil _ _⟩
    have hgb : g ≠ b := by
      rintro rfl
      rw [← hfree2, hfl] at hg
      exact hg List.mem_cons_self
    rw [hp'.mem g hgb, ← hmem2]
    rfl

theorem ProcOk.view_none {q : Proc} {D : PageDir} {mem : Nat → Nat → Byte}
    {file : Option SwapFile} {G : Nat → Nat → Byte} {m : Nat → Nat} {u : Nat}
    (h : ProcOk q D mem file G m 0) (hu : u < NUSER) (hn : ¬ (1 ≤ u ∧ u < pages q.sz)) :
    D.view u = none := by
  by_contra hv
  have hb := h.below u hu (entryView_ne_none.1 hv)
  rw [Nat.max_zero, ← lt_pages] at hb
  exact hn hb

/-- The child's memory is the parent's. -/
theorem ProcOk.copy {q r : Proc} {D D' : PageDir} {mem mem' : Nat → Nat → Byte}
    {file : Option SwapFile} {G : Nat → Nat → Byte} {f : SwapFile} {j : Nat}
    (h : ProcOk r D mem file G (fun _ => 0) 0) (hm : Mirror (pages r.sz) D D' mem G)
    (hmem : ∀ u < NUSER, has (D'.pte u) PTE_P = true →
      mem' (pageNo (D'.pte u)) = mem (pageNo (D'.pte u)))
    (hpk : Packed q r f G MAX_SWAP_PAGES j) (h1 : q.vpaMemory = r.vpaMemory)
    (h2 : q.sizeMem = r.sizeMem) (h3 : q.qHead = r.qHead) (h4 : q.qTail = r.qTail)
    (hsz : q.sz = r.sz) (hsw : q.swapFile = true) :
    ProcOk q D' mem' (some f) G (fun _ => 0) 0 := by
  have hout : ∀ u < NUSER, ¬ (1 ≤ u ∧ u < pages r.sz) →
      has (D.pte u) PTE_P = false ∧ has (D.pte u) PTE_PG = false := fun u hu hn =>
    entryView_eq_none.1 (h.view_none hu hn)
  have hflag : ∀ u < NUSER, has (D'.pte u) PTE_P = has (D.pte u) PTE_P ∧
      has (D'.pte u) PTE_PG = has (D.pte u) PTE_PG := fun u hu => by
    by_cases hr : 1 ≤ u ∧ u < pages r.sz
    · exact ⟨hm.flags u hu hr.1 hr.2 0 (by decide), hm.flags u hu hr.1 hr.2 9 (by decide)⟩
    · rw [hm.rest u hu hr, has_zero, has_zero, (hout u hu hr).1, (hout u hu hr).2]
      exact ⟨rfl, rfl⟩
  have htab : Agree q D.pte fun _ => 0 := by
    refine h.agree.of_tables ⟨?_, ?_⟩ ?_ hpk.count hpk.below
    · rw [h2]; exact h.agree.table.size
    · rw [h2, h3, h4]; exact h.agree.table.ring
    · unfold resident
      rw [h1, h2, h3]
  refine ⟨htab.of_flags (fun u hu => (hflag u hu).1) fun u hu => (hflag u hu).2, fun u hu hv => ?_,
    hsw, ⟨f, rfl, ?_, fun i hi ho => ?_, fun i hi ho => ?_⟩, by rw [hsz]; exact h.size⟩
  · rw [(hflag u hu).1, (hflag u hu).2] at hv
    rw [hsz]
    exact h.below u hu hv
  · intro u hu hp o ho
    rw [hmem u hu hp]
    exact hm.bytes u hu hp o ho
  · have hij : i < j := by
      by_contra hge
      rw [hpk.gap i (by omega) hi] at ho
      cases ho
    exact le_trans (Nat.mul_le_mul_right _ hij) hpk.room
  · have hij : i < j := by
      by_contra hge
      rw [hpk.gap i (by omega) hi] at ho
      cases ho
    exact hpk.bytes i hij ho

/-- The frames of a slot that comes into use are no longer held. -/
theorem Own.attach (h : Own s ((P.hold (s.proc k).kstack).withDir (s.proc k).pgdir)) (hk : k < NPROC)
    (hlive : (s.proc k).state.live = false) (hskip : k ≠ P.skip) {q : Proc}
    (hq : q.state.live = true) (hks : q.kstack = (s.proc k).kstack)
    (hd : q.pgdir = (s.proc k).pgdir) : Own (s.setProc k q) P := fun f => by
  have hproc : (s.setProc k q).proc k = q := Function.update_self _ _ _
  have hold : procCount s P.skip k f = 0 := by
    unfold procCount counted
    rw [hlive, Bool.false_and, if_neg (by decide)]
  have hnew : procCount (s.setProc k q) P.skip k f = ind ((s.proc k).kstack = f) +
      dirCount (s.proc k).pgdir (s.dirs (s.proc k).pgdir) f := by
    unfold procCount counted
    rw [hproc, hq, hks, hd, Bool.true_and, if_pos (by simpa using hskip)]
    rfl
  have hsum := sum_range_change (g := fun p => procCount s P.skip p f)
    (q := fun p => procCount (s.setProc k q) P.skip p f) hk fun p _ hne => by
      unfold procCount counted
      rw [show (s.setProc k q).proc p = s.proc p from Function.update_of_ne hne _ _]
      rfl
  rw [hold, hnew] at hsum
  have h1 := h f
  rw [owned_withDir, owned_hold] at h1
  have hx : extraCount (s.setProc k q) P.dirs f = extraCount s P.dirs f := rfl
  have hfr : (s.setProc k q).freelist = s.freelist := rfl
  unfold owned inUse at h1 ⊢
  rw [hx, hfr]
  omega

theorem Inv.attach {s0 : Kernel} {G : Nat → Nat → Byte}
    (h : Inv s ((P.hold (s.proc k).kstack).withDir (s.proc k).pgdir) F)
    (hn : Nascent c k s0 s) (hr : Running s c) (hskip : k ≠ P.skip)
    (hdir : DirOk (s.dirs (s.proc k).pgdir))
    (hok : ProcOk (s.proc k) (s.dirs (s.proc k).pgdir) s.mem (s.files (s.proc k).pid) G
      (fun _ => 0) 0) :
    Inv (s.setProc k { s.proc k with state := .runnable }) P (Function.update F k G) := by
  have hk : (s.setProc k { s.proc k with state := .runnable }).proc k =
      { s.proc k with state := .runnable } := Function.update_self _ _ _
  have hp : ∀ p ≠ k, (s.setProc k { s.proc k with state := .runnable }).proc p = s.proc p :=
    fun p hne => Function.update_of_ne hne _ _
  have hkc : k ≠ s.cur := by rw [hr.cur]; exact hn.ne
  have hcnt : ∀ p ≠ k, Xv6.counted (s.setProc k { s.proc k with state := .runnable }) P.skip p =
      Xv6.counted s P.skip p := fun p hne => by
    unfold Xv6.counted
    rw [hp p hne]
  refine ⟨h.own.attach hn.lt hn.hidden hskip rfl rfl rfl, fun p hlt hc => ?_, fun p hlt hc => ?_,
    fun p hlt ha => ?_,
    fun p hlt ha => ?_, fun p hlt q hq ha hb hne => ?_, fun p hlt ha => ?_, h.quiet⟩
  · by_cases e : p = k
    · rw [e, hk]; exact hdir
    · rw [hp p e]
      exact h.dirs p hlt (hcnt p e ▸ hc)
  · by_cases e : p = k
    · rw [e, hk]
      exact fun u hu hg => hok.agree.absent_of_paged hu hg
    · rw [hp p e]
      exact h.excl p hlt (hcnt p e ▸ hc)
  · by_cases e : p = k
    · subst e
      rw [hk, Function.update_self, show Kernel.cur (s.setProc p _) = s.cur from rfl, if_neg hkc,
        if_neg hkc]
      obtain ⟨g, hg, hst⟩ := hok.stored
      exact ⟨hok.agree.congr rfl rfl rfl rfl rfl, hok.below, hok.swapFile,
        ⟨g, hg, hst.of_slots fun _ _ _ => rfl⟩, hok.size⟩
    · rw [hp p e] at ha ⊢
      rw [Function.update_of_ne e]
      exact h.procs p hlt ha
  · by_cases e : p = k
    · rw [e]; exact hskip
    · rw [hp p e] at ha
      exact h.skip p hlt ha
  · by_cases e : p = k
    · have e' : q ≠ k := fun he => hne (e.trans he.symm)
      rw [hp q e'] at hb ⊢
      rw [e, hk]
      exact (hn.embryo.fresh q hq hb).symm
    · rw [hp p e] at ha ⊢
      by_cases e' : q = k
      · rw [e', hk]
        exact hn.embryo.fresh p hlt ha
      · rw [hp q e'] at hb ⊢
        exact h.pids p hlt q hq ha hb hne
  · by_cases e : p = k
    · rw [e, hk]
      change (s.proc k).pid < s.nextpid
      rw [hn.pid, hn.nextpid]
      exact Nat.lt_succ_self _
    · rw [hp p e] at ha ⊢
      exact h.pidLt p hlt ha

/-- The child's memory when `initSwap` returns. -/
theorem child_ok {s2 s3 s4 : Kernel} (hcopy : Copying c d (pages (s1.proc c).sz) P F s1 s2)
    (hr : Running s1 c) (hmap : P.mapped = fun _ => 0) (htop : P.top = 0)
    (hin : Inherited c k F s3 s4) (hc : s3.proc c = s1.proc c) (hd : s3.dirs = s2.dirs)
    (hm : s3.mem = s2.mem) (hf : s3.freelist = s2.freelist) (hsz : (s3.proc k).sz = (s1.proc c).sz) :
    ProcOk (s4.proc k) (s4.dirs d) s4.mem (s4.files (s3.proc k).pid) (F c) (fun _ => 0) 0 := by
  have hself := hcopy.self hr
  rw [hmap, htop] at hself
  obtain ⟨a, ha⟩ := hin.self
  obtain ⟨f, j, hfile, hpk⟩ := hin.file
  rw [hin.dirs, hd, hfile]
  rw [hc] at hpk
  refine hself.copy hcopy.mirror (fun u hu hp => ?_) hpk ?_ ?_ ?_ ?_ ?_ ?_
  · rw [hin.mem _ (by rw [hf]; exact hcopy.inv.own.spare_free hu hp), hm]
  all_goals rw [ha]
  · rw [hc]; rfl
  · rw [hc]; rfl
  · rw [hc]; rfl
  · rw [hc]; rfl
  · exact hsz

/-- What `fork` did. -/
inductive Forked (c : Nat) (s s' : Kernel) (F : Nat → Nat → Nat → Byte) :
    Int → (Nat → Nat → Nat → Byte) → Prop
  | failed (spared : Spared s s') (noneNew : NoneNew s s') : Forked c s s' F (-1) F
  | child {k : Nat} (lt : k < NPROC) (free : (s.proc k).state = .unused) (spared : Spared s s')
      (others : ∀ p ≠ k, (s'.proc p).state.live = true → (s.proc p).state.live = true)
      (state : (s'.proc k).state = .runnable) (size : (s'.proc k).sz = (s.proc c).sz)
      (parent : (s'.proc k).parent = some c)
      (pages : SamePages (s.dirs (s.proc c).pgdir) (s'.dirs (s'.proc k).pgdir)) :
      Forked c s s' F (s'.proc k).pid (Function.update F k (F c))

/-- The frames `fork` takes: a kernel stack, the child's address space and a buffer. -/
def forkFrames (s : Kernel) (c : Nat) : Nat := copyFrames s c + 2

/-- How a call of `fork` on behalf of slot `c` ended. -/
inductive ForkEnd (c : Nat) (s s' : Kernel) (r : Int) : Prop
  | full (hu : unusedSlot s = none) (hr : r = -1) (hs : s' = s)
  | lacked {k : Nat} (hu : unusedSlot s = some k) (hr : r = -1)
      (hlt : s.freelist.length < copyFrames s c + 1) (pid : (s'.proc k).pid = s.nextpid)
  | done {k : Nat} (hu : unusedSlot s = some k) (hr : r = s.nextpid)
      (hle : forkFrames s c ≤ s.freelist.length)

/-- `fork` fails, by its return value or an assertion, exactly for want of a slot or of frames.
When only the frame for the buffer of `initSwap` is missing, it is the assertion there. -/
theorem fork_exact (h : Inv s Pend.none F) (hr : Running s c)
    (hE : s.freelist.length < copyFrames s c + 1 → E "newPte != 0")
    (hE' : s.freelist.length = copyFrames s c + 1 → E "(buff = kalloc()) != 0")
    (hnone : ∀ u, 1 ≤ u → u < pages (s.proc c).sz → (s.dirs (s.proc c).pgdir).view u = none →
      E "copyuvm: pte should exist" ∧ E "copyuvm: page not present") :
    wp fork E (fun r s' => (∃ F', Inv s' Pend.none F' ∧ Forked c s s' F r F') ∧
      ForkEnd c s s' r) s := by
  unfold fork
  refine wp_seq (get_wp (wp_seq (wp_post (allocproc_inv h hr) ?_)))
  rw [hr.cur]
  rintro (_ | k) s1 h1
  · obtain ⟨h1, hsp, hnew, hend⟩ := h1
    refine ⟨⟨F, h1, .failed hsp hnew⟩, ?_⟩
    obtain ⟨hu, rfl⟩ | ⟨k, hu, hnil, hpid⟩ := hend
    · exact .full hu rfl rfl
    · refine .lacked hu rfl ?_ hpid
      rw [hnil, List.length_nil]
      omega
  · obtain ⟨hn1, h1, hu, hlen1⟩ := h1
    have hr1 := hn1.spared.running hr
    have hc1 : s1.proc c = s.proc c := hn1.others c hn1.ne.symm
    have hd1 : s1.dirs (s.proc c).pgdir = s.dirs (s.proc c).pgdir :=
      hn1.spared.dirs c hr.lt (ProcState.live_of_active hr.active)
    have hframes : copyFrames s1 c = copyFrames s c := by
      unfold copyFrames
      rw [hc1, hd1]
    have hcopy := copyuvm_inv (E := E) h1 hr1 rfl fun hl => hE (by omega)
    rw [hframes, hc1, hd1] at hcopy
    dsimp only
    refine wp_seq (wp_post (hcopy hnone) ?_)
    rintro (_ | d) s2 h2
    · obtain ⟨h2, ha, hlack⟩ := h2
      have hn2 := hn1.aside ha rfl
      have hk2 : s2.proc = s1.proc := ha.choose_spec.1.proc
      refine wp_seq (getProc_wp (wp_seq (setProc_wp (wp_post (dropChild_inv (c := c) (F := F) ?_
        (hn2.setProc hn2.state hn2.pid)) ?_))))
      · rw [show Kernel.proc (Kernel.setProc s2 k _) k = _ from Function.update_self _ _ _, hk2]
        exact h2.setHidden hn2.hidden hn1.hidden
      · rintro r s' ⟨rfl, h', hsp, hnew, hpid⟩
        exact ⟨⟨F, h', .failed hsp hnew⟩, .lacked hu rfl (by omega) hpid⟩
    · obtain ⟨h2, hlen2⟩ := h2
      replace h2 : Copying c d (pages (s.proc c).sz) (Pend.none.hold (s1.proc k).kstack) F s1 s2 := h2
      have hr2 := h2.beside.running hr1
      have hn2 : Nascent c k s s2 := hn1.aside (h2.aside h2.beside) rfl
      -- `np->pgdir = d; np->sz = curproc->sz; np->parent = curproc`
      refine wp_seq (getProc_wp (wp_seq (setProc_wp ?_)))
      set q3 : Proc := { s2.proc k with pgdir := d, sz := (s.proc c).sz, parent := some c } with hq3
      have hk3 : (s2.setProc k q3).proc k = q3 := Function.update_self _ _ _
      have hn3 : Nascent c k s (s2.setProc k q3) := hn2.setProc hn2.state hn2.pid
      have h3 : Inv (s2.setProc k q3) ((Pend.none.hold (s1.proc k).kstack).withDir d) F :=
        h2.inv.setHidden hn2.hidden hn2.hidden
      refine wp_seq (wp_post (initSwap_inv h3 (hn2.running hn3 hr2) hn3 (by rw [hk3])
        fun hnil => hE' ?_) ?_)
      · have hnil' : s2.freelist = [] := hnil
        rw [hnil', List.length_nil] at hlen2
        omega
      rintro r s4 ⟨rfl, h4, hn4, hin, hne⟩
      rw [if_neg (by decide)]
      have hcopied : Copying c d (pages (s1.proc c).sz) (Pend.none.hold (s1.proc k).kstack) F
          s1 s2 := by rw [hc1]; exact h2
      have hc3 : (s2.setProc k q3).proc c = s1.proc c := by
        rw [show (s2.setProc k q3).proc c = s2.proc c from Function.update_of_ne hn2.ne.symm _ _,
          h2.beside.proc]
      have hok := child_ok hcopied hr1 rfl rfl hin hc3 rfl rfl rfl (by rw [hk3, hc1])
      obtain ⟨a, ha⟩ := hin.self
      rw [hk3] at hok ha
      have hks : (s4.proc k).kstack = (s1.proc k).kstack := by
        rw [ha, hq3, ← h2.beside.proc]; rfl
      have hpg : (s4.proc k).pgdir = d := by rw [ha]; rfl
      have hdir4 : s4.dirs d = s2.dirs d := by rw [hin.dirs]; rfl
      rw [← hks] at h4
      have hpos : s2.freelist.length ≠ 0 := fun h0 => hne (List.length_eq_zero_iff.1 h0)
      refine wp_seq (getProc_wp (wp_seq (setProc_wp ⟨⟨_, Inv.attach (P := Pend.none) (F := F) (G := F c) ?_ hn4
        (hn2.running hn4 hr2) hn4.lt.ne ?_ ?_, ?_⟩, .done hu (by rw [hn4.pid]) ?_⟩)))
      · rw [hpg]; exact h4
      · rw [hpg, hdir4]; exact h2.dir
      · rw [hpg, show (s4.proc k).pid = q3.pid by rw [ha]; rfl]; exact hok
      · have hk5 : (s4.setProc k { s4.proc k with state := .runnable }).proc k =
            { s4.proc k with state := .runnable } := Function.update_self _ _ _
        have hsp : Spared s (s4.setProc k { s4.proc k with state := .runnable }) :=
          hn4.spared.trans (Spared.of_slot hn4.hidden (fun p hp => Function.update_of_ne hp _ _)
            rfl rfl rfl le_rfl rfl)
        have hf := Forked.child (c := c) (s := s) (F := F) hn4.lt hn4.free hsp
          (fun p hne hl => ?_) (by rw [hk5]) ?_ ?_ ?_
        · rwa [hk5] at hf
        · rw [show Kernel.proc (Kernel.setProc s4 k _) p = _ from Function.update_of_ne hne _ _,
            hn4.others p hne] at hl
          exact hl
        · rw [hk5, ha]; rfl
        · rw [hk5, ha]; rfl
        · rw [hk5, show Proc.pgdir _ = d from hpg, show Kernel.dirs (Kernel.setProc s4 k _) d = _
            from hdir4, ← hd1, ← hc1]
          have hself := h2.self hr1
          exact h2.mirror.samePages fun u hu hn => hself.view_none hu (by rwa [hc1])
      · unfold forkFrames
        omega

theorem fork_inv (h : Inv s Pend.none F) (hr : Running s c) (hE : E "newPte != 0")
    (hE' : E "(buff = kalloc()) != 0")
    (hnone : ∀ u, 1 ≤ u → u < pages (s.proc c).sz → (s.dirs (s.proc c).pgdir).view u = none →
      E "copyuvm: pte should exist" ∧ E "copyuvm: page not present") :
    wp fork E (fun r s' => ∃ F', Inv s' Pend.none F' ∧ Forked c s s' F r F') s :=
  wp_post (fork_exact h hr (fun _ => hE) (fun _ => hE') hnone) fun _ _ hs => hs.1

end

end Xv6
