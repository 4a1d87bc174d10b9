import Xv6.Swap.Agree
import Xv6.Vm.Walk

/-!
# The kernel invariant

`Inv s P F` ties the process table, the page directories, the frames and the swap files
together: frames are owned exclusively (up to what `P` holds), kernel halves are closed to
users, and every process that can still run has tables that agree with its directory and
pages that hold `F`. `F p u` is the contents of page `u` of slot `p`; at pages that are
neither present nor paged out it is not constrained.

Two rules derive it for a new state. `Inv.unseen` is for changes no process sees: frames on
the free list or held by the kernel, and directories in `P.dirs`. `Inv.onSelf` is for changes
to the running process alone.
-/

namespace Xv6

open Lib

/-- What the kernel prints when it finds its tables out of step. -/
def dirtyMsgs : List String :=
  [errorStr "moveToSwap: walkpgdir failed VPA_Memory is dirty\n",
   errorStr "recoverPageFault: moveFromSwap failed | swap file dirty\n"]

/-- Kernel half closed to users, user half open to them. -/
structure DirOk (D : PageDir) : Prop where
  kernelPde : ∀ i, 512 ≤ i → i < NPDENTRIES → has (D.pde i) PTE_U = false
  kernelPte : ∀ u, NUSER ≤ u → u < 2 ^ 20 →
    has (D.pte u) PTE_U = false ∧ has (D.pte u) PTE_PG = false
  userPde : ∀ i < 512, has (D.pde i) PTE_P = true →
    has (D.pde i) PTE_U = true ∧ has (D.pde i) PTE_W = true

/-- No user page has both a frame and a slot. -/
def Exclusive (D : PageDir) : Prop :=
  ∀ u < NUSER, has (D.pte u) PTE_PG = true → has (D.pte u) PTE_P = false

theorem setMem_ne {s : Kernel} {f g : Nat} {pg : Nat → Byte}
    (h : (s.setMem f pg).mem g ≠ s.mem g) : g = f := by
  by_contra hne
  exact h (Function.update_of_ne hne _ _)

/-- Every page lies in `[PGSIZE, sz)`. -/
def Below (pte : Nat → Word) (sz : Nat) : Prop :=
  ∀ u < NUSER, (has (pte u) PTE_P = true ∨ has (pte u) PTE_PG = true) → 1 ≤ u ∧ u * PGSIZE < sz

namespace DirOk

variable {D : PageDir} {u : Nat}

theorem setPage (h : DirOk D) (hu : u < NUSER) (ht : D.hasTable u = true) (w : Word) :
    DirOk (D.setPage u w) where
  kernelPde := h.kernelPde
  kernelPte v hv hlt := by
    rw [D.pte_setPage ht, Function.update_of_ne (by omega)]
    exact h.kernelPte v hv hlt
  userPde := h.userPde

theorem addTable (h : DirOk D) (hu : u < NUSER) (ht : D.hasTable u = false) (f : Nat) :
    DirOk (D.addTable (u / 1024) f) := by
  have hlt : u / 1024 < 512 := by rw [NUSER_eq] at hu; omega
  refine ⟨fun i hi hi' => ?_, fun v hv hlt => ?_, fun i hi hp => ?_⟩
  · rw [D.pde_addTable, Function.update_of_ne (by omega)]
    exact h.kernelPde i hi hi'
  · rw [D.pte_addTable f ht]
    exact h.kernelPte v hv hlt
  · rw [D.pde_addTable] at hp ⊢
    by_cases e : i = u / 1024
    · rw [e, Function.update_self]
      exact tableEntry_user f
    · rw [Function.update_of_ne e] at hp ⊢
      exact h.userPde i hi hp

end DirOk

theorem Below.mono {pte : Nat → Word} {n n' : Nat} (h : Below pte n) (hle : n ≤ n') : Below pte n' :=
  fun u hu hm => ⟨(h u hu hm).1, lt_of_lt_of_le (h u hu hm).2 hle⟩

theorem Below.update {pte : Nat → Word} {sz u : Nat} {w : Word} (h : Below pte sz)
    (hw : has w PTE_P = true ∨ has w PTE_PG = true → 1 ≤ u ∧ u * PGSIZE < sz) :
    Below (Function.update pte u w) sz := by
  intro v hv hp
  by_cases e : v = u
  · subst e; rw [Function.update_self] at hp; exact hw hp
  · rw [Function.update_of_ne e] at hp; exact h v hv hp

theorem Below.clear {pte : Nat → Word} {sz : Nat} (h : Below pte sz) (u : Nat) :
    Below (Function.update pte u 0) sz := h.update fun hc => by
  rw [has_zero, has_zero] at hc
  obtain hc | hc := hc <;> cases hc

/-- Slot `c` is the running process and its directory is loaded. -/
structure Running (s : Kernel) (c : Nat) : Prop where
  cur : s.cur = c
  lt : c < NPROC
  active : (s.proc c).state.active = true
  cr3 : s.cr3 = (s.proc c).pgdir

/-- Two process records that differ in the swap tables only. -/
def SameButTables (q q' : Proc) : Prop :=
  ∃ a m n h t, q' = { q.withMem m n h t with vpaSwap := a }

theorem SameButTables.withMem (q : Proc) (m : Nat → Word) (n h t : Nat) :
    SameButTables q (q.withMem m n h t) := ⟨q.vpaSwap, m, n, h, t, rfl⟩

/-- Paging on behalf of slot `c` changes `c`'s tables and page directory only. -/
structure Paging (c : Nat) (s s' : Kernel) : Prop where
  cur : s'.cur = s.cur
  cr3 : s'.cr3 = s.cr3
  initproc : s'.initproc = s.initproc
  nextpid : s'.nextpid = s.nextpid
  other : ∀ p ≠ c, s'.proc p = s.proc p
  self : SameButTables (s.proc c) (s'.proc c)
  dirs : ∀ e ≠ (s.proc c).pgdir, s'.dirs e = s.dirs e

namespace Paging

variable {c : Nat} {s s' s'' : Kernel}

/-- The process table is untouched. -/
theorem of_proc (hproc : s'.proc = s.proc) (hcur : s'.cur = s.cur) (hcr3 : s'.cr3 = s.cr3)
    (hinit : s'.initproc = s.initproc) (hpid : s'.nextpid = s.nextpid)
    (hdirs : ∀ e ≠ (s.proc c).pgdir, s'.dirs e = s.dirs e) : Paging c s s' := by
  refine ⟨hcur, hcr3, hinit, hpid, fun p _ => by rw [hproc], ?_, hdirs⟩
  rw [hproc]
  exact ⟨_, _, _, _, _, rfl⟩

theorem refl (c : Nat) (s : Kernel) : Paging c s s := .of_proc rfl rfl rfl rfl rfl fun _ _ => rfl

theorem setProc {q : Proc} (h : SameButTables (s.proc c) q) : Paging c s (s.setProc c q) :=
  ⟨rfl, rfl, rfl, rfl, fun _ hp => Function.update_of_ne hp _ _, by
    rwa [show (s.setProc c q).proc c = q from Function.update_self _ _ _], fun _ _ => rfl⟩

/-- The fields paging never writes. -/
theorem fields (h : Paging c s s') (p : Nat) :
    (s'.proc p).sz = (s.proc p).sz ∧ (s'.proc p).pgdir = (s.proc p).pgdir ∧
    (s'.proc p).kstack = (s.proc p).kstack ∧ (s'.proc p).state = (s.proc p).state ∧
    (s'.proc p).pid = (s.proc p).pid ∧ (s'.proc p).swapFile = (s.proc p).swapFile := by
  by_cases e : p = c
  · obtain ⟨a, m, n, b, t, hq⟩ := h.self
    subst e
    rw [hq]
    exact ⟨rfl, rfl, rfl, rfl, rfl, rfl⟩
  · rw [h.other p e]
    exact ⟨rfl, rfl, rfl, rfl, rfl, rfl⟩

theorem pgdir (h : Paging c s s') : (s'.proc c).pgdir = (s.proc c).pgdir := (h.fields c).2.1

theorem counted (h : Paging c s s') (skip p : Nat) : counted s' skip p = counted s skip p := by
  unfold Xv6.counted
  rw [(h.fields p).2.2.2.1]

theorem trans (h1 : Paging c s s') (h2 : Paging c s' s'') : Paging c s s'' := by
  obtain ⟨a, m, n, h, t, e1⟩ := h1.self
  obtain ⟨a', m', n', h', t', e2⟩ := h2.self
  refine ⟨h2.cur.trans h1.cur, h2.cr3.trans h1.cr3, h2.initproc.trans h1.initproc,
    h2.nextpid.trans h1.nextpid, fun p hp => (h2.other p hp).trans (h1.other p hp),
    ⟨a', m', n', h', t', ?_⟩, fun e he => ?_⟩
  · rw [e2, e1]
    rfl
  · rw [h2.dirs e (by rwa [h1.pgdir]), h1.dirs e he]

theorem running (h : Paging c s s') (hr : Running s c) : Running s' c := by
  obtain ⟨-, hd, -, hst, -⟩ := h.fields c
  exact ⟨h.cur.trans hr.cur, hr.lt, hst ▸ hr.active, by rw [h.cr3, hr.cr3, hd]⟩

end Paging

section

variable [Build]

/-- The memory of one process: tables, page table, frames and swap file. -/
structure ProcOk (q : Proc) (D : PageDir) (mem : Nat → Nat → Byte) (file : Option SwapFile)
    (F : Nat → Nat → Byte) (m : Nat → Nat) (top : Nat) : Prop where
  agree : Agree q D.pte m
  below : Below D.pte (max q.sz top)
  swapFile : q.swapFile = true
  stored : ∃ f, file = some f ∧ Stored q D.pte mem f F
  size : 0 < q.sz ∧ q.sz < KERNBASE

structure Inv (s : Kernel) (P : Pend) (F : Nat → Nat → Nat → Byte) : Prop where
  own : Own s P
  dirs : ∀ p < NPROC, counted s P.skip p = true → DirOk (s.dirs (s.proc p).pgdir)
  excl : ∀ p < NPROC, counted s P.skip p = true → Exclusive (s.dirs (s.proc p).pgdir)
  procs : ∀ p < NPROC, (s.proc p).state.active = true →
    ProcOk (s.proc p) (s.dirs (s.proc p).pgdir) s.mem (s.files (s.proc p).pid) (F p)
      (if p = s.cur then P.mapped else fun _ => 0) (if p = s.cur then P.top else 0)
  skip : ∀ p < NPROC, (s.proc p).state.active = true → p ≠ P.skip
  pids : ∀ p < NPROC, ∀ q < NPROC, (s.proc p).state.active = true →
    (s.proc q).state.active = true → p ≠ q → (s.proc p).pid ≠ (s.proc q).pid
  pidLt : ∀ p < NPROC, (s.proc p).state.active = true → (s.proc p).pid < s.nextpid
  quiet : ∀ t ∈ s.cons, t ∉ dirtyMsgs

/-! ## Congruence -/

variable {s s' : Kernel} {P P' : Pend} {F F' : Nat → Nat → Nat → Byte} {c p f u : Nat}

theorem Own.of_paging (h : Own s P) (hp : Paging c s s') (hdirs : s'.dirs = s.dirs)
    (hfree : s'.freelist = s.freelist) : Own s' P := fun f => by
  have hu : inUse s' P f = inUse s P f := by
    refine inUse_congr (fun p => ?_) hdirs rfl rfl f
    obtain ⟨-, h1, h2, h3, -⟩ := hp.fields p
    exact ⟨by rw [h3], h2, h1⟩
  have := h f
  unfold owned at this ⊢
  rw [hu, hfree, this]

/-- A frame the kernel holds, or a free one, is no page of a process. -/
theorem Own.pte_ne (h : Own s P) (hp : p < NPROC) (hc : counted s P.skip p = true) (hu : u < NUSER)
    (hpte : has ((s.dirs (s.proc p).pgdir).pte u) PTE_P = true)
    (hf : f ∈ s.freelist ∨ 0 < P.held f ∨ 0 < extraCount s P.dirs f) :
    pageNo ((s.dirs (s.proc p).pgdir).pte u) ≠ f := by
  rintro rfl
  have h1 := h.proc_le hp hc (pageNo ((s.dirs (s.proc p).pgdir).pte u))
  have h2 := dirCount_pte (s.proc p).pgdir hu hpte
  obtain hf | hf | hf := hf
  · have := List.count_pos_iff.mpr hf
    omega
  · omega
  · omega

theorem ProcOk.of_mem {q : Proc} {D : PageDir} {mem mem' : Nat → Nat → Byte}
    {file : Option SwapFile} {G : Nat → Nat → Byte} {m : Nat → Nat} {top : Nat}
    (h : ProcOk q D mem file G m top)
    (hm : ∀ u < NUSER, has (D.pte u) PTE_P = true →
      mem' (pageNo (D.pte u)) = mem (pageNo (D.pte u))) : ProcOk q D mem' file G m top := by
  obtain ⟨f, hf, hst⟩ := h.stored
  exact ⟨h.agree, h.below, h.swapFile, ⟨f, hf, hst.of_mem hm⟩, h.size⟩

namespace Inv

theorem counted (h : Inv s P F) (hp : p < NPROC) (ha : (s.proc p).state.active = true) :
    counted s P.skip p = true := by
  unfold Xv6.counted
  simp [ProcState.live_of_active ha, h.skip p hp ha]

/-- Changes that no process sees. -/
theorem unseen (h : Inv s P F) (hproc : s'.proc = s.proc) (hcur : s'.cur = s.cur)
    (hnext : s'.nextpid = s.nextpid) (hfiles : s'.files = s.files)
    (hquiet : ∀ t ∈ s'.cons, t ∉ dirtyMsgs)
    (hdirs : ∀ p < NPROC, Xv6.counted s P.skip p = true →
      s'.dirs (s.proc p).pgdir = s.dirs (s.proc p).pgdir)
    (hmem : ∀ f, s'.mem f ≠ s.mem f → f ∈ s.freelist ∨ 0 < P.held f ∨ 0 < extraCount s P.dirs f)
    (hown : Own s' P') (h1 : P'.skip = P.skip) (h2 : P'.mapped = P.mapped)
    (h3 : P'.top = P.top) : Inv s' P' F where
  own := hown
  dirs p hp hc := by
    have hc' : Xv6.counted s P.skip p = true := by
      unfold Xv6.counted at hc ⊢
      rwa [hproc, h1] at hc
    rw [hproc, hdirs p hp hc']
    exact h.dirs p hp hc'
  excl p hp hc := by
    have hc' : Xv6.counted s P.skip p = true := by
      unfold Xv6.counted at hc ⊢
      rwa [hproc, h1] at hc
    rw [hproc, hdirs p hp hc']
    exact h.excl p hp hc'
  procs p hp ha := by
    rw [hproc] at ha ⊢
    have hc := h.counted hp ha
    rw [hdirs p hp hc, hcur, hfiles, h2, h3]
    refine (h.procs p hp ha).of_mem fun u hu hpte => ?_
    by_contra hne
    exact h.own.pte_ne hp hc hu hpte (hmem _ hne) rfl
  skip p hp ha := by rw [h1]; rw [hproc] at ha; exact h.skip p hp ha
  pids := by rw [hproc]; exact h.pids
  pidLt := by rw [hproc, hnext]; exact h.pidLt
  quiet := hquiet

/-- Changes to fields of the processes that ownership does not depend on. -/
theorem of_fields (h : Inv s P F)
    (hf : ∀ p, (s'.proc p).state.live = (s.proc p).state.live ∧
      (s'.proc p).kstack = (s.proc p).kstack ∧ (s'.proc p).pgdir = (s.proc p).pgdir ∧
      (s'.proc p).pid = (s.proc p).pid)
    (hact : ∀ p, (s'.proc p).state.active = true → (s.proc p).state.active = true)
    (hdirs : s'.dirs = s.dirs) (hfree : s'.freelist = s.freelist) (hnext : s'.nextpid = s.nextpid)
    (hquiet : ∀ t ∈ s'.cons, t ∉ dirtyMsgs) (hskip : P'.skip = P.skip) (hds : P'.dirs = P.dirs)
    (hheld : P'.held = P.held)
    (hok : ∀ p < NPROC, (s'.proc p).state.active = true →
      ProcOk (s'.proc p) (s.dirs (s.proc p).pgdir) s'.mem (s'.files (s.proc p).pid) (F' p)
        (if p = s'.cur then P'.mapped else fun _ => 0) (if p = s'.cur then P'.top else 0)) :
    Inv s' P' F' := by
  refine ⟨fun f => ?_, fun p hp hc => ?_, fun p hp hc => ?_, fun p hp ha => ?_, fun p hp ha => ?_,
    fun p hp q hq ha hb => ?_, fun p hp ha => ?_, hquiet⟩
  · have hu : inUse s' P' f = inUse s P f :=
      inUse_congr (fun p => ⟨(hf p).1, (hf p).2.1, (hf p).2.2.1⟩) hdirs hskip hds f
    have h1 := h.own f
    unfold owned at h1 ⊢
    rw [hu, hfree, hheld]
    exact h1
  · unfold Xv6.counted at hc
    rw [(hf p).1, hskip] at hc
    rw [(hf p).2.2.1, hdirs]
    exact h.dirs p hp hc
  · unfold Xv6.counted at hc
    rw [(hf p).1, hskip] at hc
    rw [(hf p).2.2.1, hdirs]
    exact h.excl p hp hc
  · rw [(hf p).2.2.1, (hf p).2.2.2, hdirs]
    exact hok p hp ha
  · rw [hskip]
    exact h.skip p hp (hact p ha)
  · rw [(hf p).2.2.2, (hf q).2.2.2]
    exact h.pids p hp q hq (hact p ha) (hact q hb)
  · rw [(hf p).2.2.2, hnext]
    exact h.pidLt p hp (hact p ha)

/-- Changes to the running process alone. -/
theorem onSelf (h : Inv s P F) (hr : Running s c) (hp : Paging c s s')
    (hfiles : ∀ n ≠ (s.proc c).pid, s'.files n = s.files n)
    (hquiet : ∀ t ∈ s'.cons, t ∉ dirtyMsgs)
    (hmem : ∀ f, s'.mem f ≠ s.mem f → f ∈ s.freelist ∨ 0 < P.held f ∨
      0 < dirCount (s.proc c).pgdir (s.dirs (s.proc c).pgdir) f)
    (hown : Own s' P') (hskip : P'.skip = P.skip) (hF : ∀ p ≠ c, F' p = F p)
    (hdir : DirOk (s'.dirs (s.proc c).pgdir))
    (hok : ProcOk (s'.proc c) (s'.dirs (s.proc c).pgdir) s'.mem (s'.files (s.proc c).pid) (F' c)
      P'.mapped P'.top) : Inv s' P' F' := by
  have hcc := h.counted hr.lt hr.active
  have hdne : ∀ p < NPROC, p ≠ c → Xv6.counted s P.skip p = true →
      s'.dirs (s.proc p).pgdir = s.dirs (s.proc p).pgdir := fun p hlt hne hc =>
    hp.dirs _ (h.own.pgdir_ne hlt hr.lt hne hc hcc)
  refine ⟨hown, fun p hlt hc => ?_, fun p hlt hc => ?_, fun p hlt ha => ?_, fun p hlt ha => ?_,
    fun p hlt q hq ha hb => ?_, fun p hlt ha => ?_, hquiet⟩
  · rw [hskip, hp.counted] at hc
    rw [(hp.fields p).2.1]
    by_cases e : p = c
    · subst e; exact hdir
    · rw [hdne p hlt e hc]; exact h.dirs p hlt hc
  · rw [hskip, hp.counted] at hc
    rw [(hp.fields p).2.1]
    by_cases e : p = c
    · subst e; exact fun u hu hg => hok.agree.absent_of_paged hu hg
    · rw [hdne p hlt e hc]; exact h.excl p hlt hc
  · obtain ⟨-, hd, -, hst, hpid, -⟩ := hp.fields p
    rw [hd, hpid, hp.cur, hr.cur]
    rw [hst] at ha
    by_cases e : p = c
    · subst e
      rw [if_pos rfl, if_pos rfl]
      exact hok
    · have hc := h.counted hlt ha
      have hpne := h.pids p hlt c hr.lt ha hr.active e
      have hold := h.procs p hlt ha
      rw [hr.cur, if_neg e, if_neg e] at hold
      rw [if_neg e, if_neg e, hp.other p e, hdne p hlt e hc, hfiles _ hpne, hF p e]
      refine hold.of_mem fun u hu hpte => ?_
      by_contra hne
      obtain hf | hf | hf := hmem _ hne
      · exact h.own.pte_ne hlt hc hu hpte (.inl hf) rfl
      · exact h.own.pte_ne hlt hc hu hpte (.inr (.inl hf)) rfl
      · have h1 := h.own.pair_le hlt hr.lt e hc hcc
          (pageNo ((s.dirs (s.proc p).pgdir).pte u))
        have h2 := dirCount_pte (s.proc p).pgdir hu hpte
        omega
  · rw [hskip]
    rw [(hp.fields p).2.2.2.1] at ha
    exact h.skip p hlt ha
  · obtain ⟨-, -, -, hst, hpid, -⟩ := hp.fields p
    obtain ⟨-, -, -, hst', hpid', -⟩ := hp.fields q
    rw [hst] at ha
    rw [hst'] at hb
    rw [hpid, hpid']
    exact h.pids p hlt q hq ha hb
  · obtain ⟨-, -, -, hst, hpid, -⟩ := hp.fields p
    rw [hst] at ha
    rw [hpid, hp.nextpid]
    exact h.pidLt p hlt ha

/-- The invariant of the running process. -/
theorem self (h : Inv s P F) (hr : Running s c) :
    ProcOk (s.proc c) (s.dirs (s.proc c).pgdir) s.mem (s.files (s.proc c).pid) (F c) P.mapped
      P.top := by
  have := h.procs c hr.lt hr.active
  rwa [hr.cur, if_pos rfl, if_pos rfl] at this

/-! ## Frames -/

/-- `kalloc` takes the head of the free list. -/
theorem take {l : List Nat} (h : Inv s P F) (hf : s.freelist = f :: l) :
    Inv (s.taken l) (P.hold f) F :=
  h.unseen rfl rfl rfl rfl h.quiet (fun _ _ _ => rfl) (fun _ hg => absurd rfl hg)
    (h.own.take hf) rfl rfl rfl

/-- `kalloc` finds the free list empty. -/
theorem takeNone (h : Inv s P F) (hf : s.freelist = []) : Inv (s.taken []) P F := by
  rw [show s.taken [] = { s with totalFreePages := s.totalFreePages - 1 } by rw [← hf]; rfl]
  exact ⟨h.own, h.dirs, h.excl, h.procs, h.skip, h.pids, h.pidLt, h.quiet⟩

/-- `kfree` puts a held frame on the free list. -/
theorem give (h : Inv s (P.hold f) F) : Inv (s.freed f) P F := by
  refine h.unseen rfl rfl rfl rfl h.quiet (fun _ _ _ => rfl) (fun g hg => ?_) h.own.give rfl rfl rfl
  rw [setMem_ne hg]
  exact .inr (.inl (P.held_hold_self f))

/-- A held frame may be filled. -/
theorem fill (h : Inv s P F) (hf : 0 < P.held f) (pg : Nat → Byte) : Inv (s.setMem f pg) P F := by
  refine h.unseen rfl rfl rfl rfl h.quiet (fun _ _ _ => rfl) (fun g hg => ?_) ?_ rfl rfl rfl
  · rw [setMem_ne hg]
    exact .inr (.inl hf)
  · intro g
    have hu : inUse (s.setMem f pg) P g = inUse s P g :=
      inUse_congr (fun _ => ⟨rfl, rfl, rfl⟩) rfl rfl rfl g
    have h1 := h.own g
    unfold owned at h1 ⊢
    rw [hu]
    exact h1

/-- Printing. -/
theorem print {t : String} (h : Inv s P F) (ht : t ∉ dirtyMsgs) :
    Inv (s.printed t) P F :=
  ⟨h.own, h.dirs, h.excl, h.procs, h.skip, h.pids, h.pidLt, fun m hm => by
    obtain rfl | hm := List.mem_cons.mp hm
    · exact ht
    · exact h.quiet m hm⟩

/-! ## Pages of the running process -/

theorem holders (h : Inv s P F) (hr : Running s c) : 0 < holders s P (s.proc c).pgdir :=
  holders_pos_of_proc hr.lt (h.counted hr.lt hr.active)

/-- Replacing the directory of the running process. -/
theorem setDir {D : PageDir} (h : Inv s P F) (hr : Running s c)
    (hown : Own (s.setDir (s.proc c).pgdir D) P') (hskip : P'.skip = P.skip)
    (hdir : DirOk D) (hok : ProcOk (s.proc c) D s.mem (s.files (s.proc c).pid) (F c)
      P'.mapped P'.top) : Inv (s.setDir (s.proc c).pgdir D) P' F := by
  have hpag : Paging c s (s.setDir (s.proc c).pgdir D) :=
    .of_proc rfl rfl rfl rfl rfl fun e he => Function.update_of_ne he _ _
  refine h.onSelf hr hpag (fun _ _ => rfl) h.quiet
    (fun _ hg => absurd rfl hg) hown hskip (fun _ _ => rfl) ?_ ?_
  · simp only [Kernel.setDir, Function.update_self]
    exact hdir
  · simp only [Kernel.setDir, Function.update_self]
    exact hok

theorem addTable (h : Inv s (P.hold f) F) (hr : Running s c) (hu : u < NUSER)
    (ht : (s.dirs (s.proc c).pgdir).hasTable u = false) :
    Inv (s.setDir (s.proc c).pgdir ((s.dirs (s.proc c).pgdir).addTable (u / 1024) f)) P F := by
  have hlt : u < 2 ^ 20 := by rw [NUSER_eq] at hu; omega
  have hdir := h.dirs c hr.lt (h.counted hr.lt hr.active)
  have hself := h.self hr
  have hpte := (s.dirs (s.proc c).pgdir).pte_addTable f ht
  refine h.setDir hr (h.own.addTable (h.holders hr) ht hlt) rfl (hdir.addTable hu ht f) ?_
  obtain ⟨g, hg, hst⟩ := hself.stored
  refine ⟨?_, ?_, hself.swapFile, ⟨g, hg, ?_⟩, hself.size⟩
  · rw [hpte]; exact hself.agree
  · rw [hpte]; exact hself.below
  · rw [hpte]; exact hst

/-- A held frame becomes page `u`, mapped but not linked. -/
theorem mapPage {w : Word} (h : Inv s (P.hold f) F) (hr : Running s c) (hu : u < NUSER)
    (ht : (s.dirs (s.proc c).pgdir).hasTable u = true)
    (hp : has ((s.dirs (s.proc c).pgdir).pte u) PTE_P = false)
    (hg : has ((s.dirs (s.proc c).pgdir).pte u) PTE_PG = false)
    (hwp : has w PTE_P = true) (hwg : has w PTE_PG = false) (hwf : pageNo w = f)
    (hlo : 1 ≤ u) (hhi : u * PGSIZE < max (s.proc c).sz P.top)
    (hmem : ∀ o < PGSIZE, s.mem f o = F c u o) :
    Inv (s.setDir (s.proc c).pgdir ((s.dirs (s.proc c).pgdir).setPage u w)) (P.withMapped u) F := by
  have hdir := h.dirs c hr.lt (h.counted hr.lt hr.active)
  have hself := h.self hr
  have hown : Own (s.setDir (s.proc c).pgdir ((s.dirs (s.proc c).pgdir).setPage u w))
      (P.withMapped u) :=
    h.own.mapPage (h.holders hr) ht hu hp hwp hwf
  refine h.setDir hr hown rfl (hdir.setPage hu ht w) ?_
  obtain ⟨g, hgf, hst⟩ := hself.stored
  refine ⟨?_, ?_, hself.swapFile, ⟨g, hgf, ?_⟩, hself.size⟩ <;> rw [PageDir.pte_setPage ht]
  · exact hself.agree.map hp hg hwp hwg
  · exact hself.below.update fun _ => ⟨hlo, hhi⟩
  · exact hst.map (hwf ▸ hmem)

/-- An unlinked page is taken away again; its frame is held. -/
theorem unmapPage (h : Inv s (P.withMapped u) F) (hr : Running s c) (hu : u < NUSER) :
    Inv (s.setDir (s.proc c).pgdir ((s.dirs (s.proc c).pgdir).setPage u 0))
      (P.hold (pageNo ((s.dirs (s.proc c).pgdir).pte u))) F := by
  have hdir := h.dirs c hr.lt (h.counted hr.lt hr.active)
  have hself := h.self hr
  have hp : has ((s.dirs (s.proc c).pgdir).pte u) PTE_P = true := by
    have := hself.agree.inMem u hu
    rw [show (P.withMapped u).mapped u = P.mapped u + 1 from bump_self _ _] at this
    cases hc : has ((s.dirs (s.proc c).pgdir).pte u) PTE_P with
    | true => rfl
    | false => rw [hc, Bool.toNat_false] at this; omega
  have ht := PageDir.hasTable_of_has hp
  have hown := (show Own s P from h.own).unmapPage (w := 0) (h.holders hr) hu hp (has_zero _)
  refine h.setDir hr hown rfl (hdir.setPage hu ht 0) ?_
  obtain ⟨g, hgf, hst⟩ := hself.stored
  refine ⟨?_, ?_, hself.swapFile, ⟨g, hgf, ?_⟩, hself.size⟩ <;> rw [PageDir.pte_setPage ht]
  · exact hself.agree.unmap hu
  · exact hself.below.clear u
  · refine hst.of_pte fun v hv hpv => ?_
    by_cases e : v = u
    · rw [e, Function.update_self, has_zero] at hpv
      cases hpv
    · rw [Function.update_of_ne e] at hpv ⊢
      exact ⟨hpv, rfl⟩

end Inv

end

end Xv6
