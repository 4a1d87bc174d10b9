import Xv6.Swap.Move
import Xv6.Vm.Inv
import Xv6.Vm.View

/-!
# Linking, evicting and recovering pages

What `linkNewPage`, `unlinkPage`, `recoverPageFault` and `nfu_Increment_Counter` do for the
running process. Each keeps the kernel invariant; evicting and recovering move a page between
its frame and a slot and keep its contents.
-/

namespace Xv6

open Lib

/-- The entry of a page that goes to its slot. -/
def outEntry (w : Word) : Word := (w &&& ~~~PTE_P) ||| PTE_PG

theorem outEntry_flags (w : Word) :
    has (outEntry w) PTE_P = false ∧ has (outEntry w) PTE_PG = true ∧
      has (outEntry w) PTE_U = has w PTE_U ∧ has (outEntry w) PTE_W = has w PTE_W := by
  simp [outEntry, has_or, has_bit, has_clear]

/-- The entry of a page that comes back to frame `f`. -/
def inEntry (w : Word) (f : Nat) : Word := pageWord f ||| ((pteFlags w &&& ~~~PTE_PG) ||| PTE_P)

theorem pageNo_pteFlags (w : Word) : pageNo (pteFlags w) = 0 := by
  unfold pteFlags
  rw [pageNo_and, show pageNo 0xFFF#32 = 0 by decide, Nat.and_zero]

theorem has_pteFlags (w : Word) {k : Nat} (hk : k < 12) :
    has (pteFlags w) (BitVec.twoPow 32 k) = has w (BitVec.twoPow 32 k) := by
  unfold pteFlags
  rw [has_and _ _ (by omega), show has 0xFFF#32 (BitVec.twoPow 32 k) = true by
    interval_cases k <;> decide, Bool.and_true]

theorem pageNo_inEntry (w : Word) {f : Nat} (hf : f < 2 ^ 20) : pageNo (inEntry w f) = f := by
  unfold inEntry
  rw [pageNo_or_flag, pageNo_pageWord hf]
  rw [pageNo_or, pageNo_and, pageNo_pteFlags, Nat.zero_and]
  decide

theorem inEntry_flags (w : Word) (f : Nat) :
    has (inEntry w f) PTE_P = true ∧ has (inEntry w f) PTE_PG = false ∧
      has (inEntry w f) PTE_U = has w PTE_U ∧ has (inEntry w f) PTE_W = has w PTE_W := by
  simp [inEntry, has_or, has_bit, has_clear, has_pageWord, has_pteFlags]

/-! ## Evicting -/

section

variable [Build] {E : String → Prop} {s : Kernel} {P : Pend} {F : Nat → Nat → Nat → Byte}
  {c u v i idx : Nat} {f : SwapFile}

/-- The state after page `v` of slot `c` went to slot `i` of its swap file `f`. -/
def swappedOut (s : Kernel) (c v i : Nat) (f : SwapFile) : Kernel :=
  let q := s.proc c
  let w := (s.dirs q.pgdir).pte v
  let s1 := (s.setFile q.pid (some (f.writePage i (s.mem (pageNo w))))).setProc c (q.fillSlot i v)
  (s1.setDir q.pgdir ((s.dirs q.pgdir).setPage v (outEntry w))).freed (pageNo w)

theorem moveToSwap_wp {Q : Int → Kernel → Prop} (hidx : idx < MAX_PSYC_PAGES)
    (hi : i < MAX_SWAP_PAGES) (hv : v < NUSER)
    (hva : entryAddr ((s.proc c).vpaMemory idx) = v * PGSIZE)
    (hpte : has ((s.dirs (s.proc c).pgdir).pte v) PTE_P = true)
    (hman : Managed (pageNo ((s.dirs (s.proc c).pgdir).pte v)))
    (hs : (s.proc c).swapFile = true) (hf : s.files (s.proc c).pid = some f)
    (hroom : i * PGSIZE ≤ f.size) (hr : Running s c) (hQ : Q 0 (swappedOut s c v i f)) :
    wp (moveToSwap c idx i) E Q s := by
  have ht := PageDir.hasTable_of_has hpte
  have hlt := page_lt_word hv
  have hdiv : v * PGSIZE / PGSIZE = v := by simp
  have hne : pageNo ((s.dirs (s.proc c).pgdir).pte v) * PGSIZE ≠ KERNBASE := by
    have := hman.2
    simp only [PHYSTOP, KERNBASE] at *
    omega
  unfold moveToSwap
  refine wp_seq (assertPanic_wp hidx (wp_seq (assertPanic_wp hi (wp_seq (getProc_wp ?_)))))
  rw [hva]
  refine wp_seq (assertPanic_wp (by simp) (wp_seq (walkpgdir_found hlt (by rwa [hdiv]) ?_)))
  rw [hdiv]
  refine wp_seq (loadPte_wp ht ?_)
  rw [if_neg hne]
  refine wp_seq (writeToSwapFile_page hs hf hi hroom ?_)
  rw [if_neg (by simp)]
  refine wp_seq (getProc_wp (wp_seq (setProc_wp (wp_seq (get_wp ?_)))))
  refine wp_seq (assertPanic_wp hr.cur (wp_seq (assertPanic_wp hr.cr3.symm ?_)))
  exact wp_seq (storePte_wp (wp_seq (kfree_wp hman hQ)))

/-- The state after slot `c` linked page `u` in place of page `v` at entry `idx`. -/
def evicted (s : Kernel) (c u v i idx : Nat) (f : SwapFile) : Kernel :=
  (swappedOut s c v i f).setProc c
    (replaceMemory ((swappedOut s c v i f).proc c) idx (u * PGSIZE))

/-- What `linkNewPage` prints when every slot is taken. -/
def fullMsg : String :=
  errorStr "linkNewPage: getFreeSwapPageIndex failed | max number of pages reached\n"

theorem linkNewPage_push {Q : Int → Kernel → Prop}
    (hn : (s.proc c).sizeMem < MAX_PSYC_PAGES)
    (hQ : Q 0 (s.setProc c (pushMemory (s.proc c) (u * PGSIZE)))) :
    wp (linkNewPage c (u * PGSIZE)) E Q s := by
  unfold linkNewPage
  refine wp_seq (assertPanic_wp (by simp) (wp_seq (getProc_wp ?_)))
  rw [if_neg (by omega)]
  exact wp_seq (setProc_wp hQ)

theorem linkNewPage_none {Q : Int → Kernel → Prop} (ht : TableOk (s.proc c))
    (hn : (s.proc c).sizeMem = MAX_PSYC_PAGES) (hfree : getFreeSwapPageIndex (s.proc c) = none)
    (hQ : Q (-1) (s.printed fullMsg)) :
    wp (linkNewPage c (u * PGSIZE)) E Q s := by
  unfold linkNewPage
  refine wp_seq (assertPanic_wp (by simp) (wp_seq (getProc_wp ?_)))
  rw [if_pos hn]
  cases hp : (Build.policy : Policy) with
  | fifo =>
    have hring : (s.proc c).qHead = (s.proc c).qTail := by
      obtain ⟨h1, h2⟩ := ht.ring hp
      simp only [MAX_PSYC_PAGES] at *
      omega
    unfold linkFullFifo
    refine wp_seq (getProc_wp (wp_seq (assertPanic_wp hring ?_)))
    rw [hfree]
    exact wp_seq (cprintf_wp hQ)
  | nfu =>
    unfold linkFullNfu
    refine wp_seq (getProc_wp ?_)
    rw [hfree]
    exact wp_seq (cprintf_wp hQ)

theorem linkNewPage_full {Q : Int → Kernel → Prop} {m : Nat → Nat} {top : Nat}
    (hr : Running s c) (hown : Own s P)
    (hok : ProcOk (s.proc c) (s.dirs (s.proc c).pgdir) s.mem (s.files (s.proc c).pid) (F c) m top)
    (hskip : c ≠ P.skip) (hn : (s.proc c).sizeMem = MAX_PSYC_PAGES)
    (hfree : getFreeSwapPageIndex (s.proc c) = some i)
    (hQ : ∀ idx v f, Evicts (s.proc c) idx → v < NUSER →
      entryAddr ((s.proc c).vpaMemory idx) = v * PGSIZE →
      has ((s.dirs (s.proc c).pgdir).pte v) PTE_P = true →
      Stored (s.proc c) (s.dirs (s.proc c).pgdir).pte s.mem f (F c) →
      Q 0 (evicted s c u v i idx f)) :
    wp (linkNewPage c (u * PGSIZE)) E Q s := by
  obtain ⟨f, hf, hst⟩ := hok.stored
  have hroom := hst.slot_start hfree
  obtain ⟨hi, -, -⟩ := getFreeSwapPageIndex_some hfree
  have hc : counted s P.skip c = true := by
    unfold counted
    simp [ProcState.live_of_active hr.active, hskip]
  -- whichever entry is chosen, it is a present page
  have hmove : ∀ idx (R : Int → Kernel → Prop), Evicts (s.proc c) idx →
      (∀ v, v < NUSER → entryAddr ((s.proc c).vpaMemory idx) = v * PGSIZE →
        has ((s.dirs (s.proc c).pgdir).pte v) PTE_P = true → R 0 (swappedOut s c v i f)) →
      wp (moveToSwap c idx i) E R s := by
    intro idx R he hR
    have hmem := he.mem hn
    obtain ⟨v, hv, hva⟩ := exists_page (entryAddr_mod _) (hok.agree.memLt _ hmem)
    have hpte := (hok.agree.present_of_resident hv (hva ▸ hmem)).1
    have hman := hown.managed_pte hr.lt hc hv hpte
    exact moveToSwap_wp he.1 hi hv hva hpte hman hok.swapFile hf hroom hr (hR v hv hva hpte)
  unfold linkNewPage
  refine wp_seq (assertPanic_wp (by simp) (wp_seq (getProc_wp ?_)))
  rw [if_pos hn]
  cases hp : (Build.policy : Policy) with
  | fifo =>
    obtain ⟨h1, h2⟩ := hok.agree.table.ring hp
    have hring : (s.proc c).qHead = (s.proc c).qTail := by
      simp only [MAX_PSYC_PAGES] at *
      omega
    unfold linkFullFifo
    refine wp_seq (getProc_wp (wp_seq (assertPanic_wp hring ?_)))
    rw [hfree]
    have he : Evicts (s.proc c) (s.proc c).qHead := ⟨h1, fun _ => rfl⟩
    refine wp_seq (hmove _ _ he fun v hv hva hpte => ?_)
    have := hQ _ v f he hv hva hpte hst
    unfold evicted replaceMemory at this
    rw [hp] at this
    exact wp_seq (getProc_wp (wp_seq (setProc_wp this)))
  | nfu =>
    obtain ⟨idx, hidx, hlt⟩ := nfuVictim_some (s.proc c).vpaMemory
    unfold linkFullNfu
    refine wp_seq (getProc_wp ?_)
    rw [hfree]
    dsimp only
    rw [hidx]
    have he : Evicts (s.proc c) idx := ⟨hlt, fun h => by rw [hp] at h; cases h⟩
    refine wp_seq (hmove _ _ he fun v hv hva hpte => ?_)
    have := hQ _ v f he hv hva hpte hst
    unfold evicted replaceMemory at this
    rw [hp] at this
    rw [if_neg (by simp)]
    exact wp_seq (getProc_wp (wp_seq (setProc_wp this)))

/-- The tables of the running process after the eviction. -/
theorem evicted_proc (s : Kernel) (c u v i idx : Nat) (f : SwapFile) :
    (evicted s c u v i idx f).proc c =
      replaceMemory ((s.proc c).fillSlot i v) idx (u * PGSIZE) := by
  simp only [evicted, swappedOut, Kernel.setProc, Kernel.setDir, Kernel.freed, Kernel.setMem,
    Kernel.setFile, Function.update_self]

theorem evicted_paging (s : Kernel) (c u v i idx : Nat) (f : SwapFile) :
    Paging c s (evicted s c u v i idx f) := by
  refine ⟨rfl, rfl, rfl, rfl, fun p hp => ?_, ?_, fun e he => Function.update_of_ne he _ _⟩
  · simp only [evicted, swappedOut, Kernel.setProc, Kernel.setDir, Kernel.freed, Kernel.setMem,
      Kernel.setFile, Function.update_of_ne hp]
  · rw [evicted_proc]
    obtain ⟨m, h, t, hq⟩ := replaceMemory_eq ((s.proc c).fillSlot i v) idx (u * PGSIZE)
    rw [hq]
    exact ⟨_, _, _, _, _, rfl⟩

theorem Inv.evict (h : Inv s (P.withMapped u) F) (hr : Running s c) (hu : u < NUSER)
    (hn : (s.proc c).sizeMem = MAX_PSYC_PAGES) (hfree : getFreeSwapPageIndex (s.proc c) = some i)
    (he : Evicts (s.proc c) idx) (hv : v < NUSER)
    (hva : entryAddr ((s.proc c).vpaMemory idx) = v * PGSIZE)
    (hpte : has ((s.dirs (s.proc c).pgdir).pte v) PTE_P = true)
    (hst : Stored (s.proc c) (s.dirs (s.proc c).pgdir).pte s.mem f (F c)) :
    Inv (evicted s c u v i idx f) P F := by
  obtain ⟨hi, hfr, -⟩ := getFreeSwapPageIndex_some hfree
  have hself := h.self hr
  have hcc := h.counted hr.lt hr.active
  have ht := PageDir.hasTable_of_has hpte
  have hpag := evicted_paging s c u v i idx f
  obtain ⟨hwp, hwg, -, -⟩ := outEntry_flags ((s.dirs (s.proc c).pgdir).pte v)
  -- the frame of `v` leaves the directory and goes to the free list
  have hown : Own (evicted s c u v i idx f) P := by
    have h1 := (show Own s P from h.own).unmapPage (w := outEntry _) (h.holders hr) hv hpte hwp
    exact h1.give.of_paging (c := c)
      ⟨rfl, rfl, rfl, rfl, hpag.other, hpag.self, fun _ _ => rfl⟩ rfl rfl
  refine h.onSelf hr hpag
    (fun n hne => Function.update_of_ne hne _ _) h.quiet (fun g hg => ?_) hown rfl
    (fun _ _ => rfl) ?_ ?_
  · have hgv : g = pageNo ((s.dirs (s.proc c).pgdir).pte v) := by
      by_contra hne
      exact hg (Function.update_of_ne hne _ _)
    rw [hgv]
    exact .inr (.inr (dirCount_pte _ hv hpte))
  · have hd : (evicted s c u v i idx f).dirs (s.proc c).pgdir =
        (s.dirs (s.proc c).pgdir).setPage v (outEntry ((s.dirs (s.proc c).pgdir).pte v)) :=
      Function.update_self _ _ _
    rw [hd]
    exact (h.dirs c hr.lt hcc).setPage hv ht _
  · have hd : (evicted s c u v i idx f).dirs (s.proc c).pgdir =
        (s.dirs (s.proc c).pgdir).setPage v (outEntry ((s.dirs (s.proc c).pgdir).pte v)) :=
      Function.update_self _ _ _
    have hfile : (evicted s c u v i idx f).files (s.proc c).pid =
        some (f.writePage i (s.mem (pageNo ((s.dirs (s.proc c).pgdir).pte v)))) :=
      Function.update_self _ _ _
    rw [evicted_proc, hd, hfile]
    obtain ⟨m, a, b, hq⟩ := replaceMemory_eq ((s.proc c).fillSlot i v) idx (u * PGSIZE)
    refine ⟨?_, ?_, ?_, ⟨_, rfl, ?_⟩, ?_⟩
    · rw [PageDir.pte_setPage ht]
      exact Agree.evict hself.agree hu hn he hv hva hi hfr hwp hwg
    · rw [PageDir.pte_setPage ht, hq]
      exact hself.below.update fun _ => hself.below v hv (.inl hpte)
    · rw [hq]; exact hself.swapFile
    · rw [PageDir.pte_setPage ht, hq]
      have hfill := hst.fill (i := i) (g := f.writePage i
          (s.mem (pageNo ((s.dirs (s.proc c).pgdir).pte v)))) hv (Nat.le_max_left _ _)
        (Nat.le_max_right _ _)
        (fun o ho => (f.writePage_data_self i _ ho).trans (hst.frames v hv hpte o ho))
        (fun j hj o ho => f.writePage_data_of_ne _ hj ho)
      have hnot : ∀ x < NUSER, has (Function.update (s.dirs (s.proc c).pgdir).pte v
          (outEntry ((s.dirs (s.proc c).pgdir).pte v)) x) PTE_P = true →
          x ≠ v ∧ has ((s.dirs (s.proc c).pgdir).pte x) PTE_P = true := by
        intro x _ hx
        by_cases e : x = v
        · rw [e, Function.update_self, hwp] at hx; cases hx
        · rw [Function.update_of_ne e] at hx; exact ⟨e, hx⟩
      refine ((hfill.of_pte fun x hx hxp => ?_).of_mem fun x hx hxp => ?_).of_slots
        fun j _ _ => rfl
      · obtain ⟨e, hxp'⟩ := hnot x hx hxp
        rw [Function.update_of_ne e]
        exact ⟨hxp', rfl⟩
      · obtain ⟨e, hxp'⟩ := hnot x hx hxp
        rw [Function.update_of_ne e]
        refine Function.update_of_ne (fun hpg => e ?_) _ _
        exact (h.own.pte_inj hr.lt hcc hv hx hpte hxp' hpg).symm
    · rw [hq]; exact hself.size

/-- Evicting keeps the pages and their permissions. -/
theorem evicted_samePages (s : Kernel) (c u v i idx : Nat) (f : SwapFile)
    (hpte : has ((s.dirs (s.proc c).pgdir).pte v) PTE_P = true) :
    SamePages (s.dirs (s.proc c).pgdir) ((evicted s c u v i idx f).dirs (s.proc c).pgdir) := by
  obtain ⟨-, h2, h3, h4⟩ := outEntry_flags ((s.dirs (s.proc c).pgdir).pte v)
  have hd : (evicted s c u v i idx f).dirs (s.proc c).pgdir =
      (s.dirs (s.proc c).pgdir).setPage v (outEntry ((s.dirs (s.proc c).pgdir).pte v)) :=
    Function.update_self _ _ _
  rw [hd]
  refine SamePages.setPage (PageDir.hasTable_of_has hpte) ?_
  rw [entryView_paged h2, PageDir.view, entryView_present hpte, h3, h4]

/-! ## Linking -/

theorem Inv.push (h : Inv s (P.withMapped u) F) (hr : Running s c) (hu : u < NUSER)
    (hn : (s.proc c).sizeMem < MAX_PSYC_PAGES) :
    Inv (s.setProc c (pushMemory (s.proc c) (u * PGSIZE))) P F := by
  have hself := h.self hr
  obtain ⟨m, n, a, b, hq⟩ := pushMemory_eq (s.proc c) (u * PGSIZE)
  have hpag : Paging c s (s.setProc c (pushMemory (s.proc c) (u * PGSIZE))) :=
    Paging.setProc ⟨_, m, n, a, b, hq⟩
  refine h.onSelf hr hpag (fun _ _ => rfl) h.quiet (fun _ hg => absurd rfl hg)
    ((show Own s P from h.own).of_paging hpag rfl rfl) rfl (fun _ _ => rfl)
    (h.dirs c hr.lt (h.counted hr.lt hr.active)) ?_
  have hproc : (s.setProc c (pushMemory (s.proc c) (u * PGSIZE))).proc c =
      pushMemory (s.proc c) (u * PGSIZE) := Function.update_self _ _ _
  obtain ⟨f, hf, hst⟩ := hself.stored
  rw [hproc]
  refine ⟨hself.agree.push hu hn, ?_, ?_, ⟨f, hf, hst.of_slots fun i _ _ => ?_⟩, ?_⟩ <;> rw [hq]
  · exact hself.below
  · exact hself.swapFile
  · rfl
  · exact hself.size

/-- What linking one page does to the tables and the free list: a full `VPA_Memory` gives one
of its pages to a slot, and the frame of that page becomes free. -/
structure Linked (c : Nat) (s s' : Kernel) : Prop where
  size : (s'.proc c).sizeMem = min MAX_PSYC_PAGES ((s.proc c).sizeMem + 1)
  slots : occupied (s'.proc c) = occupied (s.proc c) + ((s.proc c).sizeMem + 1 - MAX_PSYC_PAGES)
  free : s'.freelist.length = s.freelist.length + ((s.proc c).sizeMem + 1 - MAX_PSYC_PAGES)
  pde : (s'.dirs (s.proc c).pgdir).pde = (s.dirs (s.proc c).pgdir).pde

theorem Linked.push (hn : (s.proc c).sizeMem < MAX_PSYC_PAGES) :
    Linked c s (s.setProc c (pushMemory (s.proc c) (u * PGSIZE))) := by
  have hproc : (s.setProc c (pushMemory (s.proc c) (u * PGSIZE))).proc c =
      pushMemory (s.proc c) (u * PGSIZE) := Function.update_self _ _ _
  have hsize : (pushMemory (s.proc c) (u * PGSIZE)).sizeMem = (s.proc c).sizeMem + 1 := by
    unfold pushMemory
    cases (Build.policy : Policy) <;> rfl
  have hslots : (pushMemory (s.proc c) (u * PGSIZE)).vpaSwap = (s.proc c).vpaSwap := by
    unfold pushMemory
    cases (Build.policy : Policy) <;> rfl
  have hzero : (s.proc c).sizeMem + 1 - MAX_PSYC_PAGES = 0 := by omega
  refine ⟨?_, ?_, by rw [hzero]; rfl, rfl⟩
  · rw [hproc, hsize]
    omega
  · rw [hproc, hzero, occupied_congr hslots, Nat.add_zero]

theorem Linked.evict (hn : (s.proc c).sizeMem = MAX_PSYC_PAGES) (hi : i < MAX_SWAP_PAGES)
    (hfree : has ((s.proc c).vpaSwap i) SWAP_P = false) (hv : v < NUSER) :
    Linked c s (evicted s c u v i idx f) := by
  obtain ⟨m, a, b, hq⟩ := replaceMemory_eq ((s.proc c).fillSlot i v) idx (u * PGSIZE)
  have hone : (s.proc c).sizeMem + 1 - MAX_PSYC_PAGES = 1 := by omega
  refine ⟨?_, ?_, ?_, ?_⟩
  · rw [evicted_proc, hq, show (((s.proc c).fillSlot i v).withMem m
      ((s.proc c).fillSlot i v).sizeMem a b).sizeMem = (s.proc c).sizeMem from rfl]
    omega
  · rw [evicted_proc, hone, hq, ← occupied_fill hi hfree (page_lt_word hv)]
    exact occupied_congr rfl
  · rw [hone]
    rfl
  · have hd : (evicted s c u v i idx f).dirs (s.proc c).pgdir =
        (s.dirs (s.proc c).pgdir).setPage v (outEntry ((s.dirs (s.proc c).pgdir).pte v)) :=
      Function.update_self _ _ _
    rw [hd, PageDir.pde_setPage]

/-- `linkNewPage` on a page that is mapped but not linked fails exactly when the tables hold
`MAX_TOTAL_PAGES` pages. -/
theorem linkNewPage_exact {Q : Int → Kernel → Prop} (h : Inv s (P.withMapped u) F)
    (hr : Running s c) (hu : u < NUSER)
    (hok : ∀ s', Inv s' P F → Paging c s s' →
      SamePages (s.dirs (s.proc c).pgdir) (s'.dirs (s.proc c).pgdir) →
      (s'.dirs (s.proc c).pgdir).pte u = (s.dirs (s.proc c).pgdir).pte u →
      linkedPages (s.proc c) < MAX_TOTAL_PAGES → Linked c s s' → Q 0 s')
    (hfail : linkedPages (s.proc c) = MAX_TOTAL_PAGES → Q (-1) (s.printed fullMsg)) :
    wp (linkNewPage c (u * PGSIZE)) E Q s := by
  have hself := h.self hr
  have hsize := hself.agree.table.size
  have hroom : ¬ ((s.proc c).sizeMem = MAX_PSYC_PAGES ∧ occupied (s.proc c) = MAX_SWAP_PAGES) →
      linkedPages (s.proc c) < MAX_TOTAL_PAGES := fun hne =>
    Nat.lt_of_le_of_ne (linkedPages_le hsize) fun he => hne ((linkedPages_full hsize).1 he)
  by_cases hn : (s.proc c).sizeMem = MAX_PSYC_PAGES
  · cases hfree : getFreeSwapPageIndex (s.proc c) with
    | none =>
      exact linkNewPage_none hself.agree.table hn hfree
        (hfail ((linkedPages_full hsize).2 ⟨hn, getFreeSwapPageIndex_none.1 hfree⟩))
    | some i =>
      have hsome : occupied (s.proc c) ≠ MAX_SWAP_PAGES := fun he => by
        rw [getFreeSwapPageIndex_none.2 he] at hfree
        cases hfree
      obtain ⟨hi, hfr, -⟩ := getFreeSwapPageIndex_some hfree
      refine linkNewPage_full hr h.own hself (h.skip c hr.lt hr.active) hn hfree
        fun idx v f he hv hva hpte hst => ?_
      refine hok _ (h.evict hr hu hn hfree he hv hva hpte hst) (evicted_paging ..)
        (evicted_samePages s c u v i idx f hpte) ?_ (hroom fun he => hsome he.2)
        (.evict hn hi hfr hv)
      have hvm := (hself.agree.present_of_resident hv (hva ▸ he.mem hn)).2
      have hne : u ≠ v := by
        rintro rfl
        rw [show (P.withMapped u).mapped u = P.mapped u + 1 from bump_self _ _] at hvm
        omega
      have hd : (evicted s c u v i idx f).dirs (s.proc c).pgdir =
          (s.dirs (s.proc c).pgdir).setPage v (outEntry ((s.dirs (s.proc c).pgdir).pte v)) :=
        Function.update_self _ _ _
      rw [hd, PageDir.pte_setPage (PageDir.hasTable_of_has hpte), Function.update_of_ne hne]
  · have hlt : (s.proc c).sizeMem < MAX_PSYC_PAGES := Nat.lt_of_le_of_ne hsize hn
    obtain ⟨m, n, a, b, hq⟩ := pushMemory_eq (s.proc c) (u * PGSIZE)
    exact linkNewPage_push hlt (hok _ (h.push hr hu hlt) (Paging.setProc ⟨_, m, n, a, b, hq⟩)
      (SamePages.refl _) rfl (hroom fun he => hn he.1) (.push hlt))

end

end Xv6
