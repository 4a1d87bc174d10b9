import Xv6.Swap.Link
import Xv6.Proc.Ops

/-!
# Page faults, timer ticks and user accesses

`recoverPageFault` brings a paged-out page back: it takes a frame, reads the slot into it,
installs the entry and links the page again, which may evict another one. A tick and a user
access change only accessed and dirty bits, use counters and, for a store, one byte.
-/

namespace Xv6

open Lib

/-- `moveFromSwap` reads the slot of page `u` into frame `f` and gives it up. -/
theorem moveFromSwap_wp {E : String → Prop} {s : Kernel} {c u i f : Nat} {g : SwapFile}
    {Q : Int → Kernel → Prop}
    (hs : swapSlot (s.proc c) (u * PGSIZE) = some i) (hsf : (s.proc c).swapFile = true)
    (hf : s.files (s.proc c).pid = some g) (hroom : (i + 1) * PGSIZE ≤ g.size)
    (hQ : Q 0 ((s.setMem f (g.page i (s.mem f))).setProc c ((s.proc c).clearSlot i))) :
    wp (moveFromSwap c (u * PGSIZE) f) E Q s := by
  unfold moveFromSwap
  refine wp_seq (assertPanic_wp (by simp) (wp_seq (getProc_wp ?_)))
  rw [hs]
  refine wp_seq (readFromSwapFile_page hsf hf (swapSlot_some hs).1 hroom ?_)
  rw [if_neg (by simp)]
  exact wp_seq (getProc_wp (wp_seq (setProc_wp hQ)))

/-- The state after page `u` of slot `c` came back from slot `i` to frame `f`, unlinked. -/
def swappedIn (s : Kernel) (c u i f : Nat) (l : List Nat) (g : SwapFile) : Kernel :=
  (((s.taken l).setMem f (g.page i (s.mem f))).setProc c ((s.proc c).clearSlot i)).setDir
    (s.proc c).pgdir ((s.dirs (s.proc c).pgdir).setPage u
      (inEntry ((s.dirs (s.proc c).pgdir).pte u) f))

theorem swappedIn_paging (s : Kernel) (c u i f : Nat) (l : List Nat) (g : SwapFile) :
    Paging c s (swappedIn s c u i f l g) := by
  have h := Paging.setProc (s := s) (c := c) (q := (s.proc c).clearSlot i) ⟨_, _, _, _, _, rfl⟩
  exact ⟨rfl, rfl, rfl, rfl, h.other, h.self, fun e he => Function.update_of_ne he _ _⟩

theorem swappedIn_dir (s : Kernel) (c u i f : Nat) (l : List Nat) (g : SwapFile) :
    (swappedIn s c u i f l g).dirs (s.proc c).pgdir = (s.dirs (s.proc c).pgdir).setPage u
      (inEntry ((s.dirs (s.proc c).pgdir).pte u) f) := Function.update_self _ _ _

theorem swappedIn_size (s : Kernel) (c u i f : Nat) (l : List Nat) (g : SwapFile) :
    ((swappedIn s c u i f l g).proc c).sizeMem = (s.proc c).sizeMem := by
  simp only [swappedIn, Kernel.setDir, Kernel.setProc, Proc.clearSlot, Function.update_self]

/-- The slot just given up is free. -/
theorem swappedIn_slot {i : Nat} (s : Kernel) (c u f : Nat) (l : List Nat) (g : SwapFile)
    (hi : i < MAX_SWAP_PAGES) : getFreeSwapPageIndex ((swappedIn s c u i f l g).proc c) ≠ none := by
  have hfree : has (((swappedIn s c u i f l g).proc c).vpaSwap i) SWAP_P = false := by
    simp only [swappedIn, Kernel.setDir, Kernel.setProc, Proc.clearSlot, Function.update_self,
      has_zero]
  obtain ⟨j, hj⟩ := getFreeSwapPageIndex_of_free hi hfree
  rw [hj]
  exact Option.some_ne_none j

theorem entryAddr_counter (w : Word) (cnt : Word) :
    entryAddr (BitVec.ofNat 32 (entryAddr w) ||| nfuMemCounter cnt) = entryAddr w := by
  refine entryAddr_or (entryAddr_mod w) (entryAddr_lt w) ?_
  unfold nfuMemCounter
  rw [pageNo_and, show pageNo 0x7FF#32 = 0 by decide, Nat.and_zero]

/-- Entry `i` of `VPA_Memory` with its use counter one higher. -/
def tickEntry (q : Proc) (i : Nat) : Proc :=
  q.withMem (Function.update q.vpaMemory i (BitVec.ofNat 32 (entryAddr (q.vpaMemory i)) |||
    nfuMemCounter (nfuMemCounter (q.vpaMemory i) + 1))) q.sizeMem q.qHead q.qTail

theorem tickEntry_same (q : Proc) (i : Nat) : SameButTables q (tickEntry q i) :=
  SameButTables.withMem ..

/-- The state after a tick found page `u` of entry `i` accessed. -/
def ticked (s : Kernel) (c u i : Nat) : Kernel :=
  (s.setProc c (tickEntry (s.proc c) i)).setDir (s.proc c).pgdir
    ((s.dirs (s.proc c).pgdir).setPage u ((s.dirs (s.proc c).pgdir).pte u &&& ~~~PTE_A))

theorem ticked_paging (s : Kernel) (c u i : Nat) : Paging c s (ticked s c u i) := by
  have h := Paging.setProc (tickEntry_same (s.proc c) i)
  exact ⟨rfl, rfl, rfl, rfl, h.other, h.self, fun e he => Function.update_of_ne he _ _⟩

theorem ticked_sizeMem (s : Kernel) (c u i : Nat) :
    ((ticked s c u i).proc c).sizeMem = (s.proc c).sizeMem := by
  simp only [ticked, tickEntry, Kernel.setDir, Kernel.setProc, Function.update_self, Proc.withMem]

theorem ticked_samePages {s : Kernel} {c u i : Nat}
    (ht : (s.dirs (s.proc c).pgdir).hasTable u = true) :
    SamePages (s.dirs (s.proc c).pgdir) ((ticked s c u i).dirs (s.proc c).pgdir) := by
  have hd : (ticked s c u i).dirs (s.proc c).pgdir = (s.dirs (s.proc c).pgdir).setPage u
    ((s.dirs (s.proc c).pgdir).pte u &&& ~~~PTE_A) := Function.update_self _ _ _
  rw [hd]
  refine SamePages.setPage ht (entryView_congr ?_ ?_ ?_ ?_) <;> simp [has_clear]

theorem ticked_present {s : Kernel} {c u i : Nat} (ht : (s.dirs (s.proc c).pgdir).hasTable u = true) (v : Nat) :
    has (((ticked s c u i).dirs (s.proc c).pgdir).pte v) PTE_P = has ((s.dirs (s.proc c).pgdir).pte v) PTE_P := by
  have hd : (ticked s c u i).dirs (s.proc c).pgdir = (s.dirs (s.proc c).pgdir).setPage u
    ((s.dirs (s.proc c).pgdir).pte u &&& ~~~PTE_A) := Function.update_self _ _ _
  rw [hd, PageDir.pte_setPage ht]
  by_cases e : v = u
  · rw [e, Function.update_self]
    simp [has_clear]
  · rw [Function.update_of_ne e]

section

variable [Build] {E : String → Prop} {s : Kernel} {P : Pend} {F F' : Nat → Nat → Nat → Byte}
  {c u i f va : Nat} {w : Word}

/-- A held frame with the contents of a paged-out page takes the page's place. -/
theorem Inv.recover (h : Inv s (P.hold f) F) (hr : Running s c) (hu : u < NUSER)
    (hg : has ((s.dirs (s.proc c).pgdir).pte u) PTE_PG = true)
    (hs : swapSlot (s.proc c) (u * PGSIZE) = some i) (hmem : ∀ o < PGSIZE, s.mem f o = F c u o) :
    Inv ((s.setProc c ((s.proc c).clearSlot i)).setDir (s.proc c).pgdir
      ((s.dirs (s.proc c).pgdir).setPage u (inEntry ((s.dirs (s.proc c).pgdir).pte u) f)))
      (P.withMapped u) F := by
  have hself := h.self hr
  have hcc := h.counted hr.lt hr.active
  have ht := PageDir.hasTable_of_has hg
  have hp := hself.agree.absent_of_paged hu hg
  obtain ⟨hwp, hwg, -, -⟩ := inEntry_flags ((s.dirs (s.proc c).pgdir).pte u) f
  have hwf := pageNo_inEntry ((s.dirs (s.proc c).pgdir).pte u) h.own.managed_held.lt
  have hpag : Paging c s (s.setProc c ((s.proc c).clearSlot i)) :=
    Paging.setProc ⟨_, _, _, _, _, rfl⟩
  have hown : Own ((s.setProc c ((s.proc c).clearSlot i)).setDir (s.proc c).pgdir
      ((s.dirs (s.proc c).pgdir).setPage u (inEntry ((s.dirs (s.proc c).pgdir).pte u) f)))
      (P.withMapped u) :=
    (h.own.mapPage (h.holders hr) ht hu hp hwp hwf).of_paging (c := c)
      ⟨rfl, rfl, rfl, rfl, hpag.other, hpag.self, fun _ _ => rfl⟩ rfl rfl
  refine h.onSelf hr ⟨rfl, rfl, rfl, rfl, hpag.other, hpag.self,
    fun e he => Function.update_of_ne he _ _⟩ (fun _ _ => rfl) h.quiet
    (fun _ hg => absurd rfl hg) hown rfl (fun _ _ => rfl) ?_ ?_
  · simp only [Kernel.setDir, Function.update_self]
    exact (h.dirs c hr.lt hcc).setPage hu ht _
  · obtain ⟨g, hgf, hst⟩ := hself.stored
    simp only [Kernel.setDir, Kernel.setProc, Function.update_self]
    refine ⟨?_, ?_, hself.swapFile, ⟨g, hgf, ?_⟩, hself.size⟩ <;> rw [PageDir.pte_setPage ht]
    · exact hself.agree.recover hu hg hs hwp hwg
    · exact hself.below.update fun _ => hself.below u hu (.inr hg)
    · refine (hst.map (by rw [hwf]; exact hmem)).of_slots fun j _ hj => ?_
      dsimp only [Proc.clearSlot] at hj ⊢
      by_cases e : j = i
      · rw [e, Function.update_self, has_zero] at hj; cases hj
      · rw [Function.update_of_ne e]

theorem Inv.swapIn {l : List Nat} {g : SwapFile} (h : Inv s P F) (hr : Running s c)
    (hu : u < NUSER) (hg : has ((s.dirs (s.proc c).pgdir).pte u) PTE_PG = true)
    (hs : swapSlot (s.proc c) (u * PGSIZE) = some i) (hfl : s.freelist = f :: l)
    (hst : Stored (s.proc c) (s.dirs (s.proc c).pgdir).pte s.mem g (F c)) :
    Inv (swappedIn s c u i f l g) (P.withMapped u) F := by
  obtain ⟨hi, ho, he⟩ := swapSlot_some hs
  have h1 := (h.take hfl).fill (P.held_hold_self f) (g.page i (s.mem f))
  refine h1.recover (s := (s.taken l).setMem f (g.page i (s.mem f)))
    ⟨hr.cur, hr.lt, hr.active, hr.cr3⟩ hu hg hs fun o ho' => ?_
  have hd : entryAddr ((s.proc c).vpaSwap i) / PGSIZE = u := by rw [he]; simp
  simp only [Kernel.setMem, Function.update_self, SwapFile.page, if_pos ho']
  rw [hst.slots i hi ho o ho', hd]

/-- What a page fault at page `u` of the running process leads to. -/
structure Faulted (c u : Nat) (s s' : Kernel) (r : Int) : Prop where
  paging : Paging c s s'
  pages : SamePages (s.dirs (s.proc c).pgdir) (s'.dirs (s.proc c).pgdir)
  ret : r = 0 ∨ r = -1
  present : r = 0 → u < NUSER ∧ has ((s'.dirs (s.proc c).pgdir).pte u) PTE_P = true
  recovered : u < NUSER → has ((s.dirs (s.proc c).pgdir).pte u) PTE_PG = true →
    s.freelist ≠ [] → r = 0
  refused : has ((s.dirs (s.proc c).pgdir).pte u) PTE_PG = false → r = -1
  /-- A frame is used up only for a page more in memory. -/
  frames : s.freelist.length + (s.proc c).sizeMem ≤ s'.freelist.length + (s'.proc c).sizeMem

theorem recoverPageFault_inv (h : Inv s P F) (hr : Running s c) (hva : va < 2 ^ 32) :
    wp (recoverPageFault va) E (fun r s' => Inv s' P F ∧ Faulted c (va / PGSIZE) s s' r) s := by
  have hself := h.self hr
  have hcc := h.counted hr.lt hr.active
  have hdir := h.dirs c hr.lt hcc
  have hru : pgrounddown va = va / PGSIZE * PGSIZE := rfl
  -- nothing to recover
  have hnone : has ((s.dirs (s.proc c).pgdir).pte (va / PGSIZE)) PTE_PG = false →
      Faulted c (va / PGSIZE) s s (-1) := fun hg =>
    ⟨Paging.refl c s, SamePages.refl _, .inr rfl, fun e => absurd e (by decide),
      fun _ hc => (by rw [hg] at hc; cases hc), fun _ => rfl, le_rfl⟩
  unfold recoverPageFault
  refine wp_seq (get_wp ?_)
  rw [hr.cur, hru]
  cases ht : (s.dirs (s.proc c).pgdir).hasTable (va / PGSIZE) with
  | false =>
    refine wp_seq (walkpgdir_missing hva ht ⟨h, hnone ?_⟩)
    rw [PageDir.pte_of_missing ht, has_zero]
  | true =>
    refine wp_seq (walkpgdir_found hva ht (wp_seq (loadPte_wp ht ?_)))
    cases hg : has ((s.dirs (s.proc c).pgdir).pte (va / PGSIZE)) PTE_PG with
    | false => exact ⟨h, hnone hg⟩
    | true =>
      have hu : va / PGSIZE < NUSER := by
        by_contra hge
        have hlt : va / PGSIZE < 2 ^ 20 := by simp only [PGSIZE]; omega
        rw [(hdir.kernelPte _ (by omega) hlt).2] at hg
        cases hg
      have hp := hself.agree.absent_of_paged hu hg
      obtain ⟨g, hgf, hst⟩ := hself.stored
      obtain ⟨i, hs⟩ := hself.agree.slot_of_paged hu hg
      obtain ⟨hi, ho, he⟩ := swapSlot_some hs
      set u := va / PGSIZE with hudef
      set w := (s.dirs (s.proc c).pgdir).pte u with hw
      rw [if_neg (by decide)]
      refine wp_seq (kalloc_wp (fun hnil => ?_) fun f l hfl => ?_)
      · refine wp_seq (cprintf_wp ⟨(h.takeNone hnil).print (by decide), ?_⟩)
        exact ⟨.of_proc rfl rfl rfl rfl rfl fun _ _ => rfl, SamePages.refl _, .inr rfl,
          fun e => absurd e (by decide), fun _ _ hne => absurd hnil hne, fun _ => rfl, by rw [hnil]; exact le_rfl⟩
      · refine wp_seq (moveFromSwap_wp (i := i) (g := g) hs hself.swapFile hgf
          (hst.room i hi ho) ?_)
        rw [if_neg (by decide)]
        refine wp_seq (assertPanic_wp rfl (wp_seq (assertPanic_wp (by simp [hp]) ?_)))
        refine wp_seq (get_wp (wp_seq (assertPanic_wp hr.cr3 (wp_seq (storePte_wp ?_)))))
        have hpag := swappedIn_paging s c u i f l g
        have hd := swappedIn_dir s c u i f l g
        obtain ⟨hwp, -, hwu, hww⟩ := inEntry_flags w f
        have hin := h.swapIn hr hu hg hs hfl hst
        refine wp_seq (linkNewPage_exact (s := swappedIn s c u i f l g) hin (hpag.running hr) hu
          (fun s' h' hp' hsame hu' _ hlinked => ?_) fun hfull => ?_)
        rw [(hpag.fields c).2.1, hd] at hsame hu'
        refine wp_seq (get_wp (wp_seq (assertPanic_wp ?_ ⟨h', hpag.trans hp', ?_, .inl rfl,
          fun _ => ⟨hu, ?_⟩, fun _ _ _ => rfl, fun hno => absurd (hno.symm.trans hg) Bool.false_ne_true, ?_⟩)))
        · rw [(hpag.trans hp').cr3, hr.cr3]
        · refine SamePages.trans (SamePages.setPage ht ?_) hsame
          rw [entryView_present hwp, PageDir.view, entryView_paged hg, hwu, hww]
        · rw [hu', PageDir.pte_setPage ht, Function.update_self, hwp]
        · have hsize := hlinked.size
          have hfree := hlinked.free
          rw [swappedIn_size] at hsize hfree
          rw [show (swappedIn s c u i f l g).freelist = l from rfl] at hfree
          rw [hfl, List.length_cons]
          have htab := hself.agree.table.size
          omega
        · obtain ⟨-, hno⟩ := (linkedPages_full (hin.self (hpag.running hr)).agree.table.size).1 hfull
          exact absurd (getFreeSwapPageIndex_none.2 hno) (swappedIn_slot s c u f l g hi)

/-! ## Accessed and dirty bits -/

/-- Bits other than `PTE_P` and `PTE_PG` change. -/
theorem Inv.touch (h : Inv s P F) (hr : Running s c) (hu : u < NUSER)
    (ht : (s.dirs (s.proc c).pgdir).hasTable u = true)
    (hp : has w PTE_P = has ((s.dirs (s.proc c).pgdir).pte u) PTE_P)
    (hg : has w PTE_PG = has ((s.dirs (s.proc c).pgdir).pte u) PTE_PG)
    (hf : pageNo w = pageNo ((s.dirs (s.proc c).pgdir).pte u)) :
    Inv (s.setDir (s.proc c).pgdir ((s.dirs (s.proc c).pgdir).setPage u w)) P F := by
  have hself := h.self hr
  have hbit : ∀ {b}, has w b = has ((s.dirs (s.proc c).pgdir).pte u) b → ∀ v,
      has (Function.update (s.dirs (s.proc c).pgdir).pte u w v) b =
        has ((s.dirs (s.proc c).pgdir).pte v) b := by
    intro b hb v
    by_cases e : v = u
    · rw [e, Function.update_self, hb]
    · rw [Function.update_of_ne e]
  refine h.setDir hr (h.own.keepPage (h.holders hr) ht hu fun g => ?_) rfl
    ((h.dirs c hr.lt (h.counted hr.lt hr.active)).setPage hu ht w) ?_
  · unfold mapsTo
    rw [hp, hf]
  · obtain ⟨g, hgf, hst⟩ := hself.stored
    refine ⟨?_, ?_, hself.swapFile, ⟨g, hgf, ?_⟩, hself.size⟩ <;> rw [PageDir.pte_setPage ht]
    · exact hself.agree.of_flags (fun v _ => hbit hp v) fun v _ => hbit hg v
    · intro v hv hm
      rw [hbit hp, hbit hg] at hm
      exact hself.below v hv hm
    · refine hst.of_pte fun v _ hpv => ⟨hbit hp v ▸ hpv, ?_⟩
      by_cases e : v = u
      · rw [e, Function.update_self, hf]
      · rw [Function.update_of_ne e]

theorem Inv.tick (h : Inv s P F) (hr : Running s c) (hu : u < NUSER)
    (ht : (s.dirs (s.proc c).pgdir).hasTable u = true) : Inv (ticked s c u i) P F := by
  have hpag := Paging.setProc (tickEntry_same (s.proc c) i)
  have hself := h.self hr
  -- the counter goes up
  have h1 : Inv (s.setProc c (tickEntry (s.proc c) i)) P F := by
    refine h.onSelf hr hpag (fun _ _ => rfl) h.quiet (fun _ hg => absurd rfl hg)
      (h.own.of_paging hpag rfl rfl) rfl (fun _ _ => rfl)
      (h.dirs c hr.lt (h.counted hr.lt hr.active)) ?_
    obtain ⟨g, hgf, hst⟩ := hself.stored
    simp only [Kernel.setProc, Function.update_self]
    refine ⟨?_, hself.below, hself.swapFile, ⟨g, hgf, hst.of_slots fun _ _ _ => rfl⟩, hself.size⟩
    exact hself.agree.of_tables ⟨hself.agree.table.size, hself.agree.table.ring⟩
      (resident_update (entryAddr_counter _ _)) (swapCount_congr (p := s.proc c) (by rfl))
      hself.agree.swapLt
  -- and the accessed bit is cleared
  have h2 := h1.touch (w := (s.dirs (s.proc c).pgdir).pte u &&& ~~~PTE_A) (hpag.running hr) hu
  rw [(hpag.fields c).2.1] at h2
  exact h2 ht (by simp [has_clear]; rfl) (by simp [has_clear]; rfl)
    (pageNo_and_mask _ (by decide))

theorem nfuIncrementLoop_inv (hpol : Build.policy = .nfu) (n : Nat) :
    ∀ (i : Nat) (s : Kernel), Inv s P F → Running s c → i + n = (s.proc c).sizeMem →
      wp (nfuIncrementLoop c n i) E (fun _ s' => Inv s' P F ∧ Paging c s s' ∧
        SamePages (s.dirs (s.proc c).pgdir) (s'.dirs (s.proc c).pgdir) ∧
        ∀ v, has ((s'.dirs (s.proc c).pgdir).pte v) PTE_P = has ((s.dirs (s.proc c).pgdir).pte v) PTE_P) s := by
  induction n with
  | zero => intro i s h hr _; exact ⟨h, Paging.refl c s, SamePages.refl _, fun _ => rfl⟩
  | succ n ih =>
    intro i s h hr hn
    have hself := h.self hr
    have hmem : entryAddr ((s.proc c).vpaMemory i) ∈ resident (s.proc c) := by
      rw [resident_nfu hpol]
      exact List.mem_map.mpr ⟨i, List.mem_range.mpr (by omega), rfl⟩
    obtain ⟨u, hu, hua⟩ := exists_page (entryAddr_mod _) (hself.agree.memLt _ hmem)
    have hp := (hself.agree.present_of_resident hu (hua ▸ hmem)).1
    have ht := PageDir.hasTable_of_has hp
    have hdiv : u * PGSIZE / PGSIZE = u := by simp
    unfold nfuIncrementLoop
    refine wp_seq (getProc_wp ?_)
    rw [hua]
    refine wp_seq (walkpgdir_found (page_lt_word hu) (by rwa [hdiv]) ?_)
    rw [hdiv]
    refine wp_seq (loadPte_wp ht ?_)
    dsimp only
    by_cases hA : has ((s.dirs (s.proc c).pgdir).pte u) PTE_A = true
    · rw [if_pos hA, ← hua]
      refine wp_seq (setProc_wp (wp_seq (storePte_wp ?_)))
      have hpag := ticked_paging s c u i
      have hrest := ih (i + 1) (ticked s c u i) (h.tick hr hu ht) (hpag.running hr)
        (by rw [ticked_sizeMem]; omega)
      refine wp_post hrest fun _ s' ⟨h', hp', hsame, hpres⟩ => ⟨h', hpag.trans hp', ?_⟩
      rw [(hpag.fields c).2.1] at hsame hpres
      exact ⟨(ticked_samePages ht).trans hsame, fun v => (hpres v).trans (ticked_present ht v)⟩
    · rw [if_neg hA]
      exact ih (i + 1) s h hr (by omega)

theorem timerTick_inv (h : Inv s P F) (hr : Running s c) :
    wp timerTick E (fun _ s' => Inv s' P F ∧ Paging c s s' ∧
      SamePages (s.dirs (s.proc c).pgdir) (s'.dirs (s.proc c).pgdir) ∧
      ∀ v, has ((s'.dirs (s.proc c).pgdir).pte v) PTE_P = has ((s.dirs (s.proc c).pgdir).pte v) PTE_P) s := by
  unfold timerTick
  refine wp_seq (get_wp ?_)
  rw [hr.cur]
  cases hp : (Build.policy : Policy) with
  | nfu => exact wp_seq (getProc_wp (nfuIncrementLoop_inv hp _ 0 s h hr (by omega)))
  | fifo => exact ⟨h, Paging.refl c s, SamePages.refl _, fun _ => rfl⟩

end

end Xv6
