import Mathlib.Data.List.Find
import Xv6.Proc.Sbrk

/-!
# A shrinking `sbrk`

`growproc(n)` with `n < 0` takes away exactly the pages at or above `PGROUNDUP(sz + n)`, or leaves
everything as it is. There is one exception: `sz + n = 0`. Then `deallocuvm` frees all pages and
returns the new size 0, which `growproc` takes for an error.
-/

namespace Xv6

open Lib

section

variable [Build]

/-! ## What is left in `VPA_Memory` -/

/-- `q` records the pages of `p` that satisfy `keep` and no others: in the same order under
`FIFO_SWAP`, with the same counters under `NFU_SWAP`. -/
def Keeps (p q : Proc) (keep : Nat → Bool) : Prop :=
  match Build.policy with
  | .fifo => resident q = (resident p).filter keep
  | .nfu => (nfuEntries q).Perm ((nfuEntries p).filter fun w => keep (entryAddr w))

variable {p q r : Proc} {keep keep' : Nat → Bool} {a : Nat}

theorem addr_mem_resident (hp : Build.policy = .nfu) {w : Word} (hw : w ∈ nfuEntries p) :
    entryAddr w ∈ resident p := by
  rw [resident_nfu hp, ← nfuEntries_addr]
  exact List.mem_map_of_mem hw

theorem Keeps.congr (h : Keeps p q keep) (hk : ∀ a ∈ resident p, keep a = keep' a) :
    Keeps p q keep' := by
  unfold Keeps at h ⊢
  cases hp : (Build.policy : Policy) with
  | fifo =>
    simp only [hp] at h ⊢
    rw [h]
    exact List.filter_congr hk
  | nfu =>
    simp only [hp] at h ⊢
    rwa [← List.filter_congr fun w hw => hk _ (addr_mem_resident hp hw)]

theorem Keeps.refl (p : Proc) : Keeps p p fun _ => true := by
  unfold Keeps
  cases hp : (Build.policy : Policy) with
  | fifo => exact (List.filter_true _).symm
  | nfu => exact .of_eq (List.filter_true _).symm

theorem Keeps.of_eq (hm : q.vpaMemory = p.vpaMemory) (hn : q.sizeMem = p.sizeMem)
    (hh : q.qHead = p.qHead) : Keeps p q fun _ => true := by
  have h := Keeps.refl p
  unfold Keeps nfuEntries at h ⊢
  rwa [resident_congr hm hn hh, hm, hn]

theorem Keeps.trans (h1 : Keeps p q keep) (h2 : Keeps q r keep') :
    Keeps p r fun a => keep a && keep' a := by
  unfold Keeps at h1 h2 ⊢
  cases hp : (Build.policy : Policy) with
  | fifo =>
    simp only [hp] at h1 h2 ⊢
    rw [h2, h1, List.filter_filter]
    exact List.filter_congr fun a _ => Bool.and_comm _ _
  | nfu =>
    simp only [hp] at h1 h2 ⊢
    refine h2.trans ((h1.filter _).trans ?_)
    rw [List.filter_filter, List.filter_congr fun a _ => Bool.and_comm _ _]

/-- `unlinkPage` takes one page out of `VPA_Memory` and keeps the rest. -/
theorem unlinkMemory_keeps (ht : TableOk p) (hn : (resident p).Nodup) (ha : a ∈ resident p)
    (h : unlinkMemory p a = .ok (some q)) : Keeps p q fun b => b != a := by
  unfold Keeps
  cases hp : (Build.policy : Policy) with
  | fifo =>
    obtain ⟨m, t, hun, -, hres⟩ := unlinkMemory_fifo hp ht ha
    obtain rfl := Option.some.inj (Except.ok.inj (h.symm.trans hun))
    exact hres.trans (hn.erase_eq_filter a)
  | nfu =>
    obtain ⟨m, w, hun, rfl, hperm⟩ := unlinkMemory_entries hp ht ha
    obtain rfl := Option.some.inj (Except.ok.inj (h.symm.trans hun))
    rw [resident_nfu hp, ← nfuEntries_addr, (hperm.map entryAddr).nodup_iff, List.map_cons,
      List.nodup_cons] at hn
    have hleft := hperm.filter fun x => entryAddr x != entryAddr w
    have hrest : (nfuEntries (p.withMem m (p.sizeMem - 1) p.qHead p.qTail)).filter
        (fun x => entryAddr x != entryAddr w) =
        nfuEntries (p.withMem m (p.sizeMem - 1) p.qHead p.qTail) := by
      refine List.filter_eq_self.2 fun x hx => bne_iff_ne.2 fun he => hn.1 ?_
      rw [← he]
      exact List.mem_map_of_mem hx
    rw [List.filter_cons_of_neg (by simp), hrest] at hleft
    exact hleft.symm

theorem Agree.unlink_keeps {pte : Nat → Word} {u : Nat} (h : Agree p pte fun _ => 0) (hu : u < NUSER)
    (hp : has (pte u) PTE_P = true) :
    ∃ q, unlinkTables p (u * PGSIZE) = .ok (0, q) ∧ SameButTables p q ∧ q.vpaSwap = p.vpaSwap ∧
      Agree q (Function.update pte u 0) (fun _ => 0) ∧ Keeps p q fun b => b != u * PGSIZE := by
  have hres := (h.resident_iff hu rfl).2 hp
  obtain ⟨a, n, b, t, hun, hag⟩ := h.unlink_present hu hp rfl
  refine ⟨_, hun, SameButTables.withMem p a n b t, rfl, hag, ?_⟩
  obtain ⟨m, k, x, y, hmem, -⟩ := unlinkMemory_some h.table hres
  refine unlinkMemory_keeps h.table h.nodup hres ?_
  unfold unlinkTables at hun
  rw [if_neg (by simp), hmem] at hun
  rw [hmem, (Prod.mk.inj (Except.ok.inj hun)).2]

/-- A page that is not present is not recorded. -/
theorem Agree.ne_of_absent {pte : Nat → Word} {u : Nat} (h : Agree p pte fun _ => 0) (hu : u < NUSER)
    (hp : has (pte u) PTE_P = false) (ha : a ∈ resident p) : a ≠ u * PGSIZE := by
  rintro rfl
  rw [(h.resident_iff hu rfl).1 ha] at hp
  cases hp

/-- A page that is not paged out has no slot. -/
theorem Agree.no_slot {pte : Nat → Word} {u i : Nat} (h : Agree p pte fun _ => 0) (hu : u < NUSER)
    (hg : has (pte u) PTE_PG = false) (hi : i < MAX_SWAP_PAGES)
    (ho : has (p.vpaSwap i) SWAP_P = true) : entryAddr (p.vpaSwap i) ≠ u * PGSIZE := by
  intro he
  have hpos := swapCount_pos hi ho he
  rw [h.inSwap u hu, hg] at hpos
  cases hpos

end

/-! ## What the loop of `deallocuvm` has taken away -/

/-- The address `a` lies on one of the pages `[lo, hi)`. -/
def within (lo hi a : Nat) : Bool := decide (lo * PGSIZE ≤ a ∧ a < hi * PGSIZE)

theorem within_page {lo hi u : Nat} : within lo hi (u * PGSIZE) = decide (lo ≤ u ∧ u < hi) := by
  unfold within
  simp only [PGSIZE]
  exact decide_eq_decide.2 ⟨fun h => by omega, fun h => by omega⟩

theorem within_self (lo a : Nat) : within lo lo a = false := decide_eq_false fun h => by omega

theorem within_succ {lo hi u : Nat} (h : u ≠ hi) :
    within lo (hi + 1) (u * PGSIZE) = within lo hi (u * PGSIZE) := by
  rw [within_page, within_page, decide_eq_decide]
  omega

/-- The frames of the present pages in `[lo, hi)`. -/
def framesBetween (D : PageDir) (lo hi : Nat) : List Nat :=
  ((List.range hi).filter fun u => decide (lo ≤ u) && has (D.pte u) PTE_P).map fun u => pageNo (D.pte u)

theorem framesBetween_succ {D : PageDir} {lo hi : Nat} (h : lo ≤ hi) :
    framesBetween D lo (hi + 1) = framesBetween D lo hi ++
      if has (D.pte hi) PTE_P then [pageNo (D.pte hi)] else [] := by
  unfold framesBetween
  rw [List.range_succ, List.filter_append, List.map_append]
  cases hp : has (D.pte hi) PTE_P <;> simp [h, hp]

theorem framesBetween_self (D : PageDir) (lo : Nat) : framesBetween D lo lo = [] := by
  unfold framesBetween
  rw [List.map_eq_nil_iff, List.filter_eq_nil_iff]
  intro u hu
  have := List.mem_range.1 hu
  simp [this]

section

variable [Build] {E : String → Prop} {s s' : Kernel} {c lo hi u m : Nat} {n : Int}

/-- Between `s` and `s'` the linked pages `[lo, hi)` of slot `c` were freed and unlinked. -/
structure Removed (c lo hi : Nat) (s s' : Kernel) : Prop where
  paging : Paging c s s'
  agree : Agree (s'.proc c) (s'.dirs (s.proc c).pgdir).pte fun _ => 0
  pde : (s'.dirs (s.proc c).pgdir).pde = (s.dirs (s.proc c).pgdir).pde
  pte : ∀ u, (s'.dirs (s.proc c).pgdir).pte u =
    if (lo ≤ u ∧ u < hi) ∧ (s.dirs (s.proc c).pgdir).view u ≠ none then 0
    else (s.dirs (s.proc c).pgdir).pte u
  memory : Keeps (s.proc c) (s'.proc c) fun a => !within lo hi a
  swap : ∀ i < MAX_SWAP_PAGES, (s'.proc c).vpaSwap i =
    if has ((s.proc c).vpaSwap i) SWAP_P && within lo hi (entryAddr ((s.proc c).vpaSwap i)) then 0
    else (s.proc c).vpaSwap i
  free : s'.freelist = (framesBetween (s.dirs (s.proc c).pgdir) lo hi).reverse ++ s.freelist
  bytes : ∀ u < NUSER, has ((s.dirs (s.proc c).pgdir).pte u) PTE_P = true → ¬ (lo ≤ u ∧ u < hi) →
    s'.mem (pageNo ((s.dirs (s.proc c).pgdir).pte u)) =
      s.mem (pageNo ((s.dirs (s.proc c).pgdir).pte u))
  files : s'.files = s.files

/-- The running process: its tables agree with its page table, nothing is linked beyond its size,
and each present page has a frame of its own that `kfree` accepts. -/
structure AddressSpace (s : Kernel) (c : Nat) : Prop where
  agree : Agree (s.proc c) (s.dirs (s.proc c).pgdir).pte fun _ => 0
  below : ∀ u < NUSER, (s.dirs (s.proc c).pgdir).view u ≠ none → u < pages (s.proc c).sz
  frame : ∀ u < NUSER, has ((s.dirs (s.proc c).pgdir).pte u) PTE_P = true →
    Managed (pageNo ((s.dirs (s.proc c).pgdir).pte u))
  inj : ∀ u < NUSER, ∀ v < NUSER, has ((s.dirs (s.proc c).pgdir).pte u) PTE_P = true →
    has ((s.dirs (s.proc c).pgdir).pte v) PTE_P = true →
    pageNo ((s.dirs (s.proc c).pgdir).pte u) = pageNo ((s.dirs (s.proc c).pgdir).pte v) → u = v
  size : (s.proc c).sz < KERNBASE
  kstack : (s.proc c).kstack ≠ 0
  pgdir : (s.proc c).pgdir ≠ 0

/-- The kernel invariant gives every running process such an address space. -/
theorem Inv.addressSpace {F : Nat → Nat → Nat → Byte} (h : Inv s Pend.none F) (hr : Running s c) :
    AddressSpace s c where
  agree := (h.self hr).agree
  below u hu hv := by
    by_contra hge
    exact hv (h.view_none hr rfl hu (Nat.le_of_not_lt hge))
  frame u hu hp := h.own.managed_pte hr.lt (h.counted hr.lt hr.active) hu hp
  inj u hu v hv hp hq he := h.own.pte_inj hr.lt (h.counted hr.lt hr.active) hu hv hp hq he.symm
  size := (h.self hr).size.2
  kstack := h.own.kstack_ne hr.lt (h.counted hr.lt hr.active)
  pgdir := h.own.pgdir_pos hr.lt (h.counted hr.lt hr.active)

namespace Removed

theorem refl (h : AddressSpace s c) (lo : Nat) : Removed c lo lo s s where
  paging := Paging.refl c s
  agree := h.agree
  pde := rfl
  pte u := (if_neg fun hc => by omega).symm
  memory := (Keeps.refl _).congr fun a _ => by rw [within_self]; rfl
  swap i _ := by rw [within_self, Bool.and_false, if_neg Bool.false_ne_true]
  free := by rw [framesBetween_self]; rfl
  bytes _ _ _ _ := rfl
  files := rfl

theorem hasTable (h : Removed c lo hi s s') (u : Nat) :
    (s'.dirs (s.proc c).pgdir).hasTable u = (s.dirs (s.proc c).pgdir).hasTable u := by
  unfold PageDir.hasTable
  rw [h.pde]

/-- From `hi` on nothing was touched. -/
theorem pte_above (h : Removed c lo hi s s') (hu : hi ≤ u) :
    (s'.dirs (s.proc c).pgdir).pte u = (s.dirs (s.proc c).pgdir).pte u := by
  rw [h.pte u, if_neg fun hc => by omega]

/-- A slot that does not hold page `hi` is not touched when the loop passes that page. -/
theorem swap_succ {j : Nat} (h : Removed c lo hi s s') (hj : j < MAX_SWAP_PAGES)
    (hne : has ((s.proc c).vpaSwap j) SWAP_P = true →
      entryAddr ((s.proc c).vpaSwap j) ≠ hi * PGSIZE) :
    (s'.proc c).vpaSwap j =
      if has ((s.proc c).vpaSwap j) SWAP_P &&
        within lo (hi + 1) (entryAddr ((s.proc c).vpaSwap j)) then 0
      else (s.proc c).vpaSwap j := by
  rw [h.swap j hj]
  cases ho : has ((s.proc c).vpaSwap j) SWAP_P with
  | false => rw [Bool.false_and, Bool.false_and]
  | true =>
    have hpage := hne ho
    rw [entryAddr_eq] at hpage ⊢
    rw [within_succ fun he => hpage (by rw [he])]

/-- A resident page other than `hi` stays when the loop passes page `hi`. -/
theorem within_resident (h0 : AddressSpace s c) {a : Nat} (ha : a ∈ resident (s.proc c))
    (hne : a ≠ hi * PGSIZE) : within lo (hi + 1) a = within lo hi a := by
  obtain ⟨v, -, rfl⟩ := exists_page (resident_mod ha) (h0.agree.memLt a ha)
  exact within_succ fun he => hne (by rw [he])

/-- A page that is not linked needs nothing. -/
theorem widen (h0 : AddressSpace s c) (h : Removed c lo hi s s') (hle : lo ≤ hi) (hhi : hi < NUSER)
    (hnone : (s.dirs (s.proc c).pgdir).view hi = none) : Removed c lo (hi + 1) s s' := by
  obtain ⟨hp, hg⟩ := entryView_eq_none.1 hnone
  refine ⟨h.paging, h.agree, h.pde, fun u => ?_, h.memory.congr fun a ha => ?_, fun i hi' => ?_, ?_,
    fun u hu hup hn => h.bytes u hu hup (by omega), h.files⟩
  · rw [h.pte u]
    by_cases he : u = hi
    · rw [he, hnone, if_neg fun hc => hc.2 rfl, if_neg fun hc => hc.2 rfl]
    · refine if_congr (and_congr_left' ?_) rfl rfl
      omega
  · rw [within_resident h0 ha (h0.agree.ne_of_absent hhi hp ha)]
  · exact h.swap_succ hi' (h0.agree.no_slot hhi hg hi')
  · rw [h.free, framesBetween_succ hle, hp]
    simp

/-- The page table after the entry of page `hi` was cleared. -/
theorem clear_pte (h : Removed c lo hi s s') (hle : lo ≤ hi)
    (ht : (s'.dirs (s.proc c).pgdir).hasTable hi = true)
    (hv : (s.dirs (s.proc c).pgdir).view hi ≠ none) (u : Nat) :
    ((s'.dirs (s.proc c).pgdir).setPage hi 0).pte u =
      if (lo ≤ u ∧ u < hi + 1) ∧ (s.dirs (s.proc c).pgdir).view u ≠ none then 0
      else (s.dirs (s.proc c).pgdir).pte u := by
  rw [PageDir.pte_setPage ht]
  by_cases he : u = hi
  · rw [he, Function.update_self, if_pos ⟨⟨hle, Nat.lt_succ_self hi⟩, hv⟩]
  · rw [Function.update_of_ne he, h.pte u]
    refine if_congr (and_congr_left' ?_) rfl rfl
    omega

/-- The page `hi` is present: it is unlinked and its frame freed. -/
theorem freePage (h0 : AddressSpace s c) (h : Removed c lo hi s s') (hle : lo ≤ hi) (hhi : hi < NUSER)
    (hp : has ((s.dirs (s.proc c).pgdir).pte hi) PTE_P = true) :
    ∃ q, unlinkTables (s'.proc c) (hi * PGSIZE) = .ok (0, q) ∧
      Removed c lo (hi + 1) s (freedPage s' c hi q) := by
  have hpg := h.paging.pgdir
  have hpte := h.pte_above (Nat.le_refl hi)
  have hp' : has ((s'.dirs (s.proc c).pgdir).pte hi) PTE_P = true := by rwa [hpte]
  have ht := PageDir.hasTable_of_has hp'
  have hview : (s.dirs (s.proc c).pgdir).view hi ≠ none := entryView_ne_none.2 (.inl hp)
  obtain ⟨q, hun, hsame, hsw, hag, hkeep⟩ := h.agree.unlink_keeps hhi hp'
  have hstep := Paging.setProc hsame
  have hproc : (freedPage s' c hi q).proc c = q := Function.update_self _ _ _
  have hdir : (freedPage s' c hi q).dirs (s.proc c).pgdir =
      (s'.dirs (s.proc c).pgdir).setPage hi 0 := by
    unfold freedPage
    rw [hpg]
    exact Function.update_self _ _ _
  refine ⟨q, hun, h.paging.trans ⟨rfl, rfl, rfl, rfl, hstep.other, hstep.self,
    fun e he => Function.update_of_ne he _ _⟩, ?_, ?_, fun u => ?_, ?_, fun i hi' => ?_, ?_,
    fun u hu hup hn => ?_, h.files⟩
  · rw [hproc, hdir, PageDir.pte_setPage ht]
    exact hag
  · rw [hdir]
    exact h.pde
  · rw [hdir]
    exact h.clear_pte hle ht hview u
  · rw [hproc]
    refine (h.memory.trans hkeep).congr fun a ha => ?_
    by_cases he : a = hi * PGSIZE
    · rw [he, bne_self_eq_false, Bool.and_false, within_page,
        decide_eq_true ⟨hle, Nat.lt_succ_self hi⟩]
      rfl
    · rw [within_resident h0 ha he, bne_iff_ne.2 he, Bool.and_true]
  · rw [hproc, hsw]
    exact h.swap_succ hi' (h0.agree.no_slot hhi (h0.agree.excl hi hhi hp) hi')
  · rw [framesBetween_succ hle, hp, if_pos rfl, List.reverse_append]
    unfold freedPage
    rw [hpg, hpte]
    exact congrArg _ h.free
  · have hne : pageNo ((s.dirs (s.proc c).pgdir).pte u) ≠ pageNo ((s'.dirs (s'.proc c).pgdir).pte hi) := by
      rw [hpg, hpte]
      intro he
      have := h0.inj u hu hi hhi hup hp he
      omega
    refine (Function.update_of_ne hne _ _).trans (h.bytes u hu hup ?_)
    omega

/-- The page `hi` is paged out: its slot is given up. -/
theorem dropPage (h0 : AddressSpace s c) (h : Removed c lo hi s s') (hle : lo ≤ hi) (hhi : hi < NUSER)
    (hg : has ((s.dirs (s.proc c).pgdir).pte hi) PTE_PG = true) :
    ∃ q, unlinkTables (s'.proc c) (hi * PGSIZE) = .ok (0, q) ∧
      Removed c lo (hi + 1) s (droppedPage s' c hi q) := by
  have hpg := h.paging.pgdir
  have hg' : has ((s'.dirs (s.proc c).pgdir).pte hi) PTE_PG = true := by
    rwa [h.pte_above (Nat.le_refl hi)]
  have hp := h0.agree.absent_of_paged hhi hg
  have ht := PageDir.hasTable_of_has hg'
  have hview : (s.dirs (s.proc c).pgdir).view hi ≠ none := entryView_ne_none.2 (.inr hg)
  obtain ⟨i, hslot, hun, hag⟩ := h.agree.unlink_paged hhi hg'
  have hsame : SameButTables (s'.proc c) ((s'.proc c).clearSlot i) := ⟨_, _, _, _, _, rfl⟩
  have hstep := Paging.setProc hsame
  have hproc : (droppedPage s' c hi ((s'.proc c).clearSlot i)).proc c = (s'.proc c).clearSlot i :=
    Function.update_self _ _ _
  have hdir : (droppedPage s' c hi ((s'.proc c).clearSlot i)).dirs (s.proc c).pgdir =
      (s'.dirs (s.proc c).pgdir).setPage hi 0 := by
    unfold droppedPage
    rw [hpg]
    exact Function.update_self _ _ _
  -- the slot that is found held the page from the start
  obtain ⟨hi', ho', he'⟩ := swapSlot_some hslot
  have hold : (s'.proc c).vpaSwap i = (s.proc c).vpaSwap i := by
    have hsw := h.swap i hi'
    by_cases hc : (has ((s.proc c).vpaSwap i) SWAP_P &&
        within lo hi (entryAddr ((s.proc c).vpaSwap i))) = true
    · rw [if_pos hc] at hsw
      rw [hsw, has_zero] at ho'
      cases ho'
    · rwa [if_neg hc] at hsw
  rw [hold] at ho' he'
  refine ⟨_, hun, h.paging.trans ⟨rfl, rfl, rfl, rfl, hstep.other, hstep.self,
    fun e he => Function.update_of_ne he _ _⟩, ?_, ?_, fun u => ?_, ?_, fun j hj => ?_, ?_,
    fun u hu hup hn => h.bytes u hu hup (by omega), h.files⟩
  · rw [hproc, hdir, PageDir.pte_setPage ht]
    exact hag
  · rw [hdir]
    exact h.pde
  · rw [hdir]
    exact h.clear_pte hle ht hview u
  · rw [hproc]
    have hkeep : Keeps (s'.proc c) ((s'.proc c).clearSlot i) fun _ => true := .of_eq rfl rfl rfl
    refine (h.memory.trans hkeep).congr fun a ha => ?_
    rw [within_resident h0 ha (h0.agree.ne_of_absent hhi hp ha), Bool.and_true]
  · rw [hproc]
    change Function.update (s'.proc c).vpaSwap i 0 j = _
    by_cases hij : j = i
    · rw [hij, Function.update_self, ho', he', within_page,
        decide_eq_true ⟨hle, Nat.lt_succ_self hi⟩]
      rfl
    · rw [Function.update_of_ne hij]
      exact h.swap_succ hj fun ho he => hij (h0.agree.slot_unique hj hi' ho ho' (he.trans he'.symm))
  · rw [framesBetween_succ hle, hp, if_neg Bool.false_ne_true, List.append_nil]
    exact h.free

end Removed

/-- One page of the loop of `deallocuvm`. -/
theorem deallocPage_removed {b : Nat} (hb : b ≠ KERNBASE) (h0 : AddressSpace s c) (hr : Running s c)
    (h : Removed c lo hi s s') (hle : lo ≤ hi) (hhi : hi < NUSER)
    (ht : (s'.dirs (s.proc c).pgdir).hasTable hi = true) :
    wp (deallocPage b (hi * PGSIZE) (pteAt (s.proc c).pgdir hi)) E
      (fun _ => Removed c lo (hi + 1) s) s' := by
  have hpg := h.paging.pgdir
  have hpte := h.pte_above (Nat.le_refl hi)
  unfold deallocPage
  refine wp_seq (loadPte_wp ht (wp_seq (get_wp ?_)))
  rw [(h.paging.running hr).cur, hpte]
  by_cases hg : has ((s.dirs (s.proc c).pgdir).pte hi) PTE_PG = true
  · obtain ⟨q, hun, hrem⟩ := h.dropPage h0 hle hhi hg
    rw [if_pos hg, if_pos hb]
    refine wp_seq (storePte_wp (wp_seq (unlinkPage_wp hun (assertPanic_wp rfl ?_))))
    unfold droppedPage at hrem
    rwa [hpg] at hrem
  · rw [if_neg hg]
    by_cases hp : has ((s.dirs (s.proc c).pgdir).pte hi) PTE_P = true
    · obtain ⟨q, hun, hrem⟩ := h.freePage h0 hle hhi hp
      have hman := h0.frame hi hhi hp
      rw [if_pos hp, if_neg hman.pos, if_pos hb]
      refine wp_seq (unlinkPage_wp hun (wp_seq (assertPanic_wp rfl (wp_seq (kfree_wp hman
        (storePte_wp ?_))))))
      unfold freedPage at hrem
      rwa [hpg, hpte] at hrem
    · rw [if_neg hp]
      exact h.widen h0 hle hhi (entryView_none (by simpa using hp) (by simpa using hg))

theorem deallocuvm_removed (h0 : AddressSpace s c) (hr : Running s c) (hlt : m < (s.proc c).sz) :
    wp (deallocuvm (s.proc c).pgdir (s.proc c).sz m) E (fun r s' => r = m ∧
      Removed c (pages m) (pages (s.proc c).sz) s s') s := by
  have hb := h0.size
  have hmono : pages m ≤ pages (s.proc c).sz := pages_mono hlt.le
  have hfuel : pages (s.proc c).sz ≤ pages m + ((s.proc c).sz / PGSIZE + 1) := by
    unfold pages
    simp only [PGSIZE]
    omega
  unfold deallocuvm
  rw [if_neg (Nat.not_le.2 hlt), pgroundup_eq (by omega)]
  refine wp_seq (wp_post (deallocLoop_wp (I := fun v s' => pages m ≤ v ∧ Removed c (pages m) v s s')
    hb.le ?_ ?_ _ (pages m) s hmono ⟨Nat.le_refl _, .refl h0 _⟩ hfuel) fun _ s' hI => ⟨rfl, hI.2⟩)
  · rintro v s' hv ⟨hmv, hrem⟩ ht
    -- no page of a missing table is linked
    have hskip : ∀ w, v ≤ w → w ≤ min ((v / 1024 + 1) * 1024) (pages (s.proc c).sz) →
        Removed c (pages m) w s s' := by
      intro w hvw
      induction w, hvw using Nat.le_induction with
      | base => exact fun _ => hrem
      | succ w hvw ih =>
        intro hw
        refine (ih (by omega)).widen h0 (by omega) ?_ ?_
        · have := pages_le hb.le
          omega
        · rw [hrem.hasTable] at ht
          refine PageDir.view_of_missing ?_
          rw [PageDir.hasTable, show w / 1024 = v / 1024 by omega]
          exact ht
    exact ⟨by omega, hskip _ (by omega) (Nat.le_refl _)⟩
  · rintro v s' hv ⟨hmv, hrem⟩ ht
    have hvn : v < NUSER := lt_of_lt_of_le hv (pages_le hb.le)
    refine wp_post (deallocPage_removed hb.ne h0 hr hrem hmv hvn ht) fun _ s'' h' => ⟨by omega, h'⟩

/-- With no linked page there is nothing to do. -/
theorem deallocuvm_nothing {d b : Nat} (hb : b < KERNBASE)
    (hnone : ∀ u < NUSER, (s.dirs d).view u = none) :
    wp (deallocuvm d b m) E (fun r s' => r = min m b ∧ s' = s) s := by
  unfold deallocuvm
  by_cases hle : b ≤ m
  · rw [if_pos hle]
    exact ⟨by omega, rfl⟩
  · have hfuel : pages b ≤ pages m + (b / PGSIZE + 1) := by
      unfold pages
      simp only [PGSIZE]
      omega
    rw [if_neg hle, pgroundup_eq (by omega)]
    refine wp_seq (wp_post (deallocLoop_wp (I := fun _ s' => s' = s) hb.le (fun _ _ _ hI _ => hI) ?_ _
      (pages m) s (pages_mono (by omega)) rfl hfuel) fun _ s' hI => ⟨by omega, hI⟩)
    rintro v s' hv rfl ht
    obtain ⟨hp, hg⟩ := entryView_eq_none.1 (hnone v (lt_of_lt_of_le hv (pages_le hb.le)))
    unfold deallocPage
    refine wp_seq (loadPte_wp ht (wp_seq (get_wp ?_)))
    rw [if_neg (by simp [hg]), if_neg (by simp [hp])]
    rfl

/-! ## `growproc` -/

/-- The pages of slot `c` at or above its new size were freed and unlinked, and nothing else of the
process has changed but its size. -/
structure Shrunk (c : Nat) (n : Int) (s s' : Kernel) : Prop where
  size : ((s'.proc c).sz : Int) = (s.proc c).sz + n
  others : Local c s s'
  gone : ∀ u < NUSER, pgroundup (s'.proc c).sz ≤ u * PGSIZE →
    (s'.dirs (s.proc c).pgdir).view u = none
  kept : ∀ u, u * PGSIZE < pgroundup (s'.proc c).sz →
    (s'.dirs (s.proc c).pgdir).pte u = (s.dirs (s.proc c).pgdir).pte u
  memory : Keeps (s.proc c) (s'.proc c) fun a => decide (a < pgroundup (s'.proc c).sz)
  swap : ∀ i < MAX_SWAP_PAGES, (s'.proc c).vpaSwap i =
    if has ((s.proc c).vpaSwap i) SWAP_P = true ∧
      pgroundup (s'.proc c).sz ≤ entryAddr ((s.proc c).vpaSwap i) then 0
    else (s.proc c).vpaSwap i
  free : s'.freelist = (framesBetween (s.dirs (s.proc c).pgdir) (pages (s'.proc c).sz)
    (pages (s.proc c).sz)).reverse ++ s.freelist
  bytes : ∀ u, u * PGSIZE < pgroundup (s'.proc c).sz → ∀ o, pageByte s' c u o = pageByte s c u o

/-- Size, page table and tables of slot `c` are as they were. -/
def Untouched (c : Nat) (s s' : Kernel) : Prop :=
  s'.proc c = s.proc c ∧ s'.dirs (s.proc c).pgdir = s.dirs (s.proc c).pgdir

/-- The state after `curproc->sz = m; switchuvm(curproc)`. -/
def Kernel.switched (s : Kernel) (c m : Nat) : Kernel :=
  { s.resized c m with cr3 := (s.proc c).pgdir }

omit [Build] in
theorem switched_wp {Q : Int → Kernel → Prop} (hk : (s.proc c).kstack ≠ 0)
    (hd : (s.proc c).pgdir ≠ 0) (hQ : Q 0 (s.switched c m)) :
    wp (do
      let q ← getProc c
      setProc c { q with sz := m }
      switchuvm c
      pure 0) E Q s := by
  refine wp_seq (getProc_wp (wp_seq (setProc_wp (wp_seq ?_))))
  unfold switchuvm
  refine wp_seq (getProc_wp ?_)
  have hself : (s.setProc c { s.proc c with sz := m }).proc c = { s.proc c with sz := m } :=
    Function.update_self _ _ _
  rw [hself, if_neg hk, if_neg hd]
  exact hQ

theorem Removed.shrunk (h0 : AddressSpace s c) (hr : Running s c) (hm : (m : Int) = (s.proc c).sz + n)
    (hlt : m < (s.proc c).sz) (h : Removed c (pages m) (pages (s.proc c).sz) s s') :
    Shrunk c n s (s'.switched c m) := by
  have hproc : (s'.switched c m).proc c = { s'.proc c with sz := m } := Function.update_self _ _ _
  have hb := h0.size
  have hup : pgroundup m = pages m * PGSIZE := pgroundup_eq (by omega)
  have hin : ∀ u, u * PGSIZE < pgroundup m ↔ u < pages m := fun u => by
    rw [hup]
    exact Nat.mul_lt_mul_right (by decide)
  have hge : ∀ u, pgroundup m ≤ u * PGSIZE ↔ pages m ≤ u := fun u => by
    rw [← Nat.not_lt, hin, Nat.not_lt]
  have hcr3 : (s'.switched c m).cr3 = s.cr3 := by
    change (s'.proc c).pgdir = _
    rw [h.paging.pgdir, hr.cr3]
  have hkept : ∀ u < pages m, ((s'.switched c m).dirs (s.proc c).pgdir).pte u =
      (s.dirs (s.proc c).pgdir).pte u := fun u hu => by
    change (s'.dirs _).pte u = _
    rw [h.pte u, if_neg fun hc => by omega]
  have hswap : ∀ i < MAX_SWAP_PAGES, ((s'.switched c m).proc c).vpaSwap i =
      if has ((s.proc c).vpaSwap i) SWAP_P = true ∧
        pgroundup m ≤ entryAddr ((s.proc c).vpaSwap i) then 0
      else (s.proc c).vpaSwap i := by
    intro i hi
    rw [hproc, h.swap i hi]
    cases ho : has ((s.proc c).vpaSwap i) SWAP_P with
    | false => rw [Bool.false_and, if_neg Bool.false_ne_true, if_neg fun hc => by cases hc.1]
    | true =>
      obtain ⟨v, hv, he, hvg⟩ := h0.agree.paged_of_slot hi ho
      have hbelow := h0.below v hv (entryView_ne_none.2 (.inr hvg))
      rw [he, within_page, Bool.true_and]
      refine if_congr ?_ rfl rfl
      rw [decide_eq_true_iff, hge]
      exact ⟨fun hc => ⟨rfl, hc.1⟩, fun hc => ⟨hc.2, hbelow⟩⟩
  refine ⟨?_, ⟨h.paging.cur, hcr3, h.paging.initproc, h.paging.nextpid, fun p hp => ?_,
    ⟨_, m, h.paging.self, hproc⟩, h.paging.dirs⟩, fun u hu hle => ?_, fun u hu => ?_, ?_, ?_, ?_,
    fun u hu o => ?_⟩
  · rw [hproc]
    exact hm
  · exact (Function.update_of_ne hp _ _).trans (h.paging.other p hp)
  · rw [hproc, hge] at hle
    by_contra hv
    have hpte := h.pte u
    by_cases hv0 : (s.dirs (s.proc c).pgdir).view u = none
    · rw [if_neg fun hc => hc.2 hv0] at hpte
      exact hv ((congrArg entryView hpte).trans hv0)
    · rw [if_pos ⟨⟨hle, h0.below u hu hv0⟩, hv0⟩] at hpte
      exact hv ((congrArg entryView hpte).trans entryView_zero)
  · rw [hproc] at hu
    exact hkept u ((hin u).1 hu)
  · rw [hproc]
    have hmem := h.memory.trans (r := { s'.proc c with sz := m }) (.of_eq rfl rfl rfl)
    refine hmem.congr fun a ha => ?_
    obtain ⟨v, hv, rfl⟩ := exists_page (resident_mod ha) (h0.agree.memLt a ha)
    have hbelow := h0.below v hv (entryView_ne_none.2 (.inl ((h0.agree.resident_iff hv rfl).1 ha)))
    rw [within_page, Bool.and_true, ← decide_not, decide_eq_decide, hin]
    omega
  · rw [hproc] at hswap ⊢
    exact hswap
  · rw [hproc]
    exact h.free
  · rw [hproc] at hu
    have hu' := (hin u).1 hu
    have hun : u < NUSER := lt_of_lt_of_le hu' (pages_le (by omega))
    have hpg : ((s'.switched c m).proc c).pgdir = (s.proc c).pgdir := by
      rw [hproc]
      exact h.paging.pgdir
    have hpid : ((s'.switched c m).proc c).pid = (s.proc c).pid := by
      rw [hproc]
      exact (h.paging.fields c).2.2.2.2.1
    have hslot : swapSlot ((s'.switched c m).proc c) (u * PGSIZE) =
        swapSlot (s.proc c) (u * PGSIZE) := by
      unfold swapSlot
      refine List.find?_congr fun i hi => ?_
      rw [hswap i (List.mem_range.1 hi)]
      split
      · next hc =>
        rw [has_zero, Bool.false_and, hc.1, Bool.true_and]
        refine (beq_eq_false_iff_ne.2 fun he => ?_).symm
        rw [he, hge] at hc
        exact absurd hc.2 (Nat.not_le.2 hu')
      · rfl
    unfold pageByte
    rw [hpg, hkept u hu', hslot, hpid, show (s'.switched c m).files = s.files from h.files]
    split
    · next hp =>
      have hmem := h.bytes u hun hp (by omega)
      exact congrArg (fun pg => some (pg o)) hmem
    · rfl

/-- For every `n < 0`, `growproc(n)` returns 0 after taking away exactly the pages at or above
`PGROUNDUP(sz + n)`, or leaves the process as it was, unless `sz + n = 0` and a page is linked. -/
theorem growproc_shrink_faithful (h0 : AddressSpace s c) (hr : Running s c) (n : Word)
    (hn : n.toInt < 0) :
    ∃ r s', growproc n.toInt s = .ok (r, s') ∧
      (r = 0 ∧ Shrunk c n.toInt s s' ∨ Untouched c s s' ↔
        (s.proc c).sz + n.toInt ≠ 0 ∨
          ∀ u < NUSER, (s.dirs (s.proc c).pgdir).view u = none) := by
  have hlo : -2 ^ 31 ≤ n.toInt := by
    have := BitVec.le_two_mul_toInt (x := n)
    omega
  have hsz := h0.size
  simp only [KERNBASE] at hsz
  refine exists_of_wp ?_
  unfold growproc
  refine wp_seq (get_wp ?_)
  rw [hr.cur, if_neg (by omega), if_pos hn]
  by_cases hneg : (s.proc c).sz + n.toInt < 0
  · -- the sum wraps around, and `deallocuvm` returns the old size
    unfold deallocuvm
    rw [if_pos (by omega)]
    refine wp_seq ?_
    rw [wp_pure]
    have hright : (s.proc c).sz + n.toInt ≠ 0 := by omega
    by_cases hz : (s.proc c).sz = 0
    · rw [if_pos hz]
      exact ⟨fun _ => .inl hright, fun _ => .inr ⟨rfl, rfl⟩⟩
    · rw [if_neg hz]
      refine switched_wp h0.kstack h0.pgdir ⟨fun _ => .inl hright, fun _ => .inr ⟨?_, rfl⟩⟩
      exact Function.update_self _ _ _
  · obtain ⟨m, hm⟩ : ∃ m : Nat, (m : Int) = (s.proc c).sz + n.toInt :=
      ⟨((s.proc c).sz + n.toInt).toNat, Int.toNat_of_nonneg (by omega)⟩
    have hmod : (((s.proc c).sz + n.toInt : Int) % 2 ^ 32).toNat = m := by omega
    rw [hmod, ← hm]
    by_cases hpos : m = 0
    · by_cases hnone : ∀ u < NUSER, (s.dirs (s.proc c).pgdir).view u = none
      · refine wp_seq (wp_post (deallocuvm_nothing h0.size hnone) ?_)
        rintro r s' ⟨rfl, rfl⟩
        rw [if_pos (by omega)]
        exact ⟨fun _ => .inr hnone, fun _ => .inr ⟨rfl, rfl⟩⟩
      · refine wp_seq (wp_post (deallocuvm_removed h0 hr (by omega)) ?_)
        rintro r s' ⟨rfl, hrem⟩
        rw [if_pos hpos]
        refine ⟨?_, fun hc => absurd hc ?_⟩
        · rintro (⟨hret, -⟩ | ⟨-, hdirs⟩)
          · cases hret
          · -- a page that was linked has lost its entry
            push Not at hnone
            obtain ⟨u, hu, hv⟩ := hnone
            have hpte := hrem.pte u
            rw [hpos, if_pos ⟨⟨Nat.zero_le u, h0.below u hu hv⟩, hv⟩, hdirs] at hpte
            exact absurd ((congrArg entryView hpte).trans entryView_zero) hv
        · rw [hpos]
          exact not_or.2 ⟨fun hc => hc rfl, hnone⟩
    · refine wp_seq (wp_post (deallocuvm_removed h0 hr (by omega)) ?_)
      rintro r s' ⟨rfl, hrem⟩
      have hfields := hrem.paging.fields c
      rw [if_neg hpos]
      refine switched_wp (hfields.2.2.1 ▸ h0.kstack) (hfields.2.1 ▸ h0.pgdir) ?_
      exact ⟨fun _ => .inl (by omega), fun _ => .inl ⟨rfl, hrem.shrunk h0 hr hm (by omega)⟩⟩

end

theorem small_addressSpace (policy : Policy) :
    @AddressSpace (smallBuild policy) (smallKernel policy) 0 := by
  let _ := smallBuild policy
  exact (small_start policy).inv.addressSpace ⟨rfl, by decide, by cases policy <;> decide,
    by cases policy <;> decide⟩

/-- The process of the small machine gives back its page and keeps page 0. -/
theorem growproc_shrink_faithful_page :
    let _ := smallBuild .fifo
    ∃ r s', growproc (0xfffff000#32).toInt (smallKernel .fifo) = .ok (r, s') ∧
      (r = 0 ∧ Shrunk 0 (0xfffff000#32).toInt (smallKernel .fifo) s' ∨
        Untouched 0 (smallKernel .fifo) s') := by
  let _ := smallBuild .fifo
  obtain ⟨r, s', hrun, hiff⟩ := growproc_shrink_faithful (small_addressSpace .fifo)
    ⟨rfl, by decide, by decide, by decide⟩ 0xfffff000#32 (by decide)
  exact ⟨r, s', hrun, hiff.2 (.inl (by decide))⟩

/-- The process of the small machine gives back its whole size. Its page is gone and the call has
returned `-1`, with the old size in place. -/
theorem growproc_emptied_fails :
    let _ := smallBuild .fifo
    AddressSpace (smallKernel .fifo) 0 ∧ Running (smallKernel .fifo) 0 ∧
    ∃ s', growproc (0xffffe000#32).toInt (smallKernel .fifo) = .ok (-1, s') ∧
      (s'.proc 0).sz = ((smallKernel .fifo).proc 0).sz ∧
      ((smallKernel .fifo).dirs ((smallKernel .fifo).proc 0).pgdir).view 1 ≠ none ∧
      (s'.dirs (s'.proc 0).pgdir).view 1 = none ∧ resident (s'.proc 0) = [] := by
  let _ := smallBuild .fifo
  refine ⟨small_addressSpace .fifo, ⟨rfl, by decide, by decide, by decide⟩, ?_⟩
  have hok : returns (growproc (0xffffe000#32).toInt (smallKernel .fifo))
      (fun r s' => decide (r = -1 ∧ (s'.proc 0).sz = ((smallKernel .fifo).proc 0).sz ∧
        ((smallKernel .fifo).dirs ((smallKernel .fifo).proc 0).pgdir).view 1 ≠ none ∧
        (s'.dirs (s'.proc 0).pgdir).view 1 = none ∧ resident (s'.proc 0) = [])) = true := by decide +kernel
  obtain ⟨r, s', hrun, htest⟩ := of_returns hok
  obtain ⟨rfl, hrest⟩ := of_decide_eq_true htest
  exact ⟨s', hrun, hrest⟩

end Xv6
