import Xv6.Vm.Setup
import Xv6.Swap.Link

/-!
# `copyuvm`

The copy has the parent's pages with the parent's flags: a present page has a frame of its own
with the same bytes, a paged-out page has the flags alone.
-/

namespace Xv6

open Lib

/-- `D'` copies the pages `[1, v)` of `D`, whose contents are `G`, and has no other page. -/
structure Mirror (v : Nat) (D D' : PageDir) (mem : Nat → Nat → Byte) (G : Nat → Nat → Byte) :
    Prop where
  flags : ∀ u < NUSER, 1 ≤ u → u < v → ∀ k < 12,
    has (D'.pte u) (BitVec.twoPow 32 k) = has (D.pte u) (BitVec.twoPow 32 k)
  rest : ∀ u < NUSER, ¬ (1 ≤ u ∧ u < v) → D'.pte u = 0
  bytes : ∀ u < NUSER, has (D'.pte u) PTE_P = true → ∀ o < PGSIZE, mem (pageNo (D'.pte u)) o = G u o

namespace Mirror

variable {v : Nat} {D D' : PageDir} {mem mem' : Nat → Nat → Byte} {G : Nat → Nat → Byte} {w : Word}

theorem empty (h : ∀ u < NUSER, D'.pte u = 0) : Mirror 1 D D' mem G :=
  ⟨fun _ _ h1 h2 => by omega, fun u hu _ => h u hu, fun u hu hp => by
    rw [h u hu, has_zero] at hp; cases hp⟩

theorem exclusive (h : Mirror v D D' mem G) (hD : Exclusive D) : Exclusive D' := fun u hu hg => by
  by_cases hr : 1 ≤ u ∧ u < v
  · have hf := h.flags u hu hr.1 hr.2
    rw [hf 9 (by decide)] at hg
    rw [hf 0 (by decide)]
    exact hD u hu hg
  · rw [h.rest u hu hr, has_zero]

/-- The next page is copied. -/
theorem setPage (h : Mirror v D D' mem G) (h1 : 1 ≤ v) (ht : D'.hasTable v = true)
    (hw : ∀ k < 12, has w (BitVec.twoPow 32 k) = has (D.pte v) (BitVec.twoPow 32 k))
    (hmem : has w PTE_P = true → ∀ o < PGSIZE, mem (pageNo w) o = G v o) :
    Mirror (v + 1) D (D'.setPage v w) mem G := by
  refine ⟨fun u hu hlo hlt => ?_, fun u hu hn => ?_, fun u hu hp => ?_⟩
  · rw [D'.pte_setPage ht]
    by_cases e : u = v
    · rw [e, Function.update_self]; exact hw
    · rw [Function.update_of_ne e]; exact h.flags u hu hlo (by omega)
  · rw [D'.pte_setPage ht, Function.update_of_ne (by omega)]
    exact h.rest u hu (by omega)
  · rw [D'.pte_setPage ht] at hp ⊢
    by_cases e : u = v
    · rw [e, Function.update_self] at hp ⊢; exact hmem hp
    · rw [Function.update_of_ne e] at hp ⊢; exact h.bytes u hu hp

theorem samePages (h : Mirror v D D' mem G)
    (hout : ∀ u < NUSER, ¬ (1 ≤ u ∧ u < v) → D.view u = none) : SamePages D D' := fun u hu => by
  by_cases hr : 1 ≤ u ∧ u < v
  · have hf := h.flags u hu hr.1 hr.2
    exact entryView_congr (hf 0 (by decide)) (hf 9 (by decide)) (hf 2 (by decide)) (hf 1 (by decide))
  · rw [PageDir.view, h.rest u hu hr, entryView_zero, hout u hu hr]

theorem of_mem (h : Mirror v D D' mem G)
    (hm : ∀ u < NUSER, has (D'.pte u) PTE_P = true →
      mem' (pageNo (D'.pte u)) = mem (pageNo (D'.pte u))) : Mirror v D D' mem' G :=
  ⟨h.flags, h.rest, fun u hu hp => by rw [hm u hu hp]; exact h.bytes u hu hp⟩

theorem of_pte {D'' : PageDir} (h : Mirror v D D' mem G) (hp : D''.pte = D'.pte) :
    Mirror v D D'' mem G :=
  ⟨by rw [hp]; exact h.flags, by rw [hp]; exact h.rest, by rw [hp]; exact h.bytes⟩

end Mirror

/-- The flags a copied page gets. -/
theorem copied_flags {w : Word} (hp : has w PTE_P = true) (f : Nat) {k : Nat} (hk : k < 12) :
    has (pageWord f ||| pteFlags w ||| PTE_P) (BitVec.twoPow 32 k) =
      has w (BitVec.twoPow 32 k) := by
  rw [has_or _ _ (by omega), has_or _ _ (by omega), has_pageWord f hk, has_pteFlags w hk,
    has_bit (by decide) (by omega), Bool.false_or]
  by_cases e : 0 = k
  · subst e; rw [hp]; rfl
  · rw [decide_eq_false e, Bool.or_false]

section

variable [Build] {E : String → Prop} {s s1 : Kernel} {P : Pend} {F : Nat → Nat → Nat → Byte}
  {c d u f v : Nat}

/-- How far the copy of slot `c`'s memory is. -/
structure Copying (c d v : Nat) (P : Pend) (F : Nat → Nat → Nat → Byte) (s0 s : Kernel) : Prop where
  inv : Inv s (P.withDir d) F
  beside : Beside d s0 s
  dir : DirOk (s.dirs d)
  mirror : Mirror v (s0.dirs (s0.proc c).pgdir) (s.dirs d) s.mem (F c)

/-- A frame of a spare directory is not held. -/
theorem Own.spare_held (h : Own s ((P.withDir d).hold f)) (hu : u < NUSER)
    (hp : has ((s.dirs d).pte u) PTE_P = true) : pageNo ((s.dirs d).pte u) ≠ f := by
  rintro rfl
  have h1 := h.le_one (pageNo ((s.dirs d).pte u))
  have h2 := dirCount_pte d hu hp
  rw [owned_hold, owned_withDir, ind_true rfl] at h1
  omega

/-- A frame of a spare directory is not free. -/
theorem Own.spare_free (h : Own s (P.withDir d)) (hu : u < NUSER)
    (hp : has ((s.dirs d).pte u) PTE_P = true) : pageNo ((s.dirs d).pte u) ∉ s.freelist := by
  intro hmem
  have h1 := h.le_one (pageNo ((s.dirs d).pte u))
  have h2 := dirCount_pte d hu hp
  have h3 := List.count_pos_iff.mpr hmem
  rw [owned_withDir] at h1
  unfold owned at h1
  omega

namespace Copying

variable {s0 : Kernel} {l : List Nat} {w : Word}

/-- The parent's directory as it was. -/
theorem parent (h : Copying c d v P F s0 s) (hr : Running s0 c) :
    s.dirs (s0.proc c).pgdir = s0.dirs (s0.proc c).pgdir ∧ (s0.proc c).pgdir ≠ d := by
  have hr' := h.beside.running hr
  have hne := h.inv.own.spare_ne hr'.lt (h.inv.counted hr'.lt hr'.active)
  rw [h.beside.proc] at hne
  exact ⟨h.beside.dirs _ hne, hne⟩

theorem aside (h : Copying c d v P F s0 s) (hb : Beside d s0 s1) : Aside P s0 s1 := by
  refine ⟨d, hb, fun p hp hc => ?_⟩
  have hne := h.inv.own.spare_ne (p := p) hp (by
    unfold counted at hc ⊢
    rw [h.beside.proc]; exact hc)
  rwa [h.beside.proc] at hne

theorem self (h : Copying c d v P F s0 s) (hr : Running s0 c) :
    ProcOk (s0.proc c) (s0.dirs (s0.proc c).pgdir) s.mem (s.files (s0.proc c).pid) (F c) P.mapped
      P.top := by
  have := h.inv.self (h.beside.running hr)
  rw [h.beside.proc, (h.parent hr).1] at this
  exact this

theorem exclusive (h : Copying c d v P F s0 s) (hr : Running s0 c) : Exclusive (s.dirs d) :=
  h.mirror.exclusive fun _ hu hg => (h.self hr).agree.absent_of_paged hu hg

theorem take (h : Copying c d v P F s0 s) (hf : s.freelist = f :: l) :
    Copying c d v (P.hold f) F s0 (s.taken l) :=
  ⟨h.inv.take hf, h.beside.trans ⟨rfl, rfl, rfl, rfl, rfl, rfl, fun _ _ => rfl⟩, h.dir, h.mirror⟩

theorem fill (h : Copying c d v (P.hold f) F s0 s) (pg : Nat → Byte) :
    Copying c d v (P.hold f) F s0 (s.setMem f pg) :=
  ⟨h.inv.fill (P.held_hold_self f) pg,
    h.beside.trans ⟨rfl, rfl, rfl, rfl, rfl, rfl, fun _ _ => rfl⟩, h.dir,
    h.mirror.of_mem fun _ hu hp => Function.update_of_ne (Own.spare_held (P := P) h.inv.own hu hp) _ _⟩

theorem walked (h : Copying c d v P F s0 s) (hu : u < NUSER) (hw : Walked s d u s1) :
    Copying c d v P F s0 s1 := by
  have hlt : u < 2 ^ 20 := by rw [NUSER_eq] at hu; omega
  obtain ⟨h1, hb⟩ := h.inv.walkedSpare hlt hw
  refine ⟨h1, h.beside.trans hb, ?_, ?_⟩
  · cases hw with
    | found ht => exact h.dir
    | made ht hf =>
      simp only [Kernel.setDir, Function.update_self]
      exact h.dir.addTable hu ht _
  · rw [hw.frame.2.2.2.1]
    exact h.mirror.of_pte hw.pte

theorem setPage {Q : Pend} (h : Copying c d v P F s0 s)
    (hown : Own (s.setDir d ((s.dirs d).setPage v w)) (Q.withDir d)) (h1 : Q.skip = P.skip)
    (h2 : Q.mapped = P.mapped) (h3 : Q.top = P.top) (hlo : 1 ≤ v) (hv : v < NUSER)
    (ht : (s.dirs d).hasTable v = true)
    (hw : ∀ k < 12, has w (BitVec.twoPow 32 k) =
      has ((s0.dirs (s0.proc c).pgdir).pte v) (BitVec.twoPow 32 k))
    (hmem : has w PTE_P = true → ∀ o < PGSIZE, s.mem (pageNo w) o = F c v o) :
    Copying c d (v + 1) Q F s0 (s.setDir d ((s.dirs d).setPage v w)) := by
  refine ⟨h.inv.setSpare hown h1 h2 h3, h.beside.trans
    ⟨rfl, rfl, rfl, rfl, rfl, rfl, fun e he => Function.update_of_ne he _ _⟩, ?_, ?_⟩
  all_goals simp only [Kernel.setDir, Function.update_self]
  · exact h.dir.setPage hv ht w
  · exact h.mirror.setPage hlo ht hw hmem

end Copying

/-! ## The frames a copy takes -/

/-- The page tables of the user pages `[1, pages sz)`. -/
def userTables (sz : Nat) : Finset Nat := (Finset.Ico 1 (pages sz)).image (· / 1024)

/-- The frames `copyuvm` takes for the process in slot `c`. -/
def copyFrames (s : Kernel) (c : Nat) : Nat :=
  65 + (userTables (s.proc c).sz).card + presentPages (s.dirs (s.proc c).pgdir)

/-- The page tables of a process and of the kernel. -/
def allTables (sz : Nat) : Finset Nat := kernelTables ∪ userTables sz

omit [Build] in
theorem card_allTables {sz : Nat} (h : sz < KERNBASE) :
    (allTables sz).card = 64 + (userTables sz).card := by
  have hdis : Disjoint kernelTables (userTables sz) := by
    rw [Finset.disjoint_left]
    intro i h1 h2
    obtain ⟨u, hu, rfl⟩ := Finset.mem_image.1 h2
    have hlt := lt_of_lt_of_le (Finset.mem_Ico.1 hu).2 (pages_le h.le)
    rw [kernelTables, Finset.mem_union, Finset.mem_Ico, Finset.mem_Ico] at h1
    rw [NUSER_eq] at hlt
    omega
  rw [allTables, Finset.card_union_of_disjoint hdis, card_kernelTables]

/-- The page tables of a copy in the making: the kernel's, and others among `S`. -/
structure Tabled (S : Finset Nat) (D : PageDir) : Prop where
  within : TablesIn S D
  kernel : ∀ i ∈ kernelTables, has (D.pde i) PTE_P = true

omit [Build] in
theorem Tabled.walked {S : Finset Nat} (h : Tabled S (s.dirs d)) (hu : u / 1024 ∈ S)
    (hw : Walked s d u s1) : Tabled S (s1.dirs d) := by
  refine ⟨h.within.walked hu hw, fun i hi => ?_⟩
  have hk : (s.dirs d).hasTable (i * 1024) = true := by
    rw [PageDir.hasTable, Nat.mul_div_cancel _ (by decide)]
    exact h.kernel i hi
  have := hw.keeps hk
  rwa [PageDir.hasTable, Nat.mul_div_cancel _ (by decide)] at this

omit [Build] in
theorem Tabled.setPage {S : Finset Nat} {D : PageDir} (h : Tabled S D) (u : Nat) (w : Word) :
    Tabled S (D.setPage u w) := ⟨h.within, h.kernel⟩

/-- Not enough frames are left to finish the copy in directory `d`. -/
def CopyLacks (S : Finset Nat) (c d : Nat) (s0 s : Kernel) : Prop :=
  s.freelist.length + tablePages (s.dirs d) + presentPages (s.dirs d) <
    S.card + presentPages (s0.dirs (s0.proc c).pgdir)

theorem Copying.lacks {s0 : Kernel} {S : Finset Nat} (h : Copying c d v P F s0 s) (hv : v < NUSER)
    (hS : TablesIn S (s.dirs d)) (hvS : v / 1024 ∈ S)
    (hlen : s.freelist.length < (has ((s0.dirs (s0.proc c).pgdir).pte v) PTE_P).toNat +
      (!(s.dirs d).hasTable v).toNat) : CopyLacks S c d s0 s := by
  have htab := hS.missing_le hvS
  have hpres : presentPages (s.dirs d) +
      (has ((s0.dirs (s0.proc c).pgdir).pte v) PTE_P).toNat ≤
      presentPages (s0.dirs (s0.proc c).pgdir) := by
    have hle : ∀ u < NUSER, (has ((s.dirs d).pte u) PTE_P).toNat ≤
        (has ((s0.dirs (s0.proc c).pgdir).pte u) PTE_P).toNat := fun u hu => by
      by_cases hr : 1 ≤ u ∧ u < v
      · rw [show has ((s.dirs d).pte u) PTE_P = _ from h.mirror.flags u hu hr.1 hr.2 0 (by decide)]
      · rw [h.mirror.rest u hu hr, has_zero]
        exact Nat.zero_le _
    have hzero : (has ((s.dirs d).pte v) PTE_P).toNat = 0 := by
      rw [h.mirror.rest v hv (by omega), has_zero, Bool.toNat_false]
    unfold presentPages
    exact sum_add_term_le (g := fun u => (has ((s.dirs d).pte u) PTE_P).toNat)
      (q := fun u => (has ((s0.dirs (s0.proc c).pgdir).pte u) PTE_P).toNat) hv hle hzero
  unfold CopyLacks
  omega

/-- One page of `copyuvm`. -/
theorem copyPage_inv {s0 : Kernel} {S : Finset Nat} (h : Copying c d v P F s0 s)
    (hr : Running s0 c) (hlo : 1 ≤ v) (hv : v < NUSER) (hS : Tabled S (s.dirs d))
    (hvS : v / 1024 ∈ S)
    (hnone : (s0.dirs (s0.proc c).pgdir).view v = none →
      E "copyuvm: pte should exist" ∧ E "copyuvm: page not present")
    (hE : CopyLacks S c d s0 s → E "newPte != 0") :
    wp (copyPage (s0.proc c).pgdir d (v * PGSIZE)) E (fun ok s' =>
      if ok then Copying c d (v + 1) P F s0 s' ∧ Tabled S (s'.dirs d) ∧
        (s0.dirs (s0.proc c).pgdir).view v ≠ none
      else Inv s' P F ∧ Beside d s0 s' ∧ CopyLacks S c d s0 s) s := by
  have hdiv : v * PGSIZE / PGSIZE = v := by simp
  have hself := h.self hr
  obtain ⟨hpar, hne⟩ := h.parent hr
  have hzero : (s.dirs d).pte v = 0 := h.mirror.rest v hv (by omega)
  unfold copyPage
  cases ht : (s0.dirs (s0.proc c).pgdir).hasTable v with
  | false =>
    refine wp_seq (walkpgdir_missing (page_lt_word hv) (by rwa [hdiv, hpar]) ?_)
    exact (hnone (PageDir.view_of_missing ht)).1
  | true =>
    refine wp_seq (walkpgdir_found (page_lt_word hv) (by rwa [hdiv, hpar]) ?_)
    rw [hdiv]
    refine wp_seq (loadPte_wp (by rwa [hpar]) ?_)
    rw [hpar]
    cases hg : has ((s0.dirs (s0.proc c).pgdir).pte v) PTE_PG with
    | true =>
      have hp := hself.agree.absent_of_paged hv hg
      rw [if_pos rfl]
      refine wp_seq (walkpgdir_create (page_lt_word hv) (fun hmiss hnil => hE ?_) fun s1 hw => ?_)
      · rw [hdiv] at hmiss
        refine h.lacks hv hS.within hvS ?_
        rw [hnil, hmiss, hp]
        decide
      rw [hdiv] at hw ⊢
      have h1 := h.walked hv hw
      have hfl : ∀ k < 12, has (pteFlags ((s0.dirs (s0.proc c).pgdir).pte v)) (BitVec.twoPow 32 k) =
          has ((s0.dirs (s0.proc c).pgdir).pte v) (BitVec.twoPow 32 k) := fun k hk =>
        has_pteFlags _ hk
      refine wp_seq (storePte_wp (wp_seq (get_wp (wp_seq (assertPanic_wp ?_
        (wp_seq (assertPanic_wp ?_ ?_)))))))
      · rw [show (Kernel.setDir s1 d _).cr3 = s1.cr3 from rfl, h1.beside.cr3, hr.cr3]
        exact hne.symm
      · rw [show (Kernel.setDir s1 d _).cr3 = s1.cr3 from rfl, h1.beside.cr3, hr.cr3]
      · refine ⟨h1.setPage (Q := P) (h1.inv.own.keepPage (holders_withDir s1 P d) hw.hasTable hv
          fun g => ?_) rfl rfl rfl hlo hv hw.hasTable hfl fun hc => ?_, ?_,
          entryView_ne_none.2 (.inr hg)⟩
        · rw [hw.pte, hzero, mapsTo_zero, mapsTo_of_absent g]
          exact (hfl 0 (by decide)).trans hp
        · rw [show has _ PTE_P = _ from hfl 0 (by decide), hp] at hc
          cases hc
        · simp only [Kernel.setDir, Function.update_self]
          exact (hS.walked hvS hw).setPage _ _
    | false =>
      rw [if_neg (by decide)]
      cases hp : has ((s0.dirs (s0.proc c).pgdir).pte v) PTE_P with
      | false =>
        rw [if_neg (by decide)]
        exact (hnone (entryView_none hp hg)).2
      | true =>
        rw [if_pos rfl]
        refine wp_seq (kalloc_wp (fun hnil => ?_) fun f l hfl => ?_)
        · -- no frame for the copy
          refine wp_seq (wp_post (freevm_inv (s := s.taken []) (h.inv.takeNone hnil)
            (h.exclusive hr)) ?_)
          rintro _ s' ⟨h', hb⟩
          refine ⟨h', h.beside.trans
            ⟨hb.proc, hb.cur, hb.cr3, hb.initproc, hb.nextpid, hb.files, hb.dirs⟩, ?_⟩
          refine h.lacks hv hS.within hvS ?_
          rw [hnil, hp, List.length_nil, Bool.toNat_true]
          omega
        · have h1 := (h.take hfl).fill (s.mem (pageNo ((s0.dirs (s0.proc c).pgdir).pte v)))
          have hman : Managed f := Own.managed_held (P := P.withDir d) h1.inv.own
          refine wp_seq (modify_wp (wp_seq (mappages_page hv ?_ (fun hmiss hnil => ?_)
            fun s1 hw => ?_)))
          · exact (congrArg (has · PTE_P) hzero).trans (has_zero _)
          · -- no page table for the copy
            rw [if_pos (by decide)]
            refine wp_seq (kfree_wp hman (wp_seq (wp_post (freevm_inv (P := P) (F := F)
              (Inv.give (P := P.withDir d) (h1.inv.takeNone hnil)) (h1.exclusive hr)) ?_)))
            rintro _ s' ⟨h', hb⟩
            refine ⟨h', h1.beside.trans
              ⟨hb.proc, hb.cur, hb.cr3, hb.initproc, hb.nextpid, hb.files, hb.dirs⟩, ?_⟩
            refine h.lacks hv hS.within hvS ?_
            have hmiss' : (s.dirs d).hasTable v = false := hmiss
            have hl : l = [] := hnil
            rw [hfl, hl, hp, hmiss', List.length_singleton]
            decide
          · rw [if_neg (by decide)]
            have h2 := h1.walked hv hw
            have hno : pageNo (pageWord f ||| pteFlags ((s0.dirs (s0.proc c).pgdir).pte v) |||
                PTE_P) = f := by
              rw [pageNo_or_flag _ (by decide), pageNo_or_flag _ (pageNo_pteFlags _),
                pageNo_pageWord hman.lt]
            have hcf := fun k hk => copied_flags hp f (k := k) hk
            refine ⟨h2.setPage (Q := P) (Own.mapPage (P := P.withDir d) h2.inv.own
              (holders_withDir s1 P d) hw.hasTable hv ?_ ((hcf 0 (by decide)).trans hp) hno)
              rfl rfl rfl hlo hv hw.hasTable hcf fun _ o ho => ?_, ?_,
              entryView_ne_none.2 (.inl hp)⟩
            · rw [hw.pte]
              exact (congrArg (has · PTE_P) hzero).trans (has_zero _)
            · rw [hno, hw.frame.2.2.2.1]
              simp only [Kernel.setMem, Function.update_self]
              obtain ⟨g, -, hst⟩ := hself.stored
              exact hst.frames v hv hp o ho
            · simp only [Kernel.setDir, Function.update_self]
              exact (Tabled.walked (s := (s.taken l).setMem f _) hS hvS hw).setPage _ _

/-- The loop of `copyuvm`. `N` is what the free list and the directory have together. -/
theorem copyLoop_inv {s0 : Kernel} {S : Finset Nat} {N : Nat} (hr : Running s0 c)
    (hE : N < S.card + presentPages (s0.dirs (s0.proc c).pgdir) → E "newPte != 0") (n : Nat) :
    ∀ (v : Nat) (s : Kernel), Copying c d v P F s0 s → 1 ≤ v → v + n ≤ NUSER →
      Tabled S (s.dirs d) →
      s.freelist.length + tablePages (s.dirs d) + presentPages (s.dirs d) = N →
      (∀ u, v ≤ u → u < v + n → u / 1024 ∈ S) →
      (∀ u, v ≤ u → u < v + n → (s0.dirs (s0.proc c).pgdir).view u = none →
        E "copyuvm: pte should exist" ∧ E "copyuvm: page not present") →
      wp (copyLoop (s0.proc c).pgdir d n (v * PGSIZE)) E (fun r s' => match r with
        | none => Inv s' P F ∧ Beside d s0 s' ∧
          N < S.card + presentPages (s0.dirs (s0.proc c).pgdir)
        | some e => e = d ∧ Copying c d (v + n) P F s0 s' ∧ Tabled S (s'.dirs d) ∧
          (∀ u, v ≤ u → u < v + n → (s0.dirs (s0.proc c).pgdir).view u ≠ none) ∧
          s'.freelist.length + tablePages (s'.dirs d) + presentPages (s'.dirs d) = N) s := by
  induction n with
  | zero =>
    intro v s h _ _ hS hN _ _
    exact ⟨rfl, h, hS, fun u h1 h2 => by omega, hN⟩
  | succ n ih =>
    intro v s h hlo hle hS hN hin hnone
    rw [copyLoop]
    refine wp_seq (wp_post (copyPage_inv h hr hlo (by omega) hS (hin v le_rfl (by omega))
      (hnone v le_rfl (by omega)) fun hl => hE (hN ▸ hl)) ?_)
    rintro (_ | _) s1 h1
    · exact ⟨h1.1, h1.2.1, hN ▸ h1.2.2⟩
    · obtain ⟨h1, hS1, hv1⟩ := h1
      have hb : Beside d s s1 :=
        ⟨h1.beside.proc.trans h.beside.proc.symm, h1.beside.cur.trans h.beside.cur.symm,
          h1.beside.cr3.trans h.beside.cr3.symm, h1.beside.initproc.trans h.beside.initproc.symm,
          h1.beside.nextpid.trans h.beside.nextpid.symm, h1.beside.files.trans h.beside.files.symm,
          fun e he => (h1.beside.dirs e he).trans (h.beside.dirs e he).symm⟩
      rw [show v * PGSIZE + PGSIZE = (v + 1) * PGSIZE from (Nat.succ_mul _ _).symm,
        show v + (n + 1) = v + 1 + n by omega]
      refine wp_post (ih (v + 1) s1 h1 (by omega) (by omega) hS1
        ((h.inv.own.spare_balance h1.inv.own hb).trans hN)
        (fun u h1 h2 => hin u (by omega) (by omega))
        fun u h1 h2 => hnone u (by omega) (by omega)) ?_
      rintro (_ | e) s2 h2
      · exact h2
      · obtain ⟨he, h2, hS2, hv2, hN2⟩ := h2
        refine ⟨he, h2, hS2, fun u hu1 hu2 => ?_, hN2⟩
        by_cases e : u = v
        · rwa [e]
        · exact hv2 u (by omega) hu2

omit [Build] in
/-- The pages of a finished copy. -/
theorem Mirror.presentPages {D D' : PageDir} {mem : Nat → Nat → Byte} {G : Nat → Nat → Byte}
    (h : Mirror v D D' mem G) (hout : ∀ u < NUSER, ¬ (1 ≤ u ∧ u < v) → D.view u = none) :
    presentPages D' = presentPages D := by
  unfold Xv6.presentPages
  refine sum_range_congr fun u hu => ?_
  by_cases hr : 1 ≤ u ∧ u < v
  · rw [show has (D'.pte u) PTE_P = _ from h.flags u hu hr.1 hr.2 0 (by decide)]
  · rw [h.rest u hu hr, has_zero, (entryView_eq_none.1 (hout u hu hr)).1]

/-- What `copyuvm` returns for the running process: nothing for want of frames, or a copy. -/
theorem copyuvm_inv (h : Inv s P F) (hr : Running s c) (htop : P.top = 0)
    (hE : s.freelist.length < copyFrames s c → E "newPte != 0")
    (hnone : ∀ u, 1 ≤ u → u < pages (s.proc c).sz → (s.dirs (s.proc c).pgdir).view u = none →
      E "copyuvm: pte should exist" ∧ E "copyuvm: page not present") :
    wp (copyuvm (s.proc c).pgdir (s.proc c).sz) E (fun r s' => match r with
      | none => Inv s' P F ∧ Aside P s s' ∧ s.freelist.length < copyFrames s c
      | some d => Copying c d (pages (s.proc c).sz) P F s s' ∧
        s'.freelist.length + copyFrames s c = s.freelist.length) s := by
  have hsz := (h.self hr).size
  have hone : 1 ≤ pages (s.proc c).sz := lt_pages.2 (by omega)
  have hcount : ((s.proc c).sz - PGSIZE + PGSIZE - 1) / PGSIZE = pages (s.proc c).sz - 1 := by
    unfold pages
    simp only [PGSIZE]
    omega
  have hcard := card_allTables hsz.2
  unfold copyuvm
  refine wp_seq (wp_post (setupkvm_inv h) ?_)
  rintro (_ | d) s1 h1
  · obtain ⟨h1, ha, hlen⟩ := h1
    refine ⟨h1, ha, ?_⟩
    unfold copyFrames
    omega
  · obtain ⟨h1, hb, hdir, hempty, honly, hlen⟩ := h1
    have hcopy : Copying c d 1 P F s s1 := ⟨h1, hb, hdir, Mirror.empty hempty⟩
    have hkern : tablePages (s1.dirs d) = 64 := by
      rw [← card_kernelTables]
      exact TablesIn.card_eq (fun i hi hp => (honly i hi).1 hp) fun i hi =>
        ⟨(covered_of_kernelTables hi).1, (honly i (covered_of_kernelTables hi).1).2 hi⟩
    have hzero : presentPages (s1.dirs d) = 0 := presentPages_zero fun u hu => by
      rw [hempty u hu, has_zero]
    have hin : ∀ u, 1 ≤ u → u < 1 + (pages (s.proc c).sz - 1) → u / 1024 ∈ allTables (s.proc c).sz :=
      fun u h1 h2 => Finset.mem_union_right _
        (Finset.mem_image.2 ⟨u, Finset.mem_Ico.2 ⟨h1, by omega⟩, rfl⟩)
    have hloop := copyLoop_inv (E := E) (S := allTables (s.proc c).sz)
      (N := s1.freelist.length + tablePages (s1.dirs d) + presentPages (s1.dirs d)) hr
      (fun hl => hE (by unfold copyFrames; omega)) (pages (s.proc c).sz - 1) 1 s1 hcopy le_rfl
      (by have := pages_le hsz.2.le; omega)
      ⟨fun i hi hp => Finset.mem_union_left _ ((honly i hi).1 hp),
        fun i hi => (honly i (covered_of_kernelTables hi).1).2 hi⟩ rfl hin
      fun u h1 h2 => hnone u h1 (by omega)
    rw [Nat.one_mul] at hloop
    dsimp only
    rw [hcount]
    refine wp_post hloop ?_
    rintro (_ | e) s2 h2
    · refine ⟨h2.1, hcopy.aside h2.2.1, ?_⟩
      have := h2.2.2
      unfold copyFrames
      omega
    · obtain ⟨rfl, h2, hS2, hfull, hN2⟩ := h2
      rw [show 1 + (pages (s.proc c).sz - 1) = pages (s.proc c).sz by omega] at h2 hfull
      refine ⟨h2, ?_⟩
      have hself := h2.self hr
      have hall : tablePages (s2.dirs e) = (allTables (s.proc c).sz).card := by
        refine hS2.within.card_eq fun i hi => ?_
        obtain hi | hi := Finset.mem_union.1 hi
        · exact ⟨(covered_of_kernelTables hi).1, hS2.kernel i hi⟩
        · -- a page of this table exists in the parent, hence in the copy
          obtain ⟨u, hu, rfl⟩ := Finset.mem_image.1 hi
          obtain ⟨hlo, hhi⟩ := Finset.mem_Ico.1 hu
          have hlt := lt_of_lt_of_le hhi (pages_le hsz.2.le)
          have hflag := h2.mirror.flags u hlt hlo hhi
          have ht : (s2.dirs e).hasTable u = true := by
            obtain hp | hg := entryView_ne_none.1 (hfull u hlo hhi)
            · exact PageDir.hasTable_of_has ((hflag 0 (by decide)).trans hp)
            · exact PageDir.hasTable_of_has ((hflag 9 (by decide)).trans hg)
          refine ⟨?_, ht⟩
          rw [NUSER_eq] at hlt
          simp only [NPDENTRIES]
          omega
      have hpres : presentPages (s2.dirs e) = presentPages (s.dirs (s.proc c).pgdir) := by
        refine h2.mirror.presentPages fun u hu hn => ?_
        by_contra hv
        have := hself.below u hu (entryView_ne_none.1 hv)
        rw [htop, Nat.max_zero, ← lt_pages] at this
        exact hn this
      unfold copyFrames
      omega

end

end Xv6
