import Xv6.Vm.Dealloc
import Xv6.Vm.Need

/-!
# `allocuvm` on the running process

A new page is allocated, cleared, mapped and linked. When one of the three fails, what was
done for the page is undone and `deallocuvm` takes away the pages before it.
-/

namespace Xv6

open Lib

/-- The entry of a new user page. -/
def userEntry (f : Nat) : Word := pageWord f ||| (PTE_W ||| PTE_U) ||| PTE_P

theorem userEntry_flags (f : Nat) :
    has (userEntry f) PTE_P = true ∧ has (userEntry f) PTE_PG = false ∧
      has (userEntry f) PTE_U = true ∧ has (userEntry f) PTE_W = true := by
  simp [userEntry, has_or, has_bit, has_pageWord]

theorem pageNo_userEntry {f : Nat} (h : f < 2 ^ 20) : pageNo (userEntry f) = f := by
  rw [userEntry, pageNo_or_flag _ (by decide), pageNo_or, pageNo_pageWord h,
    show pageNo (PTE_W ||| PTE_U) = 0 by decide, Nat.or_zero]

theorem entryView_userEntry (f : Nat) : entryView (userEntry f) = some ⟨true, true⟩ := by
  obtain ⟨hp, -, hu, hw⟩ := userEntry_flags f
  rw [entryView_present hp, hu, hw]

/-- The state after the entry of a new page was stored. -/
def newPage (s : Kernel) (d u f : Nat) : Kernel :=
  s.setDir d ((s.dirs d).setPage u (userEntry f))

/-- `curproc->sz = m`. -/
def Kernel.resized (s : Kernel) (c m : Nat) : Kernel := s.setProc c { s.proc c with sz := m }

/-- A page that got its frame and its entry and was linked is placed. -/
theorem Placed.of_linked {s s1 s2 s' : Kernel} {c u f : Nat} {l : List Nat} (hfl : s.freelist = f :: l)
    (hw : Walked ((s.taken l).setMem f fun _ => 0) (s.proc c).pgdir u s1)
    (hs2 : s2 = Xv6.newPage s1 (s.proc c).pgdir u f)
    (hroom : linkedPages (s2.proc c) < MAX_TOTAL_PAGES) (hl : Linked c s2 s') :
    Placed c u s s' := by
  subst hs2
  obtain ⟨hfree, htab⟩ := hw.counts
  have hproc : (Xv6.newPage s1 (s.proc c).pgdir u f).proc = s.proc := hw.frame.1
  have hpde : ((Xv6.newPage s1 (s.proc c).pgdir u f).dirs (s.proc c).pgdir).pde =
      (s1.dirs (s.proc c).pgdir).pde := by
    simp only [Xv6.newPage, Kernel.setDir, Function.update_self, PageDir.pde_setPage]
  obtain ⟨h1, h2, h3, h4⟩ := hl
  rw [hproc] at h1 h2 h3 h4 hroom
  rw [show (Xv6.newPage s1 (s.proc c).pgdir u f).freelist = s1.freelist from rfl] at h3
  simp only [Kernel.taken, Kernel.setMem] at hfree htab
  have hlen : s.freelist.length = l.length + 1 := by rw [hfl]; rfl
  refine ⟨?_, h1, h2, by omega, fun v => ?_⟩
  · rintro (hb | hb) <;> omega
  · rw [← htab v]
    unfold PageDir.hasTable
    rw [h4, hpde]

section

variable [Build] {E : String → Prop} {s s1 : Kernel} {P : Pend} {F : Nat → Nat → Nat → Byte}
  {c u f n b : Nat}

/-- A new page table for the running process. -/
theorem Inv.walked (h : Inv s P F) (hr : Running s c) (hu : u < NUSER)
    (hw : Walked s (s.proc c).pgdir u s1) : Inv s1 P F := by
  cases hw with
  | found ht => exact h
  | made ht hf => exact (h.take hf).addTable ⟨hr.cur, hr.lt, hr.active, hr.cr3⟩ hu ht

/-- A cleared frame becomes the new page `u`, mapped but not linked. -/
theorem Inv.newPage {l : List Nat} (h : Inv s P F) (hr : Running s c) (hu : u < NUSER)
    (hfl : s.freelist = f :: l)
    (hw : Walked ((s.taken l).setMem f fun _ => 0) (s.proc c).pgdir u s1)
    (hv : (s.dirs (s.proc c).pgdir).view u = none)
    (hlo : 1 ≤ u) (hhi : u * PGSIZE < max (s.proc c).sz P.top) (hF : ∀ o < PGSIZE, F c u o = 0) :
    Inv (Xv6.newPage s1 (s.proc c).pgdir u f) (P.withMapped u) F ∧
      Paging c s (Xv6.newPage s1 (s.proc c).pgdir u f) ∧
      ((Xv6.newPage s1 (s.proc c).pgdir u f).dirs (s.proc c).pgdir).pte =
        Function.update (s.dirs (s.proc c).pgdir).pte u (userEntry f) := by
  have h1 : Inv ((s.taken l).setMem f fun _ => 0) (P.hold f) F :=
    (h.take hfl).fill (P.held_hold_self f) _
  obtain ⟨hp, hg⟩ := entryView_eq_none.1 hv
  obtain ⟨hproc, hcur, hcr3, hmem, -, -, hinit, hpid, hdirs⟩ := hw.frame
  have hpag : Paging c s s1 := .of_proc hproc hcur hcr3 hinit hpid hdirs
  have hpte : (s1.dirs (s.proc c).pgdir).pte = (s.dirs (s.proc c).pgdir).pte := hw.pte
  obtain ⟨hwp, hwg, -⟩ := userEntry_flags f
  have h2 := (h1.walked (c := c) ⟨hr.cur, hr.lt, hr.active, hr.cr3⟩ hu hw).mapPage
    (w := userEntry f) (hpag.running hr) hu
  rw [hpag.pgdir, (hpag.fields c).1, hpte, hmem] at h2
  refine ⟨h2 hw.hasTable hp hg hwp hwg (pageNo_userEntry h1.own.managed_held.lt) hlo hhi
    fun o ho => ?_, hpag.trans (.of_proc rfl rfl rfl rfl rfl ?_), ?_⟩
  · rw [hF o ho]
    simp only [Kernel.setMem, Function.update_self]
  · rw [hpag.pgdir]
    exact fun e he => Function.update_of_ne he _ _
  · simp only [Xv6.newPage, Kernel.setDir, Function.update_self]
    rw [PageDir.pte_setPage hw.hasTable, hpte]

/-- `deallocuvm` called on the way out of `allocuvm`. -/
theorem rollback_wp {Q : Nat → Kernel → Prop} (hb : b < KERNBASE) (hm : ∀ u, P.mapped u = 0)
    (h : Inv s1 P F) (hr : Running s c) (hp : Paging c s s1)
    (hsame : SamePages (s.dirs (s.proc c).pgdir) (s1.dirs (s.proc c).pgdir))
    (hQ : ∀ r s', Inv s' P F → Paging c s s' → Filled none (pages n) (pages b)
      (s.dirs (s.proc c).pgdir) (s'.dirs (s.proc c).pgdir) → Q r s') :
    wp (deallocuvm (s.proc c).pgdir b n) E Q s1 := by
  rw [← hp.pgdir]
  refine wp_post (deallocuvm_inv hb hm h (hp.running hr)) fun r s' hs' => ?_
  obtain ⟨-, hinv, hpag, hfill⟩ := hs'
  rw [hp.pgdir] at hfill
  exact hQ r s' hinv (hp.trans hpag) (hfill.of_same hsame)

/-- One page of `allocuvm`: it is placed, or something is lacking and all pages from `n` on are
gone. -/
theorem allocPage_exact (hb : b < KERNBASE) (hm : ∀ u, P.mapped u = 0)
    (htop : P.top = b) (h : Inv s P F) (hr : Running s c) (hlo : 1 ≤ u) (hu : u < pages b)
    (hv : (s.dirs (s.proc c).pgdir).view u = none)
    (hF : ∀ o < PGSIZE, F c u o = 0) :
    wp (allocPage (s.proc c).pgdir n b (u * PGSIZE)) E (fun ok s' => Inv s' P F ∧ Paging c s s' ∧
      if ok then Filled (some ⟨true, true⟩) u (u + 1) (s.dirs (s.proc c).pgdir)
        (s'.dirs (s.proc c).pgdir) ∧ Placed c u s s'
      else Filled none (pages n) (pages b) (s.dirs (s.proc c).pgdir)
        (s'.dirs (s.proc c).pgdir) ∧ Blocked c u s) s := by
  have hun : u < NUSER := lt_of_lt_of_le hu (pages_le hb.le)
  have hdiv : u * PGSIZE / PGSIZE = u := by simp
  unfold allocPage
  refine wp_seq (kalloc_wp (fun hnil => ?_) fun f l hfl => ?_)
  · -- no frame
    refine wp_seq (cprintf_wp (wp_seq (rollback_wp hb hm ((h.takeNone hnil).print (by decide)) hr
      (.of_proc rfl rfl rfl rfl rfl fun _ _ => rfl) (SamePages.refl _) fun r s' h' hp' hfill => ?_)))
    refine ⟨h', hp', hfill, .inl ?_⟩
    rw [hnil, List.length_nil]
    omega
  · -- a cleared frame, held
    have h1 : Inv ((s.taken l).setMem f fun _ => 0) (P.hold f) F :=
      (h.take hfl).fill (P.held_hold_self f) _
    refine wp_seq (modify_wp (wp_seq (mappages_page hun (entryView_eq_none.1 hv).1 (fun ht hnil => ?_) fun s1 hw => ?_)))
    · -- no page table
      rw [if_pos (by decide)]
      refine wp_seq (cprintf_wp (wp_seq (rollback_wp (s := s) (c := c) (P := P.hold f) (F := F) hb hm
        ((h1.takeNone hnil).print (by decide)) hr
        (.of_proc rfl rfl rfl rfl rfl fun _ _ => rfl) (SamePages.refl _) fun r s' h' hp' hfill => ?_)))
      refine wp_seq (kfree_wp h'.own.managed_held ⟨h'.give,
        hp'.trans (.of_proc rfl rfl rfl rfl rfl fun _ _ => rfl), hfill, .inl ?_⟩)
      have ht' : (s.dirs (s.proc c).pgdir).hasTable u = false := ht
      have hl : l = [] := hnil
      rw [ht', hfl, hl, List.length_singleton]
      decide
    · -- the page is mapped, not linked
      obtain ⟨h2, hp2, hpte⟩ := h.newPage hr hun hfl hw hv hlo
        (by rw [htop]; have := lt_pages.1 hu; omega) hF
      rw [if_neg (by decide)]
      change wp _ E _ (Xv6.newPage s1 (s.proc c).pgdir u f)
      generalize hs2 : Xv6.newPage s1 (s.proc c).pgdir u f = s2 at h2 hp2 hpte ⊢
      have hproc : s2.proc = s.proc := by rw [← hs2]; exact hw.frame.1
      refine wp_seq (get_wp ?_)
      rw [hp2.cur, hr.cur]
      have hv2 : ∀ v, (s2.dirs (s.proc c).pgdir).view v =
          Function.update (s.dirs (s.proc c).pgdir).view u (some ⟨true, true⟩) v := fun v => by
        rw [PageDir.view, hpte]
        by_cases e : v = u
        · rw [e, Function.update_self, Function.update_self, entryView_userEntry]
        · rw [Function.update_of_ne e, Function.update_of_ne e, PageDir.view]
      refine wp_seq (linkNewPage_exact (s := s2) h2 (hp2.running hr) hun
        (fun s' h' hp' hsame _ hroom hl => ?_) fun hfull => ?_)
      · rw [if_neg (by decide)]
        refine ⟨h', hp2.trans hp', ?_, .of_linked hfl hw hs2.symm hroom hl⟩
        rw [hp2.pgdir] at hsame
        exact Filled.same (fun v _ => by rw [hv2, Function.update_apply]; grind) hsame
      · rw [if_pos (by decide)]
        -- the page could not be linked: its frame goes back
        set s3 := (s2.printed fullMsg).printed (errorStr "deallocuvm: linkNewPage failed\n")
        have hp3 : Paging c s s3 := hp2.trans (.of_proc rfl rfl rfl rfl rfl fun _ _ => rfl)
        have hu3 : (s3.dirs (s.proc c).pgdir).pte u = userEntry f := by
          rw [show s3.dirs = s2.dirs from rfl, hpte, Function.update_self]
        have ht3 : (s3.dirs (s.proc c).pgdir).hasTable u = true :=
          PageDir.hasTable_of_has (by rw [hu3]; exact (userEntry_flags f).1)
        have h4 := ((h2.print (t := fullMsg) (by decide)).print
          (t := errorStr "deallocuvm: linkNewPage failed\n") (by decide)).unmapPage
          (hp3.running hr) hun
        rw [show (s2.printed fullMsg).printed _ = s3 from rfl, hp3.pgdir, hu3,
          pageNo_userEntry h1.own.managed_held.lt] at h4
        refine wp_seq (cprintf_wp (wp_seq (walkpgdir_found (page_lt_word hun) ?_ ?_)))
        · rwa [hdiv]
        rw [hdiv]
        refine wp_seq (storePte_wp (wp_seq (kfree_wp h4.own.managed_held (wp_seq (rollback_wp
          (s := s) (c := c) hb hm h4.give hr (hp3.trans (.of_proc rfl rfl rfl rfl rfl ?_)) ?_
          fun r s' h' hp' hfill => ⟨h', hp', hfill, .inr (hproc ▸ hfull)⟩)))))
        · rw [hp3.pgdir]
          exact fun e he => Function.update_of_ne he _ _
        · intro v _
          simp only [Kernel.freed, Kernel.setDir, Kernel.setMem, Function.update_self]
          rw [PageDir.view_setPage ht3, entryView_zero]
          by_cases e : v = u
          · rw [e, Function.update_self, hv]
          · rw [Function.update_of_ne e, show s3.dirs = s2.dirs from rfl, hv2,
              Function.update_of_ne e]

/-- The loop ends with all pages in place, or fails exactly when frames or places are lacking. -/
theorem allocLoop_exact (hb : b < KERNBASE) (hm : ∀ u, P.mapped u = 0) (htop : P.top = b) (k : Nat) :
    ∀ (u : Nat) (s : Kernel), Inv s P F → Running s c → 1 ≤ u → pages n ≤ u → u + k = pages b →
      (∀ v, u ≤ v → v < pages b → (s.dirs (s.proc c).pgdir).view v = none) →
      (∀ v, u ≤ v → v < pages b → ∀ o < PGSIZE, F c v o = 0) →
      wp (allocLoop (s.proc c).pgdir n b k (u * PGSIZE)) E (fun r s' => Inv s' P F ∧ Paging c s s' ∧
        (r = b ∧ ¬ (TooManyPages s c u (pages b) ∨ OutOfFrames s c u (pages b)) ∧
            Filled (some ⟨true, true⟩) u (pages b) (s.dirs (s.proc c).pgdir)
            (s'.dirs (s.proc c).pgdir) ∨
          r = 0 ∧ (TooManyPages s c u (pages b) ∨ OutOfFrames s c u (pages b)) ∧
            Filled none (pages n) (pages b) (s.dirs (s.proc c).pgdir)
            (s'.dirs (s.proc c).pgdir))) s := by
  induction k with
  | zero =>
    intro u s h hr _ _ hk _ _
    obtain rfl : u = pages b := hk
    exact ⟨h, Paging.refl c s, .inl ⟨rfl, not_stuck_self c _ s (h.self hr).agree.table.size,
      Filled.refl (by omega)⟩⟩
  | succ k ih =>
    intro u s h hr hlo hnu hk hv hF
    have hsize := (h.self hr).agree.table.size
    rw [allocLoop]
    refine wp_seq (wp_post (allocPage_exact (n := n) hb hm htop h hr hlo (by omega)
      (hv u le_rfl (by omega)) (hF u le_rfl (by omega))) ?_)
    rintro ok s1 ⟨h1, hp1, hfill⟩
    cases ok with
    | false => exact ⟨h1, hp1, .inr ⟨rfl, hfill.2.stuck (by omega) hsize, hfill.1⟩⟩
    | true =>
      rw [if_pos rfl] at hfill ⊢
      obtain ⟨hfill, hplaced⟩ := hfill
      have hnext := ih (u + 1) s1 h1 (hp1.running hr) (by omega) (by omega) (by omega)
      rw [hp1.pgdir] at hnext
      rw [show u * PGSIZE + PGSIZE = (u + 1) * PGSIZE from (Nat.succ_mul _ _).symm,
        hplaced.stuck_iff hp1 (by omega) hsize]
      refine wp_post (hnext (fun v h1 h2 => ?_) fun v h1 h2 => hF v (by omega) h2) ?_
      · rw [hfill v (lt_of_lt_of_le h2 (pages_le hb.le)), if_neg (by omega)]
        exact hv v (by omega) h2
      · rintro r s2 ⟨h2, hp2, ⟨hr2, hst, hfill2⟩ | ⟨hr2, hst, hfill2⟩⟩
        · exact ⟨h2, hp1.trans hp2, .inl ⟨hr2, hst, hfill.trans hfill2 (by omega) (by omega)⟩⟩
        · exact ⟨h2, hp1.trans hp2, .inr ⟨hr2, hst, hfill.cover hfill2 hnu (by omega)⟩⟩

/-! ## The size of the running process -/

/-- No page at or above the size exists. -/
theorem Inv.view_none (h : Inv s P F) (hr : Running s c) (htop : P.top = 0) (hu : u < NUSER)
    (hsz : pages (s.proc c).sz ≤ u) : (s.dirs (s.proc c).pgdir).view u = none := by
  by_contra hne
  have := ((h.self hr).below u hu (entryView_ne_none.1 hne)).2
  rw [htop, Nat.max_zero, ← lt_pages] at this
  omega

theorem Inv.setTop (h : Inv s P F) (hr : Running s c) {t : Nat}
    (hb : Below (s.dirs (s.proc c).pgdir).pte (max (s.proc c).sz t)) :
    Inv s { P with top := t } F := by
  refine h.of_fields (fun _ => ⟨rfl, rfl, rfl, rfl⟩) (fun _ ha => ha) rfl rfl rfl h.quiet rfl rfl rfl
    fun p hp ha => ?_
  have hok := h.procs p hp ha
  rw [hr.cur] at hok ⊢
  by_cases e : p = c
  · subst e
    rw [if_pos rfl, if_pos rfl] at hok ⊢
    exact ⟨hok.agree, hb, hok.swapFile, hok.stored, hok.size⟩
  · rw [if_neg e, if_neg e] at hok ⊢
    exact hok

/-- The contents of pages that do not exist are free to choose. -/
theorem Inv.contents {F' : Nat → Nat → Nat → Byte} (h : Inv s P F)
    (hF : ∀ p < NPROC, (s.proc p).state.active = true → ∀ u < NUSER,
      (s.dirs (s.proc p).pgdir).view u ≠ none → ∀ o < PGSIZE, F' p u o = F p u o) : Inv s P F' := by
  refine ⟨h.own, h.dirs, h.excl, fun p hp ha => ?_, h.skip, h.pids, h.pidLt, h.quiet⟩
  have hok := h.procs p hp ha
  obtain ⟨g, hg, hst⟩ := hok.stored
  exact ⟨hok.agree, hok.below, hok.swapFile, ⟨g, hg, hst.of_contents hok.agree fun u hu hm =>
    hF p hp ha u hu (entryView_ne_none.2 hm)⟩, hok.size⟩

/-- A new size that all pages are below. -/
theorem Inv.resize {m : Nat} (h : Inv s P F) (hr : Running s c) (hm : 0 < m) (hk : m < KERNBASE)
    (hb : Below (s.dirs (s.proc c).pgdir).pte m) :
    Inv (s.resized c m) { P with top := 0 } F := by
  have hok := h.self hr
  have hother : ∀ p ≠ c, (s.resized c m).proc p = s.proc p := fun p hp =>
    Function.update_of_ne hp _ _
  have hself : (s.resized c m).proc c = { s.proc c with sz := m } := Function.update_self _ _ _
  have hstate : ∀ p, ((s.resized c m).proc p).state = (s.proc p).state := fun p => by
    by_cases e : p = c
    · rw [e, hself]
    · rw [hother p e]
  refine h.of_fields (fun p => ?_) (fun p ha => hstate p ▸ ha) rfl rfl rfl h.quiet rfl rfl rfl
    fun p hp ha => ?_
  · by_cases e : p = c
    · rw [e, hself]; exact ⟨rfl, rfl, rfl, rfl⟩
    · rw [hother p e]; exact ⟨rfl, rfl, rfl, rfl⟩
  · by_cases e : p = c
    · subst e
      rw [hself, show (s.resized p m).cur = p from hr.cur, if_pos rfl, if_pos rfl]
      obtain ⟨g, hg, hst⟩ := hok.stored
      refine ⟨hok.agree.congr rfl rfl rfl rfl rfl, ?_, hok.swapFile,
        ⟨g, hg, hst.of_slots fun _ _ _ => rfl⟩, hm, hk⟩
      rw [Nat.max_zero]
      exact hb
    · have hp' := h.procs p hp (hstate p ▸ ha)
      rw [hr.cur, if_neg e, if_neg e] at hp'
      rw [hother p e, show (s.resized c m).cur = c from hr.cur, if_neg e, if_neg e]
      exact hp'

end

end Xv6
