import Xv6.Swap.Recover

/-!
# `deallocuvm` on the running process

The loop visits the pages from `a` up to `oldsz`, skipping missing page tables. A present
page is unlinked, its frame freed and its entry cleared; a paged-out page gives up its slot
and its entry is cleared. Neither assertion on `unlinkPage` can fail while the tables agree
with the page table.
-/

namespace Xv6

open Lib

/-- The next page table starts at page `(v / 1024 + 1) * 1024`. -/
theorem next_table {v : Nat} (hv : v < NUSER) :
    (pgaddr (pdx (v * PGSIZE) + 1) 0 0 + 2 ^ 32 - PGSIZE + PGSIZE) % 2 ^ 32 =
      (v / 1024 + 1) * 1024 * PGSIZE := by
  rw [NUSER_eq] at hv
  unfold pgaddr pdx
  simp only [PGSIZE]
  omega

theorem next_page {v : Nat} (hv : v < NUSER) :
    (v * PGSIZE + PGSIZE) % 2 ^ 32 = (v + 1) * PGSIZE := by
  rw [NUSER_eq] at hv
  simp only [PGSIZE]
  omega

section

variable [Build] {E : String → Prop} {s : Kernel} {P : Pend} {F : Nat → Nat → Nat → Byte}
  {c u : Nat}

theorem unlinkPage_wp {Q : Int → Kernel → Prop} {vpa : Nat} {r : Int} {q : Proc}
    (h : unlinkTables (s.proc c) vpa = .ok (r, q)) (hQ : Q r (s.setProc c q)) :
    wp (unlinkPage c vpa) E Q s := by
  unfold unlinkPage
  refine wp_seq (getProc_wp ?_)
  rw [h]
  exact wp_seq (setProc_wp hQ)

/-- The state after the present page `u` of slot `c` was freed and its tables became `q`. -/
def freedPage (s : Kernel) (c u : Nat) (q : Proc) : Kernel :=
  ((s.setProc c q).freed (pageNo ((s.dirs (s.proc c).pgdir).pte u))).setDir (s.proc c).pgdir
    ((s.dirs (s.proc c).pgdir).setPage u 0)

/-- The state after the paged-out page `u` of slot `c` was dropped and its tables became `q`. -/
def droppedPage (s : Kernel) (c u : Nat) (q : Proc) : Kernel :=
  (s.setDir (s.proc c).pgdir ((s.dirs (s.proc c).pgdir).setPage u 0)).setProc c q

theorem Inv.freePage (h : Inv s P F) (hr : Running s c) (hu : u < NUSER)
    (hp : has ((s.dirs (s.proc c).pgdir).pte u) PTE_P = true) (hm : P.mapped u = 0) :
    ∃ q, unlinkTables (s.proc c) (u * PGSIZE) = .ok (0, q) ∧ SameButTables (s.proc c) q ∧
      Inv (freedPage s c u q) P F := by
  have hself := h.self hr
  have hcc := h.counted hr.lt hr.active
  have ht := PageDir.hasTable_of_has hp
  obtain ⟨a, n, b, t, hun, hag⟩ := hself.agree.unlink_present hu hp hm
  have hsame := SameButTables.withMem (s.proc c) a n b t
  have hpag := Paging.setProc hsame
  refine ⟨_, hun, hsame, ?_⟩
  have hown : Own (freedPage s c u ((s.proc c).withMem a n b t)) P :=
    (h.own.unmapPage (w := 0) (h.holders hr) hu hp (has_zero _)).give.of_paging (c := c)
      ⟨rfl, rfl, rfl, rfl, hpag.other, hpag.self, fun _ _ => rfl⟩ rfl rfl
  have hd : (freedPage s c u ((s.proc c).withMem a n b t)).dirs (s.proc c).pgdir =
      (s.dirs (s.proc c).pgdir).setPage u 0 := Function.update_self _ _ _
  refine h.onSelf hr ⟨rfl, rfl, rfl, rfl, hpag.other, hpag.self,
    fun e he => Function.update_of_ne he _ _⟩ (fun _ _ => rfl) h.quiet (fun g hg => ?_) hown rfl
    (fun _ _ => rfl) ?_ ?_
  · rw [setMem_ne (s := s) hg]
    exact .inr (.inr (dirCount_pte _ hu hp))
  · rw [hd]; exact (h.dirs c hr.lt hcc).setPage hu ht 0
  · obtain ⟨g, hgf, hst⟩ := hself.stored
    have hproc : (freedPage s c u ((s.proc c).withMem a n b t)).proc c =
        (s.proc c).withMem a n b t := Function.update_self _ _ _
    rw [hd, hproc]
    have hnot : ∀ v, has (Function.update (s.dirs (s.proc c).pgdir).pte u 0 v) PTE_P = true →
        v ≠ u ∧ has ((s.dirs (s.proc c).pgdir).pte v) PTE_P = true := by
      intro v hv
      by_cases e : v = u
      · rw [e, Function.update_self, has_zero] at hv; cases hv
      · rw [Function.update_of_ne e] at hv; exact ⟨e, hv⟩
    refine ⟨?_, ?_, hself.swapFile, ⟨g, hgf, ?_⟩, hself.size⟩ <;> rw [PageDir.pte_setPage ht]
    · exact hag
    · exact hself.below.clear u
    · refine ((hst.of_pte fun v _ hv => ?_).of_mem fun v hv hvp => ?_).of_slots fun _ _ _ => rfl
      · obtain ⟨e, hv'⟩ := hnot v hv
        rw [Function.update_of_ne e]
        exact ⟨hv', rfl⟩
      · obtain ⟨e, hv'⟩ := hnot v hvp
        rw [Function.update_of_ne e]
        refine Function.update_of_ne (fun he => e ?_) _ _
        exact (h.own.pte_inj hr.lt hcc hu hv hp hv' he).symm

theorem Inv.dropPage (h : Inv s P F) (hr : Running s c) (hu : u < NUSER)
    (hg : has ((s.dirs (s.proc c).pgdir).pte u) PTE_PG = true) :
    ∃ q, unlinkTables (s.proc c) (u * PGSIZE) = .ok (0, q) ∧ SameButTables (s.proc c) q ∧
      Inv (droppedPage s c u q) P F := by
  have hself := h.self hr
  have hcc := h.counted hr.lt hr.active
  have ht := PageDir.hasTable_of_has hg
  have hp := hself.agree.absent_of_paged hu hg
  obtain ⟨i, -, hun, hag⟩ := hself.agree.unlink_paged hu hg
  have hsame : SameButTables (s.proc c) ((s.proc c).clearSlot i) := ⟨_, _, _, _, _, rfl⟩
  have hpag := Paging.setProc hsame
  refine ⟨_, hun, hsame, ?_⟩
  have hown : Own (droppedPage s c u ((s.proc c).clearSlot i)) P := by
    refine (h.own.keepPage (w := 0) (h.holders hr) ht hu fun g => ?_).of_paging (c := c)
      ⟨rfl, rfl, rfl, rfl, hpag.other, hpag.self, fun _ _ => rfl⟩ rfl rfl
    rw [mapsTo_zero, mapsTo_of_absent g hp]
  have hd : (droppedPage s c u ((s.proc c).clearSlot i)).dirs (s.proc c).pgdir =
      (s.dirs (s.proc c).pgdir).setPage u 0 := Function.update_self _ _ _
  refine h.onSelf hr ⟨rfl, rfl, rfl, rfl, hpag.other, hpag.self,
    fun e he => Function.update_of_ne he _ _⟩ (fun _ _ => rfl) h.quiet
    (fun _ hg => absurd rfl hg) hown rfl (fun _ _ => rfl) ?_ ?_
  · rw [hd]; exact (h.dirs c hr.lt hcc).setPage hu ht 0
  · obtain ⟨g, hgf, hst⟩ := hself.stored
    have hproc : (droppedPage s c u ((s.proc c).clearSlot i)).proc c =
        (s.proc c).clearSlot i := Function.update_self _ _ _
    rw [hd, hproc]
    refine ⟨?_, ?_, hself.swapFile, ⟨g, hgf, ?_⟩, hself.size⟩ <;> rw [PageDir.pte_setPage ht]
    · exact hag
    · exact hself.below.clear u
    · refine (hst.of_slots fun j _ hj => ?_).of_pte fun v _ hv => ?_
      · dsimp only [Proc.clearSlot] at hj ⊢
        by_cases e : j = i
        · rw [e, Function.update_self, has_zero] at hj; cases hj
        · rw [Function.update_of_ne e]
      · by_cases e : v = u
        · rw [e, Function.update_self, has_zero] at hv; cases hv
        · rw [Function.update_of_ne e] at hv ⊢; exact ⟨hv, rfl⟩

/-- The loop of `deallocuvm` visits pages; `I v` is what holds when it comes to page `v`. -/
theorem deallocLoop_wp {I : Nat → Kernel → Prop} {d b : Nat} (hb : b ≤ KERNBASE)
    (hskip : ∀ v s, v < pages b → I v s → (s.dirs d).hasTable v = false →
      I (min ((v / 1024 + 1) * 1024) (pages b)) s)
    (hpage : ∀ v s, v < pages b → I v s → (s.dirs d).hasTable v = true →
      wp (deallocPage b (v * PGSIZE) (pteAt d v)) E (fun _ => I (v + 1)) s) (fuel : Nat) :
    ∀ (v : Nat) (s : Kernel), v ≤ pages b → I v s → pages b ≤ v + fuel →
      wp (deallocLoop d b (fuel + 1) (v * PGSIZE)) E (fun _ => I (pages b)) s := by
  induction fuel with
  | zero =>
    intro v s hv hI hle
    rw [deallocLoop, if_neg (by rw [← lt_pages]; omega), show pages b = v by omega]
    exact hI
  | succ fuel ih =>
    intro v s hvb hI hle
    by_cases hlt : v < pages b
    · have hv : v < NUSER := lt_of_lt_of_le hlt (pages_le hb)
      have hdiv : v * PGSIZE / PGSIZE = v := by simp
      rw [deallocLoop, if_pos (lt_pages.1 hlt)]
      cases ht : (s.dirs d).hasTable v with
      | false =>
        refine wp_seq (walkpgdir_missing (page_lt_word hv) (by rwa [hdiv]) ?_)
        rw [next_table hv]
        have := hskip v s hlt hI ht
        by_cases hend : (v / 1024 + 1) * 1024 < pages b
        · rw [min_eq_left (by omega)] at this
          exact ih _ s (by omega) this (by omega)
        · rw [min_eq_right (by omega)] at this
          rw [deallocLoop, if_neg (by rw [← lt_pages]; omega)]
          exact this
      | true =>
        refine wp_seq (walkpgdir_found (page_lt_word hv) (by rwa [hdiv]) ?_)
        rw [hdiv, next_page hv]
        exact wp_seq (wp_post (hpage v s hlt hI ht) fun _ s' hI' => ih (v + 1) s' hlt hI' (by omega))
    · rw [deallocLoop, if_neg (by rwa [← lt_pages]), show pages b = v by omega]
      exact hI

theorem deallocPage_inv {b : Nat} (hb : b ≠ KERNBASE) (hm : P.mapped u = 0) (h : Inv s P F)
    (hr : Running s c) (hu : u < NUSER)
    (ht : (s.dirs (s.proc c).pgdir).hasTable u = true) :
    wp (deallocPage b (u * PGSIZE) (pteAt (s.proc c).pgdir u)) E (fun _ s' => Inv s' P F ∧
      Paging c s s' ∧ Filled none u (u + 1) (s.dirs (s.proc c).pgdir) (s'.dirs (s.proc c).pgdir)) s := by
  unfold deallocPage
  refine wp_seq (loadPte_wp ht (wp_seq (get_wp ?_)))
  rw [hr.cur]
  by_cases hg : has ((s.dirs (s.proc c).pgdir).pte u) PTE_PG = true
  · obtain ⟨q, hun, hsame, hinv⟩ := h.dropPage hr hu hg
    rw [if_pos hg, if_pos hb]
    refine wp_seq (storePte_wp (wp_seq (unlinkPage_wp hun (assertPanic_wp rfl ?_))))
    have hpag := Paging.setProc hsame
    exact ⟨hinv, ⟨rfl, rfl, rfl, rfl, hpag.other, hpag.self, fun e he => Function.update_of_ne he _ _⟩,
      Filled.page ht (Function.update_self _ _ _) entryView_zero⟩
  · rw [if_neg hg]
    by_cases hp : has ((s.dirs (s.proc c).pgdir).pte u) PTE_P = true
    · obtain ⟨q, hun, hsame, hinv⟩ := h.freePage hr hu hp hm
      have hman := h.own.managed_pte hr.lt (h.counted hr.lt hr.active) hu hp
      rw [if_pos hp, if_neg hman.pos, if_pos hb]
      have hpag := Paging.setProc hsame
      refine wp_seq (unlinkPage_wp hun (wp_seq (assertPanic_wp rfl ?_)))
      refine wp_seq (kfree_wp hman (storePte_wp ?_))
      exact ⟨hinv, ⟨rfl, rfl, rfl, rfl, hpag.other, hpag.self, fun e he => Function.update_of_ne he _ _⟩,
        Filled.page ht (Function.update_self _ _ _) entryView_zero⟩
    · rw [if_neg hp]
      exact ⟨h, Paging.refl c s, Filled.skip fun v hv h1 h2 => by
        rw [show v = u by omega]
        exact entryView_none (by simpa using hp) (by simpa using hg)⟩

theorem deallocuvm_inv {n b : Nat} (hb : b < KERNBASE) (hm : ∀ u, P.mapped u = 0) (h : Inv s P F)
    (hr : Running s c) :
    wp (deallocuvm (s.proc c).pgdir b n) E (fun r s' => r = min n b ∧ Inv s' P F ∧ Paging c s s' ∧
      Filled none (pages n) (pages b) (s.dirs (s.proc c).pgdir) (s'.dirs (s.proc c).pgdir)) s := by
  unfold deallocuvm
  by_cases hle : b ≤ n
  · rw [if_pos hle]
    exact ⟨by omega, h, Paging.refl c s, Filled.refl (pages_mono hle)⟩
  · rw [if_neg hle, pgroundup_eq (by omega)]
    have hnb : pages n ≤ pages b := pages_mono (by omega)
    have hfuel : pages b ≤ pages n + (b / PGSIZE + 1) := by
      unfold pages
      simp only [PGSIZE]
      omega
    refine wp_seq (wp_post (deallocLoop_wp (I := fun v s' => pages n ≤ v ∧ Inv s' P F ∧
      Paging c s s' ∧ Filled none (pages n) v (s.dirs (s.proc c).pgdir) (s'.dirs (s.proc c).pgdir))
      (d := (s.proc c).pgdir) (b := b) hb.le ?_ ?_ _ (pages n) s hnb
      ⟨le_rfl, h, Paging.refl c s, Filled.refl le_rfl⟩ hfuel) fun _ s' hI => ?_)
    · rintro v s' hv ⟨hnv, hinv, hpag, hcl⟩ ht
      refine ⟨by omega, hinv, hpag, hcl.trans (Filled.skip fun u hu h1 h2 => ?_) hnv (by omega)⟩
      refine PageDir.view_of_missing ?_
      rw [PageDir.hasTable, show u / 1024 = v / 1024 by omega]
      exact ht
    · rintro v s' hv ⟨hnv, hinv, hpag, hcl⟩ ht
      have hpg := (hpag.fields c).2.1
      rw [← hpg] at ht ⊢
      refine wp_post (deallocPage_inv hb.ne (hm v) hinv (hpag.running hr)
        (lt_of_lt_of_le hv (pages_le hb.le)) ht) fun _ s'' hs'' => ?_
      obtain ⟨hinv', hpag', hcl'⟩ := hs''
      rw [← hpg] at hcl
      exact ⟨by omega, hinv', hpag.trans hpag', hcl.trans hcl' hnv (by omega)⟩
    · exact ⟨by omega, hI.2⟩

end

end Xv6
