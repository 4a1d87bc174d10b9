import Xv6.Swap.Recover

/-!
# User loads and stores

The processor reads and writes the frame of a present user page and sets the accessed and
dirty bits of its entry. A load returns the contents of the page, a store changes one byte of
it and nothing of any other process.
-/

namespace Xv6

open Lib

/-- One byte of page `u` of slot `c` changed. -/
def poke (F : Nat → Nat → Nat → Byte) (c u o : Nat) (b : Byte) : Nat → Nat → Nat → Byte :=
  Function.update F c (Function.update (F c) u (Function.update (F c u) o b))

theorem poke_other (F : Nat → Nat → Nat → Byte) {c u o p v k : Nat} (b : Byte)
    (h : ¬ (p = c ∧ v = u ∧ k = o)) : poke F c u o b p v k = F p v k := by
  unfold poke
  by_cases hp : p = c
  · subst hp
    rw [Function.update_self]
    by_cases hv : v = u
    · subst hv
      rw [Function.update_self, Function.update_of_ne fun hk => h ⟨rfl, rfl, hk⟩]
    · rw [Function.update_of_ne hv]
  · rw [Function.update_of_ne hp]

/-- The user-mode translation by page number. -/
theorem userPte_some {D : PageDir} {va : Nat} {w : Word} (hD : DirOk D) (hva : va < 2 ^ 32)
    (h : userPte D va = some w) :
    va / PGSIZE < NUSER ∧ D.hasTable (va / PGSIZE) = true ∧ w = D.pte (va / PGSIZE) ∧
      has w PTE_P = true ∧ has w PTE_U = true := by
  unfold userPte at h
  rw [pdx_eq hva, ptx_eq] at h
  split at h
  · rename_i hc
    simp only [Bool.and_eq_true] at hc
    obtain ⟨⟨⟨hp, hu⟩, hp'⟩, hu'⟩ := hc
    cases h
    have ht : D.hasTable (va / PGSIZE) = true := hp
    refine ⟨?_, ht, D.pte_eq_tab ht, hp', hu'⟩
    by_contra hge
    rw [NUSER_eq] at hge
    have := hD.kernelPde (va / PGSIZE / 1024) (by omega)
      (by simp only [PGSIZE, NPDENTRIES]; omega)
    rw [this] at hu
    cases hu
  · cases h

theorem userPte_of_present {D : PageDir} {va : Nat} (hD : DirOk D) (hva : va < 2 ^ 32)
    (hlt : va / PGSIZE < NUSER) (hp : has (D.pte (va / PGSIZE)) PTE_P = true)
    (hu : has (D.pte (va / PGSIZE)) PTE_U = true) : userPte D va = some (D.pte (va / PGSIZE)) := by
  have ht := PageDir.hasTable_of_has hp
  have hi : va / PGSIZE / 1024 < 512 := by rw [NUSER_eq] at hlt; omega
  have hpde := (hD.userPde _ hi ht).1
  unfold userPte
  rw [pdx_eq hva, ptx_eq, PageDir.pte_eq_tab ht]
  unfold PageDir.hasTable at ht
  simp [ht, hpde, hp, hu]

/-- What an access of the running process leaves alone. -/
structure Accessed (c : Nat) (s s' : Kernel) : Prop where
  paging : Paging c s s'
  pages : SamePages (s.dirs (s.proc c).pgdir) (s'.dirs (s.proc c).pgdir)
  present : ∀ u, has ((s'.dirs (s.proc c).pgdir).pte u) PTE_P = has ((s.dirs (s.proc c).pgdir).pte u) PTE_P

theorem Accessed.refl (c : Nat) (s : Kernel) : Accessed c s s :=
  ⟨Paging.refl c s, SamePages.refl _, fun _ => rfl⟩

theorem Accessed.setMem {c : Nat} {s s' : Kernel} (h : Accessed c s s') (f : Nat)
    (pg : Nat → Byte) : Accessed c s (s'.setMem f pg) :=
  ⟨⟨h.paging.cur, h.paging.cr3, h.paging.initproc, h.paging.nextpid, h.paging.other,
    h.paging.self, h.paging.dirs⟩, h.pages, h.present⟩

theorem Accessed.setPage {c u : Nat} {s : Kernel} {w : Word}
    (ht : (s.dirs (s.proc c).pgdir).hasTable u = true)
    (h : ∀ k < 12, k ≠ 5 → k ≠ 6 → has w (BitVec.twoPow 32 k) =
      has ((s.dirs (s.proc c).pgdir).pte u) (BitVec.twoPow 32 k)) :
    Accessed c s (s.setDir (s.proc c).pgdir ((s.dirs (s.proc c).pgdir).setPage u w)) := by
  have hd : (s.setDir (s.proc c).pgdir ((s.dirs (s.proc c).pgdir).setPage u w)).dirs
    (s.proc c).pgdir = (s.dirs (s.proc c).pgdir).setPage u w := Function.update_self _ _ _
  refine ⟨.of_proc rfl rfl rfl rfl rfl fun e he => Function.update_of_ne he _ _, ?_, fun v => ?_⟩
  · rw [hd]
    exact SamePages.setPage ht (entryView_congr (h 0 (by decide) (by decide) (by decide))
      (h 9 (by decide) (by decide) (by decide)) (h 2 (by decide) (by decide) (by decide))
      (h 1 (by decide) (by decide) (by decide)))
  · rw [hd, PageDir.pte_setPage ht]
    by_cases e : v = u
    · rw [e, Function.update_self]
      exact h 0 (by decide) (by decide) (by decide)
    · rw [Function.update_of_ne e]

section

variable [Build] {E : String → Prop} {s : Kernel} {P : Pend} {F : Nat → Nat → Nat → Byte}
  {c u va : Nat} {b : Byte}

/-- The processor marks a page as read. -/
theorem Inv.readPage (h : Inv s P F) (hr : Running s c) (hu : u < NUSER)
    (ht : (s.dirs (s.proc c).pgdir).hasTable u = true) :
    Inv (s.setDir (s.proc c).pgdir ((s.dirs (s.proc c).pgdir).setPage u
        ((s.dirs (s.proc c).pgdir).pte u ||| PTE_A))) P F ∧
      Accessed c s (s.setDir (s.proc c).pgdir ((s.dirs (s.proc c).pgdir).setPage u
        ((s.dirs (s.proc c).pgdir).pte u ||| PTE_A))) := by
  constructor
  · exact h.touch hr hu ht (by simp [has_or, has_bit]) (by simp [has_or, has_bit])
      (pageNo_or_flag _ (by decide))
  · refine Accessed.setPage ht fun k hk h5 _ => ?_
    rw [has_or _ _ (by omega), has_bit (by decide) (by omega), decide_eq_false (Ne.symm h5),
      Bool.or_false]

theorem userRead_inv (h : Inv s P F) (hr : Running s c) (hva : va < 2 ^ 32) :
    wp (userRead va) E (fun r s' => Inv s' P F ∧ Accessed c s s' ∧
      (∀ b, r = some b → va / PGSIZE < NUSER ∧
        (∃ w, (s.dirs (s.proc c).pgdir).view (va / PGSIZE) = some ⟨true, w⟩) ∧
        b = F c (va / PGSIZE) (va % PGSIZE)) ∧ (r = none → s' = s) ∧
      (va / PGSIZE < NUSER → has ((s.dirs (s.proc c).pgdir).pte (va / PGSIZE)) PTE_P = true →
        has ((s.dirs (s.proc c).pgdir).pte (va / PGSIZE)) PTE_U = true → r ≠ none)) s := by
  have hdir := h.dirs c hr.lt (h.counted hr.lt hr.active)
  obtain ⟨g, -, hst⟩ := (h.self hr).stored
  unfold userRead
  refine wp_seq (get_wp ?_)
  rw [hr.cr3, pteAt_eq _ hva]
  cases hw : userPte (s.dirs (s.proc c).pgdir) va with
  | none =>
    refine ⟨h, Accessed.refl c s, fun b hb => (by cases hb), fun _ => rfl, fun hlt hp hu => ?_⟩
    rw [userPte_of_present hdir hva hlt hp hu] at hw
    cases hw
  | some w =>
    obtain ⟨hu, ht, rfl, hp, hU⟩ := userPte_some hdir hva hw
    refine wp_seq (storePte_wp ⟨?_, ?_, fun b hb => ?_, fun hn => absurd hn (Option.some_ne_none _),
      fun _ _ _ => Option.some_ne_none _⟩)
    · exact (h.readPage hr hu ht).1
    · exact (h.readPage hr hu ht).2
    · cases hb
      refine ⟨hu, ⟨_, by rw [PageDir.view, entryView_present hp, hU]⟩, ?_⟩
      exact hst.frames _ hu hp _ (Nat.mod_lt _ (by decide))

/-- A store through the entry of a present page. -/
theorem Inv.poke {o : Nat} (h : Inv s P F) (hr : Running s c) (hu : u < NUSER)
    (hp : has ((s.dirs (s.proc c).pgdir).pte u) PTE_P = true) :
    Inv (s.setMem (pageNo ((s.dirs (s.proc c).pgdir).pte u))
      (Function.update (s.mem (pageNo ((s.dirs (s.proc c).pgdir).pte u))) o b)) P
      (poke F c u o b) := by
  have hcc := h.counted hr.lt hr.active
  have hself := h.self hr
  obtain ⟨g, hgf, hst⟩ := hself.stored
  refine h.onSelf hr (.of_proc rfl rfl rfl rfl rfl fun _ _ => rfl)
    (fun _ _ => rfl) h.quiet (fun f hf => ?_) (fun f => ?_) rfl
    (fun p hne => Function.update_of_ne hne _ _) (h.dirs c hr.lt hcc) ?_
  · rw [setMem_ne hf]
    exact .inr (.inr (dirCount_pte _ hu hp))
  · exact h.own f
  · refine ⟨hself.agree, hself.below, hself.swapFile, ⟨g, hgf, fun v hv hpv k hk => ?_, hst.room,
      fun i hi ho k hk => ?_⟩, hself.size⟩
    · by_cases e : v = u
      · subst e
        simp only [Kernel.setMem, Function.update_self, Xv6.poke, Function.update_apply]
        split
        · rfl
        · exact hst.frames v hv hpv k hk
      · rw [poke_other F b (by tauto)]
        have hne : pageNo ((s.dirs (s.proc c).pgdir).pte v) ≠
            pageNo ((s.dirs (s.proc c).pgdir).pte u) := fun he =>
          e (h.own.pte_inj hr.lt hcc hv hu hpv hp he.symm)
        simp only [Kernel.setMem, Function.update_of_ne hne]
        exact hst.frames v hv hpv k hk
    · obtain ⟨v, hv, he, hg⟩ := hself.agree.paged_of_slot hi ho
      have hd : entryAddr ((s.proc c).vpaSwap i) / PGSIZE = v := by rw [he]; simp
      have hne : v ≠ u := by
        rintro rfl
        rw [hself.agree.absent_of_paged hv hg] at hp
        cases hp
      change g.data (i * PGSIZE + k) =
        Xv6.poke F c u o b c (entryAddr ((s.proc c).vpaSwap i) / PGSIZE) k
      rw [hd, poke_other F b (by tauto), ← hd]
      exact hst.slots i hi ho k hk

/-- The state after a store of `b` at offset `o` of the present page `u`. -/
def storedPage (s : Kernel) (c u o : Nat) (b : Byte) : Kernel :=
  (s.setDir (s.proc c).pgdir ((s.dirs (s.proc c).pgdir).setPage u
    ((s.dirs (s.proc c).pgdir).pte u ||| PTE_A ||| PTE_D))).setMem (pageNo ((s.dirs (s.proc c).pgdir).pte u))
    (Function.update (s.mem (pageNo ((s.dirs (s.proc c).pgdir).pte u))) o b)

theorem Inv.writePage (h : Inv s P F) (hr : Running s c) (hu : u < NUSER)
    (hp : has ((s.dirs (s.proc c).pgdir).pte u) PTE_P = true) (o : Nat) (b : Byte) :
    Inv (storedPage s c u o b) P (Xv6.poke F c u o b) ∧ Accessed c s (storedPage s c u o b) := by
  have ht := PageDir.hasTable_of_has hp
  unfold storedPage
  set w := (s.dirs (s.proc c).pgdir).pte u with hwdef
  have hno : pageNo (w ||| PTE_A ||| PTE_D) = pageNo w := by
    rw [pageNo_or_flag _ (by decide), pageNo_or_flag _ (by decide)]
  have h1 := h.touch (w := w ||| PTE_A ||| PTE_D) hr hu ht (by simp [has_or, has_bit, hwdef])
    (by simp [has_or, has_bit, hwdef]) hno
  have hacc : Accessed c s (s.setDir (s.proc c).pgdir
      ((s.dirs (s.proc c).pgdir).setPage u (w ||| PTE_A ||| PTE_D))) := by
    refine Accessed.setPage ht fun k hk h5 h6 => ?_
    rw [has_or _ _ (by omega), has_or _ _ (by omega), has_bit (by decide) (by omega),
      has_bit (by decide) (by omega), decide_eq_false (Ne.symm h5),
      decide_eq_false (Ne.symm h6), Bool.or_false, Bool.or_false]
  have h2 := h1.poke (u := u) (o := o) (b := b) (hacc.paging.running hr) hu
  have hpte : ((s.setDir (s.proc c).pgdir ((s.dirs (s.proc c).pgdir).setPage u
      (w ||| PTE_A ||| PTE_D))).dirs (s.proc c).pgdir).pte u = w ||| PTE_A ||| PTE_D := by
    simp only [Kernel.setDir, Function.update_self, PageDir.pte_setPage ht]
  rw [(hacc.paging.fields c).2.1, hpte, hno] at h2
  exact ⟨h2 (by simpa [has_or, has_bit] using hp), hacc.setMem _ _⟩

theorem userWrite_inv (h : Inv s P F) (hr : Running s c) (hva : va < 2 ^ 32) :
    wp (userWrite va b) E (fun r s' => Accessed c s s' ∧
      (if r then Inv s' P (poke F c (va / PGSIZE) (va % PGSIZE) b) ∧
        va / PGSIZE < NUSER ∧ (s.dirs (s.proc c).pgdir).view (va / PGSIZE) = some ⟨true, true⟩
      else s' = s) ∧
      (va / PGSIZE < NUSER → has ((s.dirs (s.proc c).pgdir).pte (va / PGSIZE)) PTE_P = true →
        has ((s.dirs (s.proc c).pgdir).pte (va / PGSIZE)) PTE_U = true →
        has ((s.dirs (s.proc c).pgdir).pte (va / PGSIZE)) PTE_W = true → r = true)) s := by
  have hdir := h.dirs c hr.lt (h.counted hr.lt hr.active)
  unfold userWrite
  refine wp_seq (get_wp ?_)
  rw [hr.cr3, pteAt_eq _ hva]
  cases hw : userPte (s.dirs (s.proc c).pgdir) va with
  | none =>
    refine ⟨Accessed.refl c s, rfl, fun hlt hp hu _ => ?_⟩
    rw [userPte_of_present hdir hva hlt hp hu] at hw
    cases hw
  | some w =>
    obtain ⟨hu, ht, rfl, hp, hU⟩ := userPte_some hdir hva hw
    have hi : va / PGSIZE / 1024 < 512 := by rw [NUSER_eq] at hu; omega
    have hpde := (hdir.userPde _ hi ht).2
    dsimp only
    rw [pdx_eq hva, hpde, Bool.true_and]
    by_cases hW : has ((s.dirs (s.proc c).pgdir).pte (va / PGSIZE)) PTE_W = true
    · rw [if_pos hW]
      obtain ⟨h2, hacc⟩ := h.writePage hr hu hp (va % PGSIZE) b
      refine wp_seq (storePte_wp (wp_seq (modify_wp ⟨hacc, ?_, fun _ _ _ _ => rfl⟩)))
      rw [if_pos rfl]
      refine ⟨h2, hu, ?_⟩
      rw [PageDir.view, entryView_present hp, hU, hW]
    · rw [if_neg hW]
      exact ⟨Accessed.refl c s, rfl, fun _ _ _ hc => absurd hc hW⟩

end

end Xv6
