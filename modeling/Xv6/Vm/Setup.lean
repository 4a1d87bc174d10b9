import Mathlib.Order.Interval.Finset.Nat
import Xv6.Vm.Spare

/-!
# `setupkvm`

The rows of `kmap` ascend, so no page is mapped twice. All of them lie at or above `KERNBASE`:
a new directory has no user page and no user page table, and once `PTE_U` is cleared in the
upper half of the directory users have no access to the kernel's mappings.
-/

namespace Xv6

open Lib Finset

/-- A directory in the making: kernel pages only, none of them at `lim` or above. -/
structure Kern (D : PageDir) (lim : Nat) : Prop where
  user : ∀ i < 512, has (D.pde i) PTE_P = false
  closed : ∀ u, NUSER ≤ u → u < 2 ^ 20 → has (D.pte u) PTE_U = false ∧ has (D.pte u) PTE_PG = false
  free : ∀ u, lim ≤ u → u < 2 ^ 20 → has (D.pte u) PTE_P = false

namespace Kern

variable {D : PageDir} {lim u : Nat}

theorem empty (lim : Nat) : Kern ⟨fun _ => 0, fun _ _ => 0⟩ lim := by
  have hpte : ∀ u, (⟨fun _ => 0, fun _ _ => 0⟩ : PageDir).pte u = 0 := fun u =>
    PageDir.pte_of_missing (has_zero _)
  refine ⟨fun _ _ => has_zero _, fun u _ _ => ?_, fun u _ _ => ?_⟩ <;> rw [hpte]
  · exact ⟨has_zero _, has_zero _⟩
  · exact has_zero _

theorem pte_user (h : Kern D lim) (hu : u < NUSER) : D.pte u = 0 :=
  PageDir.pte_of_missing (h.user _ (by rw [NUSER_eq] at hu; omega))

theorem presentPages (h : Kern D lim) : presentPages D = 0 :=
  presentPages_zero fun u hu => by rw [h.pte_user hu, has_zero]

theorem exclusive (h : Kern D lim) : Exclusive D := fun u hu _ => by
  rw [h.pte_user hu, has_zero]

theorem mono {lim' : Nat} (h : Kern D lim) (hle : lim ≤ lim') : Kern D lim' :=
  ⟨h.user, h.closed, fun u hu => h.free u (by omega)⟩

theorem addTable (h : Kern D lim) (hu : NUSER ≤ u) (ht : D.hasTable u = false) (f : Nat) :
    Kern (D.addTable (u / 1024) f) lim := by
  refine ⟨fun i hi => ?_, ?_, ?_⟩
  · rw [D.pde_addTable, Function.update_of_ne (by rw [NUSER_eq] at hu; omega)]
    exact h.user i hi
  · rw [D.pte_addTable f ht]; exact h.closed
  · rw [D.pte_addTable f ht]; exact h.free

theorem setPage {w : Word} (h : Kern D u) (ht : D.hasTable u = true)
    (hU : has w PTE_U = false) (hG : has w PTE_PG = false) : Kern (D.setPage u w) (u + 1) := by
  refine ⟨h.user, fun v hv hlt => ?_, fun v hv hlt => ?_⟩ <;> rw [D.pte_setPage ht]
  · by_cases e : v = u
    · rw [e, Function.update_self]; exact ⟨hU, hG⟩
    · rw [Function.update_of_ne e]; exact h.closed v hv hlt
  · rw [Function.update_of_ne (by omega)]
    exact h.free v (by omega) hlt

theorem walked {s s1 : Kernel} {d : Nat} (h : Kern (s.dirs d) lim) (hu : NUSER ≤ u) (hw : Walked s d u s1) :
    Kern (s1.dirs d) lim := by
  cases hw with
  | found ht => exact h
  | made ht hf =>
    simp only [Kernel.setDir, Function.update_self]
    exact h.addTable hu ht _

end Kern

/-! ## Closing the kernel half -/

theorem PageDir.pde_hideKernel (D : PageDir) (i : Nat) :
    has (D.hideKernel.pde i) PTE_P = has (D.pde i) PTE_P ∧
      pageNo (D.hideKernel.pde i) = pageNo (D.pde i) := by
  unfold PageDir.hideKernel
  dsimp only
  split
  · exact ⟨by simp [has_clear], pageNo_and_mask _ (by decide)⟩
  · exact ⟨rfl, rfl⟩

theorem PageDir.pte_hideKernel (D : PageDir) : D.hideKernel.pte = D.pte := by
  funext u
  unfold PageDir.pte
  rw [(D.pde_hideKernel _).1]
  rfl

theorem dirCount_hideKernel (d : Nat) (D : PageDir) (f : Nat) :
    dirCount d D.hideKernel f = dirCount d D f := by
  have hpde : ∀ i < NPDENTRIES, mapsTo (D.hideKernel.pde i) f = mapsTo (D.pde i) f := fun i _ => by
    unfold mapsTo
    rw [(D.pde_hideKernel i).1, (D.pde_hideKernel i).2]
  unfold dirCount
  rw [D.pte_hideKernel, sum_range_congr hpde]

theorem Kern.hide {D : PageDir} {lim : Nat} (h : Kern D lim) : DirOk D.hideKernel := by
  refine ⟨fun i hlo hhi => ?_, ?_, fun i hi hp => ?_⟩
  · unfold PageDir.hideKernel
    dsimp only
    rw [if_pos ⟨hlo, hhi⟩]
    simp [has_clear]
  · rw [D.pte_hideKernel]
    exact h.closed
  · rw [(D.pde_hideKernel i).1, h.user i hi] at hp
    cases hp

/-! ## The kernel's page tables -/

/-- The directory entries that `setupkvm` fills. -/
def kernelTables : Finset Nat := Ico 512 568 ∪ Ico 1016 1024

theorem card_kernelTables : kernelTables.card = 64 := by
  have hdis : Disjoint (Ico 512 568) (Ico 1016 1024) := by
    rw [disjoint_left]
    intro i h1 h2
    rw [mem_Ico] at h1 h2
    omega
  rw [kernelTables, card_union_of_disjoint hdis, Nat.card_Ico, Nat.card_Ico]

/-- `D` has exactly the page tables of the kernel half. -/
def OnlyKernel (D : PageDir) : Prop :=
  ∀ i < NPDENTRIES, has (D.pde i) PTE_P = true ↔ i ∈ kernelTables

theorem TablesIn.walked {S : Finset Nat} {s s1 : Kernel} {d u : Nat} (h : TablesIn S (s.dirs d))
    (hu : u / 1024 ∈ S) (hw : Walked s d u s1) : TablesIn S (s1.dirs d) := by
  cases hw with
  | found ht => exact h
  | made ht hf =>
    simp only [Kernel.setDir, Function.update_self]
    exact h.addTable hu _

theorem Walked.keeps {s s1 : Kernel} {d u v : Nat} (hw : Walked s d u s1)
    (hv : (s.dirs d).hasTable v = true) : (s1.dirs d).hasTable v = true := by
  cases hw with
  | found ht => exact hv
  | made ht hf =>
    simp only [Kernel.setDir, Function.update_self]
    exact PageDir.hasTable_addTable _ _ hv

/-- The pages `[lo, hi)` of directory `d` have tables, all of them among `S`. -/
structure KernelMapped (S : Finset Nat) (d lo hi : Nat) (s s' : Kernel) : Prop where
  within : TablesIn S (s'.dirs d)
  tables : ∀ v, lo ≤ v → v < hi → (s'.dirs d).hasTable v = true
  keeps : ∀ v, (s.dirs d).hasTable v = true → (s'.dirs d).hasTable v = true

/-- There are not enough frames left for the tables of directory `d` that are missing in `S`. -/
def Stalled (S : Finset Nat) (d : Nat) (s : Kernel) : Prop :=
  s.freelist.length + tablePages (s.dirs d) < S.card

section

variable [Build] {E : String → Prop} {s s1 : Kernel} {P : Pend} {F : Nat → Nat → Nat → Byte}
  {d u g n : Nat} {perm : Word} {S : Finset Nat}

/-- A held frame becomes an empty directory. -/
theorem Own.newDir (h : Own s (P.hold d)) :
    Own (s.setDir d ⟨fun _ => 0, fun _ _ => 0⟩) (P.withDir d) := fun f => by
  have h1 := h.le_one d
  rw [owned_hold, ind_true rfl] at h1
  have h2 := holders_le s P d
  have h3 := owned_setDir s P d ⟨fun _ => 0, fun _ _ => 0⟩ f
  rw [show holders s P d = 0 by omega, Nat.zero_mul, Nat.zero_mul] at h3
  have h4 := h f
  rw [owned_hold] at h4
  rw [owned_withDir, show (s.setDir d ⟨fun _ => 0, fun _ _ => 0⟩).dirs d = _ from
    Function.update_self _ _ _, dirCount_zero]
  omega

/-- A new page table for a spare directory. -/
theorem Inv.walkedSpare (h : Inv s (P.withDir d) F) (hu : u < 2 ^ 20) (hw : Walked s d u s1) :
    Inv s1 (P.withDir d) F ∧ Beside d s s1 := by
  cases hw with
  | found ht => exact ⟨h, Beside.refl d s⟩
  | made ht hf =>
    refine ⟨(h.take hf).setSpare (P := P.hold _) ?_ rfl rfl rfl,
      rfl, rfl, rfl, rfl, rfl, rfl, fun e he => Function.update_of_ne he _ _⟩
    exact (h.take hf).own.addTable (holders_withDir _ P d) ht hu

theorem Own.walkedSpare (h : Own s (P.withDir d)) (hu : u < 2 ^ 20) (hw : Walked s d u s1) :
    Own s1 (P.withDir d) ∧ Wired d s s1 := by
  cases hw with
  | found ht => exact ⟨h, .refl _ d s⟩
  | made ht hf =>
    exact ⟨(h.take hf).addTable (holders_withDir _ P d) ht hu,
      .of_mem ⟨rfl, rfl, rfl, rfl, rfl, rfl, fun e he => Function.update_of_ne he _ _⟩ rfl rfl⟩

theorem mapEntry_kernel {rest : K Int} {Q : Int → Kernel → Prop} (hU : has perm PTE_U = false)
    (hG : has perm PTE_PG = false) (h : Own s (P.withDir d)) (hk : Kern (s.dirs d) u)
    (hlo : NUSER ≤ u) (hu : u < 2 ^ 20) (hS : TablesIn S (s.dirs d)) (huS : u / 1024 ∈ S)
    (hn : ∀ s', Own s' (P.withDir d) → Wired d s s' → Kern (s'.dirs d) u → Stalled S d s' →
      Q (-1) s')
    (hs : ∀ s', Own s' (P.withDir d) → Wired d s s' → Kern (s'.dirs d) (u + 1) →
      KernelMapped S d u (u + 1) s s' → wp rest E Q s') : wp (mapEntry d perm (u * PGSIZE) (g * PGSIZE) rest) E Q s := by
  have hdiv : u * PGSIZE / PGSIZE = u := by simp
  refine mapEntry_wp (by simp only [PGSIZE]; omega) ?_ ?_ ?_ <;> rw [hdiv]
  · exact hk.free u le_rfl hu
  · intro ht hnil
    refine hn _ (h.takeNone hnil) (.of_mem ⟨rfl, rfl, rfl, rfl, rfl, rfl, fun _ _ => rfl⟩ rfl rfl) hk ?_
    have := hS.missing_le huS
    rw [ht] at this
    unfold Stalled
    rw [show (s.taken []).freelist.length = 0 from rfl, show (s.taken []).dirs = s.dirs from rfl]
    simp only [Bool.not_false, Bool.toNat_true] at this
    omega
  · intro s1 hw
    obtain ⟨h1, hb⟩ := h.walkedSpare hu hw
    refine hs _ (h1.kernelPage (holders_withDir _ P d) hw.hasTable hlo)
      (hb.trans (.setDir _ d _ _)) ?_ ⟨?_, fun v h1 h2 => ?_, fun v hv => ?_⟩
    all_goals simp only [Kernel.setDir, Function.update_self]
    · refine (hk.walked hlo hw).setPage hw.hasTable ?_ ?_ <;>
        rw [show BitVec.ofNat 32 (g * PGSIZE) = pageWord g from rfl]
      · simp [has_or, has_bit, has_pageWord, hU]
      · simp [has_or, has_bit, has_pageWord, hG]
    · exact hS.walked huS hw
    · obtain rfl : v = u := by omega
      rw [PageDir.hasTable_setPage]
      exact hw.hasTable
    · rw [PageDir.hasTable_setPage]
      exact hw.keeps hv

/-- The loop of `mappages` at kernel page `u`. -/
theorem mappagesLoop_kernel (hU : has perm PTE_U = false) (hG : has perm PTE_PG = false) (n : Nat) :
    ∀ (u g : Nat) (s : Kernel), Own s (P.withDir d) → Kern (s.dirs d) u → NUSER ≤ u →
      u + n < 2 ^ 20 → g + n < 2 ^ 20 → TablesIn S (s.dirs d) →
      (∀ v, u ≤ v → v < u + n + 1 → v / 1024 ∈ S) →
      wp (mappagesLoop d perm n (u * PGSIZE) (g * PGSIZE)) E (fun r s' => Own s' (P.withDir d) ∧
        Wired d s s' ∧ Kern (s'.dirs d) (u + n + 1) ∧
        (r = 0 ∧ KernelMapped S d u (u + n + 1) s s' ∨ r = -1 ∧ Stalled S d s')) s := by
  induction n with
  | zero =>
    intro u g s h hk hlo hu _ hS hrow
    refine mapEntry_kernel hU hG h hk hlo (by omega) hS (hrow u le_rfl (by omega))
      (fun s' h' hb hk' hst => ?_) fun s' h' hb hk' hm => ?_
    · exact ⟨h', hb, hk'.mono (by omega), .inr ⟨rfl, hst⟩⟩
    · exact ⟨h', hb, hk', .inl ⟨rfl, hm⟩⟩
  | succ n ih =>
    intro u g s h hk hlo hu hg hS hrow
    refine mapEntry_kernel hU hG h hk hlo (by omega) hS (hrow u le_rfl (by omega))
      (fun s' h' hb hk' hst => ?_) fun s' h' hb hk' hm => ?_
    · exact ⟨h', hb, hk'.mono (by omega), .inr ⟨rfl, hst⟩⟩
    · have hmod : ∀ k, k + (n + 1) < 2 ^ 20 → (k * PGSIZE + PGSIZE) % 2 ^ 32 = (k + 1) * PGSIZE := by
        intro k hk
        simp only [PGSIZE]
        omega
      rw [hmod u hu, hmod g hg]
      refine wp_post (ih (u + 1) (g + 1) s' h' hk' (by omega) (by omega) (by omega) hm.within
        fun v h1 h2 => hrow v (by omega) (by omega)) ?_
      rintro r s2 ⟨h2, hb2, hk2, ⟨hr, hm2⟩ | ⟨hr, hst⟩⟩
      · refine ⟨h2, hb.trans hb2, hk2.mono (by omega), .inl ⟨hr, hm2.within, fun v h1 h2 => ?_,
          fun v hv => hm2.keeps v (hm.keeps v hv)⟩⟩
        by_cases e : v = u
        · exact hm2.keeps v (hm.tables v (by omega) (by omega))
        · exact hm2.tables v (by omega) (by omega)
      · exact ⟨h2, hb.trans hb2, hk2.mono (by omega), .inr ⟨hr, hst⟩⟩

/-- A row of `kmap` is the kernel pages `[u, u + n]`, at or above `lim`. -/
structure RowOk (k : Kmap) (lim u n g : Nat) : Prop where
  virt : k.virt = u * PGSIZE
  size : (k.physEnd + 2 ^ 32 - k.physStart) % 2 ^ 32 = (n + 1) * PGSIZE % 2 ^ 32
  phys : k.physStart = g * PGSIZE
  lo : lim ≤ u
  kernel : NUSER ≤ u
  hi : u + n < 2 ^ 20
  physHi : g + n < 2 ^ 20
  user : has k.perm PTE_U = false
  paged : has k.perm PTE_PG = false

theorem mappages_kernel {k : Kmap} {lim : Nat} (hrow : RowOk k lim u n g)
    (h : Own s (P.withDir d)) (hk : Kern (s.dirs d) lim) (hS : TablesIn S (s.dirs d))
    (hcov : ∀ v, u ≤ v → v < u + n + 1 → v / 1024 ∈ S) :
    wp (mappages d k.virt ((k.physEnd + 2 ^ 32 - k.physStart) % 2 ^ 32) k.physStart k.perm) E
      (fun r s' => Own s' (P.withDir d) ∧ Wired d s s' ∧ Kern (s'.dirs d) (u + n + 1) ∧
        (r = 0 ∧ KernelMapped S d u (u + n + 1) s s' ∨ r = -1 ∧ Stalled S d s')) s := by
  have hn : (n + 1) * PGSIZE % 2 ^ 32 = (n + 1) * PGSIZE := by
    have := hrow.hi
    have := hrow.kernel
    rw [NUSER_eq] at this
    simp only [PGSIZE]
    omega
  have hlast : (pgrounddown ((u * PGSIZE + (n + 1) * PGSIZE + 2 ^ 32 - 1) % 2 ^ 32) + 2 ^ 32 -
      pgrounddown (u * PGSIZE)) % 2 ^ 32 / PGSIZE = n := by
    have := hrow.hi
    unfold pgrounddown
    simp only [PGSIZE]
    omega
  unfold mappages
  dsimp only
  rw [hrow.size, hn, hrow.virt, hrow.phys, hlast, if_neg (by simp),
    show pgrounddown (u * PGSIZE) = u * PGSIZE by simp [pgrounddown]]
  exact mappagesLoop_kernel hrow.user hrow.paged n u g s h (hk.mono hrow.lo) hrow.kernel hrow.hi
    hrow.physHi hS hcov

/-- Rows in ascending order, the first at or above `lim`. -/
def Ascending : List Kmap → Nat → Prop
  | [], _ => True
  | k :: ks, lim => ∃ u n g, RowOk k lim u n g ∧ Ascending ks (u + n + 1)

theorem kmap_ascending : Ascending kmap NUSER := by
  have h1 := Build.data_lo
  have h2 := Build.data_hi
  have h3 := Build.data_page
  obtain ⟨q, hq⟩ : ∃ q, Build.data = q * PGSIZE := ⟨Build.data / PGSIZE, by simp only [PGSIZE] at *; omega⟩
  unfold kmap
  rw [hq] at h1 h2 ⊢
  simp only [KERNLINK, KERNBASE, EXTMEM, PHYSTOP, PGSIZE] at h1 h2
  refine ⟨NUSER, 255, 0, ?_, 524544, q - 524545, 256, ?_, q, 0x8E000 - q - 1, q - 524288, ?_,
    0xFE000, 8191, 0xFE000, ?_, trivial⟩
  · constructor <;> decide
  · refine ⟨rfl, ?_, rfl, by decide, by decide, by omega, by omega,
      has_zero _, has_zero _⟩
    simp only [KERNBASE, EXTMEM, PGSIZE]
    omega
  · refine ⟨rfl, ?_, ?_, by omega, by rw [NUSER_eq]; omega, by omega, by omega,
      by simp [has_bit], by simp [has_bit]⟩ <;>
      simp only [KERNBASE, PHYSTOP, PGSIZE] <;> omega
  · refine ⟨by decide, by decide, by decide, by omega, by decide, by decide, by decide, by decide,
      by decide⟩

/-- Page `v` is in one of the rows. -/
def Covered (ks : List Kmap) (v : Nat) : Prop :=
  ∃ k ∈ ks, k.virt ≤ v * PGSIZE ∧
    v * PGSIZE < k.virt + (k.physEnd + 2 ^ 32 - k.physStart) % 2 ^ 32

omit [Build] in
theorem RowOk.covers {k : Kmap} {lim v : Nat} (h : RowOk k lim u n g) :
    k.virt ≤ v * PGSIZE ∧ v * PGSIZE < k.virt + (k.physEnd + 2 ^ 32 - k.physStart) % 2 ^ 32 ↔
      u ≤ v ∧ v < u + n + 1 := by
  have h1 := h.hi
  have h2 := h.kernel
  rw [NUSER_eq] at h2
  rw [h.size, h.virt]
  simp only [PGSIZE]
  omega

theorem kmap_covered {v : Nat} : Covered kmap v ↔
    NUSER ≤ v ∧ v < 0x8E000 ∨ 0xFE000 ≤ v ∧ v < 2 ^ 20 := by
  have h1 := Build.data_lo
  have h2 := Build.data_hi
  have h3 := Build.data_page
  unfold Covered kmap
  simp only [List.mem_cons, List.not_mem_nil, or_false, exists_eq_or_imp, exists_eq_left]
  rw [NUSER_eq]
  simp only [KERNLINK, KERNBASE, EXTMEM, PHYSTOP, PGSIZE, DEVSPACE] at *
  omega

theorem mapKernel_own (ks : List Kmap) : ∀ (lim : Nat) (s : Kernel), Ascending ks lim →
    Own s (P.withDir d) → Kern (s.dirs d) lim → TablesIn S (s.dirs d) →
    (∀ v, Covered ks v → v / 1024 ∈ S) →
    wp (mapKernel d ks) E (fun r s' => Own s' (P.withDir d) ∧ Wired d s s' ∧
      (∃ lim, Kern (s'.dirs d) lim) ∧
      (r = 0 ∧ TablesIn S (s'.dirs d) ∧ (∀ v, Covered ks v → (s'.dirs d).hasTable v = true) ∧
          (∀ v, (s.dirs d).hasTable v = true → (s'.dirs d).hasTable v = true) ∨
        r = -1 ∧ Stalled S d s')) s := by
  induction ks with
  | nil =>
    intro lim s _ h hk hS _
    refine ⟨h, Touches.refl _ d s, ⟨lim, hk⟩, .inl ⟨rfl, hS, ?_, fun _ hv => hv⟩⟩
    rintro v ⟨k, hk, -⟩
    cases hk
  | cons k ks ih =>
    rintro lim s ⟨u, n, g, hrow, hks⟩ h hk hS hcov
    rw [mapKernel]
    refine wp_seq (wp_post (mappages_kernel hrow h hk hS fun v h1 h2 =>
      hcov v ⟨k, List.mem_cons_self, hrow.covers.2 ⟨h1, h2⟩⟩) ?_)
    rintro r s1 ⟨h1, hb1, hk1, ⟨rfl, hm⟩ | ⟨rfl, hst⟩⟩
    · rw [if_neg (by decide)]
      refine wp_post (ih _ s1 hks h1 hk1 hm.within fun v hv => ?_) ?_
      · obtain ⟨k', hk', hin⟩ := hv
        exact hcov v ⟨k', List.mem_cons_of_mem _ hk', hin⟩
      · rintro r s2 ⟨h2, hb2, hk2, ⟨hr, hin, htab, hkeep⟩ | ⟨hr, hst⟩⟩
        · refine ⟨h2, hb1.trans hb2, hk2, .inl ⟨hr, hin, fun v hv => ?_,
            fun v hv => hkeep v (hm.keeps v hv)⟩⟩
          obtain ⟨k', hk', hrow'⟩ := hv
          obtain rfl | hk' := List.mem_cons.1 hk'
          · obtain ⟨h3, h4⟩ := hrow.covers.1 hrow'
            exact hkeep v (hm.tables v h3 h4)
          · exact htab v ⟨k', hk', hrow'⟩
        · exact ⟨h2, hb1.trans hb2, hk2, .inr ⟨hr, hst⟩⟩
    · rw [if_pos (by decide)]
      exact ⟨h1, hb1, ⟨_, hk1⟩, .inr ⟨rfl, hst⟩⟩

theorem kmap_kernelTables {v : Nat} (h : Covered kmap v) : v / 1024 ∈ kernelTables := by
  rw [kmap_covered, NUSER_eq] at h
  rw [kernelTables, mem_union, mem_Ico, mem_Ico]
  omega

theorem covered_of_kernelTables {i : Nat} (h : i ∈ kernelTables) :
    i < NPDENTRIES ∧ Covered kmap (i * 1024) := by
  rw [kernelTables, mem_union, mem_Ico, mem_Ico] at h
  rw [kmap_covered, NUSER_eq]
  simp only [NPDENTRIES]
  omega

/-- What `setupkvm` returns: nothing for want of 65 frames, or a directory with the kernel's page
tables and no user pages, made of 65 frames. -/
theorem setupkvm_own (h : Own s P) :
    wp setupkvm E (fun r s' => match r with
      | none => Own s' P ∧ s.freelist.length < 65 ∧ ∃ d, Touches (· ∈ s.freelist) d s s' ∧
        ∀ p < NPROC, counted s P.skip p = true → (s.proc p).pgdir ≠ d
      | some d => Own s' (P.withDir d) ∧ Wired d s s' ∧ DirOk (s'.dirs d) ∧
        (∀ u < NUSER, (s'.dirs d).pte u = 0) ∧ OnlyKernel (s'.dirs d) ∧
        s'.freelist.length + 65 = s.freelist.length) s := by
  unfold setupkvm
  refine wp_seq (kalloc_wp (fun hnil => ?_) fun d l hfl => wp_seq (modify_wp ?_))
  · refine ⟨h.takeNone hnil, ?_, 0, .of_mem ⟨rfl, rfl, rfl, rfl, rfl, rfl, fun _ _ => rfl⟩ rfl rfl,
      fun p hp hc => h.pgdir_pos hp hc⟩
    rw [hnil]
    decide
  · rw [if_neg (by decide)]
    have h1 : Own ((s.taken l).setDir d ⟨fun _ => 0, fun _ _ => 0⟩) (P.withDir d) :=
      (h.take hfl).newDir
    have hk1 : Kern (((s.taken l).setDir d ⟨fun _ => 0, fun _ _ => 0⟩).dirs d) NUSER := by
      simp only [Kernel.setDir, Function.update_self]
      exact Kern.empty _
    have hb1 : Wired d s ((s.taken l).setDir d ⟨fun _ => 0, fun _ _ => 0⟩) :=
      .of_mem ⟨rfl, rfl, rfl, rfl, rfl, rfl, fun e he => Function.update_of_ne he _ _⟩ rfl rfl
    have hlen : s.freelist.length =
        ((s.taken l).setDir d ⟨fun _ => 0, fun _ _ => 0⟩).freelist.length + 1 := by rw [hfl]; rfl
    have hnone : ∀ i, has ((((s.taken l).setDir d ⟨fun _ => 0, fun _ _ => 0⟩).dirs d).pde i)
        PTE_P = false := fun i => by
      simp only [Kernel.setDir, Function.update_self]
      exact has_zero _
    generalize (s.taken l).setDir d ⟨fun _ => 0, fun _ _ => 0⟩ = s1 at h1 hk1 hb1 hlen hnone ⊢
    have hzero : tablePages (s1.dirs d) = 0 := tablePages_zero fun i _ => hnone i
    refine wp_seq (wp_post (mapKernel_own (S := kernelTables) kmap NUSER _ kmap_ascending h1 hk1
      (fun i _ hp => by rw [hnone] at hp; cases hp) fun v hv => kmap_kernelTables hv) ?_)
    rintro r s2 ⟨h2, hb2, ⟨lim, hk2⟩, hres⟩
    have hb := hb1.trans hb2
    have hbal := h1.spare_balance h2 hb2.toBeside
    rw [hzero, hk1.presentPages, hk2.presentPages] at hbal
    obtain ⟨rfl, hin, htab, -⟩ | ⟨rfl, hst⟩ := hres
    · rw [if_neg (by decide)]
      have honly : OnlyKernel (s2.dirs d) := fun i hi => by
        refine ⟨hin i hi, fun hmem => ?_⟩
        have := htab _ (covered_of_kernelTables hmem).2
        rwa [PageDir.hasTable, Nat.mul_div_cancel _ (by decide)] at this
      have hcard : tablePages (s2.dirs d) = 64 := by
        rw [← card_kernelTables]
        exact hin.card_eq fun i hi =>
          ⟨(covered_of_kernelTables hi).1, (honly i (covered_of_kernelTables hi).1).2 hi⟩
      refine wp_seq (modify_wp ⟨fun f => ?_, hb.trans (.setDir _ d _ _), ?_, ?_, ?_, ?_⟩)
      · have h3 := h2.setDir (holders_withDir s2 P d) (s2.dirs d).hideKernel f
        rw [dirCount_hideKernel] at h3
        omega
      · simp only [Kernel.setDir, Function.update_self]
        exact hk2.hide
      · simp only [Kernel.setDir, Function.update_self]
        rw [PageDir.pte_hideKernel]
        exact fun u hu => hk2.pte_user hu
      · simp only [Kernel.setDir, Function.update_self]
        intro i hi
        rw [((s2.dirs d).pde_hideKernel i).1]
        exact honly i hi
      · rw [show (Kernel.setDir s2 d _).freelist = s2.freelist from rfl]
        omega
    · rw [if_pos (by decide)]
      refine wp_seq (wp_post (freevm_own h2 hk2.exclusive) ?_)
      rintro _ s3 ⟨h3, hb3⟩
      refine ⟨h3, ?_, d, (hb.mono fun _ hf => hf.elim).trans
        (hb3.mono fun f hf => h.was_free h2 hb.toBeside hf), fun p hp hc => ?_⟩
      · unfold Stalled at hst
        rw [card_kernelTables] at hst
        omega
      · have := h2.spare_ne (p := p) hp (by unfold counted at hc ⊢; rwa [hb.proc])
        rwa [hb.proc] at this

theorem setupkvm_inv (h : Inv s P F) :
    wp setupkvm E (fun r s' => match r with
      | none => Inv s' P F ∧ Aside P s s' ∧ s.freelist.length < 65
      | some d => Inv s' (P.withDir d) F ∧ Beside d s s' ∧ DirOk (s'.dirs d) ∧
        (∀ u < NUSER, (s'.dirs d).pte u = 0) ∧ OnlyKernel (s'.dirs d) ∧
        s'.freelist.length + 65 = s.freelist.length) s := by
  refine wp_post (setupkvm_own h.own) ?_
  rintro (_ | d) s' hres
  · obtain ⟨hown, hlen, d, hw, hd⟩ := hres
    exact ⟨h.within hw hd (fun f hf => .inl hf) hown rfl rfl rfl, ⟨d, hw.toBeside, hd⟩, hlen⟩
  · obtain ⟨hown, hw, hrest⟩ := hres
    refine ⟨h.within hw (fun p hp hc => ?_) (fun f hf => hf.elim) hown rfl rfl rfl, hw.toBeside, hrest⟩
    have := hown.spare_ne (p := p) hp (by unfold counted at hc ⊢; rwa [hw.proc])
    rwa [hw.proc] at this

end

end Xv6
