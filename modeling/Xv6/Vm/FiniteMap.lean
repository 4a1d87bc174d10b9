import Xv6.Vm.Setup
import Xv6.Vm.Small

/-!
# `mappages` on any directory

A range of pages that are not present is added to the map that `walkpgdir` reads, and nothing else
of the map changes, also when there is no memory for a page table. No invariant of the kernel is
needed for it. The rows of `kmap` are such ranges of an empty directory.
-/

namespace Xv6

open Lib

/-- What `walkpgdir` finds for `va`, if the page is present. -/
def translation (s : Kernel) (d va : Nat) : Option Word :=
  match (do
      match ← walkpgdir d va false with
      | none => pure none
      | some q => do
        let w ← loadPte q
        pure (if has w PTE_P then some w else none) : K (Option Word)) s with
  | .ok (r, _) => r
  | .error _ => none

theorem translation_eq {s : Kernel} {d va : Nat} (hva : va < 2 ^ 32) : translation s d va =
    if has ((s.dirs d).pte (va / PGSIZE)) PTE_P then some ((s.dirs d).pte (va / PGSIZE)) else none := by
  have hwp : wp (do
      match ← walkpgdir d va false with
      | none => pure none
      | some q => do
        let w ← loadPte q
        pure (if has w PTE_P then some w else none) : K (Option Word)) (fun _ => False)
      (fun r _ => r = if has ((s.dirs d).pte (va / PGSIZE)) PTE_P then some ((s.dirs d).pte (va / PGSIZE))
        else none) s := by
    by_cases ht : (s.dirs d).hasTable (va / PGSIZE) = true
    · exact wp_seq (walkpgdir_found hva ht (wp_seq (loadPte_wp ht rfl)))
    · rw [Bool.not_eq_true] at ht
      refine wp_seq (walkpgdir_missing hva ht ?_)
      rw [PageDir.pte_of_missing ht, has_zero]
      rfl
  obtain ⟨r, s', hr, he⟩ := exists_of_wp hwp
  unfold translation
  rw [hr]
  exact he

/-- The pages from `lo` to `hi` may have changed. -/
structure MapsWithin (d lo hi : Nat) (s s' : Kernel) : Prop where
  pte : ∀ v, v < lo ∨ hi ≤ v → (s'.dirs d).pte v = (s.dirs d).pte v
  dirs : ∀ e, e ≠ d → s'.dirs e = s.dirs e

/-- The pages from `lo` to `hi` are mapped to the frames from `pa` on. -/
def MapsTo (perm : Word) (pa d lo hi : Nat) (s : Kernel) : Prop :=
  ∀ v, lo ≤ v → v < hi → (s.dirs d).pte v = BitVec.ofNat 32 (pa + (v - lo) * PGSIZE) ||| perm ||| PTE_P

section

variable {E : String → Prop} {s s1 s2 : Kernel} {perm : Word} {d u n pa lo hi : Nat}

theorem MapsWithin.trans {mid : Nat} (h1 : MapsWithin d lo mid s s1) (h2 : MapsWithin d mid hi s1 s2)
    (hlm : lo ≤ mid) (hmh : mid ≤ hi) : MapsWithin d lo hi s s2 :=
  ⟨fun v hv => (h2.pte v (by omega)).trans (h1.pte v (by omega)), fun e he => (h2.dirs e he).trans (h1.dirs e he)⟩

/-- One round of the loop. -/
theorem mapEntry_maps {rest : K Int} {Q : Int → Kernel → Prop} (hu : u < 2 ^ 20)
    (hp : has ((s.dirs d).pte u) PTE_P = false) (hn : ∀ s', MapsWithin d u (u + 1) s s' → Q (-1) s')
    (hs : ∀ s', MapsWithin d u (u + 1) s s' → MapsTo perm pa d u (u + 1) s' → wp rest E Q s') :
    wp (mapEntry d perm (u * PGSIZE) pa rest) E Q s := by
  have hdiv : u * PGSIZE / PGSIZE = u := Nat.mul_div_cancel u (by decide)
  refine mapEntry_wp (by simp only [PGSIZE]; omega) (by rwa [hdiv]) (fun _ _ => ?_) fun s1 hw => ?_
  · exact hn _ ⟨fun _ _ => rfl, fun _ _ => rfl⟩
  · rw [hdiv] at hw ⊢
    have hpte := PageDir.pte_setPage hw.hasTable (BitVec.ofNat 32 pa ||| perm ||| PTE_P)
    have hself : ((s1.setDir d ((s1.dirs d).setPage u (BitVec.ofNat 32 pa ||| perm ||| PTE_P))).dirs d).pte =
        Function.update (s.dirs d).pte u (BitVec.ofNat 32 pa ||| perm ||| PTE_P) := by
      rw [← hw.pte, ← hpte]
      exact congrArg PageDir.pte (Function.update_self ..)
    refine hs _ ⟨fun v hv => ?_, fun e he => ?_⟩ fun v h1 h2 => ?_
    · rw [hself, Function.update_of_ne (by omega)]
    · exact (Function.update_of_ne he ..).trans (hw.frame.2.2.2.2.2.2.2.2 e he)
    · obtain rfl : v = u := by omega
      rw [hself, Function.update_self, Nat.sub_self, Nat.zero_mul, Nat.add_zero]

/-- The loop maps the pages in order, until there is no memory for a page table. -/
theorem mappagesLoop_maps : ∀ (n u pa : Nat) (s : Kernel), u + n < 2 ^ 20 →
    (∀ v, u ≤ v → v < u + n + 1 → has ((s.dirs d).pte v) PTE_P = false) →
    wp (mappagesLoop d perm n (u * PGSIZE) pa) E (fun r s' => MapsWithin d u (u + n + 1) s s' ∧
      (r = 0 ∧ MapsTo perm pa d u (u + n + 1) s' ∨ r = -1)) s := by
  intro n
  induction n with
  | zero =>
    intro u pa s hu hfree
    refine mapEntry_maps (by omega) (hfree u le_rfl (by omega)) (fun s' h => ⟨h, .inr rfl⟩) fun s' h hm => ?_
    exact ⟨h, .inl ⟨rfl, hm⟩⟩
  | succ n ih =>
    intro u pa s hu hfree
    refine mapEntry_maps (by omega) (hfree u le_rfl (by omega)) (fun s' h => ?_) fun s1 h1 hm1 => ?_
    · exact ⟨⟨fun v hv => h.pte v (by omega), h.dirs⟩, .inr rfl⟩
    have hnext : (u * PGSIZE + PGSIZE) % 2 ^ 32 = (u + 1) * PGSIZE := by
      simp only [PGSIZE]
      omega
    rw [hnext]
    refine wp_post (ih (u + 1) _ s1 (by omega) fun v hlo hhi => ?_) ?_
    · rw [h1.pte v (by omega)]
      exact hfree v (by omega) (by omega)
    · rintro r s2 ⟨h2, hr⟩
      have hend : u + 1 + n + 1 = u + (n + 1) + 1 := by omega
      rw [hend] at h2 hr
      refine ⟨h1.trans h2 (by omega) (by omega), hr.imp_left fun ⟨h0, hm2⟩ => ⟨h0, fun v hlo hhi => ?_⟩⟩
      by_cases he : v = u
      · subst he
        rw [h2.pte v (by omega)]
        exact hm1 v le_rfl (by omega)
      · -- The address is taken modulo `2 ^ 32` in each round.
        have hword : BitVec.ofNat 32 ((pa + PGSIZE) % 2 ^ 32 + (v - (u + 1)) * PGSIZE) =
            BitVec.ofNat 32 (pa + (v - u) * PGSIZE) := by
          apply BitVec.eq_of_toNat_eq
          rw [BitVec.toNat_ofNat, BitVec.toNat_ofNat, show v - u = (v - (u + 1)) + 1 by omega]
          simp only [PGSIZE]
          omega
        rw [hm2 v (by omega) hhi, hword]

theorem mappages_maps (hu : u + n < 2 ^ 20)
    (hfree : ∀ v, u ≤ v → v < u + n + 1 → has ((s.dirs d).pte v) PTE_P = false) :
    wp (mappages d (u * PGSIZE) ((n + 1) * PGSIZE) pa perm) E (fun r s' => MapsWithin d u (u + n + 1) s s' ∧
      (r = 0 ∧ MapsTo perm pa d u (u + n + 1) s' ∨ r = -1)) s := by
  have hlast : (pgrounddown ((u * PGSIZE + (n + 1) * PGSIZE + 2 ^ 32 - 1) % 2 ^ 32) + 2 ^ 32 -
      pgrounddown (u * PGSIZE)) % 2 ^ 32 / PGSIZE = n := by
    unfold pgrounddown
    simp only [PGSIZE]
    omega
  unfold mappages
  dsimp only
  rw [hlast, if_neg (by simp), show pgrounddown (u * PGSIZE) = u * PGSIZE by simp [pgrounddown]]
  exact mappagesLoop_maps n u pa s hu hfree

end

/-! ## `setupkvm` -/

section

variable [Build] {s : Kernel} {d : Nat}

/-- The panics other than the one of `mappages` on a page that is present. -/
abbrev NotRemap (e : String) : Prop := e ≠ "remap"

theorem kfree_notRemap {f : Nat} : wp (kfree f) NotRemap (fun _ _ => True) s := by
  unfold kfree
  exact wp_seq (modify_wp (wp_ite.2 ⟨fun _ => modify_wp trivial, fun _ => (by decide : NotRemap "kfree")⟩))

theorem deallocLoop_notRemap : ∀ (fuel a : Nat) (s : Kernel),
    wp (deallocLoop d KERNBASE fuel a) NotRemap (fun _ _ => True) s := by
  intro fuel
  induction fuel with
  | zero => exact fun _ _ => (by decide : NotRemap "deallocuvm: out of fuel")
  | succ fuel ih =>
    intro a s
    unfold deallocLoop
    refine wp_ite.2 ⟨fun _ => ?_, fun _ => trivial⟩
    refine wp_seq (wp_post (show wp (walkpgdir d a false) NotRemap (fun _ _ => True) s from ?_) ?_)
    · unfold walkpgdir
      exact wp_seq (get_wp (wp_ite.2 ⟨fun _ => trivial, fun _ => trivial⟩))
    · rintro (_ | q) s1 -
      · exact ih _ s1
      · refine wp_seq (wp_post (show wp (deallocPage KERNBASE a q) NotRemap (fun _ _ => True) s1 from ?_)
          fun _ s2 _ => ih _ s2)
        unfold deallocPage
        refine wp_seq (wp_seq (get_wp ?_))
        refine wp_seq (get_wp (wp_ite.2 ⟨fun _ => ?_, fun _ => wp_ite.2 ⟨fun _ => ?_, fun _ => trivial⟩⟩))
        · exact wp_ite.2 ⟨fun hne => absurd rfl hne, fun _ => trivial⟩
        · refine wp_ite.2 ⟨fun _ => (by decide : NotRemap "kfree"), fun _ => ?_⟩
          rw [if_neg (by simp)]
          exact wp_seq (wp_post kfree_notRemap fun _ _ _ => modify_wp trivial)

theorem freevm_notRemap : wp (freevm d) NotRemap (fun _ _ => True) s := by
  have htables : ∀ (n i : Nat) (s : Kernel), wp (freeTables d n i) NotRemap (fun _ _ => True) s := by
    intro n
    induction n with
    | zero => exact fun _ _ => trivial
    | succ n ih =>
      intro i s
      unfold freeTables
      refine wp_seq (get_wp ?_)
      split
      · exact wp_seq (wp_post kfree_notRemap fun _ s1 _ => ih _ s1)
      · exact ih _ s
  have huser : wp (deallocuvm d KERNBASE 0) NotRemap (fun _ _ => True) s := by
    unfold deallocuvm
    rw [if_neg (by decide)]
    exact wp_seq (wp_post (deallocLoop_notRemap _ _ s) fun _ _ _ => trivial)
  unfold freevm
  refine wp_ite.2 ⟨fun _ => (by decide : NotRemap "freevm: no pgdir"), fun _ => wp_seq (wp_post huser fun _ s1 _ => ?_)⟩
  exact wp_seq (wp_post (htables NPDENTRIES 0 s1) fun _ s2 _ => kfree_notRemap)

omit [Build] in
/-- The rows ascend, so no page of a row is present. -/
theorem mapKernel_notRemap : ∀ (ks : List Kmap) (lim : Nat) (s : Kernel), Ascending ks lim →
    (∀ v, lim ≤ v → v < 2 ^ 20 → has ((s.dirs d).pte v) PTE_P = false) →
    wp (mapKernel d ks) NotRemap (fun _ _ => True) s
  | [], _, _, _, _ => trivial
  | k :: ks, lim, s, ⟨u, n, g, hrow, hks⟩, hfree => by
    have hhi := hrow.hi
    have hkern := hrow.kernel
    have hlo := hrow.lo
    have hsize : (n + 1) * PGSIZE % 2 ^ 32 = (n + 1) * PGSIZE := by
      rw [NUSER_eq] at hkern
      simp only [PGSIZE]
      omega
    rw [mapKernel, hrow.size, hsize, hrow.virt]
    refine wp_seq (wp_post (mappages_maps hhi fun v h1 h2 => hfree v (by omega) (by omega)) ?_)
    rintro r s1 ⟨hw, -⟩
    refine wp_ite.2 ⟨fun _ => trivial, fun _ => mapKernel_notRemap ks _ s1 hks fun v h1 h2 => ?_⟩
    rw [hw.pte v (.inr h1)]
    exact hfree v (by omega) h2

theorem setupkvm_notRemap : wp setupkvm NotRemap (fun _ _ => True) s := by
  unfold setupkvm
  refine wp_seq (kalloc_wp (fun _ => trivial) fun d l _ => ?_)
  refine wp_seq (modify_wp (wp_ite.2 ⟨fun _ => (by decide : NotRemap "PHYSTOP too high"), fun _ => wp_seq (wp_post
    (mapKernel_notRemap kmap NUSER _ kmap_ascending fun v _ _ => ?_) fun r s1 _ => ?_)⟩))
  · have hdir : ((s.taken l).setDir d ⟨fun _ => 0, fun _ _ => 0⟩).dirs d = ⟨fun _ => 0, fun _ _ => 0⟩ :=
      Function.update_self ..
    rw [hdir]
    exact (Kern.empty 0).free v (Nat.zero_le _) ‹_›
  · exact wp_ite.2 ⟨fun _ => wp_seq (wp_post freevm_notRemap fun _ _ _ => trivial),
      fun _ => wp_seq (modify_wp trivial)⟩

/-- `mappages` of a range that is not present returns. On success the range is mapped page by page,
and in any case nothing else is. `setupkvm` does not map a page twice. -/
theorem mappages_finite_map :
    (∀ (s : Kernel) (d va size pa : Nat) (perm : Word), va % PGSIZE = 0 → size % PGSIZE = 0 → 0 < size →
      va + size ≤ 2 ^ 32 → (∀ a, va ≤ a → a < va + size → translation s d a = none) →
      ∃ r s', mappages d va size pa perm s = .ok (r, s') ∧ (r = 0 ∨ r = -1) ∧
        (r = 0 → ∀ a, va ≤ a → a < va + size → translation s' d a =
          some (BitVec.ofNat 32 (pa + (pgrounddown a - va)) ||| perm ||| PTE_P)) ∧
        (∀ a, a < 2 ^ 32 → a < va ∨ va + size ≤ a → translation s' d a = translation s d a) ∧
        ∀ e, e ≠ d → s'.dirs e = s.dirs e) ∧
    ∀ (s : Kernel) (e : String), setupkvm s = .error e → e ≠ "remap" := by
  refine ⟨fun s d va size pa perm hva hsize hpos htop hnone => ?_, fun s e he => ?_⟩
  · obtain ⟨u, rfl⟩ : ∃ u, va = u * PGSIZE := ⟨va / PGSIZE, (Nat.div_mul_cancel (Nat.dvd_of_mod_eq_zero hva)).symm⟩
    obtain ⟨n, rfl⟩ : ∃ n, size = (n + 1) * PGSIZE := by
      refine ⟨size / PGSIZE - 1, ?_⟩
      simp only [PGSIZE] at hsize ⊢
      omega
    have hu : u + n < 2 ^ 20 := by
      simp only [PGSIZE] at htop
      omega
    have hfree : ∀ v, u ≤ v → v < u + n + 1 → has ((s.dirs d).pte v) PTE_P = false := by
      intro v h1 h2
      have hdiv : v * PGSIZE / PGSIZE = v := Nat.mul_div_cancel v (by decide)
      have hlt : v * PGSIZE < u * PGSIZE + (n + 1) * PGSIZE := by
        rw [← Nat.add_mul]
        exact Nat.mul_lt_mul_of_pos_right h2 (by decide)
      have := hnone (v * PGSIZE) (Nat.mul_le_mul_right _ h1) hlt
      rw [translation_eq (hlt.trans_le htop), hdiv] at this
      by_contra hp
      rw [if_pos (by simpa using hp)] at this
      cases this
    have hwp : wp (mappages d (u * PGSIZE) ((n + 1) * PGSIZE) pa perm) (fun _ => False) _ s :=
      mappages_maps hu hfree
    obtain ⟨r, s', hr, hw, hres⟩ := exists_of_wp hwp
    refine ⟨r, s', hr, hres.imp_left And.left, fun h0 a h1 h2 => ?_, fun a ha hout => ?_, hw.dirs⟩
    · have hm : MapsTo perm pa d u (u + n + 1) s' := by
        rcases hres with ⟨-, hm⟩ | hr1
        · exact hm
        · rw [h0] at hr1
          exact absurd hr1 (by decide)
      have hin : u ≤ a / PGSIZE ∧ a / PGSIZE < u + n + 1 := by
        rw [← Nat.add_mul] at h2
        exact ⟨(Nat.le_div_iff_mul_le (by decide)).2 h1, (Nat.div_lt_iff_lt_mul (by decide)).2 h2⟩
      have hpte := hm (a / PGSIZE) hin.1 hin.2
      have hoff : (a / PGSIZE - u) * PGSIZE = pgrounddown a - u * PGSIZE := by
        unfold pgrounddown
        exact Nat.sub_mul ..
      rw [hoff] at hpte
      rw [translation_eq (h2.trans_le htop), hpte, if_pos]
      rw [has_or _ _ (by decide), has_bit (by decide) (by decide), Bool.or_eq_true]
      exact .inr (by decide)
    · rw [translation_eq ha, translation_eq ha, hw.pte]
      rw [← Nat.add_mul] at hout
      exact hout.imp (Nat.div_lt_iff_lt_mul (by decide)).2 (Nat.le_div_iff_mul_le (by decide)).2
  · exact stop_of_wp setupkvm_notRemap he

end

namespace TopPage

/-- A machine with one free frame and nothing mapped. -/
def start : Kernel where
  mem := fun _ _ => 0
  dirs := fun _ => zeroDir
  freelist := [2]
  totalFreePages := 1
  proc := fun _ => emptyProc
  initproc := 0
  nextpid := 1
  cur := 0
  cr3 := 1
  files := fun _ => none
  cons := []

end TopPage

/-- The last page of the address space. -/
theorem mappages_top_page : ∃ r s', mappages 1 (2 ^ 32 - PGSIZE) PGSIZE DEVSPACE PTE_W TopPage.start = .ok (r, s') ∧
    (r = 0 → translation s' 1 (2 ^ 32 - PGSIZE) = some (BitVec.ofNat 32 DEVSPACE ||| PTE_W ||| PTE_P)) := by
  have hnone : ∀ a, 2 ^ 32 - PGSIZE ≤ a → a < 2 ^ 32 - PGSIZE + PGSIZE → translation TopPage.start 1 a = none := by
    intro a _ ha
    rw [translation_eq (ha.trans_le (by decide))]
    exact if_neg (by rw [PageDir.pte_of_missing (by exact has_zero _), has_zero]; decide)
  obtain ⟨r, s', hr, -, hmap, -⟩ := (@mappages_finite_map (smallBuild .fifo)).1 TopPage.start 1 (2 ^ 32 - PGSIZE)
    PGSIZE DEVSPACE PTE_W (by decide) (by decide) (by decide) (by decide) hnone
  exact ⟨r, s', hr, fun h0 => hmap h0 _ (Nat.le_refl _) (by decide)⟩

end Xv6
