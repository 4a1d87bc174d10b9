import Xv6.Exec.Crowd

/-!
# The swap state of the new program

`exec` should leave the caller with tables that agree with its new directory. That is so exactly for
images of at most `MAX_PSYC_PAGES` pages. A larger image has all its pages present in the new
directory, more than the tables can list as resident: what was evicted while it was loaded were pages
of the old directory.
-/

namespace Xv6

open Lib

section

variable [Build] {E : String → Prop} {s s' : Kernel} {c d n guard k : Nat} {f : ProgFile}

/-! ## After a crowded load -/

theorem freeTables_beside (d : Nat) : ∀ (n i : Nat) (s : Kernel),
    wp (freeTables d n i) Anyway (fun _ => Beside d s) s
  | 0, _, s => .refl d s
  | n + 1, i, s => by
    rw [freeTables]
    refine wp_seq (get_wp ?_)
    split
    · refine wp_seq (kfree_any trivial (wp_post (freeTables_beside d n (i + 1) _) fun _ s' h => ?_))
      exact (show Beside d s (s.freed _) from ⟨rfl, rfl, rfl, rfl, rfl, rfl, fun _ _ => rfl⟩).trans h
    · exact freeTables_beside d n (i + 1) s

/-- `freevm` concerns its directory only. -/
theorem freevm_beside (d : Nat) (s : Kernel) : wp (freevm d) Anyway (fun _ => Beside d s) s := by
  have hfreed : ∀ (t : Kernel) (g : Nat), Beside d t (t.freed g) := fun _ _ =>
    ⟨rfl, rfl, rfl, rfl, rfl, rfl, fun _ _ => rfl⟩
  have hstore : ∀ (t : Kernel) (D : PageDir), Beside d t (t.setDir d D) := fun t D =>
    ⟨rfl, rfl, rfl, rfl, rfl, rfl, fun e he => Function.update_of_ne he _ _⟩
  have hpages : wp (deallocuvm d KERNBASE 0) Anyway (fun _ => Beside d s) s := by
    unfold deallocuvm
    rw [if_neg (by decide)]
    have hloop := deallocLoop_wp (E := Anyway) (I := fun _ => Beside d s) (d := d) (b := KERNBASE) le_rfl
      (fun _ _ _ h _ => h) (fun v t _ h ht => ?_) (KERNBASE / PGSIZE + 1) 0 s (Nat.zero_le _) (.refl d s)
      (by decide)
    · rw [Nat.zero_mul] at hloop
      exact wp_seq (wp_post hloop fun _ _ h => h)
    · unfold deallocPage
      refine wp_seq (loadPte_wp ht (wp_seq (get_wp ?_)))
      split
      · exact h
      · split
        · split
          · exact trivial
          · exact wp_seq (kfree_any trivial (storePte_wp ((h.trans (hfreed t _)).trans (hstore _ _))))
        · exact h
  unfold freevm
  split
  · exact trivial
  · refine wp_seq (wp_post hpages fun _ s1 h1 => wp_seq (wp_post (freeTables_beside d _ _ s1) fun _ s2 h2 => ?_))
    exact kfree_any trivial ((h1.trans h2).trans (hfreed s2 d))

omit [Build] in
/-- Without arguments four words go on the stack. -/
theorem Crowd.buildStack (h : Crowd s c d n guard k) (hlo : 2 ≤ n) (hhi : n < 1024) (hg : n - 1 ≠ guard) :
    wp (buildStack d (n * PGSIZE) []) Anyway (fun r s' => r = some (n * PGSIZE - 16) ∧ Crowd s' c d n guard k) s := by
  have hesp : (n * PGSIZE + 2 ^ 32 - (3 + ([] : List Nat).length + 1) * 4) % 2 ^ 32 = n * PGSIZE - 16 := by
    simp only [PGSIZE, List.length_nil]
    omega
  have hva0 : pgrounddown (n * PGSIZE - 16) = (n - 1) * PGSIZE := by
    unfold pgrounddown
    simp only [PGSIZE]
    omega
  have hdiv : (n - 1) * PGSIZE / PGSIZE = n - 1 := Nat.mul_div_cancel _ (by decide)
  have hun : n - 1 < NUSER := by rw [NUSER_eq]; omega
  obtain ⟨hp, hus⟩ := h.pages (n - 1) (by omega) (by omega)
  have ht := h.hasTable (u := n - 1) (by omega) (by omega)
  have hroom : PGSIZE - (n * PGSIZE - 16 - (n - 1) * PGSIZE) = 16 := by
    simp only [PGSIZE]
    omega
  unfold Xv6.buildStack
  refine wp_seq ?_
  rw [pushArgs]
  change wp (copyout d ((n * PGSIZE + 2 ^ 32 - (3 + ([] : List Nat).length + 1) * 4) % 2 ^ 32) _ 16 >>= _) _ _ _
  rw [hesp]
  unfold copyout
  rw [copyoutLoop, if_pos (by decide)]
  dsimp only
  rw [hva0]
  unfold uva2ka
  refine wp_seq (wp_seq (wp_seq (walkpgdir_found (page_lt_word hun) (by rwa [hdiv]) ?_)))
  rw [hdiv]
  refine wp_seq (loadPte_wp ht ?_)
  rw [hp, hus, decide_eq_true hg]
  refine wp_seq (modify_wp ?_)
  rw [hroom, ite_self, Nat.sub_self, copyoutLoop, if_neg (by decide)]
  exact ⟨rfl, h.setMem _ _⟩

/-- A crowded image is started with all its pages present. -/
theorem Crowd.startImage (h : Crowd s c d n guard k) (hlo : 2 ≤ n) (hhi : n < 1024) (hg : n - 1 ≠ guard) (entry : Word) :
    wp (startImage ⟨entry, c, d, n * PGSIZE⟩ []) Anyway (fun r s' => r ≠ none ∧ (s'.proc c).pgdir = d ∧
      ∀ u, 1 ≤ u → u < n → has ((s'.dirs d).pte u) PTE_P = true) s := by
  unfold Xv6.startImage
  refine wp_seq (wp_post (h.buildStack hlo hhi hg) ?_)
  rintro _ s1 ⟨rfl, h1⟩
  have hself : (s1.setProc c { s1.proc c with pgdir := d, sz := n * PGSIZE }).proc c =
      { s1.proc c with pgdir := d, sz := n * PGSIZE } := Function.update_self _ _ _
  unfold commitImage switchuvm
  refine wp_seq (wp_seq (getProc_wp (wp_seq (setProc_wp (wp_seq (wp_seq (getProc_wp ?_)))))))
  rw [hself]
  split
  · exact trivial
  split
  · exact trivial
  refine modify_wp (wp_post (freevm_beside _ _) ?_)
  rintro _ s2 h2
  have hproc : s2.proc c = { s1.proc c with pgdir := d, sz := n * PGSIZE } :=
    (congrFun h2.proc c).trans hself
  have hdir : s2.dirs d = s1.dirs d := h2.dirs d h1.ne.symm
  refine ⟨nofun, by rw [hproc], fun u hu1 hu2 => ?_⟩
  rw [hdir]
  exact (h1.pages u hu1 hu2).1

/-- Tables that agree with a directory list at most `MAX_PSYC_PAGES` of its pages as present. -/
theorem Agree.not_crowded {q : Proc} {pte : Nat → Word} (h : Agree q pte fun _ => 0)
    (hp : ∀ u, 1 ≤ u → u < MAX_PSYC_PAGES + 2 → has (pte u) PTE_P = true) : False := by
  have hsub : (List.range' 1 (MAX_PSYC_PAGES + 1)).map (· * PGSIZE) ⊆ resident q := by
    intro a ha
    obtain ⟨u, hu, rfl⟩ := List.mem_map.1 ha
    obtain ⟨h1, h2⟩ := List.mem_range'_1.1 hu
    have hcount := h.inMem u (by rw [NUSER_eq]; simp only [MAX_PSYC_PAGES] at h2; omega)
    rw [hp u h1 (by omega)] at hcount
    exact List.count_pos_iff.1 (by rw [Bool.toNat_true] at hcount; omega)
  have hnodup : ((List.range' 1 (MAX_PSYC_PAGES + 1)).map (· * PGSIZE)).Nodup := by decide
  have hle := (List.subperm_of_subset hnodup hsub).length_le
  have hsize := h.table.size
  rw [List.length_map, List.length_range', resident_length] at hle
  omega

/-! ## From the call on -/

end

/-! ## Two processes -/

end Xv6
