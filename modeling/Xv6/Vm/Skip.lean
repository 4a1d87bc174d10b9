import Xv6.Vm.FiniteMap

/-!
# `deallocuvm` and missing page tables

Where a page table is missing the loop jumps to the first page of the next one. It does what the
plain loop over all pages does, whatever `unlinkPage` is: so the calls are the same too.
-/

namespace Xv6

open Lib

section

variable [Build]

/-- The body of the loop, for any `unlinkPage`. -/
def deallocPageWith (unlink : Nat → Nat → K Int) (oldsz a : Nat) (pte : PtePtr) : K Unit := do
  let w ← loadPte pte
  let s ← get
  if has w PTE_PG then
    if oldsz ≠ KERNBASE then do
      storePte pte 0
      let r ← unlink s.cur a
      assertPanic (r = 0) "unlinkPage(myproc(), a)==0"
    else pure ()
  else if has w PTE_P then
    if pageNo w = 0 then kpanic "kfree"
    else do
      if oldsz ≠ KERNBASE then do
        let r ← unlink s.cur a
        assertPanic (r = 0) "unlinkPage(myproc(),(uint)a) == 0"
      kfree (pageNo w)
      storePte pte 0
  else pure ()

def deallocLoopWith (unlink : Nat → Nat → K Int) (d oldsz : Nat) : Nat → Nat → K Unit
  | 0, _ => kpanic "deallocuvm: out of fuel"
  | fuel + 1, a =>
    if a < oldsz then do
      match ← walkpgdir d a false with
      | none => deallocLoopWith unlink d oldsz fuel ((pgaddr (pdx a + 1) 0 0 + 2 ^ 32 - PGSIZE + PGSIZE) % 2 ^ 32)
      | some pte => do
        deallocPageWith unlink oldsz a pte
        deallocLoopWith unlink d oldsz fuel ((a + PGSIZE) % 2 ^ 32)
    else pure ()

def deallocuvmWith (unlink : Nat → Nat → K Int) (d oldsz newsz : Nat) : K Nat :=
  if oldsz ≤ newsz then pure oldsz
  else do
    deallocLoopWith unlink d oldsz (oldsz / PGSIZE + 2) (pgroundup newsz)
    pure newsz

theorem deallocLoopWith_unlinkPage (d oldsz : Nat) : ∀ fuel a : Nat,
    deallocLoopWith unlinkPage d oldsz fuel a = deallocLoop d oldsz fuel a
  | 0, _ => rfl
  | fuel + 1, a => by
    rw [deallocLoopWith, deallocLoop]
    simp only [deallocLoopWith_unlinkPage d oldsz fuel]
    rfl

theorem deallocuvmWith_unlinkPage (d oldsz newsz : Nat) :
    deallocuvmWith unlinkPage d oldsz newsz = deallocuvm d oldsz newsz := by
  unfold deallocuvmWith deallocuvm
  rw [deallocLoopWith_unlinkPage]

/-- The plain loop: `n` pages from page `u` on, each looked up. -/
def plainLoop (unlink : Nat → Nat → K Int) (d oldsz : Nat) : Nat → Nat → K Unit
  | 0, _ => pure ()
  | n + 1, u => do
    match ← walkpgdir d (u * PGSIZE) false with
    | none => pure ()
    | some pte => deallocPageWith unlink oldsz (u * PGSIZE) pte
    plainLoop unlink d oldsz n (u + 1)

def plainDealloc (unlink : Nat → Nat → K Int) (d oldsz newsz : Nat) : K Nat :=
  if oldsz ≤ newsz then pure oldsz
  else do
    plainLoop unlink d oldsz (pages oldsz - pages newsz) (pages newsz)
    pure newsz

variable {unlink : Nat → Nat → K Int} {d oldsz newsz : Nat}

omit [Build] in
theorem walkpgdir_present {u : Nat} {s : Kernel} (hu : u < 2 ^ 20) (ht : (s.dirs d).hasTable u = true) :
    walkpgdir d (u * PGSIZE) false s = .ok (some (pteAt d u), s) := by
  have hdiv : u * PGSIZE / PGSIZE = u := Nat.mul_div_cancel u (by decide)
  have hwp : wp (walkpgdir d (u * PGSIZE) false) (fun _ => False) (fun r s' => r = some (pteAt d u) ∧ s' = s) s :=
    walkpgdir_found (by simp only [PGSIZE]; omega) (by rwa [hdiv]) ⟨by rw [hdiv], rfl⟩
  obtain ⟨r, s', hr, rfl, rfl⟩ := exists_of_wp hwp
  exact hr

omit [Build] in
theorem walkpgdir_absent {u : Nat} {s : Kernel} (hu : u < 2 ^ 20) (ht : (s.dirs d).hasTable u = false) :
    walkpgdir d (u * PGSIZE) false s = .ok (none, s) := by
  have hdiv : u * PGSIZE / PGSIZE = u := Nat.mul_div_cancel u (by decide)
  have hwp : wp (walkpgdir d (u * PGSIZE) false) (fun _ => False) (fun r s' => r = none ∧ s' = s) s :=
    walkpgdir_missing (by simp only [PGSIZE]; omega) (by rwa [hdiv]) ⟨rfl, rfl⟩
  obtain ⟨r, s', hr, rfl, rfl⟩ := exists_of_wp hwp
  exact hr

/-- The pages of a missing page table are passed over. -/
theorem plainLoop_skip (unlink : Nat → Nat → K Int) (d oldsz : Nat) {u : Nat} {s : Kernel} : ∀ k n, u + k ≤ 2 ^ 20 → k ≤ n →
    (∀ v, u ≤ v → v < u + k → (s.dirs d).hasTable v = false) →
    plainLoop unlink d oldsz n u s = plainLoop unlink d oldsz (n - k) (u + k) s := by
  intro k
  induction k generalizing u with
  | zero => exact fun n _ _ _ => rfl
  | succ k ih =>
    intro n hu hk hmiss
    obtain ⟨n, rfl⟩ := Nat.exists_eq_add_of_le' (Nat.le_trans (Nat.succ_pos k) hk)
    have hstep : plainLoop unlink d oldsz (n + 1) u s = plainLoop unlink d oldsz n (u + 1) s :=
      seq_of_ok (walkpgdir_absent (by omega) (hmiss u le_rfl (by omega)))
    rw [hstep, ih (u := u + 1) n (by omega) (by omega) fun v h1 h2 => hmiss v (by omega) (by omega),
      show n + 1 - (k + 1) = n - k by omega, show u + 1 + k = u + (k + 1) by omega]

theorem deallocLoopWith_end {fuel u : Nat} (hfuel : 0 < fuel) (hu : pages oldsz ≤ u) :
    deallocLoopWith unlink d oldsz fuel (u * PGSIZE) = pure () := by
  obtain ⟨fuel, rfl⟩ := Nat.exists_eq_add_of_le' hfuel
  rw [deallocLoopWith, if_neg fun h => absurd (lt_pages.2 h) (Nat.not_lt.2 hu)]

/-- The loop is the plain loop over the pages up to `oldsz`. -/
theorem deallocLoopWith_eq (hold : oldsz ≤ KERNBASE) : ∀ n fuel u : Nat, pages oldsz - u = n → n < fuel → u ≤ NUSER →
    deallocLoopWith unlink d oldsz fuel (u * PGSIZE) = plainLoop unlink d oldsz n u := by
  have htop : pages oldsz ≤ NUSER := pages_le hold
  intro n
  induction n using Nat.strong_induction_on with
  | _ n ih =>
    intro fuel u hn hfuel hu
    obtain ⟨fuel, rfl⟩ := Nat.exists_eq_add_of_le' (Nat.lt_of_le_of_lt (Nat.zero_le n) hfuel)
    by_cases hlt : u * PGSIZE < oldsz
    · have hpage : u < pages oldsz := lt_pages.2 hlt
      have hu20 : u < 2 ^ 20 := by
        rw [NUSER_eq] at htop
        omega
      obtain ⟨n, rfl⟩ := Nat.exists_eq_add_of_le' (show 1 ≤ n by omega)
      rw [deallocLoopWith, if_pos hlt]
      funext s
      by_cases ht : (s.dirs d).hasTable u = true
      · have hnext := ih n (Nat.lt_succ_self n) fuel (u + 1) (by omega) (by omega) (by omega)
        rw [plainLoop, seq_of_ok (walkpgdir_present hu20 ht), seq_of_ok (walkpgdir_present hu20 ht)]
        dsimp only
        rw [next_page (by omega), hnext]
      · rw [Bool.not_eq_true] at ht
        rw [seq_of_ok (walkpgdir_absent hu20 ht)]
        dsimp only
        rw [next_table (by omega)]
        -- The pages up to the next page table, or to the end.
        have hsame : ∀ v, u ≤ v → v < u + min (n + 1) ((u / 1024 + 1) * 1024 - u) →
            (s.dirs d).hasTable v = false := by
          intro v h1 h2
          have hidx : v / 1024 = u / 1024 := by omega
          unfold PageDir.hasTable at ht ⊢
          rwa [hidx]
        have hfit : u + min (n + 1) ((u / 1024 + 1) * 1024 - u) ≤ 2 ^ 20 := by
          rw [NUSER_eq] at htop
          omega
        rw [plainLoop_skip unlink d oldsz _ (n + 1) hfit (Nat.min_le_left ..) hsame]
        by_cases hend : (u / 1024 + 1) * 1024 ≤ pages oldsz
        · have hle : (u / 1024 + 1) * 1024 - u ≤ n + 1 := by omega
          rw [Nat.min_eq_right hle, show u + ((u / 1024 + 1) * 1024 - u) = (u / 1024 + 1) * 1024 by omega]
          exact congrFun (ih (n + 1 - ((u / 1024 + 1) * 1024 - u)) (by omega) fuel _ (by omega) (by omega)
            (by omega)) s
        · have hle : n + 1 ≤ (u / 1024 + 1) * 1024 - u := by omega
          rw [Nat.min_eq_left hle, Nat.sub_self, deallocLoopWith_end (by omega) (by omega), plainLoop]
    · have hpage : pages oldsz ≤ u := Nat.le_of_not_lt fun h => hlt (lt_pages.1 h)
      obtain rfl : n = 0 := by omega
      rw [deallocLoopWith_end (Nat.succ_pos _) hpage, plainLoop]

theorem deallocuvmWith_eq (hold : oldsz ≤ KERNBASE) :
    deallocuvmWith unlink d oldsz newsz = plainDealloc unlink d oldsz newsz := by
  unfold deallocuvmWith plainDealloc
  split
  · rfl
  · next hlt =>
    have hle : newsz ≤ oldsz := Nat.le_of_lt (Nat.lt_of_not_le hlt)
    have hpages : pages oldsz ≤ oldsz / PGSIZE + 1 := by
      unfold pages
      simp only [PGSIZE]
      omega
    rw [pgroundup_eq (hle.trans hold), deallocLoopWith_eq hold _ _ _ rfl (by omega) (pages_le (hle.trans hold))]

/-! ## What is touched -/

omit [Build] in
/-- Nothing of any page table changes. -/
theorem MapsWithin.of_dirs {lo hi : Nat} {s s' : Kernel} (h : s'.dirs = s.dirs) : MapsWithin d lo hi s s' :=
  ⟨fun v _ => by rw [h], fun e _ => by rw [h]⟩

omit [Build] in
theorem MapsWithin.seq {lo hi : Nat} {s s1 s2 : Kernel} (h1 : MapsWithin d lo hi s s1) (h2 : MapsWithin d lo hi s1 s2) :
    MapsWithin d lo hi s s2 :=
  ⟨fun v hv => (h2.pte v hv).trans (h1.pte v hv), fun e he => (h2.dirs e he).trans (h1.dirs e he)⟩

theorem unlinkPage_dirs (p vpa : Nat) (s : Kernel) : wp (unlinkPage p vpa) Anyway (fun _ s' => s'.dirs = s.dirs) s := by
  unfold unlinkPage
  refine wp_seq (getProc_wp ?_)
  split
  · trivial
  · exact wp_seq (setProc_wp rfl)

theorem kfree_dirs (f : Nat) (s : Kernel) : wp (kfree f) Anyway (fun _ s' => s'.dirs = s.dirs) s := by
  unfold kfree
  exact wp_seq (modify_wp (wp_ite.2 ⟨fun _ => modify_wp rfl, fun _ => trivial⟩))

omit [Build] in
theorem storePte_within {u : Nat} {w : Word} {s : Kernel} (ht : (s.dirs d).hasTable u = true) :
    wp (storePte (pteAt d u) w) Anyway (fun _ s' => MapsWithin d u (u + 1) s s') s := by
  refine storePte_wp ⟨fun v hv => ?_, fun e he => Function.update_of_ne he ..⟩
  have hself : (s.setDir d ((s.dirs d).setPage u w)).dirs d = (s.dirs d).setPage u w := Function.update_self ..
  rw [hself, PageDir.pte_setPage ht, Function.update_of_ne (by omega)]

/-- Freeing the frame and clearing the entry, once `unlinkPage` has been called. -/
theorem freeEntry_within {u f : Nat} {s s1 : Kernel} (ht : (s.dirs d).hasTable u = true) (h1 : s1.dirs = s.dirs) :
    wp (do kfree f; storePte (pteAt d u) 0) Anyway (fun _ s' => MapsWithin d u (u + 1) s s') s1 := by
  refine wp_seq (wp_post (kfree_dirs f s1) fun _ s2 h2 => ?_)
  have h20 : s2.dirs = s.dirs := h2.trans h1
  exact wp_post (storePte_within (h20 ▸ ht)) fun _ s3 h3 => .seq (.of_dirs h20) h3

/-- The body of the loop changes its own entry. -/
theorem deallocPage_within {u : Nat} {s : Kernel} (ht : (s.dirs d).hasTable u = true) :
    wp (deallocPageWith unlinkPage oldsz (u * PGSIZE) (pteAt d u)) Anyway
      (fun _ s' => MapsWithin d u (u + 1) s s') s := by
  have hassert : ∀ (r : Int) (m : String) (s1 : Kernel) {Q : Unit → Kernel → Prop}, Q () s1 →
      wp (assertPanic (r = 0) m) Anyway Q s1 := by
    intro r m s1 Q hQ
    unfold assertPanic
    exact wp_ite.2 ⟨fun _ => hQ, fun _ => trivial⟩
  unfold deallocPageWith
  refine wp_seq (loadPte_wp ht (wp_seq (get_wp (wp_ite.2 ⟨fun _ => ?_, fun _ => wp_ite.2 ⟨fun _ => ?_, fun _ => ?_⟩⟩))))
  · refine wp_ite.2 ⟨fun _ => ?_, fun _ => .of_dirs rfl⟩
    refine wp_seq (wp_post (storePte_within ht) fun _ s1 h1 => ?_)
    exact wp_seq (wp_post (unlinkPage_dirs _ _ s1) fun r s2 h2 => hassert _ _ _ (h1.seq (.of_dirs h2)))
  · refine wp_ite.2 ⟨fun _ => trivial, fun _ => ?_⟩
    by_cases hk : oldsz = KERNBASE
    · rw [if_neg (by simp [hk])]
      exact freeEntry_within ht rfl
    · rw [if_pos hk]
      exact wp_seq (wp_post (unlinkPage_dirs _ _ s) fun r s1 h1 =>
        wp_seq (hassert _ _ _ (freeEntry_within ht h1)))
  · exact .of_dirs rfl

/-- The plain loop touches the pages that it visits. -/
theorem plainLoop_within : ∀ (n u : Nat) (s : Kernel), u + n ≤ 2 ^ 20 →
    wp (plainLoop unlinkPage d oldsz n u) Anyway (fun _ s' => MapsWithin d u (u + n) s s') s := by
  intro n
  induction n with
  | zero => exact fun u s _ => .of_dirs rfl
  | succ n ih =>
    intro u s hu
    have hrest : ∀ s1, MapsWithin d u (u + 1) s s1 → wp (plainLoop unlinkPage d oldsz n (u + 1)) Anyway
        (fun _ s' => MapsWithin d u (u + (n + 1)) s s') s1 := by
      intro s1 h1
      refine wp_post (ih (u + 1) s1 (by omega)) fun _ s2 h2 => ?_
      rw [show u + 1 + n = u + (n + 1) by omega] at h2
      exact h1.trans h2 (by omega) (by omega)
    have hdiv : u * PGSIZE / PGSIZE = u := Nat.mul_div_cancel u (by decide)
    have hlt : u * PGSIZE < 2 ^ 32 := by
      simp only [PGSIZE]
      omega
    unfold plainLoop
    by_cases ht : (s.dirs d).hasTable u = true
    · refine wp_seq (walkpgdir_found hlt (by rwa [hdiv]) ?_)
      rw [hdiv]
      exact wp_seq (wp_post (deallocPage_within ht) fun _ s1 h1 => hrest s1 h1)
    · rw [Bool.not_eq_true] at ht
      exact wp_seq (walkpgdir_missing hlt (by rwa [hdiv]) (hrest s (.of_dirs rfl)))

/-- `deallocuvm` is the plain loop over the pages, with the same calls, and touches only them. -/
theorem deallocuvm_eq_plain (d oldsz newsz : Nat) (hold : oldsz ≤ KERNBASE) :
    deallocuvm d oldsz newsz = plainDealloc unlinkPage d oldsz newsz ∧
    (∀ unlink, deallocuvmWith unlink d oldsz newsz = plainDealloc unlink d oldsz newsz) ∧
    ∀ s r s', deallocuvm d oldsz newsz s = .ok (r, s') →
      (∀ v, v * PGSIZE < pgroundup newsz ∨ oldsz ≤ v * PGSIZE → (s'.dirs d).pte v = (s.dirs d).pte v) ∧
      ∀ e, e ≠ d → s'.dirs e = s.dirs e := by
  have heq : deallocuvm d oldsz newsz = plainDealloc unlinkPage d oldsz newsz := by
    rw [← deallocuvmWith_unlinkPage, deallocuvmWith_eq hold]
  refine ⟨heq, fun unlink => deallocuvmWith_eq hold, fun s r s' hr => ?_⟩
  rw [heq] at hr
  by_cases hle : oldsz ≤ newsz
  · have hwp : wp (plainDealloc unlinkPage d oldsz newsz) Anyway (fun _ s' => s' = s) s := by
      unfold plainDealloc
      rw [if_pos hle]
      rfl
    rw [of_wp hwp hr]
    exact ⟨fun _ _ => rfl, fun _ _ => rfl⟩
  · have hnew : newsz ≤ oldsz := Nat.le_of_lt (Nat.lt_of_not_le hle)
    have hmono : pages newsz ≤ pages oldsz := pages_mono hnew
    have htop : pages oldsz ≤ NUSER := pages_le hold
    have hwp : wp (plainDealloc unlinkPage d oldsz newsz) Anyway
        (fun _ s' => MapsWithin d (pages newsz) (pages newsz + (pages oldsz - pages newsz)) s s') s := by
      unfold plainDealloc
      rw [if_neg hle]
      refine wp_seq (wp_post (plainLoop_within _ _ s ?_) fun _ s1 h1 => h1)
      rw [NUSER_eq] at htop
      omega
    have hw := of_wp hwp hr
    rw [Nat.add_sub_cancel' hmono] at hw
    refine ⟨fun v hv => hw.pte v (hv.imp (fun h => ?_) fun h => ?_), hw.dirs⟩
    · rw [pgroundup_eq (hnew.trans hold)] at h
      exact Nat.lt_of_mul_lt_mul_right h
    · exact Nat.le_of_not_lt fun hlt => absurd (lt_pages.1 hlt) (Nat.not_lt.2 h)

end

/-- The whole of user memory. -/
theorem deallocuvm_eq_plain_all : @deallocuvm (smallBuild .fifo) 1 KERNBASE 0 =
    @plainDealloc (smallBuild .fifo) (@unlinkPage (smallBuild .fifo)) 1 KERNBASE 0 :=
  (@deallocuvm_eq_plain (smallBuild .fifo) 1 KERNBASE 0 (Nat.le_refl _)).1

end Xv6
