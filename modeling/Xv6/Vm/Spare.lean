import Xv6.Vm.Dealloc
import Xv6.Vm.Total

/-!
# Directories without a process

`setupkvm` builds a directory that no process has yet, and `freevm` takes one apart that no
process has any more: first its user pages, then its page tables, then the directory itself.
-/

namespace Xv6

open Lib Finset

/-- Work on directory `d` that leaves the processes and the other directories alone. -/
structure Beside (d : Nat) (s s' : Kernel) : Prop where
  proc : s'.proc = s.proc
  cur : s'.cur = s.cur
  cr3 : s'.cr3 = s.cr3
  initproc : s'.initproc = s.initproc
  nextpid : s'.nextpid = s.nextpid
  files : s'.files = s.files
  dirs : ∀ e ≠ d, s'.dirs e = s.dirs e

namespace Beside

variable {d : Nat} {s s' s'' : Kernel}

theorem refl (d : Nat) (s : Kernel) : Beside d s s :=
  ⟨rfl, rfl, rfl, rfl, rfl, rfl, fun _ _ => rfl⟩

theorem trans (h1 : Beside d s s') (h2 : Beside d s' s'') : Beside d s s'' :=
  ⟨h2.proc.trans h1.proc, h2.cur.trans h1.cur, h2.cr3.trans h1.cr3, h2.initproc.trans h1.initproc,
    h2.nextpid.trans h1.nextpid, h2.files.trans h1.files,
    fun e he => (h2.dirs e he).trans (h1.dirs e he)⟩

theorem running {c : Nat} (h : Beside d s s') (hr : Running s c) : Running s' c :=
  ⟨h.cur.trans hr.cur, hr.lt, by rw [h.proc]; exact hr.active, by rw [h.cr3, h.proc, hr.cr3]⟩

end Beside

/-- `Beside` with the bytes: only frames in `S` change, and nothing is printed. -/
structure Touches (S : Nat → Prop) (d : Nat) (s s' : Kernel) : Prop extends Beside d s s' where
  mem : ∀ f, s'.mem f ≠ s.mem f → S f
  cons : s'.cons = s.cons

namespace Touches

variable {S S' : Nat → Prop} {d : Nat} {s s' s'' : Kernel}

/-- No byte changes at all. -/
theorem of_mem (h : Beside d s s') (hm : s'.mem = s.mem) (hc : s'.cons = s.cons) : Touches S d s s' :=
  ⟨h, fun f hf => absurd (congrFun hm f) hf, hc⟩

theorem refl (S : Nat → Prop) (d : Nat) (s : Kernel) : Touches S d s s := of_mem (.refl d s) rfl rfl

theorem mono (h : Touches S d s s') (hS : ∀ f, S f → S' f) : Touches S' d s s' :=
  ⟨h.toBeside, fun f hf => hS f (h.mem f hf), h.cons⟩

theorem trans (h1 : Touches S d s s') (h2 : Touches S d s' s'') : Touches S d s s'' := by
  refine ⟨h1.toBeside.trans h2.toBeside, fun f hf => ?_, h2.cons.trans h1.cons⟩
  by_cases e : s'.mem f = s.mem f
  · exact h2.mem f (by rwa [e])
  · exact h1.mem f e

/-- Only directory `d` is stored to. -/
theorem setDir (S : Nat → Prop) (d : Nat) (s : Kernel) (D : PageDir) : Touches S d s (s.setDir d D) :=
  of_mem ⟨rfl, rfl, rfl, rfl, rfl, rfl, fun _ he => Function.update_of_ne he _ _⟩ rfl rfl

/-- Frame `f` goes to the free list. -/
theorem freed {f : Nat} (d : Nat) (s : Kernel) (hf : S f) : Touches S d s (s.freed f) where
  toBeside := ⟨rfl, rfl, rfl, rfl, rfl, rfl, fun _ _ => rfl⟩
  mem g hg := by
    rw [show g = f from by_contra fun hne => hg (Function.update_of_ne hne _ _)]
    exact hf
  cons := rfl

end Touches

/-- Entries of directory `d` are stored, and no byte changes. -/
abbrev Wired (d : Nat) (s s' : Kernel) : Prop := Touches (fun _ => False) d s s'

/-- Work on some directory that no process has. -/
def Aside (P : Pend) (s s' : Kernel) : Prop :=
  ∃ d, Beside d s s' ∧ ∀ p < NPROC, counted s P.skip p = true → (s.proc p).pgdir ≠ d

/-- Hold `g f` more of each frame `f`. -/
def Pend.holdAll (P : Pend) (g : Nat → Nat) : Pend := { P with held := fun f => P.held f + g f }

theorem Pend.holdAll_zero (P : Pend) {g : Nat → Nat} (hg : ∀ f, g f = 0) : P.holdAll g = P := by
  unfold holdAll
  simp only [hg, Nat.add_zero]

theorem Pend.holdAll_hold (P : Pend) {g e : Nat → Nat} {x : Nat} (he : ∀ f, e f = ind (x = f)) :
    (P.holdAll fun f => g f + e f) = (P.holdAll g).hold x := by
  unfold holdAll hold bump
  simp only [he, Nat.add_assoc]

theorem Pend.hold_holdAll (P : Pend) {g e : Nat → Nat} {x : Nat} (he : ∀ f, e f = ind (x = f) + g f) :
    P.holdAll e = (P.hold x).holdAll g := by
  unfold holdAll hold bump
  simp only [he, Nat.add_assoc]

theorem extraCount_withDir (s : Kernel) (P : Pend) (d f : Nat) :
    extraCount s (P.withDir d).dirs f = dirCount d (s.dirs d) f + extraCount s P.dirs f := by
  simp [extraCount, Pend.withDir]

theorem holders_withDir (s : Kernel) (P : Pend) (d : Nat) : 0 < holders s (P.withDir d) d :=
  holders_pos_of_mem (by simp [Pend.withDir])

theorem owned_withDir (s : Kernel) (P : Pend) (d f : Nat) :
    owned s (P.withDir d) f = owned s P f + dirCount d (s.dirs d) f := by
  have hu : inUse s (P.withDir d) f = inUse s P f + dirCount d (s.dirs d) f := by
    unfold inUse
    rw [extraCount_withDir, show (P.withDir d).skip = P.skip from rfl]
    omega
  unfold owned
  rw [hu, show (P.withDir d).held = P.held from rfl]
  omega

theorem owned_holdAll (s : Kernel) (P : Pend) (g : Nat → Nat) (f : Nat) :
    owned s (P.holdAll g) f = owned s P f + g f := by
  have hu : inUse s (P.holdAll g) f = inUse s P f := rfl
  unfold owned
  rw [hu, show (P.holdAll g).held f = P.held f + g f from rfl]
  omega

section

variable [Build] {E : String → Prop} {s s1 : Kernel} {P : Pend} {F : Nat → Nat → Nat → Byte}
  {d u f : Nat}

/-- `kalloc` finds the free list empty. -/
theorem Own.takeNone (h : Own s P) (hf : s.freelist = []) : Own (s.taken []) P := by
  rw [show s.taken [] = { s with totalFreePages := s.totalFreePages - 1 } by rw [← hf]; rfl]
  exact h

/-- No process has a directory that belongs to none. -/
theorem Own.spare_ne {p : Nat} (h : Own s (P.withDir d)) (hp : p < NPROC)
    (hc : counted s P.skip p = true) : (s.proc p).pgdir ≠ d := by
  intro he
  have h1 := h.proc_le hp hc d
  have h2 := dirCount_self d (s.dirs d)
  rw [extraCount_withDir, he] at h1
  omega

/-- Work on a spare directory leaves the frames of the processes and of the other directories in
use. -/
theorem Own.beside_inUse {s' : Kernel} (h : Own s' (P.withDir d)) (hb : Beside d s s') (f : Nat) :
    inUse s' P f = inUse s P f := by
  have hnot : d ∉ P.dirs := fun hmem => by
    have h1 := h.le_one d
    have h2 := holders_pos_of_mem (s := s') hmem
    have h3 := holders_le s' P d
    have h4 := dirCount_self d (s'.dirs d)
    rw [owned_withDir] at h1
    omega
  have hextra : extraCount s' P.dirs f = extraCount s P.dirs f := by
    unfold extraCount
    refine congrArg List.sum (List.map_congr_left fun e he => ?_)
    rw [hb.dirs e fun hed => hnot (hed ▸ he)]
  have hproc : ∑ p ∈ range NPROC, procCount s' P.skip p f =
      ∑ p ∈ range NPROC, procCount s P.skip p f := by
    refine sum_range_congr fun p hp => ?_
    have hne := h.spare_ne (p := p) hp
    unfold procCount counted at *
    rw [hb.proc] at hne ⊢
    by_cases hc : ((s.proc p).state.live && p != P.skip) = true
    · rw [if_pos hc, if_pos hc, hb.dirs _ (hne hc)]
    · rw [if_neg hc, if_neg hc]
  unfold inUse
  rw [hextra, hproc]

/-- The frames of a directory that was made since were free. -/
theorem Own.was_free {s' : Kernel} (h : Own s P) (h' : Own s' (P.withDir d)) (hb : Beside d s s')
    (hf : 0 < dirCount d (s'.dirs d) f) : f ∈ s.freelist := by
  have h1 := h'.le_one f
  have h2 := h' f
  have h3 := h'.beside_inUse hb f
  have h4 := h f
  rw [owned_withDir] at h1 h2
  unfold owned at h1 h2 h4
  exact List.count_pos_iff.1 (by omega)

/-- What is free after a directory was made was free before. -/
theorem Own.still_free {s' : Kernel} (h : Own s P) (h' : Own s' (P.withDir d)) (hb : Beside d s s')
    (hf : f ∈ s'.freelist) : f ∈ s.freelist := by
  have h0 := List.count_pos_iff.2 hf
  have h1 := h'.le_one f
  have h2 := h' f
  have h3 := h'.beside_inUse hb f
  have h4 := h f
  rw [owned_withDir] at h1 h2
  unfold owned at h1 h2 h4
  exact List.count_pos_iff.1 (by omega)

/-- Work on a spare directory moves frames between it and the free list. -/
theorem Own.spare_balance {s' : Kernel} (h : Own s (P.withDir d)) (h' : Own s' (P.withDir d))
    (hb : Beside d s s') :
    s'.freelist.length + tablePages (s'.dirs d) + presentPages (s'.dirs d) =
      s.freelist.length + tablePages (s.dirs d) + presentPages (s.dirs d) := by
  have hd : d < 2 ^ 20 := by
    refine (h.managed (f := d) ?_).lt
    have := dirCount_self d (s.dirs d)
    rw [owned_withDir]
    omega
  have hbal := h.balance (a := dirCount d (s.dirs d)) (b := dirCount d (s'.dirs d)) h' fun f => by
    have huse := h'.beside_inUse hb f
    unfold inUse at huse ⊢
    rw [extraCount_withDir, extraCount_withDir, show (P.withDir d).skip = P.skip from rfl]
    omega
  rw [sum_dirCount hd, sum_dirCount hd] at hbal
  omega

namespace Inv

theorem setSpare {Q : Pend} {D : PageDir} (h : Inv s (P.withDir d) F) (hown : Own (s.setDir d D) Q)
    (h1 : Q.skip = P.skip) (h2 : Q.mapped = P.mapped) (h3 : Q.top = P.top) :
    Inv (s.setDir d D) Q F :=
  h.unseen rfl rfl rfl rfl h.quiet
    (fun _ hp hc => Function.update_of_ne (h.own.spare_ne hp hc) _ _)
    (fun _ hg => absurd rfl hg) hown h1 h2 h3

/-- Work on a directory of no process, with the bytes of no process. -/
theorem within {S : Nat → Prop} {P' : Pend} {s' : Kernel} (h : Inv s P F) (hw : Touches S d s s')
    (hd : ∀ p < NPROC, Xv6.counted s P.skip p = true → (s.proc p).pgdir ≠ d)
    (hS : ∀ f, S f → f ∈ s.freelist ∨ 0 < P.held f ∨ 0 < extraCount s P.dirs f) (hown : Own s' P')
    (h1 : P'.skip = P.skip) (h2 : P'.mapped = P.mapped) (h3 : P'.top = P.top) : Inv s' P' F :=
  h.unseen hw.proc hw.cur hw.nextpid hw.files (by rw [hw.cons]; exact h.quiet)
    (fun p hp hc => hw.dirs _ (hd p hp hc)) (fun f hf => hS f (hw.mem f hf)) hown h1 h2 h3

end Inv

/-- A present page of a spare directory is freed. -/
theorem Own.freeSpare (h : Own s (P.withDir d)) (hu : u < NUSER)
    (hp : has ((s.dirs d).pte u) PTE_P = true) :
    Own ((s.freed (pageNo ((s.dirs d).pte u))).setDir d ((s.dirs d).setPage u 0)) (P.withDir d) :=
  (h.unmapPage (w := 0) (holders_withDir s P d) hu hp (has_zero _)).give

/-- The frames of a spare directory, held one by one. -/
theorem Own.dissolve (h : Own s (P.withDir d)) : Own s (P.holdAll (dirCount d (s.dirs d))) :=
  fun f => by rw [owned_holdAll, ← h f, owned_withDir]

/-! ## `freevm` -/

theorem Own.managed_spare (h : Own s (P.withDir d)) (hf : 0 < dirCount d (s.dirs d) f) :
    Managed f := by
  refine h.managed ?_
  rw [owned_withDir]
  omega

theorem deallocPage_spare (h : Own s (P.withDir d)) (hex : Exclusive (s.dirs d)) (hu : u < NUSER)
    (ht : (s.dirs d).hasTable u = true) :
    wp (deallocPage KERNBASE (u * PGSIZE) (pteAt d u)) E (fun _ s' => Own s' (P.withDir d) ∧
      Touches (fun f => 0 < dirCount d (s.dirs d) f) d s s' ∧
      (∀ f, dirCount d (s'.dirs d) f ≤ dirCount d (s.dirs d) f) ∧
      has ((s'.dirs d).pte u) PTE_P = false ∧ ∀ v ≠ u, (s'.dirs d).pte v = (s.dirs d).pte v) s := by
  unfold deallocPage
  refine wp_seq (loadPte_wp ht (wp_seq (get_wp ?_)))
  cases hg : has ((s.dirs d).pte u) PTE_PG with
  | true =>
    rw [if_pos rfl, if_neg (by decide)]
    exact ⟨h, .refl _ d s, fun _ => le_rfl, hex u hu hg, fun _ _ => rfl⟩
  | false =>
    rw [if_neg (by decide)]
    cases hp : has ((s.dirs d).pte u) PTE_P with
    | true =>
      have hpos := dirCount_pte d hu hp
      have hman := h.managed_spare hpos
      have hfreed : Touches (fun f => 0 < dirCount d (s.dirs d) f) d s
          (s.freed (pageNo ((s.dirs d).pte u))) := .freed d s hpos
      rw [if_pos rfl, if_neg hman.pos, if_neg (by decide)]
      refine wp_seq (kfree_wp hman (storePte_wp ⟨h.freeSpare hu hp, hfreed.trans (.setDir _ d _ _),
        fun f => ?_, ?_, fun v hv => ?_⟩))
      all_goals simp only [Kernel.setDir, Kernel.freed, Kernel.setMem, Function.update_self]
      · have := dirCount_setPage d 0 ht hu f
        rw [mapsTo_zero] at this
        omega
      · rw [PageDir.pte_setPage ht, Function.update_self, has_zero]
      · rw [PageDir.pte_setPage ht, Function.update_of_ne hv]
    | false =>
      rw [if_neg (by decide)]
      exact ⟨h, .refl _ d s, fun _ => le_rfl, hp, fun _ _ => rfl⟩

/-- The user pages of a spare directory are freed. -/
theorem deallocuvm_spare (h : Own s (P.withDir d)) (hex : Exclusive (s.dirs d)) :
    wp (deallocuvm d KERNBASE 0) E (fun _ s' => Own s' (P.withDir d) ∧
      Touches (fun f => 0 < dirCount d (s.dirs d) f) d s s' ∧
      (∀ f, dirCount d (s'.dirs d) f ≤ dirCount d (s.dirs d) f) ∧
      ∀ u < NUSER, has ((s'.dirs d).pte u) PTE_P = false) s := by
  have hend : pages KERNBASE = NUSER := by decide
  unfold deallocuvm
  rw [if_neg (by decide)]
  refine wp_seq (wp_post (deallocLoop_wp (I := fun v s' => Own s' (P.withDir d) ∧
    Touches (fun f => 0 < dirCount d (s.dirs d) f) d s s' ∧
    (∀ f, dirCount d (s'.dirs d) f ≤ dirCount d (s.dirs d) f) ∧
    Exclusive (s'.dirs d) ∧ ∀ u < v, has ((s'.dirs d).pte u) PTE_P = false) le_rfl ?_ ?_
    (KERNBASE / PGSIZE + 1) 0 s (Nat.zero_le _)
    ⟨h, .refl _ d s, fun _ => le_rfl, hex, fun u hu => absurd hu (Nat.not_lt_zero u)⟩ (by decide)) ?_)
  · rintro v s1 hv ⟨h1, hb, hle, hex1, hgone⟩ ht
    refine ⟨h1, hb, hle, hex1, fun u hu => ?_⟩
    by_cases hlt : u < v
    · exact hgone u hlt
    · rw [PageDir.pte_of_missing, has_zero]
      rw [PageDir.hasTable, show u / 1024 = v / 1024 by omega]
      exact ht
  · rintro v s1 hv ⟨h1, hb, hle, hex1, hgone⟩ ht
    refine wp_post (deallocPage_spare h1 hex1 (hend ▸ hv) ht) ?_
    rintro _ s2 ⟨h2, hb2, hle2, hpv, hother⟩
    refine ⟨h2, hb.trans (hb2.mono fun f hf => lt_of_lt_of_le hf (hle f)),
      fun f => (hle2 f).trans (hle f), fun u hu hg => ?_, fun u hu => ?_⟩
    · by_cases e : u = v
      · rw [e]; exact hpv
      · rw [hother u e] at hg ⊢
        exact hex1 u hu hg
    · by_cases e : u = v
      · rw [e]; exact hpv
      · rw [hother u e]
        exact hgone u (by omega)
  · rintro _ s' ⟨h', hb, hle, -, hgone⟩
    exact ⟨h', hb, hle, hend ▸ hgone⟩

/-- The page tables of entries `i`, .. are freed. -/
theorem freeTables_spare (n : Nat) : ∀ (i : Nat) (s : Kernel),
    Own s (P.holdAll fun f => ∑ k ∈ range n, mapsTo ((s.dirs d).pde (i + k)) f) →
      wp (freeTables d n i) E (fun _ s' => Own s' P ∧
        Touches (fun f => 0 < ∑ k ∈ range n, mapsTo ((s.dirs d).pde (i + k)) f) d s s') s := by
  induction n with
  | zero =>
    intro i s h
    rw [P.holdAll_zero fun _ => Finset.sum_range_zero _] at h
    exact ⟨h, .refl _ d s⟩
  | succ n ih =>
    intro i s h
    have hstep : ∀ f, ∑ k ∈ range (n + 1), mapsTo ((s.dirs d).pde (i + k)) f =
        ∑ k ∈ range n, mapsTo ((s.dirs d).pde (i + 1 + k)) f + mapsTo ((s.dirs d).pde i) f :=
      fun f => by
        rw [sum_range_succ', Nat.add_zero]
        exact congrArg (· + _) (sum_congr rfl fun k _ => by rw [show i + (k + 1) = i + 1 + k by omega])
    simp only [hstep] at h ⊢
    rw [freeTables]
    refine wp_seq (get_wp ?_)
    cases hp : has ((s.dirs d).pde i) PTE_P with
    | true =>
      rw [P.holdAll_hold fun f => mapsTo_of_present f hp] at h
      rw [if_pos rfl]
      refine wp_seq (kfree_wp h.managed_held (wp_post (ih (i + 1) _ h.give) ?_))
      rintro _ s' ⟨h', hb⟩
      refine ⟨h', (Touches.freed d s ?_).trans (hb.mono fun f hf => Nat.add_pos_left hf _)⟩
      rw [mapsTo_of_present _ hp, ind_true rfl]
      omega
    | false =>
      simp only [mapsTo_of_absent _ hp, Nat.add_zero] at h ⊢
      rw [if_neg (by decide)]
      exact ih (i + 1) s h

/-- `freevm` returns all frames of a spare directory and touches no other. -/
theorem freevm_own (h : Own s (P.withDir d)) (hex : Exclusive (s.dirs d)) :
    wp (freevm d) E (fun _ s' => Own s' P ∧
      Touches (fun f => 0 < dirCount d (s.dirs d) f) d s s') s := by
  have hself := dirCount_self d (s.dirs d)
  have hman : Managed d := h.managed_spare hself
  unfold freevm
  rw [if_neg hman.pos]
  refine wp_seq (wp_post (deallocuvm_spare h hex) ?_)
  rintro _ s1 ⟨h1, hb1, hle, hgone⟩
  have htab : ∀ f, dirCount d (s1.dirs d) f = ind (d = f) +
      ∑ k ∈ range NPDENTRIES, mapsTo ((s1.dirs d).pde (0 + k)) f := fun f => by
    have hzero : ∑ u ∈ range NUSER, mapsTo ((s1.dirs d).pte u) f = 0 :=
      Lib.sum_range_zero fun u hu => mapsTo_of_absent f (hgone u hu)
    unfold dirCount
    rw [hzero]
    simp only [Nat.zero_add, Nat.add_zero]
  have h2 := h1.dissolve
  rw [P.hold_holdAll htab] at h2
  refine wp_seq (wp_post (freeTables_spare NPDENTRIES 0 s1 h2) ?_)
  rintro _ s2 ⟨h3, hb2⟩
  refine kfree_wp hman ⟨h3.give, (hb1.trans (hb2.mono fun f hf => ?_)).trans (.freed d s2 hself)⟩
  refine lt_of_lt_of_le ?_ (hle f)
  rw [htab]
  omega

/-- `freevm` returns all frames of a spare directory. -/
theorem freevm_inv (h : Inv s (P.withDir d) F) (hex : Exclusive (s.dirs d)) :
    wp (freevm d) E (fun _ s' => Inv s' P F ∧ Beside d s s') s := by
  refine wp_post (freevm_own h.own hex) ?_
  rintro _ s' ⟨hown, hw⟩
  refine ⟨h.within hw (fun p hp hc => h.own.spare_ne hp hc) (fun f hf => .inr (.inr ?_)) hown rfl rfl
    rfl, hw.toBeside⟩
  rw [extraCount_withDir]
  omega

end

end Xv6
