import Xv6.Vm.Alloc

/-!
# `growproc`

Growing adds cleared pages that the user may read and write, or changes nothing; shrinking
takes pages away. `growproc(-sz)` takes all pages away, then reports an error and leaves `sz`
as it was. A negative `sz + n` is a large unsigned value: nothing happens and the call
succeeds.
-/

namespace Xv6

open Lib

/-- The operation of slot `c` changed its own memory and size only. -/
structure Local (c : Nat) (s s' : Kernel) : Prop where
  cur : s'.cur = s.cur
  cr3 : s'.cr3 = s.cr3
  initproc : s'.initproc = s.initproc
  nextpid : s'.nextpid = s.nextpid
  other : ∀ p ≠ c, s'.proc p = s.proc p
  self : ∃ q m, SameButTables (s.proc c) q ∧ s'.proc c = { q with sz := m }
  dirs : ∀ e ≠ (s.proc c).pgdir, s'.dirs e = s.dirs e

theorem Paging.toLocal {c : Nat} {s s' : Kernel} (h : Paging c s s') : Local c s s' :=
  ⟨h.cur, h.cr3, h.initproc, h.nextpid, h.other, ⟨_, _, h.self, rfl⟩, h.dirs⟩

theorem Paging.resized {c : Nat} {s s' : Kernel} (h : Paging c s s') (m : Nat) :
    Local c s (s'.resized c m) :=
  ⟨h.cur, h.cr3, h.initproc, h.nextpid, fun p hp => (Function.update_of_ne hp _ _).trans (h.other p hp),
    ⟨_, m, h.self, Function.update_self _ _ _⟩, h.dirs⟩

/-- `F` with the pages `[lo, hi)` of slot `c` cleared. -/
def zeroed (F : Nat → Nat → Nat → Byte) (c lo hi p u o : Nat) : Byte :=
  if p = c ∧ lo ≤ u ∧ u < hi then 0 else F p u o

/-- What `growproc(n)` did to the running process. -/
inductive Grown (c : Nat) (n : Int) (s s' : Kernel) (F : Nat → Nat → Nat → Byte) :
    Int → (Nat → Nat → Nat → Byte) → Prop
  | kept {r : Int} (ret : r = 0 ∧ (n = 0 ∨ (s.proc c).sz + n < 0) ∨ r = -1 ∧ 0 < n)
      (size : (s'.proc c).sz = (s.proc c).sz)
      (pages : SamePages (s.dirs (s.proc c).pgdir) (s'.dirs (s.proc c).pgdir)) : Grown c n s s' F r F
  | grew {m : Nat} (hm : (m : Int) = (s.proc c).sz + n) (hn : 0 < n) (size : (s'.proc c).sz = m)
      (fresh : Filled (some ⟨true, true⟩) (pages (s.proc c).sz) (pages m)
        (s.dirs (s.proc c).pgdir) (s'.dirs (s.proc c).pgdir)) :
      Grown c n s s' F 0 (zeroed F c (pages (s.proc c).sz) (pages m))
  | shrank {m : Nat} (hm : (m : Int) = (s.proc c).sz + n) (hn : n < 0) (hpos : 0 < m)
      (size : (s'.proc c).sz = m)
      (gone : Filled none (pages m) (pages (s.proc c).sz) (s.dirs (s.proc c).pgdir)
        (s'.dirs (s.proc c).pgdir)) : Grown c n s s' F 0 F
  | emptied (hm : (s.proc c).sz + n = 0) (size : (s'.proc c).sz = (s.proc c).sz)
      (gone : Filled none 0 (pages (s.proc c).sz) (s.dirs (s.proc c).pgdir)
        (s'.dirs (s.proc c).pgdir)) : Grown c n s s' F (-1) F

section

variable [Build] {E : String → Prop} {s s1 : Kernel} {P : Pend} {F : Nat → Nat → Nat → Byte}
  {c m : Nat} {n : Int}

/-- `switchuvm` on the running process changes nothing. -/
theorem switchuvm_self {Q : Unit → Kernel → Prop} (h : Inv s P F) (hr : Running s c) (hQ : Q () s) :
    wp (switchuvm c) E Q s := by
  have hcc := h.counted hr.lt hr.active
  unfold switchuvm
  refine wp_seq (getProc_wp ?_)
  rw [if_neg (h.own.kstack_ne hr.lt hcc), if_neg (h.own.pgdir_pos hr.lt hcc), ← hr.cr3]
  exact hQ

/-- `curproc->sz = m; switchuvm(curproc); return 0`. -/
theorem resize_wp {Q : Int → Kernel → Prop} (h : Inv (s.resized c m) P F) (hr : Running s c)
    (hQ : Q 0 (s.resized c m)) :
    wp (do
      let q ← getProc c
      setProc c { q with sz := m }
      switchuvm c
      pure 0) E Q s := by
  have hr' : Running (s.resized c m) c := by
    refine ⟨hr.cur, hr.lt, ?_, ?_⟩ <;>
      simp only [Kernel.resized, Kernel.setProc, Function.update_self]
    · exact hr.active
    · exact hr.cr3
  exact wp_seq (getProc_wp (wp_seq (setProc_wp (wp_seq (switchuvm_self h hr' hQ)))))

/-- `allocuvm` on the running process. -/
theorem allocuvm_exact (hm : ∀ u, P.mapped u = 0) (htop : P.top = 0) (h : Inv s P F)
    (hr : Running s c) (hlo : (s.proc c).sz < m) (hhi : m < KERNBASE) :
    wp (allocuvm (s.proc c).pgdir (s.proc c).sz m) E (fun r s' => Paging c s s' ∧
      (r = m ∧ ¬ (TooManyPages s c (pages (s.proc c).sz) (pages m) ∨
            OutOfFrames s c (pages (s.proc c).sz) (pages m)) ∧
          Inv s' { P with top := m } (zeroed F c (pages (s.proc c).sz) (pages m)) ∧
          Filled (some ⟨true, true⟩) (pages (s.proc c).sz) (pages m) (s.dirs (s.proc c).pgdir)
            (s'.dirs (s.proc c).pgdir) ∨
        r = 0 ∧ (TooManyPages s c (pages (s.proc c).sz) (pages m) ∨
            OutOfFrames s c (pages (s.proc c).sz) (pages m)) ∧ Inv s' P F ∧
          SamePages (s.dirs (s.proc c).pgdir) (s'.dirs (s.proc c).pgdir))) s := by
  have hself := h.self hr
  have hview : ∀ u < NUSER, pages (s.proc c).sz ≤ u → (s.dirs (s.proc c).pgdir).view u = none :=
    fun u hu hsz => h.view_none hr htop hu hsz
  have hone : 1 ≤ pages (s.proc c).sz := by
    have := hself.size.1
    rw [Nat.one_le_iff_ne_zero, ← Nat.pos_iff_ne_zero, lt_pages]
    omega
  have hle : pages (s.proc c).sz ≤ pages m := pages_mono hlo.le
  have hzeroed : ∀ {p u o : Nat}, ¬ (p = c ∧ pages (s.proc c).sz ≤ u) →
      zeroed F c (pages (s.proc c).sz) (pages m) p u o = F p u o := fun hn => by
    rw [zeroed, if_neg (by tauto)]
  have hzero : Inv s P (zeroed F c (pages (s.proc c).sz) (pages m)) := by
    refine h.contents fun p _ _ u hu hv o _ => hzeroed ?_
    rintro ⟨rfl, hsz⟩
    exact hv (hview u hu hsz)
  have hraised := hzero.setTop (t := m) hr (hself.below.mono (by omega))
  have hcount : (m - pgroundup (s.proc c).sz + PGSIZE - 1) / PGSIZE =
      pages m - pages (s.proc c).sz := by
    rw [pgroundup_eq (by omega)]
    unfold pages
    simp only [PGSIZE]
    omega
  unfold allocuvm
  rw [if_neg (by omega), if_neg (by omega), hcount, pgroundup_eq (by omega)]
  refine wp_post (allocLoop_exact (P := { P with top := m }) hhi hm rfl _ _ _ hraised hr hone le_rfl
    (by omega) (fun v h1 h2 => hview v (lt_of_lt_of_le h2 (pages_le hhi.le)) h1)
    fun v h1 h2 o _ => ?_) ?_
  · rw [zeroed, if_pos ⟨rfl, h1, h2⟩]
  · rintro r s' ⟨hinv, hpag, ⟨hr1, hst, hfill⟩ | ⟨hr0, hst, hfill⟩⟩
    · exact ⟨hpag, .inl ⟨hr1, hst, hinv, hfill⟩⟩
    · refine ⟨hpag, .inr ⟨hr0, hst, ?_, hfill.samePages fun u hu h1 _ => hview u hu h1⟩⟩
      have hr' := hpag.running hr
      -- nothing is left at or above the old size
      have hgone : ∀ u < NUSER, (s'.dirs (s'.proc c).pgdir).view u ≠ none →
          1 ≤ u ∧ u < pages (s.proc c).sz := fun u hu hv => by
        have hb := (hinv.self hr').below u hu (entryView_ne_none.1 hv)
        rw [(hpag.fields c).1] at hb
        rw [hpag.pgdir, hfill u hu] at hv
        have := (lt_pages (n := max (s.proc c).sz m)).2 hb.2
        rw [max_eq_right hlo.le] at this
        refine ⟨hb.1, ?_⟩
        by_contra hge
        rw [if_pos ⟨by omega, this⟩] at hv
        exact hv rfl
      have hlow := hinv.setTop (t := 0) hr' fun u hu hv => by
        rw [Nat.max_zero, (hpag.fields c).1, ← lt_pages]
        exact hgone u hu (entryView_ne_none.2 hv)
      rw [show ({ P with top := 0 } : Pend) = P by rw [← htop]] at hlow
      refine hlow.contents fun p _ _ u hu hv o _ => (hzeroed ?_).symm
      rintro ⟨rfl, hsz⟩
      have := hgone u hu hv
      omega

/-- Why a process cannot grow from its size to `m`. -/
def CannotGrow (s : Kernel) (c m : Nat) : Prop :=
  KERNBASE ≤ m ∨ TooManyPages s c (pages (s.proc c).sz) (pages m) ∨
    OutOfFrames s c (pages (s.proc c).sz) (pages m)

/-- `growproc(n)` for `n > 0` adds cleared pages, or it cannot and changes nothing a user sees. -/
theorem growproc_exact (h : Inv s Pend.none F) (hr : Running s c) (hlo : 0 < n) (hhi : n < 2 ^ 31)
    (hm : (m : Int) = (s.proc c).sz + n) :
    wp (growproc n) E (fun r s' => Local c s s' ∧
      (r = 0 ∧ ¬ CannotGrow s c m ∧
          Inv s' Pend.none (zeroed F c (pages (s.proc c).sz) (pages m)) ∧ (s'.proc c).sz = m ∧
          Filled (some ⟨true, true⟩) (pages (s.proc c).sz) (pages m)
            (s.dirs (s.proc c).pgdir) (s'.dirs (s.proc c).pgdir) ∨
        r = -1 ∧ CannotGrow s c m ∧ Inv s' Pend.none F ∧ (s'.proc c).sz = (s.proc c).sz ∧
          SamePages (s.dirs (s.proc c).pgdir) (s'.dirs (s.proc c).pgdir))) s := by
  have hsz := (h.self hr).size
  have hmod : (((s.proc c).sz + n : Int) % 2 ^ 32).toNat = m := by
    simp only [KERNBASE] at hsz
    omega
  unfold growproc
  refine wp_seq (get_wp ?_)
  rw [hr.cur, if_pos hlo, hmod]
  by_cases hk : KERNBASE ≤ m
  · unfold allocuvm
    rw [if_pos hk]
    refine wp_seq ?_
    rw [wp_pure, if_pos rfl]
    exact ⟨(Paging.refl c s).toLocal, .inr ⟨rfl, .inl hk, h, rfl, SamePages.refl _⟩⟩
  · refine wp_seq (wp_post (allocuvm_exact (P := Pend.none) (fun _ => rfl) rfl h hr (m := m)
      (by omega) (by omega)) ?_)
    rintro r s' ⟨hpag, ⟨rfl, hst, hinv, hfill⟩ | ⟨rfl, hst, hinv, hsame⟩⟩
    · rw [if_neg (by omega)]
      have hr' := hpag.running hr
      have hbel := (hinv.self hr').below
      rw [(hpag.fields c).1] at hbel
      have hinv' := hinv.resize hr' (m := r) (by omega) (by omega) (hbel.mono (by dsimp only; omega))
      refine resize_wp hinv' hr' ⟨hpag.resized r, .inl ⟨rfl, ?_, hinv', ?_, hfill⟩⟩
      · rintro (hc | hc)
        · exact hk hc
        · exact hst hc
      · simp only [Kernel.resized, Kernel.setProc, Function.update_self]
    · rw [if_pos rfl]
      exact ⟨hpag.toLocal, .inr ⟨rfl, .inr hst, hinv, (hpag.fields c).1, hsame⟩⟩

theorem growproc_pos (h : Inv s Pend.none F) (hr : Running s c) (hlo : 0 < n) (hhi : n < 2 ^ 31) :
    wp (growproc n) E (fun r s' => Local c s s' ∧
      ∃ F', Inv s' Pend.none F' ∧ Grown c n s s' F r F') s := by
  obtain ⟨m, hm⟩ : ∃ m : Nat, (m : Int) = (s.proc c).sz + n :=
    ⟨((s.proc c).sz + n).toNat, Int.toNat_of_nonneg (by omega)⟩
  refine wp_post (growproc_exact h hr hlo hhi hm) ?_
  rintro r s' ⟨hl, ⟨rfl, -, hinv, hsize, hfill⟩ | ⟨rfl, -, hinv, hsize, hsame⟩⟩
  · exact ⟨hl, _, hinv, .grew hm hlo hsize hfill⟩
  · exact ⟨hl, F, hinv, .kept (.inr ⟨rfl, hlo⟩) hsize hsame⟩

theorem growproc_neg (h : Inv s Pend.none F) (hr : Running s c) (hlo : -2 ^ 31 ≤ n) (hhi : n < 0) :
    wp (growproc n) E (fun r s' => Local c s s' ∧
      ∃ F', Inv s' Pend.none F' ∧ Grown c n s s' F r F') s := by
  have hself := h.self hr
  have hsz := hself.size
  have hneg : ¬ 0 < n := by omega
  unfold growproc
  refine wp_seq (get_wp ?_)
  rw [hr.cur, if_neg hneg, if_pos hhi]
  by_cases hlt : (s.proc c).sz + n < 0
  · -- the sum wraps around
    have hge : (s.proc c).sz ≤ (((s.proc c).sz + n : Int) % 2 ^ 32).toNat := by
      simp only [KERNBASE] at hsz
      omega
    unfold deallocuvm
    rw [if_pos hge]
    refine wp_seq ?_
    rw [wp_pure, if_neg (by omega)]
    have hinv' := h.resize hr (m := (s.proc c).sz) hsz.1 hsz.2
      (hself.below.mono (max_le le_rfl (Nat.zero_le _)))
    refine resize_wp hinv' hr ⟨(Paging.refl c s).resized _, F, hinv',
      .kept (.inl ⟨rfl, .inr hlt⟩) ?_ (SamePages.refl _)⟩
    simp only [Kernel.resized, Kernel.setProc, Function.update_self]
  · obtain ⟨m, hm⟩ : ∃ m : Nat, (m : Int) = (s.proc c).sz + n :=
      ⟨((s.proc c).sz + n).toNat, Int.toNat_of_nonneg (by omega)⟩
    have hmod : (((s.proc c).sz + n : Int) % 2 ^ 32).toNat = m := by
      simp only [KERNBASE] at hsz
      omega
    rw [hmod]
    refine wp_seq (wp_post (deallocuvm_inv (n := m) hsz.2 (fun _ => rfl) h hr) ?_)
    rintro r s' ⟨hr1, hinv, hpag, hfill⟩
    obtain rfl : r = m := by omega
    have hr' := hpag.running hr
    by_cases h0 : r = 0
    · rw [if_pos h0]
      refine ⟨hpag.toLocal, F, hinv, .emptied (by omega) (hpag.fields c).1 ?_⟩
      rwa [h0, show pages 0 = 0 from rfl] at hfill
    · rw [if_neg h0]
      have hbel : Below (s'.dirs (s'.proc c).pgdir).pte r := fun u hu hv => by
        have hb := (hinv.self hr').below u hu hv
        have hv' : (s'.dirs (s.proc c).pgdir).view u ≠ none := by
          rw [← hpag.pgdir]
          exact entryView_ne_none.2 hv
        rw [(hpag.fields c).1, show Pend.none.top = 0 from rfl, Nat.max_zero, ← lt_pages] at hb
        rw [hfill u hu] at hv'
        refine ⟨hb.1, lt_pages.1 ?_⟩
        by_contra hge
        rw [if_pos ⟨by omega, hb.2⟩] at hv'
        exact hv' rfl
      have hinv' := hinv.resize hr' (m := r) (by omega) (by omega) hbel
      refine resize_wp hinv' hr' ⟨hpag.resized r, F, hinv', .shrank hm hhi (by omega) ?_ hfill⟩
      simp only [Kernel.resized, Kernel.setProc, Function.update_self]

theorem growproc_inv (h : Inv s Pend.none F) (hr : Running s c) (hlo : -2 ^ 31 ≤ n)
    (hhi : n < 2 ^ 31) :
    wp (growproc n) E (fun r s' => Local c s s' ∧
      ∃ F', Inv s' Pend.none F' ∧ Grown c n s s' F r F') s := by
  obtain hneg | rfl | hpos := lt_trichotomy n 0
  · exact growproc_neg h hr hlo hneg
  · unfold growproc
    refine wp_seq (get_wp ?_)
    rw [hr.cur, if_neg (by decide), if_neg (by decide)]
    refine wp_seq (switchuvm_self h hr ?_)
    exact ⟨(Paging.refl c s).toLocal, F, h, .kept (.inl ⟨rfl, .inl rfl⟩) rfl (SamePages.refl _)⟩
  · exact growproc_pos h hr hpos hhi

end

end Xv6
