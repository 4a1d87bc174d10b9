import Xv6.Exec.Model
import Xv6.Vm.Alloc
import Xv6.Vm.Setup

/-!
# Loading into a new directory

While `exec` loads, the new directory `d` belongs to no process, but its pages are entered in the
tables of the running process. `Image` describes that state for an image of at most
`MAX_PSYC_PAGES` pages, where no page has to be evicted: the pages `[1, n)` are present and hold
`img`, their frames come from the free list `L` that there was at the beginning, and the tables
list them. With `res` at `ENOUGH` there are frames for all pages and the page table. `Builds` says
what loading leaves alone.
-/

namespace Xv6

open Lib

/-- Loading into directory `d` on behalf of slot `c`, with frames from `L`. -/
structure Builds (c d : Nat) (L : List Nat) (s s' : Kernel) : Prop where
  cur : s'.cur = s.cur
  cr3 : s'.cr3 = s.cr3
  initproc : s'.initproc = s.initproc
  nextpid : s'.nextpid = s.nextpid
  files : s'.files = s.files
  cons : s'.cons = s.cons
  other : ∀ p ≠ c, s'.proc p = s.proc p
  self : SameButTables (s.proc c) (s'.proc c)
  dirs : ∀ e ≠ d, s'.dirs e = s.dirs e
  mem : ∀ g, s'.mem g ≠ s.mem g → g ∈ L

namespace Builds

variable {c d : Nat} {L : List Nat} {s s' s'' : Kernel}

theorem refl (c d : Nat) (L : List Nat) (s : Kernel) : Builds c d L s s :=
  ⟨rfl, rfl, rfl, rfl, rfl, rfl, fun _ _ => rfl, ⟨_, _, _, _, _, rfl⟩, fun _ _ => rfl,
    fun _ h => absurd rfl h⟩

theorem trans (h1 : Builds c d L s s') (h2 : Builds c d L s' s'') : Builds c d L s s'' := by
  obtain ⟨a, m, n, h, t, e1⟩ := h1.self
  obtain ⟨a', m', n', h', t', e2⟩ := h2.self
  refine ⟨h2.cur.trans h1.cur, h2.cr3.trans h1.cr3, h2.initproc.trans h1.initproc,
    h2.nextpid.trans h1.nextpid, h2.files.trans h1.files, h2.cons.trans h1.cons,
    fun p hp => (h2.other p hp).trans (h1.other p hp), ⟨a', m', n', h', t', ?_⟩,
    fun e he => (h2.dirs e he).trans (h1.dirs e he), fun g hg => ?_⟩
  · rw [e2, e1]
    rfl
  · by_cases e : s'.mem g = s.mem g
    · exact h2.mem g (by rwa [e])
    · exact h1.mem g e

theorem setMem {g : Nat} (c d : Nat) (s : Kernel) (hg : g ∈ L) (pg : Nat → Byte) :
    Builds c d L s (s.setMem g pg) :=
  ⟨rfl, rfl, rfl, rfl, rfl, rfl, fun _ _ => rfl, ⟨_, _, _, _, _, rfl⟩, fun _ _ => rfl, fun f hf => by
    rw [setMem_ne hf]
    exact hg⟩

end Builds

section

variable [Build]

/-- The entry of page `u` in frame `g`; the guard page is closed to users. -/
def pageEntry (guard u g : Nat) : Word :=
  if u = guard then userEntry g &&& ~~~PTE_U else userEntry g

omit [Build] in
theorem pageEntry_flags (guard u g : Nat) :
    has (pageEntry guard u g) PTE_P = true ∧ has (pageEntry guard u g) PTE_PG = false ∧
      has (pageEntry guard u g) PTE_U = decide (u ≠ guard) ∧ has (pageEntry guard u g) PTE_W = true := by
  obtain ⟨h1, h2, h3, h4⟩ := userEntry_flags g
  unfold pageEntry
  by_cases e : u = guard
  · rw [if_pos e]
    simp [has_clear, h1, h2, h4, e]
  · rw [if_neg e, decide_eq_true e]
    exact ⟨h1, h2, h3, h4⟩

omit [Build] in
theorem pageNo_pageEntry {g : Nat} (guard u : Nat) (h : g < 2 ^ 20) : pageNo (pageEntry guard u g) = g := by
  unfold pageEntry
  split
  · rw [pageNo_and_mask _ (by decide), pageNo_userEntry h]
  · exact pageNo_userEntry h

/-- Free frames, and one more, that `exec` needs when it starts to load. -/
abbrev ENOUGH : Nat := 17

structure Image (s : Kernel) (c d n guard res : Nat) (L : List Nat) (img : Nat → Byte) : Prop where
  own : Own s (Pend.none.withDir d)
  cur : s.cur = c
  dir : DirOk (s.dirs d)
  /-- The tables of the devices, below which wrapped addresses fall. -/
  high : ∀ u, 0xFE000 ≤ u → u < 2 ^ 20 → (s.dirs d).hasTable u = true
  low : (s.dirs d).hasTable 0 = decide (1 < n)
  entries : ∀ u < NUSER,
    1 ≤ u ∧ u < n ∧ (∃ g ∈ L, Managed g ∧ (s.dirs d).pte u = pageEntry guard u g) ∨
    ¬ (1 ≤ u ∧ u < n) ∧ (s.dirs d).pte u = 0
  agree : Agree (s.proc c) (s.dirs d).pte fun _ => 0
  size : (s.proc c).sizeMem + 1 = n
  slots : (s.proc c).vpaSwap = fun _ => 0
  bytes : ∀ u, 1 ≤ u → u < n → ∀ o < PGSIZE,
    s.mem (pageNo ((s.dirs d).pte u)) o = img (u * PGSIZE + o)
  zero : ∀ a, n * PGSIZE ≤ a → img a = 0
  free : ∀ g ∈ s.freelist, g ∈ L
  left : res ≤ s.freelist.length + n + (decide (1 < n)).toNat

variable {E : String → Prop} {s s1 s' : Kernel} {P : Pend} {c d n guard res u f : Nat}
  {L : List Nat} {img : Nat → Byte}

/-! ## Frames of a spare directory -/

/-- A page of a spare directory is not on the free list. -/
theorem Own.spare_ne_free (h : Own s (P.withDir d)) (hu : u < NUSER)
    (hp : has ((s.dirs d).pte u) PTE_P = true) (hf : f ∈ s.freelist) :
    pageNo ((s.dirs d).pte u) ≠ f := by
  rintro rfl
  have h1 := h.le_one (pageNo ((s.dirs d).pte u))
  have h2 := dirCount_pte d hu hp
  have h3 := List.count_pos_iff.2 hf
  rw [owned_withDir] at h1
  unfold owned at h1
  omega

/-- Two pages of a spare directory have different frames. -/
theorem Own.spare_inj {v : Nat} (h : Own s (P.withDir d)) (hu : u < NUSER) (hv : v < NUSER)
    (hpu : has ((s.dirs d).pte u) PTE_P = true) (hpv : has ((s.dirs d).pte v) PTE_P = true)
    (he : pageNo ((s.dirs d).pte v) = pageNo ((s.dirs d).pte u)) : u = v := by
  by_contra hne
  have h1 := h.le_one (pageNo ((s.dirs d).pte u))
  have h2 := dirCount_pte_pair d hu hv hne hpu hpv he
  rw [owned_withDir] at h1
  omega

omit [Build] in
theorem DirOk.walked (h : DirOk (s.dirs d)) (hu : u < NUSER) (hw : Walked s d u s1) :
    DirOk (s1.dirs d) := by
  cases hw with
  | found ht => exact h
  | made ht hf =>
    simp only [Kernel.setDir, Function.update_self]
    exact h.addTable hu ht _

namespace Image

theorem pos (h : Image s c d n guard res L img) : 1 ≤ n := h.size ▸ Nat.le_add_left 1 _

theorem present (h : Image s c d n guard res L img) (hu : u < NUSER) :
    has ((s.dirs d).pte u) PTE_P = decide (1 ≤ u ∧ u < n) := by
  obtain ⟨h1, h2, g, -, -, hp⟩ | ⟨hn, hp⟩ := h.entries u hu
  · rw [hp, (pageEntry_flags guard u g).1, decide_eq_true ⟨h1, h2⟩]
  · rw [hp, has_zero, decide_eq_false hn]

/-- An image has at most `MAX_PSYC_PAGES` pages. -/
theorem lt_user (h : Image s c d n guard res L img) (hu : u < n) : u < NUSER := by
  have hcount := h.size
  have htab := h.agree.table.size
  rw [NUSER_eq]
  simp only [MAX_PSYC_PAGES] at htab
  omega

theorem page (h : Image s c d n guard res L img) (hlo : 1 ≤ u) (hlt : u < n) :
    ∃ g ∈ L, Managed g ∧ (s.dirs d).pte u = pageEntry guard u g := by
  obtain ⟨-, -, hg⟩ | ⟨hn, -⟩ := h.entries u (h.lt_user hlt)
  · exact hg
  · exact absurd ⟨hlo, hlt⟩ hn

theorem absent (h : Image s c d n guard res L img) (hu : u < NUSER) (hn : ¬ (1 ≤ u ∧ u < n)) :
    (s.dirs d).pte u = 0 := by
  obtain ⟨h1, h2, -⟩ | ⟨-, hp⟩ := h.entries u hu
  · exact absurd ⟨h1, h2⟩ hn
  · exact hp

end Image

/-! ## New pages -/

/-- The state after `allocuvm` entered page `u` with frame `f`, when `VPA_Memory` had room. -/
def enteredPage (s : Kernel) (c d u f : Nat) : Kernel :=
  (newPage s d u f).setProc c (pushMemory (s.proc c) (u * PGSIZE))

theorem Image.enter {l : List Nat} (h : Image s c d n 0 res L img) (hn : n ≤ MAX_PSYC_PAGES)
    (hfl : s.freelist = f :: l) (hw : Walked ((s.taken l).setMem f fun _ => 0) d n s1) :
    Image (enteredPage s1 c d n f) c d (n + 1) 0 res L img ∧
      Builds c d L s (enteredPage s1 c d n f) := by
  have hpos := h.pos
  have hun : n < NUSER := by rw [NUSER_eq]; simp only [MAX_PSYC_PAGES] at hn; omega
  have hfL : f ∈ L := h.free f (by rw [hfl]; exact List.mem_cons_self)
  obtain ⟨hproc, hcur, hcr3, hmem, hfiles, hcons, hinit, hpid, hdirs⟩ := hw.frame
  have hproc' : s1.proc = s.proc := hproc
  have hpte : (s1.dirs d).pte = (s.dirs d).pte := hw.pte
  have hheld := h.own.take hfl
  have hman : Managed f := hheld.managed_held
  have habs : (s.dirs d).pte n = 0 := h.absent hun (by omega)
  obtain ⟨hwp, hwg, -, -⟩ := userEntry_flags f
  obtain ⟨m, k, a, b, hq⟩ := pushMemory_eq (s.proc c) (n * PGSIZE)
  have hself : (enteredPage s1 c d n f).proc c = pushMemory (s.proc c) (n * PGSIZE) := by
    unfold enteredPage
    rw [hproc']
    exact Function.update_self _ _ _
  have hdir : (enteredPage s1 c d n f).dirs d = (s1.dirs d).setPage n (userEntry f) :=
    Function.update_self _ _ _
  have hpte' : ((enteredPage s1 c d n f).dirs d).pte =
      Function.update (s.dirs d).pte n (userEntry f) := by
    rw [hdir, PageDir.pte_setPage hw.hasTable, hpte]
  have hmem' : (enteredPage s1 c d n f).mem = Function.update s.mem f fun _ => 0 := hmem
  have hcount := hw.counts
  have hroom : (s.proc c).sizeMem < MAX_PSYC_PAGES := by have := h.size; omega
  refine ⟨⟨?_, ?_, ?_, fun u h1 h2 => ?_, ?_, fun u hu => ?_, ?_, ?_, ?_, fun u h1 h2 o ho => ?_,
    fun a ha => h.zero a ?_, ?_, ?_⟩, ⟨hcur, hcr3, hinit, hpid, hfiles, hcons, fun p hp => ?_, ?_,
    fun e he => ?_, fun g hg => ?_⟩⟩
  · -- ownership: the frame becomes a page, the tables change
    have h0 : Own ((s.taken l).setMem f fun _ => 0) ((Pend.none.hold f).withDir d) := hheld
    have h1 : Own s1 ((Pend.none.withDir d).hold f) :=
      (h0.walkedSpare (by rw [NUSER_eq] at hun; omega) hw).1
    have h2 := h1.mapPage (w := userEntry f) (holders_withDir s1 _ d) hw.hasTable hun
      (by rw [hpte, habs, has_zero]) hwp (pageNo_userEntry hman.lt)
    refine h2.of_paging (c := c) (Paging.setProc ?_) rfl rfl
    rw [show (s1.setDir d ((s1.dirs d).setPage n (userEntry f))).proc = s.proc from hproc]
    exact ⟨_, m, k, a, b, by rw [hproc']; exact hq⟩
  · exact hcur.trans h.cur
  · rw [hdir]
    exact (DirOk.walked (s := (s.taken l).setMem f fun _ => 0) h.dir hun hw).setPage hun hw.hasTable _
  · rw [hdir, PageDir.hasTable_setPage]
    exact hw.keeps (h.high u h1 h2)
  · rw [hdir, PageDir.hasTable_setPage, decide_eq_true (by omega)]
    have := hw.hasTable
    unfold PageDir.hasTable at this ⊢
    rwa [show n / 1024 = 0 / 1024 by simp only [MAX_PSYC_PAGES] at hn; omega] at this
  · rw [hpte']
    by_cases e : u = n
    · rw [e, Function.update_self]
      exact .inl ⟨hpos, Nat.lt_succ_self n, f, hfL, hman, (if_neg (by omega)).symm⟩
    · rw [Function.update_of_ne e]
      obtain ⟨h1, h2, hg⟩ | ⟨h1, h2⟩ := h.entries u hu
      · exact .inl ⟨h1, by omega, hg⟩
      · exact .inr ⟨by omega, h2⟩
  · rw [hself, hpte']
    exact (h.agree.map (by rw [habs, has_zero]) (by rw [habs, has_zero]) hwp hwg).push hun hroom
  · have hsz : (pushMemory (s.proc c) (n * PGSIZE)).sizeMem = (s.proc c).sizeMem + 1 := by
      unfold pushMemory
      cases (Build.policy : Policy) <;> rfl
    rw [hself, hsz, h.size]
  · rw [hself, hq]
    exact h.slots
  · rw [hpte', hmem']
    have hlt : u < NUSER := by omega
    by_cases e : u = n
    · rw [e, Function.update_self, pageNo_userEntry hman.lt, Function.update_self,
        h.zero _ (Nat.le_add_right _ _)]
    · rw [Function.update_of_ne e, Function.update_of_ne, h.bytes u h1 (by omega) o ho]
      refine h.own.spare_ne_free hlt ?_ (by rw [hfl]; exact List.mem_cons_self)
      rw [h.present hlt, decide_eq_true ⟨h1, by omega⟩]
  · exact le_trans (Nat.mul_le_mul_right _ (Nat.le_succ n)) ha
  · refine fun g hg => h.free g ?_
    rw [hfl]
    refine List.mem_cons_of_mem f ?_
    cases hw with
    | found ht => exact hg
    | made ht hf =>
      have hl : l = _ := hf
      rw [hl]
      exact List.mem_cons_of_mem _ hg
  · have hfree : s1.freelist.length + (!(s.dirs d).hasTable n).toNat = l.length := hcount.1
    have hlow : (s.dirs d).hasTable n = (s.dirs d).hasTable 0 := by
      unfold PageDir.hasTable
      rw [show n / 1024 = 0 / 1024 by simp only [MAX_PSYC_PAGES] at hn; omega]
    rw [hlow, h.low] at hfree
    have hleft := h.left
    rw [hfl, List.length_cons] at hleft
    rw [show (enteredPage s1 c d n f).freelist = s1.freelist from rfl, decide_eq_true (by omega)]
    by_cases e : 1 < n
    · rw [decide_eq_true e] at hfree hleft
      simp only [Bool.not_true, Bool.toNat_false, Bool.toNat_true] at hfree hleft ⊢
      omega
    · rw [decide_eq_false e] at hfree hleft
      simp only [Bool.not_false, Bool.toNat_false, Bool.toNat_true] at hfree hleft ⊢
      omega
  · unfold enteredPage
    exact (Function.update_of_ne hp _ _).trans (congrFun hproc' p)
  · rw [hself]
    exact ⟨_, m, k, a, b, hq⟩
  · exact (Function.update_of_ne he _ _).trans (hdirs e he)
  · rw [hmem'] at hg
    rw [show g = f from by_contra fun hne => hg (Function.update_of_ne hne _ _)]
    exact hfL

/-- A frame can only be missing when too few were left, and then anything may follow. -/
theorem Image.allocPage (h : Image s c d n 0 res L img) (hn : n ≤ MAX_PSYC_PAGES)
    (hE : ENOUGH ≤ res ∨ ∀ m, E m) (a b : Nat) :
    wp (allocPage d a b (n * PGSIZE)) E (fun ok s' =>
      ok = true ∧ Image s' c d (n + 1) 0 res L img ∧ Builds c d L s s' ∨ ok = false ∧ res < ENOUGH) s := by
  have hun : n < NUSER := by rw [NUSER_eq]; simp only [MAX_PSYC_PAGES] at hn; omega
  have hleft := h.left
  have hle : (decide (1 < n)).toNat ≤ 1 := Bool.toNat_le _
  unfold Xv6.allocPage
  refine wp_seq (kalloc_wp (fun hnil => ?_) fun f l hfl => ?_)
  · have hlow : res < ENOUGH := by
      rw [hnil, List.length_nil] at hleft
      simp only [MAX_PSYC_PAGES] at hn
      simp only [ENOUGH]
      omega
    have hall : ∀ m, E m := hE.resolve_left (Nat.not_le.2 hlow)
    exact wp_seq (wp_all hall fun _ _ => wp_seq (wp_all hall fun _ _ => .inr ⟨rfl, hlow⟩))
  · refine wp_seq (modify_wp (wp_seq (mappages_page hun ?_ (fun ht hnil => ?_) fun s1 hw => ?_)))
    · change has ((s.dirs d).pte n) PTE_P = false
      rw [h.absent hun (by omega), has_zero]
    · -- a table is missing only before the first page
      have ht' : (s.dirs d).hasTable 0 = false := by
        have hlow : (s.dirs d).hasTable n = false := ht
        unfold PageDir.hasTable at hlow ⊢
        rwa [show n / 1024 = 0 / 1024 by simp only [MAX_PSYC_PAGES] at hn; omega] at hlow
      have hl : l = [] := hnil
      rw [h.low] at ht'
      rw [hfl, hl, List.length_singleton, ht'] at hleft
      have := of_decide_eq_false ht'
      simp only [Bool.toNat_false] at hleft
      have hlow : res < ENOUGH := by
        simp only [ENOUGH]
        omega
      have hall : ∀ m, E m := hE.resolve_left (Nat.not_le.2 hlow)
      rw [if_pos (by decide)]
      exact wp_seq (wp_all hall fun _ _ => wp_seq (wp_all hall fun _ _ =>
        wp_seq (wp_all hall fun _ _ => .inr ⟨rfl, hlow⟩)))
    · have hproc : s1.proc c = s.proc c := congrFun hw.frame.1 c
      rw [if_neg (by decide)]
      refine wp_seq (get_wp ?_)
      rw [show (s1.setDir d ((s1.dirs d).setPage n (pageWord f ||| (PTE_W ||| PTE_U) ||| PTE_P))).cur = c
        from hw.frame.2.1.trans h.cur]
      refine wp_seq (linkNewPage_push (s := newPage s1 d n f) ?_ ?_)
      · have := h.size
        rw [show (newPage s1 d n f).proc c = s.proc c from hproc]
        omega
      · rw [if_neg (by decide)]
        exact .inl ⟨rfl, h.enter hn hfl hw⟩

theorem Image.allocLoop (hE : ENOUGH ≤ res ∨ ∀ m, E m) (a b k : Nat) : ∀ (n : Nat) (s : Kernel),
    Image s c d n 0 res L img → n + k ≤ MAX_PSYC_PAGES + 1 →
    wp (allocLoop d a b k (n * PGSIZE)) E (fun r s' =>
      r = b ∧ Image s' c d (n + k) 0 res L img ∧ Builds c d L s s' ∨ r = 0 ∧ res < ENOUGH) s := by
  induction k with
  | zero =>
    intro n s h _
    exact .inl ⟨rfl, h, .refl c d L s⟩
  | succ k ih =>
    intro n s h hn
    rw [Xv6.allocLoop]
    refine wp_seq (wp_post (h.allocPage (by omega) hE a b) ?_)
    rintro ok s1 (⟨rfl, h1, hb1⟩ | ⟨rfl, hlow⟩)
    · rw [if_pos rfl, show n * PGSIZE + PGSIZE = (n + 1) * PGSIZE from (Nat.succ_mul _ _).symm]
      refine wp_post (ih (n + 1) s1 h1 (by omega)) ?_
      rintro r s2 (⟨hr, h2, hb2⟩ | hlow)
      · rw [show n + (k + 1) = n + 1 + k by omega]
        exact .inl ⟨hr, h2, hb1.trans hb2⟩
      · exact .inr hlow
    · rw [if_neg Bool.false_ne_true]
      exact .inr ⟨rfl, hlow⟩

/-- `allocuvm` on the new directory, below `KERNBASE` and for at most `MAX_PSYC_PAGES` pages. -/
theorem Image.allocuvm {sz m : Nat} (h : Image s c d (pages sz) 0 res L img) (hE : ENOUGH ≤ res ∨ ∀ m, E m)
    (hsz : sz < KERNBASE) (hm : m < KERNBASE) (hmax : pages (max sz m) ≤ MAX_PSYC_PAGES + 1) :
    wp (allocuvm d sz m) E (fun r s' =>
      r = max sz m ∧ Image s' c d (pages (max sz m)) 0 res L img ∧ Builds c d L s s' ∨
        r = 0 ∧ res < ENOUGH) s := by
  unfold Xv6.allocuvm
  rw [if_neg (by omega)]
  by_cases hlt : m < sz
  · rw [if_pos hlt, Nat.max_eq_left hlt.le]
    exact .inl ⟨rfl, h, .refl c d L s⟩
  · have hle : sz ≤ m := by omega
    have hcount := pages_add hle
    rw [Nat.max_eq_right hle] at hmax ⊢
    rw [if_neg hlt, pgroundup_eq hsz.le, ← hcount]
    exact Image.allocLoop hE sz m _ _ s h (by omega)

/-! ## Bytes -/

omit [Build] in
theorem overwrite_none (pg : Nat → Byte) (o : Nat) (src : Nat → Byte) : overwrite pg o 0 src = pg := by
  funext k
  unfold overwrite
  rw [if_neg (by omega)]

omit [Build] in
/-- Two adjacent parts of `src`. -/
theorem overwrite_append (pg : Nat → Byte) (o i k : Nat) (src : Nat → Byte) :
    overwrite (overwrite pg o i src) (o + i) k (fun j => src (i + j)) = overwrite pg o (i + k) src := by
  funext x
  unfold overwrite
  by_cases h1 : o + i ≤ x ∧ x < o + i + k
  · rw [if_pos h1, if_pos (by omega)]
    exact congrArg src (by omega)
  · rw [if_neg h1]
    by_cases h2 : o ≤ x ∧ x < o + i
    · rw [if_pos h2, if_pos (by omega)]
    · rw [if_neg h2, if_neg (by omega)]

/-- Bytes are written into page `u`. -/
theorem Image.fill {o k : Nat} (h : Image s c d n guard res L img) (hlo : 1 ≤ u) (hlt : u < n) (hok : o + k ≤ PGSIZE) (src : Nat → Byte) :
    Image (s.setMem (pageNo ((s.dirs d).pte u)) (overwrite (s.mem (pageNo ((s.dirs d).pte u))) o k src))
      c d n guard res L (overwrite img (u * PGSIZE + o) k src) ∧
    Builds c d L s (s.setMem (pageNo ((s.dirs d).pte u))
      (overwrite (s.mem (pageNo ((s.dirs d).pte u))) o k src)) := by
  have hun := h.lt_user hlt
  obtain ⟨g, hg, hman, hpte⟩ := h.page hlo hlt
  have hno : pageNo ((s.dirs d).pte u) = g := by rw [hpte, pageNo_pageEntry guard u hman.lt]
  refine ⟨⟨h.own, h.cur, h.dir, h.high, h.low, h.entries, h.agree, h.size, h.slots,
    fun v hv1 hv2 a ha => ?_, fun a ha => ?_, h.free, h.left⟩, .setMem c d s (hno ▸ hg) _⟩
  · by_cases e : v = u
    · subst e
      simp only [Kernel.setMem, Function.update_self]
      unfold overwrite
      by_cases hin : o ≤ a ∧ a < o + k
      · rw [if_pos hin, if_pos (by omega), Nat.add_sub_add_left]
      · rw [if_neg hin, if_neg (by omega)]
        exact h.bytes v hv1 hv2 a ha
    · have hother : overwrite img (u * PGSIZE + o) k src (v * PGSIZE + a) = img (v * PGSIZE + a) := by
        unfold overwrite
        rw [if_neg]
        simp only [PGSIZE] at ha hok ⊢
        omega
      rw [hother]
      have hne : pageNo ((s.dirs d).pte v) ≠ pageNo ((s.dirs d).pte u) := by
        intro he
        refine e (h.own.spare_inj hun (h.lt_user hv2) ?_ ?_ he).symm
        · rw [h.present hun, decide_eq_true ⟨hlo, hlt⟩]
        · rw [h.present (h.lt_user hv2), decide_eq_true ⟨hv1, hv2⟩]
      change Function.update s.mem _ _ (pageNo ((s.dirs d).pte v)) a = _
      rw [Function.update_of_ne hne]
      exact h.bytes v hv1 hv2 a ha
  · unfold overwrite
    rw [if_neg]
    · exact h.zero a ha
    · have := Nat.mul_le_mul_right PGSIZE (show u + 1 ≤ n from hlt)
      rw [Nat.succ_mul] at this
      omega

/-- `touch` lets the pages of the image pass. -/
def Permits (touch : Nat → Nat → K Unit) (E : String → Prop) (c d : Nat) (L : List Nat) : Prop :=
  ∀ t n guard res img u, Image t c d n guard res L img → 1 ≤ u → u < n →
    wp (touch d (pageNo ((t.dirs d).pte u))) E (fun _ t' => t' = t) t

end

end Xv6
