import Xv6.Exec.Args
import Xv6.Swap.Effect

/-!
# Images of more than `MAX_PSYC_PAGES` pages

While `exec` loads, the running process still has its old directory, and that is the directory
`linkNewPage` evicts through. `Crowd` is what stays true of such a load whatever the evictions hit:
every page of the new image stays present in the new directory. It uses slot after slot of
the new swap file, so loading goes on to the end unless an eviction stops the kernel.
-/

namespace Xv6

open Lib

/-! ## Files that exec should load -/

/-- A loadable segment as a linker writes it: in pages from page 1 on, below the kernel, with its
bytes in the file. -/
def Proghdr.WellFormed (f : ProgFile) (ph : Proghdr) : Prop :=
  ph.filesz ≤ ph.memsz ∧ PGSIZE ≤ ph.vaddr ∧ ph.vaddr % PGSIZE = 0 ∧ ph.vaddr + ph.memsz < KERNBASE ∧
    ph.off + ph.filesz ≤ f.size

instance (f : ProgFile) (ph : Proghdr) : Decidable (ph.WellFormed f) := by
  unfold Proghdr.WellFormed
  infer_instance

/-- The end of an image of `sz` bytes with the segments of `n` more headers, the next at `off`; `none`
if a header is missing or not well formed. -/
def layout (f : ProgFile) : Nat → Word → Nat → Option Nat
  | 0, _, sz => some sz
  | n + 1, off, sz =>
    match readProghdr f off.toNat with
    | none => none
    | some ph =>
      if ph.type ≠ ELF_PROG_LOAD then layout f n (off + 32) sz
      else if ph.WellFormed f then layout f n (off + 32) (max sz (ph.vaddr + ph.memsz))
      else none

theorem pages_pos {sz : Nat} (h : PGSIZE ≤ sz) : 1 ≤ pages sz :=
  (lt_pages (u := 0)).2 (by rw [Nat.zero_mul]; exact Nat.lt_of_lt_of_le (by decide) h)

theorem layout_le {f : ProgFile} : ∀ {n : Nat} {off : Word} {sz e : Nat}, layout f n off sz = some e → sz ≤ e
  | 0, _, _, _, h => (Option.some.inj h).le
  | n + 1, off, sz, e, h => by
    rw [layout] at h
    split at h
    · cases h
    · split at h
      · exact layout_le h
      · split at h
        · exact (le_max_left _ _).trans (layout_le h)
        · cases h

/-- A well-formed segment is loaded if it leaves room for the stack. -/
theorem Proghdr.WellFormed.segment {f : ProgFile} {ph : Proghdr} {sz : Nat} (h : ph.WellFormed f)
    (hroom : pages (max sz (ph.vaddr + ph.memsz)) ≤ ROOM) :
    segment f ph sz = .fits (max sz (ph.vaddr + ph.memsz)) := by
  obtain ⟨h1, h2, h3, h4, h5⟩ := h
  have htop : ph.top = ph.vaddr + ph.memsz := by
    unfold Proghdr.top
    simp only [KERNBASE] at h4
    omega
  unfold Xv6.segment
  rw [htop, if_neg (by omega), if_neg (by omega), if_neg (by omega), if_neg (by omega), if_neg (by omega)]
  by_cases h6 : ph.filesz = 0
  · rw [if_pos h6]
  · rw [if_neg h6, if_neg (by simp only [PGSIZE] at h2; omega), if_pos h5]

/-- The pages `[1, n)` are entered in directory `d` on behalf of slot `c`; slots below `k` may be
taken. -/
structure Crowd (s : Kernel) (c d n guard k : Nat) : Prop where
  cur : s.cur = c
  ne : (s.proc c).pgdir ≠ d
  table : 1 < n → (s.dirs d).hasTable 0 = true
  pages : ∀ u, 1 ≤ u → u < n →
    has ((s.dirs d).pte u) PTE_P = true ∧ has ((s.dirs d).pte u) PTE_U = decide (u ≠ guard)
  absent : ∀ u, n ≤ u → u < NUSER → (s.dirs d).pte u = 0
  old : (s.dirs (s.proc c).pgdir).hasTable 0 = true
  frames : ∀ u < NUSER, pageNo ((s.dirs (s.proc c).pgdir).pte u) * PGSIZE < PHYSTOP
  size : (s.proc c).sizeMem + 1 ≤ n
  victims : ∀ i, entryAddr ((s.proc c).vpaMemory i) < 1024 * PGSIZE
  slots : ∀ i < MAX_SWAP_PAGES, has ((s.proc c).vpaSwap i) SWAP_P = true → i < k
  file : ∃ f, s.files (s.proc c).pid = some f ∧
    ∀ i < MAX_SWAP_PAGES, has ((s.proc c).vpaSwap i) SWAP_P = true → (i + 1) * PGSIZE ≤ f.size
  left : 33 ≤ s.freelist.length + n + (decide (1 < n)).toNat

namespace Crowd

variable {s : Kernel} {c d n guard k u i idx : Nat}

theorem mono {k' : Nat} (h : Crowd s c d n guard k) (hk : k ≤ k') : Crowd s c d n guard k' :=
  { h with slots := fun i hi ht => (h.slots i hi ht).trans_le hk }

theorem setMem (h : Crowd s c d n guard k) (g : Nat) (pg : Nat → Byte) : Crowd (s.setMem g pg) c d n guard k :=
  ⟨h.cur, h.ne, h.table, h.pages, h.absent, h.old, h.frames, h.size, h.victims, h.slots, h.file, h.left⟩

theorem hasTable (h : Crowd s c d n guard k) (h1 : 1 ≤ u) (h2 : u < n) : (s.dirs d).hasTable u = true :=
  PageDir.hasTable_of_has (h.pages u h1 h2).1

/-! ## Evicting through the old directory -/

theorem freeSlot (h : Crowd s c d n guard k) (hk : k < MAX_SWAP_PAGES) :
    ∃ i, getFreeSwapPageIndex (s.proc c) = some i ∧ i ≤ k := by
  have hfree : has ((s.proc c).vpaSwap k) SWAP_P = false := by
    rw [Bool.eq_false_iff]
    exact fun ht => Nat.lt_irrefl k (h.slots k hk ht)
  obtain ⟨i, hi⟩ := getFreeSwapPageIndex_of_free hk hfree
  refine ⟨i, hi, Nat.not_lt.1 fun hlt => ?_⟩
  rw [(getFreeSwapPageIndex_some hi).2.2 k hlt] at hfree
  cases hfree

theorem pageNo_outEntry (w : Word) : pageNo (outEntry w) = pageNo w := by
  unfold outEntry
  rw [pageNo_or_flag _ (by decide), pageNo_and_mask _ (by decide)]

/-- The page of the old directory that goes to slot `i`. -/
theorem swappedOut {v : Nat} {f : SwapFile} (h : Crowd s c d n guard k) (hik : i ≤ k) (hv : v < 1024)
    (hf : s.files (s.proc c).pid = some f) : Crowd (swappedOut s c v i f) c d n guard (k + 1) := by
  have hself : (Xv6.swappedOut s c v i f).proc c = (s.proc c).fillSlot i v := Function.update_self _ _ _
  have hdir : (Xv6.swappedOut s c v i f).dirs d = s.dirs d := Function.update_of_ne h.ne.symm _ _
  have hold : (Xv6.swappedOut s c v i f).dirs (s.proc c).pgdir =
      (s.dirs (s.proc c).pgdir).setPage v (outEntry ((s.dirs (s.proc c).pgdir).pte v)) :=
    Function.update_self _ _ _
  have ht : (s.dirs (s.proc c).pgdir).hasTable v = true := by
    have := h.old
    unfold PageDir.hasTable at this ⊢
    rwa [Nat.div_eq_of_lt hv]
  refine ⟨h.cur, ?_, ?_, ?_, ?_, ?_, ?_, ?_, ?_, ?_, ?_, ?_⟩
  · rw [hself]
    exact h.ne
  · rw [hdir]
    exact h.table
  · rw [hdir]
    exact h.pages
  · rw [hdir]
    exact h.absent
  · rw [hself]
    change ((Xv6.swappedOut s c v i f).dirs (s.proc c).pgdir).hasTable 0 = true
    rw [hold, PageDir.hasTable_setPage]
    exact h.old
  · rw [hself]
    intro u hu
    change pageNo (((Xv6.swappedOut s c v i f).dirs (s.proc c).pgdir).pte u) * PGSIZE < PHYSTOP
    rw [hold, PageDir.pte_setPage ht]
    by_cases e : u = v
    · rw [e, Function.update_self, pageNo_outEntry]
      exact h.frames v (by rw [NUSER_eq]; omega)
    · rw [Function.update_of_ne e]
      exact h.frames u hu
  · rw [hself]
    exact h.size
  · rw [hself]
    exact h.victims
  · rw [hself]
    intro j hj htaken
    by_cases e : j = i
    · omega
    · rw [show ((s.proc c).fillSlot i v).vpaSwap j = (s.proc c).vpaSwap j from Function.update_of_ne e _ _] at htaken
      exact (h.slots j hj htaken).trans (Nat.lt_succ_self k)
  · obtain ⟨g, hg, hroom⟩ := h.file
    rw [hf] at hg
    obtain rfl := Option.some.inj hg
    rw [hself]
    refine ⟨f.writePage i _, Function.update_self _ _ _, fun j hj htaken => ?_⟩
    by_cases e : j = i
    · rw [e]
      exact le_max_right _ _
    · rw [show ((s.proc c).fillSlot i v).vpaSwap j = (s.proc c).vpaSwap j from Function.update_of_ne e _ _] at htaken
      exact (hroom j hj htaken).trans (le_max_left _ _)
  · have := h.left
    rw [show (Xv6.swappedOut s c v i f).freelist = _ :: s.freelist from rfl, List.length_cons]
    omega

variable [Build]

theorem moveToSwap (h : Crowd s c d n guard k) (hfree : getFreeSwapPageIndex (s.proc c) = some i) (hik : i ≤ k) :
    wp (moveToSwap c idx i) Anyway (fun r t =>
      r = 0 ∧ Crowd t c d n guard (k + 1) ∧ (t.proc c).sizeMem = (s.proc c).sizeMem) s := by
  obtain ⟨hi, -, hbelow⟩ := getFreeSwapPageIndex_some hfree
  obtain ⟨v, hva, hv⟩ : ∃ v, entryAddr ((s.proc c).vpaMemory idx) = v * PGSIZE ∧ v < 1024 := by
    have := h.victims idx
    rw [entryAddr_eq] at this ⊢
    exact ⟨_, rfl, Nat.lt_of_mul_lt_mul_right this⟩
  have hdiv : v * PGSIZE / PGSIZE = v := Nat.mul_div_cancel _ (by decide)
  have hun : v < NUSER := by rw [NUSER_eq]; omega
  have ht : (s.dirs (s.proc c).pgdir).hasTable v = true := by
    have := h.old
    unfold PageDir.hasTable at this ⊢
    rwa [Nat.div_eq_of_lt hv]
  obtain ⟨g, hg, hroom⟩ := h.file
  unfold Xv6.moveToSwap
  refine wp_seq (assertPanic_any trivial fun _ => wp_seq (assertPanic_wp hi (wp_seq (getProc_wp ?_))))
  rw [hva]
  refine wp_seq (assertPanic_wp (by simp) (wp_seq (walkpgdir_found (page_lt_word hun) (by rwa [hdiv]) ?_)))
  rw [hdiv]
  refine wp_seq (loadPte_wp ht ?_)
  have hne : pageNo ((s.dirs (s.proc c).pgdir).pte v) * PGSIZE ≠ KERNBASE := by
    have := h.frames v hun
    simp only [PHYSTOP, KERNBASE] at *
    omega
  rw [if_neg hne]
  refine wp_seq (writeToSwapFile_any (fun _ _ => trivial) hi (fun f hf _ => ?_) fun f _ hf hoff _ => ?_)
  · rw [if_neg (by decide)]
    refine wp_seq (getProc_wp (wp_seq (setProc_wp (wp_seq (get_wp (wp_seq (assertPanic_any trivial fun _ =>
      wp_seq (assertPanic_any trivial fun _ => wp_seq (storePte_wp (wp_seq (kfree_any trivial ?_)))))))))))
    refine ⟨rfl, h.swappedOut hik hv hf, ?_⟩
    change ((Xv6.swappedOut s c v i f).proc c).sizeMem = _
    rw [show (Xv6.swappedOut s c v i f).proc c = (s.proc c).fillSlot i v from Function.update_self _ _ _]
    rfl
  · -- the slots below are full, so the file reaches up to this one
    exfalso
    rw [hg] at hf
    obtain rfl := Option.some.inj hf
    cases i with
    | zero => omega
    | succ j => exact absurd (hroom j (by omega) (hbelow j (Nat.lt_succ_self j))) (Nat.not_le.2 hoff)

omit [Build] in
/-- The table takes page `u` in. -/
theorem setTable {q : Proc} (h : Crowd s c d n guard k) (hu : u < 1024) (hsize : q.sizeMem + 1 ≤ n)
    (hq : ∃ m a b j, q = (s.proc c).withMem (Function.update (s.proc c).vpaMemory j (BitVec.ofNat 32 (u * PGSIZE))) m a b) :
    Crowd (s.setProc c q) c d n guard k := by
  obtain ⟨m, a, b, j, rfl⟩ := hq
  have hself : (s.setProc c ((s.proc c).withMem (Function.update (s.proc c).vpaMemory j
      (BitVec.ofNat 32 (u * PGSIZE))) m a b)).proc c = _ := Function.update_self _ _ _
  refine ⟨h.cur, ?_, h.table, h.pages, h.absent, ?_, ?_, ?_, fun i => ?_, ?_, ?_, h.left⟩ <;> rw [hself]
  · exact h.ne
  · exact h.old
  · exact h.frames
  · exact hsize
  · by_cases e : i = j
    · have hlt : u * PGSIZE < 1024 * PGSIZE := Nat.mul_lt_mul_of_pos_right hu (by decide)
      rw [show ((s.proc c).withMem (Function.update (s.proc c).vpaMemory j (BitVec.ofNat 32 (u * PGSIZE))) m a b).vpaMemory i =
        BitVec.ofNat 32 (u * PGSIZE) by rw [e]; exact Function.update_self _ _ _,
        entryAddr_ofNat (by simp) (hlt.trans (by decide))]
      exact hlt
    · rw [show ((s.proc c).withMem (Function.update (s.proc c).vpaMemory j (BitVec.ofNat 32 (u * PGSIZE))) m a b).vpaMemory i =
        (s.proc c).vpaMemory i from Function.update_of_ne e _ _]
      exact h.victims i
  · exact h.slots
  · exact h.file

/-- Page `u` is linked; a slot is needed when the table is full. -/
theorem linkNewPage (h : Crowd s c d n guard k) (hu : u < 1024) (hsize : (s.proc c).sizeMem + 2 ≤ n)
    (hk : (s.proc c).sizeMem = MAX_PSYC_PAGES → k < MAX_SWAP_PAGES) :
    wp (linkNewPage c (u * PGSIZE)) Anyway (fun r t => r = 0 ∧
      Crowd t c d n guard (k + (decide ((s.proc c).sizeMem = MAX_PSYC_PAGES)).toNat)) s := by
  unfold Xv6.linkNewPage
  refine wp_seq (assertPanic_wp (by simp) (wp_seq (getProc_wp ?_)))
  by_cases hfull : (s.proc c).sizeMem = MAX_PSYC_PAGES
  · rw [if_pos hfull, decide_eq_true hfull]
    obtain ⟨i, hfree, hik⟩ := h.freeSlot (hk hfull)
    cases hp : (Build.policy : Policy) with
    | fifo =>
      unfold linkFullFifo
      refine wp_seq (getProc_wp (wp_seq (assertPanic_any trivial fun _ => ?_)))
      rw [hfree]
      refine wp_seq (wp_post (h.moveToSwap hfree hik) ?_)
      rintro _ t ⟨-, ht, hsz⟩
      refine wp_seq (getProc_wp (wp_seq (setProc_wp ⟨rfl, ht.setTable hu ?_ ⟨_, _, _, _, rfl⟩⟩)))
      exact (Nat.succ_le_succ hsz.le).trans (by omega)
    | nfu =>
      obtain ⟨idx, hidx, -⟩ := nfuVictim_some (s.proc c).vpaMemory
      unfold linkFullNfu
      refine wp_seq (getProc_wp ?_)
      rw [hfree]
      dsimp only
      rw [hidx]
      refine wp_seq (wp_post (h.moveToSwap hfree hik) ?_)
      rintro _ t ⟨rfl, ht, hsz⟩
      rw [if_neg (by decide)]
      refine wp_seq (getProc_wp (wp_seq (setProc_wp ⟨rfl, ht.setTable hu ?_ ⟨_, _, _, _, rfl⟩⟩)))
      exact (Nat.succ_le_succ hsz.le).trans (by omega)
  · rw [if_neg hfull, decide_eq_false hfull]
    refine wp_seq (setProc_wp ⟨rfl, h.setTable hu ?_ ?_⟩)
    · have : (pushMemory (s.proc c) (u * PGSIZE)).sizeMem = (s.proc c).sizeMem + 1 := by
        unfold pushMemory
        cases (Build.policy : Policy) <;> rfl
      omega
    · unfold pushMemory
      cases (Build.policy : Policy) <;> exact ⟨_, _, _, _, rfl⟩

omit [Build] in
/-- `clearpteu` on page `u`. -/
theorem protect (h : Crowd s c d n 0 k) (hlo : 1 ≤ u) (hlt : u < n) :
    Crowd (s.setDir d ((s.dirs d).setPage u ((s.dirs d).pte u &&& ~~~PTE_U))) c d n u k := by
  have ht := h.hasTable hlo hlt
  have hdir : (s.setDir d ((s.dirs d).setPage u ((s.dirs d).pte u &&& ~~~PTE_U))).dirs d =
      (s.dirs d).setPage u ((s.dirs d).pte u &&& ~~~PTE_U) := Function.update_self _ _ _
  have hold : (s.setDir d ((s.dirs d).setPage u ((s.dirs d).pte u &&& ~~~PTE_U))).dirs (s.proc c).pgdir =
      s.dirs (s.proc c).pgdir := Function.update_of_ne h.ne _ _
  refine ⟨h.cur, h.ne, ?_, fun v h1 h2 => ?_, fun v h1 h2 => ?_, ?_, ?_, h.size, h.victims, h.slots, h.file, h.left⟩
  · rw [hdir, PageDir.hasTable_setPage]
    exact h.table
  · rw [hdir, PageDir.pte_setPage ht]
    obtain ⟨hp, hus⟩ := h.pages v h1 h2
    by_cases e : v = u
    · subst e
      rw [Function.update_self]
      simp [has_clear, hp]
    · rw [Function.update_of_ne e, hus, decide_eq_true e, decide_eq_true (by omega)]
      exact ⟨hp, rfl⟩
  · rw [hdir, PageDir.pte_setPage ht, Function.update_of_ne (by omega)]
    exact h.absent v h1 h2
  · change ((s.setDir d _).dirs (s.proc c).pgdir).hasTable 0 = true
    rw [hold]
    exact h.old
  · intro v hv
    change pageNo (((s.setDir d _).dirs (s.proc c).pgdir).pte v) * PGSIZE < PHYSTOP
    rw [hold]
    exact h.frames v hv

/-! ## Growing -/

omit [Build] in
/-- A frame for page `n` is entered in the directory. -/
theorem enter {f : Nat} {l : List Nat} {s1 : Kernel} (h : Crowd s c d n 0 k) (hpos : 1 ≤ n) (hn : n < 1024)
    (hfl : s.freelist = f :: l) (hw : Walked ((s.taken l).setMem f fun _ => 0) d n s1) :
    Crowd (newPage s1 d n f) c d (n + 1) 0 k := by
  obtain ⟨hproc, hcur, -, -, hfiles, -, -, -, hdirs⟩ := hw.frame
  have hproc' : (newPage s1 d n f).proc = s.proc := hproc
  have hold : (newPage s1 d n f).dirs (s.proc c).pgdir = s.dirs (s.proc c).pgdir :=
    (Function.update_of_ne h.ne _ _).trans (hdirs _ h.ne)
  have hdir : (newPage s1 d n f).dirs d = (s1.dirs d).setPage n (userEntry f) := Function.update_self _ _ _
  have hpte : ((newPage s1 d n f).dirs d).pte = Function.update (s.dirs d).pte n (userEntry f) := by
    rw [hdir, PageDir.pte_setPage hw.hasTable, hw.pte]
    rfl
  obtain ⟨hp, -, hus, -⟩ := userEntry_flags f
  refine ⟨hcur.trans h.cur, ?_, fun _ => ?_, fun u h1 h2 => ?_, fun u h1 h2 => ?_, ?_, ?_, ?_, ?_, ?_, ?_, ?_⟩
  · rw [hproc']
    exact h.ne
  · rw [hdir, PageDir.hasTable_setPage]
    have := hw.hasTable
    unfold PageDir.hasTable at this ⊢
    rwa [Nat.div_eq_of_lt hn] at this
  · rw [hpte]
    by_cases e : u = n
    · rw [e, Function.update_self, hp, hus, decide_eq_true (by omega)]
      exact ⟨rfl, rfl⟩
    · rw [Function.update_of_ne e]
      exact h.pages u h1 (by omega)
  · rw [hpte, Function.update_of_ne (by omega)]
    exact h.absent u (by omega) h2
  · rw [hproc', hold]
    exact h.old
  · rw [hproc', hold]
    exact h.frames
  · rw [hproc']
    exact h.size.trans (Nat.le_succ n)
  · rw [hproc']
    exact h.victims
  · rw [hproc']
    exact h.slots
  · rw [hproc', show (newPage s1 d n f).files = s.files from hfiles]
    exact h.file
  · have hcount : s1.freelist.length + (!(s.dirs d).hasTable n).toNat = l.length := hw.counts.1
    have hleft := h.left
    rw [hfl, List.length_cons] at hleft
    rw [show (newPage s1 d n f).freelist = s1.freelist from rfl, decide_eq_true (by omega)]
    by_cases e : 1 < n
    · have ht : (s.dirs d).hasTable n = true := by
        have := h.table e
        unfold PageDir.hasTable at this ⊢
        rwa [Nat.div_eq_of_lt hn]
      rw [ht] at hcount
      rw [decide_eq_true e] at hleft
      simp only [Bool.not_true, Bool.toNat_false, Bool.toNat_true] at hcount hleft ⊢
      omega
    · have hle := Bool.toNat_le (!(s.dirs d).hasTable n)
      rw [decide_eq_false e] at hleft
      simp only [Bool.toNat_false, Bool.toNat_true] at hleft ⊢
      omega

theorem allocPage (h : Crowd s c d n 0 (n - 16)) (hpos : 1 ≤ n) (hn : n ≤ MAX_TOTAL_PAGES) (a b : Nat) :
    wp (allocPage d a b (n * PGSIZE)) Anyway (fun ok s' => ok = true ∧ Crowd s' c d (n + 1) 0 (n + 1 - 16)) s := by
  simp only [MAX_TOTAL_PAGES] at hn
  have hun : n < NUSER := by rw [NUSER_eq]; omega
  have hleft := h.left
  have hle : (decide (1 < n)).toNat ≤ 1 := Bool.toNat_le _
  unfold Xv6.allocPage
  refine wp_seq (kalloc_wp (fun hnil => ?_) fun f l hfl => ?_)
  · rw [hnil, List.length_nil] at hleft
    omega
  · refine wp_seq (modify_wp (wp_seq (mappages_page hun ?_ (fun ht hnil => ?_) fun s1 hw => ?_)))
    · change has ((s.dirs d).pte n) PTE_P = false
      rw [h.absent n le_rfl hun, has_zero]
    · have hl : l = [] := hnil
      rw [hfl, hl, List.length_singleton] at hleft
      omega
    · have hproc : s1.proc c = s.proc c := congrFun hw.frame.1 c
      have hsz := h.size
      rw [if_neg (by decide)]
      refine wp_seq (get_wp ?_)
      rw [show (s1.setDir d ((s1.dirs d).setPage n (pageWord f ||| (PTE_W ||| PTE_U) ||| PTE_P))).cur = c
        from hw.frame.2.1.trans h.cur]
      refine wp_seq (wp_post ((h.enter hpos (by omega) hfl hw).linkNewPage (u := n) (by omega) ?_ fun hfull => ?_) ?_)
      · rw [show (newPage s1 d n f).proc c = s.proc c from hproc]
        omega
      · rw [show (newPage s1 d n f).proc c = s.proc c from hproc] at hfull
        simp only [MAX_PSYC_PAGES, MAX_SWAP_PAGES] at hfull ⊢
        omega
      · rintro _ t ⟨rfl, ht⟩
        rw [if_neg (by decide)]
        refine ⟨rfl, ht.mono ?_⟩
        rw [show (newPage s1 d n f).proc c = s.proc c from hproc]
        by_cases hfull : (s.proc c).sizeMem = MAX_PSYC_PAGES
        · rw [decide_eq_true hfull]
          simp only [MAX_PSYC_PAGES, Bool.toNat_true] at hfull ⊢
          omega
        · rw [decide_eq_false hfull]
          simp only [Bool.toNat_false]
          omega

theorem allocLoop (a b m : Nat) : ∀ (n : Nat) (s : Kernel), Crowd s c d n 0 (n - 16) → 1 ≤ n →
    n + m ≤ MAX_TOTAL_PAGES + 1 →
    wp (allocLoop d a b m (n * PGSIZE)) Anyway (fun r s' => r = b ∧ Crowd s' c d (n + m) 0 (n + m - 16)) s := by
  induction m with
  | zero => exact fun n s h _ _ => ⟨rfl, h⟩
  | succ m ih =>
    intro n s h hpos hn
    rw [Xv6.allocLoop]
    refine wp_seq (wp_post (h.allocPage hpos (by omega) a b) ?_)
    rintro _ s1 ⟨rfl, h1⟩
    rw [if_pos rfl, show n * PGSIZE + PGSIZE = (n + 1) * PGSIZE from (Nat.succ_mul _ _).symm]
    refine wp_post (ih (n + 1) s1 h1 (by omega) (by omega)) ?_
    rintro r s2 ⟨hr, h2⟩
    rw [show n + (m + 1) = n + 1 + m by omega]
    exact ⟨hr, h2⟩

theorem allocuvm {sz m : Nat} (h : Crowd s c d (Xv6.pages sz) 0 (Xv6.pages sz - 16)) (hpos : 1 ≤ Xv6.pages sz)
    (hsz : sz < KERNBASE) (hm : m < KERNBASE) (hmax : Xv6.pages (max sz m) ≤ MAX_TOTAL_PAGES + 1) :
    wp (allocuvm d sz m) Anyway (fun r s' => r = max sz m ∧
      Crowd s' c d (Xv6.pages (max sz m)) 0 (Xv6.pages (max sz m) - 16)) s := by
  unfold Xv6.allocuvm
  rw [if_neg (by omega)]
  by_cases hlt : m < sz
  · rw [if_pos hlt, Nat.max_eq_left hlt.le]
    exact ⟨rfl, h⟩
  · have hle : sz ≤ m := by omega
    have hcount := pages_add hle
    rw [Nat.max_eq_right hle] at hmax ⊢
    rw [if_neg hlt, pgroundup_eq hsz.le, ← hcount]
    exact Crowd.allocLoop sz m _ _ s h hpos (by omega)

/-! ## Loading -/

omit [Build] in
theorem readFrame {f : ProgFile} {g off m : Nat} (h : Crowd s c d n guard k) (hfit : off + m ≤ f.size)
    (hf : f.size ≤ MAXFILE * BSIZE) :
    wp (readFrame (fun _ => pure ()) f g off m) Anyway (fun ok s' => ok = true ∧ Crowd s' c d n guard k) s := by
  have hread : f.readi off m = some m := by
    unfold SwapFile.readi
    simp only [MAXFILE, BSIZE] at hf
    rw [if_neg (by omega), if_neg (by omega)]
  unfold Xv6.readFrame
  rw [hread]
  cases m with
  | zero => exact ⟨rfl, h⟩
  | succ m => exact wp_seq ((wp_pure _ _).2 (wp_seq (modify_wp ⟨decide_eq_true rfl, h.setMem g _⟩)))

omit [Build] in
theorem loadLoop {f : ProgFile} {v off sz : Nat} (hf : f.size ≤ MAXFILE * BSIZE) (hv : 1 ≤ v) (hn : n < 1024)
    (hroom : v + Xv6.pages sz ≤ n) (hfit : off + sz ≤ f.size) (m : Nat) : ∀ (j : Nat) (s : Kernel),
    j + m = Xv6.pages sz → Crowd s c d n guard k →
    wp (loadLoop (fun _ _ => pure ()) d (v * PGSIZE) f off sz m (j * PGSIZE)) Anyway
      (fun r s' => r = 0 ∧ Crowd s' c d n guard k) s := by
  induction m with
  | zero => exact fun j s _ h => ⟨rfl, h⟩
  | succ m ih =>
    intro j s hj h
    have hlt : j * PGSIZE < sz := lt_pages.1 (by omega)
    have hun : v + j < NUSER := by rw [NUSER_eq]; omega
    have haddr : (v * PGSIZE + j * PGSIZE) % 2 ^ 32 = (v + j) * PGSIZE := by
      rw [← Nat.add_mul]
      exact Nat.mod_eq_of_lt (page_lt_word hun)
    have hoff : (off + j * PGSIZE) % 2 ^ 32 = off + j * PGSIZE := by
      refine Nat.mod_eq_of_lt ?_
      simp only [MAXFILE, BSIZE] at hf
      omega
    have hdiv : (v + j) * PGSIZE / PGSIZE = v + j := Nat.mul_div_cancel _ (by decide)
    have ht := h.hasTable (u := v + j) (by omega) (by omega)
    rw [Xv6.loadLoop, haddr, hoff]
    refine wp_seq (walkpgdir_found (page_lt_word hun) (by rwa [hdiv]) ?_)
    rw [hdiv]
    refine wp_seq (loadPte_wp ht ?_)
    dsimp only
    refine wp_seq (wp_post (h.readFrame ?_ hf) ?_)
    · split <;> omega
    · rintro _ s1 ⟨rfl, h1⟩
      rw [if_pos rfl, ← Nat.succ_mul]
      exact ih (j + 1) s1 (by omega) h1

theorem loadSegment {f : ProgFile} {ph : Proghdr} {sz : Nat} (h : Crowd s c d (Xv6.pages sz) 0 (Xv6.pages sz - 16))
    (hf : f.size ≤ MAXFILE * BSIZE) (hwf : ph.WellFormed f) (hlo : PGSIZE ≤ sz) (hsz : sz < KERNBASE)
    (hmax : Xv6.pages (max sz (ph.vaddr + ph.memsz)) ≤ MAX_TOTAL_PAGES + 1) :
    wp (loadSegment (fun _ _ => pure ()) d f ph sz) Anyway (fun r s' => r = some (max sz (ph.vaddr + ph.memsz)) ∧
      Crowd s' c d (Xv6.pages (max sz (ph.vaddr + ph.memsz))) 0 (Xv6.pages (max sz (ph.vaddr + ph.memsz)) - 16)) s := by
  obtain ⟨h1, h2, h3, h4, h5⟩ := hwf
  have hpos : 1 ≤ Xv6.pages sz := pages_pos hlo
  have htop : (ph.vaddr + ph.memsz) % 2 ^ 32 = ph.vaddr + ph.memsz := by
    simp only [KERNBASE] at h4
    omega
  obtain ⟨v, hv⟩ : ∃ v, ph.vaddr = v * PGSIZE := ⟨ph.vaddr / PGSIZE, by simp only [PGSIZE] at *; omega⟩
  have hvpos : 1 ≤ v := by
    rcases Nat.eq_zero_or_pos v with rfl | hp
    · rw [hv, Nat.zero_mul] at h2
      exact absurd h2 (by decide)
    · exact hp
  have hroom : v + Xv6.pages ph.filesz ≤ Xv6.pages (max sz (ph.vaddr + ph.memsz)) := by
    have hle : v * PGSIZE + ph.filesz ≤ max sz (ph.vaddr + ph.memsz) := by omega
    have := pages_mono hle
    unfold Xv6.pages at this ⊢
    simp only [PGSIZE] at this ⊢
    omega
  unfold Xv6.loadSegment
  rw [htop, if_neg (by omega), if_neg (by omega)]
  refine wp_seq (wp_post (h.allocuvm hpos hsz h4 hmax) ?_)
  rintro _ s1 ⟨rfl, hs1⟩
  rw [if_neg (by simp only [PGSIZE] at hlo; omega), if_neg (not_not.2 h3)]
  unfold loaduvm
  rw [if_neg (not_not.2 h3)]
  have hloop := Crowd.loadLoop hf hvpos (by simp only [MAX_TOTAL_PAGES] at hmax; omega) hroom h5
    (Xv6.pages ph.filesz) 0 s1 (Nat.zero_add _) hs1
  rw [Nat.zero_mul, ← hv] at hloop
  refine wp_seq (wp_post hloop ?_)
  rintro _ s2 ⟨rfl, hs2⟩
  rw [if_neg (by decide)]
  exact ⟨rfl, hs2⟩

theorem loadProgram {f : ProgFile} {e : Nat} (hf : f.size ≤ MAXFILE * BSIZE) (he : e < KERNBASE)
    (hmax : Xv6.pages e ≤ MAX_TOTAL_PAGES + 1) (m : Nat) : ∀ (off : Word) (sz : Nat) (s : Kernel),
    layout f m off sz = some e → PGSIZE ≤ sz → Crowd s c d (Xv6.pages sz) 0 (Xv6.pages sz - 16) →
    wp (loadProgram (fun _ _ => pure ()) d f m off sz) Anyway
      (fun r s' => r = some e ∧ Crowd s' c d (Xv6.pages e) 0 (Xv6.pages e - 16)) s := by
  induction m with
  | zero =>
    intro off sz s hl _ h
    obtain rfl := Option.some.inj hl
    exact ⟨rfl, h⟩
  | succ m ih =>
    intro off sz s hl hlo h
    rw [layout] at hl
    rw [Xv6.loadProgram]
    cases hph : readProghdr f off.toNat with
    | none =>
      rw [hph] at hl
      cases hl
    | some ph =>
    rw [hph] at hl
    dsimp only at hl ⊢
    split at hl
    next htype =>
      rw [if_pos htype]
      exact ih _ sz s hl hlo h
    next htype =>
      rw [if_neg htype]
      split at hl
      next hwf =>
        have hle := layout_le hl
        refine wp_seq (wp_post (h.loadSegment hf hwf hlo (((le_max_left _ _).trans hle).trans_lt he)
          ((pages_mono hle).trans hmax)) ?_)
        rintro _ s1 ⟨rfl, h1⟩
        exact ih _ _ s1 hl (hlo.trans (le_max_left _ _)) h1
      next => cases hl

theorem allocStack {sz : Nat} (h : Crowd s c d (Xv6.pages sz) 0 (Xv6.pages sz - 16)) (hpos : 1 ≤ Xv6.pages sz)
    (hsz : sz < KERNBASE) (hmax : Xv6.pages sz + 2 ≤ MAX_TOTAL_PAGES + 1) :
    wp (allocStack d sz) Anyway (fun r s' => r = some ((Xv6.pages sz + 2) * PGSIZE) ∧
      Crowd s' c d (Xv6.pages sz + 2) (Xv6.pages sz) (Xv6.pages sz + 2 - 16)) s := by
  simp only [MAX_TOTAL_PAGES] at hmax
  have hup : pgroundup sz = Xv6.pages sz * PGSIZE := pgroundup_eq hsz.le
  have htop : (Xv6.pages sz * PGSIZE + 2 * PGSIZE) % 2 ^ 32 = (Xv6.pages sz + 2) * PGSIZE := by
    simp only [PGSIZE]
    omega
  have hm : max (Xv6.pages sz * PGSIZE) ((Xv6.pages sz + 2) * PGSIZE) = (Xv6.pages sz + 2) * PGSIZE := by
    simp only [PGSIZE]
    omega
  have h0 : Crowd s c d (Xv6.pages (Xv6.pages sz * PGSIZE)) 0 (Xv6.pages (Xv6.pages sz * PGSIZE) - 16) := by
    rwa [pages_mul]
  unfold Xv6.allocStack
  rw [hup, htop]
  refine wp_seq (wp_post (h0.allocuvm (m := (Xv6.pages sz + 2) * PGSIZE) (by rwa [pages_mul]) ?_ ?_ ?_) ?_)
  · simp only [PGSIZE, KERNBASE]
    omega
  · simp only [PGSIZE, KERNBASE]
    omega
  · rw [hm, pages_mul]
    exact hmax
  rintro _ s1 ⟨rfl, h1⟩
  rw [hm, pages_mul] at h1
  have hlt : Xv6.pages sz < Xv6.pages sz + 2 := by omega
  have hun : Xv6.pages sz < NUSER := by rw [NUSER_eq]; omega
  have hdiv : Xv6.pages sz * PGSIZE / PGSIZE = Xv6.pages sz := Nat.mul_div_cancel _ (by decide)
  have ht := h1.hasTable hpos hlt
  rw [hm, if_neg (by simp only [PGSIZE]; omega),
    show (Xv6.pages sz + 2) * PGSIZE - 2 * PGSIZE = Xv6.pages sz * PGSIZE by simp only [PGSIZE]; omega]
  unfold clearpteu
  refine wp_seq (wp_seq (walkpgdir_found (page_lt_word hun) (by rwa [hdiv]) ?_))
  rw [hdiv]
  exact wp_seq (loadPte_wp ht (storePte_wp ⟨rfl, h1.protect hpos hlt⟩))

end Crowd

end Xv6
