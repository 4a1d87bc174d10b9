import Xv6.Vm.Alloc
import Xv6.Vm.Small
import Xv6.Proc.Machine

/-!
# States to start from

A process that is freshly loaded has empty tables into which its pages, at most
`MAX_PSYC_PAGES` of them, were entered by `linkNewPage`. A kernel with any number of such
processes and every frame accounted for satisfies the invariant (`Start.inv`).
-/

namespace Xv6

open Lib Finset

section

variable [Build]

/-- The tables after the pages `us` were entered. -/
def linked (q : Proc) (us : List Nat) : Proc := us.foldl (fun q u => pushMemory q (u * PGSIZE)) q

variable {E : String → Prop} {s : Kernel} {q : Proc} {pte : Nat → Word} {c p : Nat}

theorem pushMemory_size (q : Proc) (a : Nat) : (pushMemory q a).sizeMem = q.sizeMem + 1 := by
  unfold pushMemory
  cases (Build.policy : Policy) <;> rfl

/-- Entering the unlinked pages one by one. -/
theorem Agree.linked (us : List Nat) (q : Proc) (h : Agree q pte fun u => us.count u)
    (hn : q.sizeMem + us.length ≤ MAX_PSYC_PAGES) (hu : ∀ u ∈ us, u < NUSER) :
    Agree (linked q us) pte fun _ => 0 := by
  induction us generalizing q with
  | nil => exact h
  | cons u us ih =>
    rw [List.length_cons] at hn
    have hb : (fun v => (u :: us).count v) = bump (fun v => us.count v) u := by
      funext v
      rw [List.count_cons]
      unfold bump ind
      simp only [beq_iff_eq]
    rw [hb] at h
    exact ih _ (h.push (hu u List.mem_cons_self) (by omega)) (by rw [pushMemory_size]; omega)
      fun v hv => hu v (List.mem_cons_of_mem u hv)

theorem linked_fields (us : List Nat) (q : Proc) : ∃ m n h t, linked q us = q.withMem m n h t := by
  induction us generalizing q with
  | nil => exact ⟨_, _, _, _, rfl⟩
  | cons u us ih =>
    obtain ⟨m, n, h, t, hq⟩ := pushMemory_eq q (u * PGSIZE)
    obtain ⟨m', n', h', t', hq'⟩ := ih (pushMemory q (u * PGSIZE))
    refine ⟨m', n', h', t', ?_⟩
    rw [show Xv6.linked q (u :: us) = Xv6.linked (pushMemory q (u * PGSIZE)) us from rfl, hq', hq]
    rfl

/-- Slot `p` was loaded with the pages `us`. -/
structure Loaded (s : Kernel) (p : Nat) (us : List Nat) : Prop where
  tables : ∃ q : Proc, s.proc p = linked q.freshTables us
  count : us.length ≤ MAX_PSYC_PAGES
  nodup : us.Nodup
  present : ∀ u < NUSER, has ((s.dirs (s.proc p).pgdir).pte u) PTE_P = true ↔ u ∈ us
  paged : ∀ u < NUSER, has ((s.dirs (s.proc p).pgdir).pte u) PTE_PG = false
  range : ∀ u ∈ us, 1 ≤ u ∧ u * PGSIZE < (s.proc p).sz
  size : 0 < (s.proc p).sz ∧ (s.proc p).sz < KERNBASE
  swapFile : (s.proc p).swapFile = true
  file : ∃ f, s.files (s.proc p).pid = some f

/-- Processes that were just loaded, and nothing else in use. -/
structure Start (s : Kernel) : Prop where
  own : Own s Pend.none
  live : ∀ p < NPROC, (s.proc p).state.live = true → (s.proc p).state.active = true
  dirs : ∀ p, Active s p → DirOk (s.dirs (s.proc p).pgdir)
  loaded : ∀ p, Active s p → ∃ us, Loaded s p us
  pids : ∀ p q, Active s p → Active s q → p ≠ q → (s.proc p).pid ≠ (s.proc q).pid
  pidLt : ∀ p, Active s p → (s.proc p).pid < s.nextpid
  quiet : ∀ t ∈ s.cons, t ∉ dirtyMsgs

/-- The bytes in the frames of the pages. -/
def frameBytes (s : Kernel) (p u o : Nat) : Byte :=
  s.mem (pageNo ((s.dirs (s.proc p).pgdir).pte u)) o

theorem Agree.fresh {us : List Nat} (hnd : us.Nodup)
    (hp : ∀ u < NUSER, has (pte u) PTE_P = true ↔ u ∈ us)
    (hg : ∀ u < NUSER, has (pte u) PTE_PG = false) :
    Agree q.freshTables pte fun u => us.count u where
  table := ⟨Nat.zero_le _, fun _ => ⟨Nat.zero_lt_succ _, rfl⟩⟩
  inMem u hu := by
    rw [show resident q.freshTables = [] from List.eq_nil_of_length_eq_zero (resident_length _),
      List.count_nil, Nat.zero_add]
    by_cases h : u ∈ us
    · rw [List.count_eq_one_of_mem hnd h, (hp u hu).2 h]
      rfl
    · rw [List.count_eq_zero_of_not_mem h, Bool.eq_false_iff.2 fun hc => h ((hp u hu).1 hc)]
      rfl
  inSwap u hu := by
    rw [hg u hu]
    unfold swapCount
    exact Lib.sum_range_zero fun _ _ => slotHolds_free _ (has_zero _)
  excl u hu _ := hg u hu
  memLt a ha := by
    rw [show resident q.freshTables = [] from List.eq_nil_of_length_eq_zero (resident_length _)] at ha
    cases ha
  swapLt i _ hi := by
    rw [show q.freshTables.vpaSwap i = 0 from rfl, has_zero] at hi
    cases hi

theorem Loaded.range_lt {us : List Nat} (h : Loaded s p us) : ∀ u ∈ us, u < NUSER := by
  intro u hu
  have h1 := (h.range u hu).2
  have h2 := h.size.2
  rw [NUSER_eq]
  simp only [PGSIZE, KERNBASE] at *
  omega

theorem Loaded.procOk {us : List Nat} (h : Loaded s p us) :
    ProcOk (s.proc p) (s.dirs (s.proc p).pgdir) s.mem (s.files (s.proc p).pid) (frameBytes s p)
      (fun _ => 0) 0 := by
  obtain ⟨q, hq⟩ := h.tables
  obtain ⟨m, n, hd, tl, hm⟩ := linked_fields us q.freshTables
  obtain ⟨f, hf⟩ := h.file
  have hfree : ∀ i, has ((s.proc p).vpaSwap i) SWAP_P = false := fun i => by
    rw [hq, hm]
    exact has_zero _
  refine ⟨?_, fun u hu hv => ?_, h.swapFile, ⟨f, hf, fun u _ _ o _ => rfl, fun i _ hi => ?_,
    fun i _ hi => ?_⟩, h.size⟩
  · rw [hq]
    refine (Agree.fresh h.nodup (hq ▸ h.present) (hq ▸ h.paged)).linked us _ ?_ h.range_lt
    exact (Nat.zero_add _).trans_le h.count
  · rw [h.paged u hu, Bool.false_eq_true, or_false, h.present u hu] at hv
    rw [Nat.max_zero]
    exact h.range u hv
  · rw [hfree] at hi
    cases hi
  · rw [hfree] at hi
    cases hi

theorem Start.inv (h : Start s) : Inv s Pend.none (frameBytes s) := by
  have hact : ∀ p < NPROC, Xv6.counted s Pend.none.skip p = true → Active s p := fun p hp hc =>
    ⟨hp, h.live p hp (by rwa [counted_none hp] at hc)⟩
  refine ⟨h.own, fun p hp hc => h.dirs p (hact p hp hc), fun p hp hc u hu hg => ?_,
    fun p hp ha => ?_, fun p hp _ => hp.ne, fun p hp q hq ha hb => h.pids p q ⟨hp, ha⟩ ⟨hq, hb⟩,
    fun p hp ha => h.pidLt p ⟨hp, ha⟩, h.quiet⟩
  · obtain ⟨us, hl⟩ := h.loaded p (hact p hp hc)
    rw [hl.paged u hu] at hg
    cases hg
  · obtain ⟨us, hl⟩ := h.loaded p ⟨hp, ha⟩
    rw [show Pend.none.mapped = fun _ => 0 from rfl, show Pend.none.top = 0 from rfl, ite_self,
      ite_self]
    exact hl.procOk

end

/-! ## A small machine -/

/-- A directory with page 1 at frame `f` and its table at frame `t`. -/
def smallDir (t f : Nat) : PageDir := (zeroDir.addTable (1 / 1024) t).setPage 1 (userEntry f)

/-- A process with page 1. -/
def smallProc (policy : Policy) : Proc :=
  let _ := smallBuild policy
  linked (Proc.freshTables { emptyProc with
    sz := 2 * PGSIZE
    pgdir := 57341
    kstack := 57340
    state := .runnable
    pid := 1
    swapFile := true }) [1]

/-- One process with one page, and 200 free frames. -/
def smallKernel (policy : Policy) : Kernel where
  mem := fun _ _ => 0
  dirs := fun _ => smallDir 57342 57343
  freelist := List.range' 57140 200
  totalFreePages := 200
  proc := fun p => if p = 0 then smallProc policy else emptyProc
  initproc := 0
  nextpid := 2
  cur := 0
  cr3 := 57341
  files := fun n => if n = 1 then some ⟨0, fun _ => 0⟩ else none
  cons := []

section

variable {policy : Policy}

theorem smallProc_fields (policy : Policy) : (smallProc policy).sz = 2 * PGSIZE ∧
    (smallProc policy).pgdir = 57341 ∧ (smallProc policy).kstack = 57340 ∧
    (smallProc policy).state = .runnable ∧ (smallProc policy).pid = 1 ∧
    (smallProc policy).swapFile = true := by
  cases policy <;> exact ⟨rfl, rfl, rfl, rfl, rfl, rfl⟩

theorem zeroDir_pte : zeroDir.pte = fun _ => 0 := by
  funext u
  unfold PageDir.pte
  rw [has_zero]
  rfl

theorem zeroDir_table (u : Nat) : zeroDir.hasTable u = false := has_zero _

theorem smallDir_pte (t f : Nat) :
    (smallDir t f).pte = Function.update (fun _ => 0) 1 (userEntry f) := by
  unfold smallDir
  rw [PageDir.pte_setPage (PageDir.hasTable_addTable_self _ 1 t),
    PageDir.pte_addTable t (zeroDir_table 1), zeroDir_pte]

theorem dirCount_small (d g : Nat) {t f : Nat} (ht : t < 2 ^ 20) (hf : f < 2 ^ 20) :
    dirCount d (smallDir t f) g = ind (d = g) + ind (t = g) + ind (f = g) := by
  have h1 := dirCount_setPage d (userEntry f) (PageDir.hasTable_addTable_self zeroDir 1 t)
    (by decide) g
  rw [mapsTo_of_present _ (userEntry_flags f).1, pageNo_userEntry hf,
    PageDir.pte_addTable t (zeroDir_table 1), zeroDir_pte, mapsTo_zero, Nat.add_zero,
    dirCount_addTable d t (zeroDir_table 1) (by decide) ht g, dirCount_zero] at h1
  exact h1

theorem smallDir_ok (t f : Nat) : DirOk (smallDir t f) := by
  refine ((DirOk.mk (D := zeroDir) (fun _ _ _ => has_zero _) (fun u _ _ => ?_)
    fun _ _ hp => ?_).addTable (u := 1) (by decide) (zeroDir_table 1) t).setPage (by decide)
    (PageDir.hasTable_addTable_self _ 1 t) _
  · rw [zeroDir_pte]
    exact ⟨has_zero _, has_zero _⟩
  · rw [has_zero] at hp
    cases hp

/-- The frames of the process of the small machine. -/
theorem small_inUse (policy : Policy) (f : Nat) : inUse (smallKernel policy) Pend.none f =
    ind (57340 = f) + (ind (57341 = f) + ind (57342 = f) + ind (57343 = f)) := by
  obtain ⟨-, hd, hks, hst, -⟩ := smallProc_fields policy
  unfold inUse
  rw [Finset.sum_eq_single 0]
  · unfold procCount
    rw [counted_none (by decide), show (smallKernel policy).proc 0 = smallProc policy from rfl,
      hst, show ProcState.runnable.live = true from rfl, if_pos rfl, hks, hd, show (smallKernel policy).dirs _ = smallDir 57342 57343 from rfl,
      dirCount_small _ _ (by decide) (by decide)]
    rfl
  · intro p _ hne
    unfold procCount
    rw [counted_of_hidden, if_neg (by decide)]
    rw [show (smallKernel policy).proc p = emptyProc from if_neg hne]
    rfl
  · exact fun h => absurd (mem_range.2 (by decide)) h

theorem count_range (a n f : Nat) : (List.range' a n).count f = ind (a ≤ f ∧ f < a + n) := by
  have hmem : f ∈ List.range' a n ↔ a ≤ f ∧ f < a + n := List.mem_range'_1
  unfold ind
  by_cases hc : a ≤ f ∧ f < a + n
  · rw [if_pos hc]
    exact List.count_eq_one_of_mem (List.nodup_range' _) (hmem.2 hc)
  · rw [if_neg hc]
    exact List.count_eq_zero_of_not_mem fun h => hc (hmem.1 h)

theorem ind_range_succ {a b b' : Nat} (f : Nat) (h : a ≤ b) (hb : b' = b + 1) :
    ind (a ≤ f ∧ f < b) + ind (b = f) = ind (a ≤ f ∧ f < b') := by
  unfold ind
  split_ifs <;> omega

theorem small_managed (policy : Policy) (f : Nat) :
    @Managed (smallBuild policy) f ↔ 57140 ≤ f ∧ f < 57344 := by
  unfold Managed
  rw [show @Build.kend (smallBuild policy) = 57140 * 4096 from rfl]
  simp only [PHYSTOP, PGSIZE]
  omega

theorem small_own (policy : Policy) : @Own (smallBuild policy) (smallKernel policy) Pend.none := by
  intro f
  unfold owned
  rw [small_inUse, show (smallKernel policy).freelist.count f = ind (57140 ≤ f ∧ f < 57340) from count_range 57140 200 f,
    ind_congr (small_managed policy f), show Pend.none.held f = 0 from rfl]
  -- the frames of the process follow those of the free list
  have h0 : ind (57140 ≤ f ∧ f < 57340) + _ = ind (57140 ≤ f ∧ f < 57341) := ind_range_succ f (by decide) rfl
  have h1 : ind (57140 ≤ f ∧ f < 57341) + _ = ind (57140 ≤ f ∧ f < 57342) := ind_range_succ f (by decide) rfl
  have h2 : ind (57140 ≤ f ∧ f < 57342) + _ = ind (57140 ≤ f ∧ f < 57343) := ind_range_succ f (by decide) rfl
  have h3 : ind (57140 ≤ f ∧ f < 57343) + _ = ind (57140 ≤ f ∧ f < 57344) := ind_range_succ f (by decide) rfl
  omega

theorem small_active {p : Nat} (h : Active (smallKernel policy) p) : p = 0 := by
  by_contra hp
  have := h.2
  rw [show (smallKernel policy).proc p = emptyProc from if_neg hp] at this
  cases this

theorem small_loaded (policy : Policy) : @Loaded (smallBuild policy) (smallKernel policy) 0 [1] := by
  let _ := smallBuild policy
  obtain ⟨hsz, -, -, -, hpid, hsw⟩ := smallProc_fields policy
  have hproc : (smallKernel policy).proc 0 = smallProc policy := rfl
  have hdir : ∀ d, (smallKernel policy).dirs d = smallDir 57342 57343 := fun _ => rfl
  have hpte : ∀ u, u ≠ 1 → (smallDir 57342 57343).pte u = 0 := fun u hu => by
    rw [smallDir_pte, Function.update_of_ne hu]
  have hone : (smallDir 57342 57343).pte 1 = userEntry 57343 := by
    rw [smallDir_pte, Function.update_self]
  obtain ⟨hp, hg, -⟩ := userEntry_flags 57343
  refine ⟨⟨_, rfl⟩, by decide, by decide, fun u _ => ?_, fun u _ => ?_, fun u hu => ?_, ?_, ?_, ?_⟩
  · rw [hdir, List.mem_singleton]
    by_cases e : u = 1
    · rw [e, hone, hp]
      simp
    · rw [hpte u e, has_zero]
      simp [e]
  · rw [hdir]
    by_cases e : u = 1
    · rw [e, hone, hg]
    · rw [hpte u e, has_zero]
  · rw [List.mem_singleton.1 hu, hproc, hsz]
    decide
  · rw [hproc, hsz]
    decide
  · rw [hproc, hsw]
  · rw [hproc, hpid]
    exact ⟨_, rfl⟩

theorem small_start (policy : Policy) : @Start (smallBuild policy) (smallKernel policy) := by
  let _ := smallBuild policy
  obtain ⟨-, -, -, hst, hpid, -⟩ := smallProc_fields policy
  have hproc : (smallKernel policy).proc 0 = smallProc policy := rfl
  refine ⟨small_own policy, fun p _ hl => ?_, fun p _ => smallDir_ok _ _,
    fun p hp => ⟨[1], small_active hp ▸ small_loaded policy⟩, fun p q hp hq hne => ?_, fun p hp => ?_,
    fun _ ht => by cases ht⟩
  · by_cases e : p = 0
    · rw [e, hproc, hst]
      rfl
    · rw [show (smallKernel policy).proc p = emptyProc from if_neg e] at hl
      cases hl
  · rw [small_active hp, small_active hq] at hne
    exact absurd rfl hne
  · rw [small_active hp, hproc, hpid]
    exact Nat.lt_succ_self 1

end

end Xv6
