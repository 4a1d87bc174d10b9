import Mathlib.Order.Interval.Finset.Nat
import Xv6.Swap.Link

/-!
# What new pages need

A new page takes a frame, sometimes a second one for a page table, and a place in the swap
tables; when `VPA_Memory` is full, linking it frees the frame of the page that is evicted.
`Blocked` and `Placed` say this for one page, `OutOfFrames` and `TooManyPages` for a range of
pages, and `Blocked.stuck` and `Placed.stuck_iff` take the loop of `allocuvm` from the one to the
other.
-/

namespace Xv6

open Lib

/-! ## One page -/

/-- What `allocuvm` lacks for page `u`: a frame for the page, one for a page table, or a place in
the tables. -/
def Blocked (c u : Nat) (s : Kernel) : Prop :=
  s.freelist.length < 1 + (!(s.dirs (s.proc c).pgdir).hasTable u).toNat ∨
    linkedPages (s.proc c) = MAX_TOTAL_PAGES

/-- What placing page `u` does to the free list and the tables. -/
structure Placed (c u : Nat) (s s' : Kernel) : Prop where
  room : ¬ Blocked c u s
  size : (s'.proc c).sizeMem = min MAX_PSYC_PAGES ((s.proc c).sizeMem + 1)
  slots : occupied (s'.proc c) = occupied (s.proc c) + ((s.proc c).sizeMem + 1 - MAX_PSYC_PAGES)
  free : s'.freelist.length + 1 + (!(s.dirs (s.proc c).pgdir).hasTable u).toNat =
    s.freelist.length + ((s.proc c).sizeMem + 1 - MAX_PSYC_PAGES)
  tables : ∀ v, (s'.dirs (s.proc c).pgdir).hasTable v =
    ((s.dirs (s.proc c).pgdir).hasTable v || decide (v / 1024 = u / 1024))

section

variable {s s1 s' : Kernel} {c u hi : Nat}

/-- The frames a walk takes, and the tables there are after it. -/
theorem Walked.counts {d : Nat} (h : Walked s d u s1) :
    s1.freelist.length + (!(s.dirs d).hasTable u).toNat = s.freelist.length ∧
      ∀ v, (s1.dirs d).hasTable v = ((s.dirs d).hasTable v || decide (v / 1024 = u / 1024)) := by
  cases h with
  | found ht =>
    refine ⟨by rw [ht]; rfl, fun v => ?_⟩
    by_cases e : v / 1024 = u / 1024
    · have hv : (s.dirs d).hasTable v = (s.dirs d).hasTable u := by
        unfold PageDir.hasTable
        rw [e]
      rw [hv, ht, Bool.true_or]
    · rw [decide_eq_false e, Bool.or_false]
  | @made f l ht hf =>
    refine ⟨by rw [ht, hf]; rfl, fun v => ?_⟩
    simp only [Kernel.setDir, Function.update_self]
    unfold PageDir.hasTable
    rw [PageDir.pde_addTable]
    by_cases e : v / 1024 = u / 1024
    · rw [e, Function.update_self, has_tableEntry, decide_eq_true rfl, Bool.or_true]
    · rw [Function.update_of_ne e, decide_eq_false e, Bool.or_false]

/-! ## A range of pages -/

/-- How many page tables the pages `[lo, hi)` lack. -/
def tablesNeeded (D : PageDir) (lo hi : Nat) : Nat :=
  (((Finset.Ico lo hi).filter fun u => D.hasTable u = false).image (· / 1024)).card

theorem tablesNeeded_self (D : PageDir) (u : Nat) : tablesNeeded D u u = 0 := by
  rw [tablesNeeded, Finset.Ico_self]
  rfl

theorem tablesNeeded_le (D : PageDir) (lo hi : Nat) : tablesNeeded D lo hi ≤ hi - lo := by
  unfold tablesNeeded
  calc _ ≤ _ := Finset.card_image_le
    _ ≤ (Finset.Ico lo hi).card := Finset.card_filter_le _ _
    _ = hi - lo := Nat.card_Ico lo hi

/-- The table of the first page, if it lacks one, and what the others lack then. -/
theorem tablesNeeded_cons {D D' : PageDir} (hu : u < hi)
    (ht : ∀ v, D'.hasTable v = (D.hasTable v || decide (v / 1024 = u / 1024))) :
    tablesNeeded D u hi = (!D.hasTable u).toNat + tablesNeeded D' (u + 1) hi := by
  set rest := ((Finset.Ico (u + 1) hi).filter fun v => D'.hasTable v = false).image (· / 1024)
    with hrest
  have hnot : u / 1024 ∉ rest := by
    simp only [hrest, Finset.mem_image, Finset.mem_filter, not_exists, not_and]
    rintro v ⟨-, hv⟩ he
    rw [ht, he, decide_eq_true rfl, Bool.or_true] at hv
    cases hv
  have hmem : ∀ i, i ∈ ((Finset.Ico u hi).filter fun v => D.hasTable v = false).image (· / 1024) ↔
      (D.hasTable u = false ∧ i = u / 1024) ∨ i ∈ rest := by
    intro i
    simp only [hrest, Finset.mem_image, Finset.mem_filter, Finset.mem_Ico, ht]
    constructor
    · rintro ⟨v, ⟨hv, hm⟩, rfl⟩
      by_cases e : v / 1024 = u / 1024
      · left
        refine ⟨?_, e⟩
        unfold PageDir.hasTable at hm ⊢
        rwa [← e]
      · right
        refine ⟨v, ⟨⟨?_, hv.2⟩, by rw [hm, decide_eq_false e]; rfl⟩, rfl⟩
        have : v ≠ u := by rintro rfl; exact e rfl
        omega
    · rintro (⟨hm, rfl⟩ | ⟨v, ⟨hv, hm⟩, rfl⟩)
      · exact ⟨u, ⟨⟨Nat.le_refl u, hu⟩, hm⟩, rfl⟩
      · rw [Bool.or_eq_false_iff] at hm
        exact ⟨v, ⟨by omega, hm.1⟩, rfl⟩
  unfold tablesNeeded
  rw [← hrest]
  cases hb : D.hasTable u with
  | true =>
    rw [show ((Finset.Ico u hi).filter fun v => D.hasTable v = false).image (· / 1024) = rest from
      Finset.ext fun i => by rw [hmem, hb]; simp]
    simp
  | false =>
    rw [show ((Finset.Ico u hi).filter fun v => D.hasTable v = false).image (· / 1024) =
      insert (u / 1024) rest from Finset.ext fun i => by rw [hmem, hb]; simp,
      Finset.card_insert_of_notMem hnot]
    simp only [Bool.not_false, Bool.toNat_true]
    omega

/-- At some page of `[lo, hi)` the pages and page tables up to it take more frames than are free
and were freed by evictions before it. -/
def OutOfFrames (s : Kernel) (c lo hi : Nat) : Prop :=
  ∃ u, lo ≤ u ∧ u < hi ∧
    s.freelist.length + ((s.proc c).sizeMem + (u - lo) - MAX_PSYC_PAGES) <
      (u + 1 - lo) + tablesNeeded (s.dirs (s.proc c).pgdir) lo (u + 1)

/-- The tables have no room for the pages `[lo, hi)`. -/
def TooManyPages (s : Kernel) (c lo hi : Nat) : Prop :=
  MAX_TOTAL_PAGES < linkedPages (s.proc c) + (hi - lo)

theorem Blocked.stuck (h : Blocked c u s) (hu : u < hi)
    (hsize : (s.proc c).sizeMem ≤ MAX_PSYC_PAGES) :
    TooManyPages s c u hi ∨ OutOfFrames s c u hi := by
  obtain h | h := h
  · right
    refine ⟨u, Nat.le_refl u, hu, ?_⟩
    rw [@tablesNeeded_cons u (u + 1) (s.dirs (s.proc c).pgdir)
      ((s.dirs (s.proc c).pgdir).addTable (u / 1024) 0) (Nat.lt_succ_self u)
      fun v => ?_, tablesNeeded_self]
    · omega
    · unfold PageDir.hasTable
      rw [PageDir.pde_addTable]
      by_cases e : v / 1024 = u / 1024
      · rw [e, Function.update_self, has_tableEntry, decide_eq_true rfl, Bool.or_true]
      · rw [Function.update_of_ne e, decide_eq_false e, Bool.or_false]
  · left
    unfold TooManyPages
    omega

/-- Placing one page takes what it needs and leaves the rest as lacking as it was. -/
theorem Placed.stuck_iff (h : Placed c u s s') (hp : Paging c s s')
    (hu : u < hi) (hsize : (s.proc c).sizeMem ≤ MAX_PSYC_PAGES) :
    (TooManyPages s c u hi ∨ OutOfFrames s c u hi) ↔
      (TooManyPages s' c (u + 1) hi ∨ OutOfFrames s' c (u + 1) hi) := by
  obtain ⟨hroom, h1, h2, h3, h4⟩ := h
  have hmany : TooManyPages s c u hi ↔ TooManyPages s' c (u + 1) hi := by
    unfold TooManyPages linkedPages
    omega
  have hneed : ∀ v, u + 1 ≤ v →
      tablesNeeded (s.dirs (s.proc c).pgdir) u (v + 1) =
        (!(s.dirs (s.proc c).pgdir).hasTable u).toNat +
          tablesNeeded (s'.dirs (s.proc c).pgdir) (u + 1) (v + 1) := fun v hv =>
    tablesNeeded_cons (by omega) h4
  unfold OutOfFrames
  rw [hmany, hp.pgdir]
  refine or_congr_right ⟨?_, ?_⟩
  · rintro ⟨v, hv, hlt, hout⟩
    by_cases e : v = u
    · -- the frames for `u` itself were there
      subst e
      rw [tablesNeeded_cons (Nat.lt_succ_self v) h4, tablesNeeded_self] at hout
      exact absurd (.inl (by omega)) hroom
    · have hn := hneed v (by omega)
      exact ⟨v, by omega, hlt, by omega⟩
  · rintro ⟨v, hv, hlt, hout⟩
    have hn := hneed v hv
    exact ⟨v, by omega, hlt, by omega⟩

theorem not_stuck_self (c u : Nat) (s : Kernel) (hsize : (s.proc c).sizeMem ≤ MAX_PSYC_PAGES) :
    ¬ (TooManyPages s c u u ∨ OutOfFrames s c u u) := by
  rintro (h | ⟨v, h1, h2, -⟩)
  · have := linkedPages_le hsize
    unfold TooManyPages at h
    omega
  · omega

end

end Xv6
