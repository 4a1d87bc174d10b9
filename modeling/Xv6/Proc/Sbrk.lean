import Xv6.Proc.Tables
import Xv6.Vm.Total

/-!
# A growing `sbrk` succeeds or rolls back

`growproc(n)` with `n > 0` fails exactly when the new size reaches the kernel, the tables would
hold more than `MAX_TOTAL_PAGES` pages, or a frame that is needed on the way is missing. A failed
call leaves the size, the linked pages and their bytes as they were, wherever the pages are now,
and loses no frame.
-/

namespace Xv6

open Lib Finset

/-! ## The bytes of a page, wherever it is -/

/-- The byte at offset `o` of page `u` of slot `p`: in its frame, or in its slot of the swap
file. -/
def pageByte (s : Kernel) (p u o : Nat) : Option Byte :=
  if has ((s.dirs (s.proc p).pgdir).pte u) PTE_P then
    some (s.mem (pageNo ((s.dirs (s.proc p).pgdir).pte u)) o)
  else if has ((s.dirs (s.proc p).pgdir).pte u) PTE_PG then
    match swapSlot (s.proc p) (u * PGSIZE), s.files (s.proc p).pid with
    | some i, some f => some (f.data (i * PGSIZE + o))
    | _, _ => none
  else none

/-- Free frames, present user pages and page-table pages of slot `p`. -/
def framesOf (s : Kernel) (p : Nat) : Nat :=
  s.freelist.length + presentPages (s.dirs (s.proc p).pgdir) +
    tablePages (s.dirs (s.proc p).pgdir)

section

variable [Build] {s s' : Kernel} {F F' : Nat → Nat → Nat → Byte} {c m u o : Nat} {n : Int}

/-- A process that changes its own memory only moves frames between the free list and its address
space. -/
theorem framesOf_local (h : Inv s Pend.none F) (h' : Inv s' Pend.none F') (hr : Running s c)
    (hl : Local c s s') : framesOf s' c = framesOf s c := by
  obtain ⟨q, m, ⟨a, b, x, y, z, hq⟩, hself⟩ := hl.self
  have hpg : (s'.proc c).pgdir = (s.proc c).pgdir := by rw [hself, hq]; rfl
  have hks : (s'.proc c).kstack = (s.proc c).kstack := by rw [hself, hq]; rfl
  have hst : (s'.proc c).state = (s.proc c).state := by rw [hself, hq]; rfl
  have hcc : counted s Pend.none.skip c = true := h.counted hr.lt hr.active
  have hcc' : counted s' Pend.none.skip c = true := by
    rw [counted_none hr.lt, hst, ← counted_none hr.lt]
    exact hcc
  -- the other processes own what they owned
  have hother : ∀ f, ∀ p < NPROC, p ≠ c → procCount s' Pend.none.skip p f =
      procCount s Pend.none.skip p f := fun f p hp hne => by
    unfold procCount counted
    rw [hl.other p hne]
    by_cases hc : ((s.proc p).state.live && p != Pend.none.skip) = true
    · rw [if_pos hc, if_pos hc, hl.dirs _ (h.own.pgdir_ne hp hr.lt hne hc hcc)]
    · rw [if_neg hc, if_neg hc]
  have hbal := h.own.balance (a := dirCount (s.proc c).pgdir (s.dirs (s.proc c).pgdir))
    (b := dirCount (s.proc c).pgdir (s'.dirs (s.proc c).pgdir)) h'.own fun f => by
      have h3 := sum_range_change hr.lt (hother f)
      have hpc : procCount s Pend.none.skip c f = ind ((s.proc c).kstack = f) +
          dirCount (s.proc c).pgdir (s.dirs (s.proc c).pgdir) f := if_pos hcc
      have hpc' : procCount s' Pend.none.skip c f = ind ((s.proc c).kstack = f) +
          dirCount (s.proc c).pgdir (s'.dirs (s.proc c).pgdir) f := by
        rw [← hpg, ← hks]
        exact if_pos hcc'
      unfold inUse
      rw [show extraCount s Pend.none.dirs f = 0 from rfl,
        show extraCount s' Pend.none.dirs f = 0 from rfl]
      omega
  have hd : (s.proc c).pgdir < 2 ^ 20 :=
    (h.own.managed_proc hr.lt hcc (Nat.add_pos_right _ (dirCount_self _ _))).lt
  rw [sum_dirCount hd, sum_dirCount hd] at hbal
  unfold framesOf
  rw [hpg]
  omega

/-! ## What the invariant says of a page -/

theorem Inv.pageByte (h : Inv s Pend.none F) (hr : Running s c) (hu : u < NUSER)
    (ho : o < PGSIZE) :
    pageByte s c u o = ((s.dirs (s.proc c).pgdir).view u).map fun _ => F c u o := by
  have hself := h.self hr
  obtain ⟨f, hf, hst⟩ := hself.stored
  unfold Xv6.pageByte
  cases hp : has ((s.dirs (s.proc c).pgdir).pte u) PTE_P with
  | true =>
    rw [if_pos rfl, PageDir.view, entryView_present hp, hst.frames u hu hp o ho]
    rfl
  | false =>
    rw [if_neg (by decide)]
    cases hg : has ((s.dirs (s.proc c).pgdir).pte u) PTE_PG with
    | true =>
      obtain ⟨i, hi⟩ := hself.agree.slot_of_paged hu hg
      obtain ⟨hlt, hocc, haddr⟩ := swapSlot_some hi
      rw [if_pos rfl, hi, hf, PageDir.view, entryView_paged hg]
      dsimp only
      rw [hst.slots i hlt hocc o ho, haddr, Nat.mul_div_cancel _ (by decide)]
      rfl
    | false =>
      rw [if_neg (by decide), PageDir.view, entryView_none hp hg]
      rfl

theorem Inv.mem_linked (h : Inv s Pend.none F) (hr : Running s c) {a : Nat} :
    a ∈ resident (s.proc c) ++ swapped (s.proc c) ↔
      ∃ u < NUSER, a = u * PGSIZE ∧ (s.dirs (s.proc c).pgdir).view u ≠ none := by
  have hagree : Agree (s.proc c) (s.dirs (s.proc c).pgdir).pte fun _ => 0 := (h.self hr).agree
  have hpage : ∀ u < NUSER, u * PGSIZE ∈ resident (s.proc c) ++ swapped (s.proc c) ↔
      (s.dirs (s.proc c).pgdir).view u ≠ none := fun u hu => by
    rw [List.mem_append, hagree.resident_iff hu rfl, hagree.mem_swapped hu, PageDir.view,
      entryView_ne_none]
  constructor
  · intro ha
    obtain ⟨u, hu, rfl⟩ := hagree.page_of_mem ha
    exact ⟨u, hu, rfl, (hpage u hu).1 ha⟩
  · rintro ⟨u, hu, rfl, hv⟩
    exact (hpage u hu).2 hv

/-- The number of linked pages is the number of entries of both tables. -/
theorem linkedPages_eq (q : Proc) : linkedPages q = (resident q ++ swapped q).length := by
  have hslots : ∀ n, (slotAddrs q n).length = ∑ i ∈ range n, (has (q.vpaSwap i) SWAP_P).toNat := by
    intro n
    unfold slotAddrs
    induction n with
    | zero => rfl
    | succ n ih =>
      rw [List.range_succ, List.filter_append, List.map_append, List.length_append, ih,
        sum_range_succ]
      cases ho : has (q.vpaSwap n) SWAP_P <;> simp [ho]
  rw [List.length_append, resident_length, swapped, hslots, linkedPages, occupied]

/-! ## The result -/

/-- What a failed call leaves as it was. -/
structure RolledBack (c : Nat) (s s' : Kernel) : Prop where
  size : (s'.proc c).sz = (s.proc c).sz
  linked : ∀ a, a ∈ resident (s'.proc c) ++ swapped (s'.proc c) ↔
    a ∈ resident (s.proc c) ++ swapped (s.proc c)
  bytes : ∀ u < pages (s.proc c).sz, ∀ o < PGSIZE, pageByte s' c u o = pageByte s c u o
  frames : framesOf s' c = framesOf s c
  agree : TablesAgree (s'.proc c) (s'.dirs (s'.proc c).pgdir)

/-- For every `n > 0`, `growproc(n)` returns `-1` exactly when the new size reaches the kernel,
more than `MAX_TOTAL_PAGES` pages would be linked, or a frame needed on the way is missing. A call
that returns `-1` has rolled back; after one that returns `0` the new pages read as zeros. -/
theorem growproc_all_or_nothing (h : Inv s Pend.none F) (hr : Running s c) (n : Word)
    (hn : 0 < n.toInt) :
    ∃ r s', growproc n.toInt s = .ok (r, s') ∧ (r = 0 ∨ r = -1) ∧
      (r = -1 ↔ KERNBASE ≤ (s.proc c).sz + n.toInt.toNat ∨
        MAX_TOTAL_PAGES < (resident (s.proc c) ++ swapped (s.proc c)).length +
          (pages ((s.proc c).sz + n.toInt.toNat) - pages (s.proc c).sz) ∨
        OutOfFrames s c (pages (s.proc c).sz) (pages ((s.proc c).sz + n.toInt.toNat))) ∧
      (r = -1 → RolledBack c s s') ∧
      (r = 0 → (s'.proc c).sz = (s.proc c).sz + n.toInt.toNat ∧
        ∀ u, pages (s.proc c).sz ≤ u → u < pages ((s.proc c).sz + n.toInt.toNat) →
          ∀ o < PGSIZE, pageByte s' c u o = some 0) := by
  have hlt : n.toInt < 2 ^ 31 := by
    have := BitVec.two_mul_toInt_lt (x := n)
    omega
  have hsz := (h.self hr).size
  obtain ⟨r, s', hrun, hl, hres⟩ := exists_of_wp (growproc_exact (m := (s.proc c).sz + n.toInt.toNat)
    h hr hn hlt (by omega))
  have hr' : Running s' c := by
    obtain ⟨q, m, ⟨a, b, x, y, z, hq⟩, hself⟩ := hl.self
    refine ⟨hl.cur.trans hr.cur, hr.lt, ?_, ?_⟩
    · rw [hself, hq]
      exact hr.active
    · rw [hl.cr3, hself, hq]
      exact hr.cr3
  have hpg : (s'.proc c).pgdir = (s.proc c).pgdir := by rw [← hr'.cr3, hl.cr3, hr.cr3]
  refine ⟨r, s', hrun, ?_⟩
  rw [← linkedPages_eq]
  obtain ⟨rfl, hcan, hinv, hsize, hfill⟩ | ⟨rfl, hcan, hinv, hsize, hsame⟩ := hres
  · refine ⟨.inl rfl, ⟨fun hc => absurd hc (by decide), fun hc => absurd hc hcan⟩,
      fun hc => absurd hc (by decide), fun _ => ⟨hsize, fun u hlo hhi o ho => ?_⟩⟩
    have hu : u < NUSER := by
      refine lt_of_lt_of_le hhi (pages_le ?_)
      by_contra hc
      exact hcan (.inl (by omega))
    rw [hinv.pageByte hr' hu ho, hpg, hfill u hu, if_pos ⟨hlo, hhi⟩, zeroed, if_pos ⟨rfl, hlo, hhi⟩]
    rfl
  · refine ⟨.inr rfl, ⟨fun _ => hcan, fun _ => rfl⟩, fun _ => ⟨hsize, fun a => ?_,
      fun u hu o ho => ?_, framesOf_local h hinv hr hl, hinv.tablesAgree ⟨hr.lt, hr'.active⟩⟩,
      fun hc => absurd hc (by decide)⟩
    · rw [hinv.mem_linked hr', h.mem_linked hr, hpg]
      exact exists_congr fun u => and_congr_right fun hu => by rw [hsame u hu]
    · have hu' : u < NUSER := lt_of_lt_of_le hu (pages_le hsz.2.le)
      rw [hinv.pageByte hr' hu' ho, h.pageByte hr hu' ho, hpg, hsame u hu']

end

/-- The process of the small machine asks for all memory below the kernel, and has the page it
had. -/
theorem growproc_all_or_nothing_small :
    let _ := smallBuild .fifo
    ∃ s', growproc (0x7fffd000#32).toInt (smallKernel .fifo) = .ok (-1, s') ∧
      RolledBack 0 (smallKernel .fifo) s' := by
  let _ := smallBuild .fifo
  have hr : Running (smallKernel .fifo) 0 := ⟨rfl, by decide, by decide, by decide⟩
  obtain ⟨r, s', hrun, hret, hiff, hback, -⟩ :=
    growproc_all_or_nothing (small_start .fifo).inv hr 0x7fffd000#32 (by decide)
  obtain rfl : r = -1 := hiff.2 (.inr (.inl (by decide)))
  exact ⟨s', hrun, hback rfl⟩

end Xv6
