import Xv6.Proc.Flat
import Xv6.Proc.Start

/-!
# Swap metadata and page tables agree

`TablesAgree` spells out, for the two tables of a process and its page table, what the kernel
invariant keeps in counts. It holds of every process in every state that the machine reaches
from freshly loaded processes (`tables_agree`).
-/

namespace Xv6

open Lib Finset

/-- The addresses in the first `n` entries of `VPA_Swap` that are occupied. -/
def slotAddrs (q : Proc) (n : Nat) : List Nat :=
  ((List.range n).filter fun i => has (q.vpaSwap i) SWAP_P).map fun i => entryAddr (q.vpaSwap i)

/-- The addresses in the `SWAP_P` entries of `VPA_Swap`. -/
def swapped (q : Proc) : List Nat := slotAddrs q MAX_SWAP_PAGES

theorem count_slotAddrs (q : Proc) (a n : Nat) :
    (slotAddrs q n).count a = ∑ i ∈ range n, slotHolds (q.vpaSwap i) a := by
  unfold slotAddrs
  induction n with
  | zero => rfl
  | succ n ih =>
    rw [List.range_succ, List.filter_append, List.map_append, List.count_append, ih,
      sum_range_succ]
    congr 1
    cases ho : has (q.vpaSwap n) SWAP_P with
    | false => simp [ho, slotHolds_free a ho]
    | true =>
      rw [slotHolds_occupied a ho]
      simp [ho, List.count_cons, ind]

theorem count_swapped (q : Proc) (a : Nat) : (swapped q).count a = swapCount q a := by
  unfold swapCount
  exact count_slotAddrs q a _

theorem mem_swapped {q : Proc} {a : Nat} (h : a ∈ swapped q) :
    ∃ i < MAX_SWAP_PAGES, has (q.vpaSwap i) SWAP_P = true ∧ entryAddr (q.vpaSwap i) = a := by
  obtain ⟨i, hi, rfl⟩ := List.mem_map.1 h
  obtain ⟨hlt, ho⟩ := List.mem_filter.1 hi
  exact ⟨i, List.mem_range.1 hlt, ho, rfl⟩

/-- The assertions of `deallocuvm` on `unlinkPage`. -/
def unlinkMsgs : List String :=
  ["unlinkPage(myproc(), a)==0", "unlinkPage(myproc(),(uint)a) == 0"]

theorem Stops.not_unlink {a : Flat} {op : Op} {m : String} (h : Stops a op m) : m ∉ unlinkMsgs := by
  cases h <;> decide

section

variable [Build]

/-- The tables of `q` and the page table `D` record the same pages. -/
structure TablesAgree (q : Proc) (D : PageDir) : Prop where
  size : q.sizeMem ≤ MAX_PSYC_PAGES
  distinct : (resident q ++ swapped q).Nodup
  entries : ∀ a ∈ resident q ++ swapped q, a ≠ 0 ∧ a % PGSIZE = 0 ∧ a < KERNBASE
  inMem : ∀ u < NUSER, u * PGSIZE ∈ resident q ↔
    has (D.pte u) PTE_P = true ∧ has (D.pte u) PTE_PG = false
  inSwap : ∀ u < NUSER, u * PGSIZE ∈ swapped q ↔
    has (D.pte u) PTE_PG = true ∧ has (D.pte u) PTE_P = false
  only : ∀ u < NUSER, has (D.pte u) PTE_P = true ∨ has (D.pte u) PTE_PG = true →
    u * PGSIZE ∈ resident q ++ swapped q

variable {s s' : Kernel} {q : Proc} {D : PageDir} {pte : Nat → Word} {a p u : Nat} {t : List Label}

theorem Agree.page_of_mem {m : Nat → Nat} (h : Agree q pte m) (ha : a ∈ resident q ++ swapped q) :
    ∃ u < NUSER, a = u * PGSIZE := by
  obtain hr | hs := List.mem_append.1 ha
  · exact exists_page (resident_mod hr) (h.memLt a hr)
  · obtain ⟨i, hi, ho, rfl⟩ := mem_swapped hs
    exact exists_page (entryAddr_mod _) (h.swapLt i hi ho)

theorem Agree.mem_swapped (h : Agree q pte fun _ => 0) (hu : u < NUSER) :
    u * PGSIZE ∈ swapped q ↔ has (pte u) PTE_PG = true := by
  rw [← List.count_pos_iff, count_swapped, h.inSwap u hu]
  cases has (pte u) PTE_PG <;> simp

theorem ProcOk.tablesAgree {mem : Nat → Nat → Byte} {file : Option SwapFile} {G : Nat → Nat → Byte}
    (h : ProcOk q D mem file G (fun _ => 0) 0) : TablesAgree q D where
  size := h.agree.table.size
  distinct := by
    rw [List.nodup_iff_count_le_one]
    intro a
    by_cases ha : a ∈ resident q ++ swapped q
    · obtain ⟨u, hu, rfl⟩ := h.agree.page_of_mem ha
      have h1 := h.agree.inMem u hu
      have h2 := h.agree.inSwap u hu
      rw [List.count_append, count_swapped, h2, show (resident q).count _ = _ from h1]
      cases hp : has (D.pte u) PTE_P with
      | false => exact (Nat.zero_add _).trans_le (Bool.toNat_le _)
      | true => rw [h.agree.excl u hu hp]; rfl
    · rw [List.count_eq_zero_of_not_mem ha]
      omega
  entries a ha := by
    obtain ⟨u, hu, rfl⟩ := h.agree.page_of_mem ha
    have hv : has (D.pte u) PTE_P = true ∨ has (D.pte u) PTE_PG = true := by
      obtain hr | hs := List.mem_append.1 ha
      · exact .inl ((h.agree.resident_iff hu rfl).1 hr)
      · exact .inr ((h.agree.mem_swapped hu).1 hs)
    have hlo := (h.below u hu hv).1
    refine ⟨by simp only [PGSIZE]; omega, by simp, page_lt hu⟩
  inMem u hu := by
    rw [h.agree.resident_iff hu rfl]
    exact ⟨fun hp => ⟨hp, h.agree.excl u hu hp⟩, fun hp => hp.1⟩
  inSwap u hu := by
    rw [h.agree.mem_swapped hu]
    exact ⟨fun hg => ⟨hg, h.agree.absent_of_paged hu hg⟩, fun hg => hg.1⟩
  only u hu hv := by
    rw [List.mem_append, h.agree.resident_iff hu rfl, h.agree.mem_swapped hu]
    exact hv

theorem Inv.tablesAgree {F : Nat → Nat → Nat → Byte} (h : Inv s Pend.none F) (ha : Active s p) :
    TablesAgree (s.proc p) (s.dirs (s.proc p).pgdir) := by
  have hok := h.procs p ha.1 ha.2
  rw [show Pend.none.mapped = fun _ => 0 from rfl, show Pend.none.top = 0 from rfl, ite_self,
    ite_self] at hok
  exact hok.tablesAgree

/-- In every state reached from freshly loaded processes the tables of each process agree with
its page table, nothing was printed about dirty tables, and no turn fails to unlink a page or
finds dirty tables. -/
theorem tables_agree (h : Start s) (hrun : Run Step s t s') :
    (∀ p, Active s' p → TablesAgree (s'.proc p) (s'.dirs (s'.proc p).pgdir)) ∧
    (∀ m ∈ s'.cons, m ∉ dirtyMsgs) ∧
    ∀ p op, Active s' p → wp (turn p op) (fun m => m ∉ unlinkMsgs)
      (fun _ s'' => ∀ m ∈ s''.cons, m ∉ dirtyMsgs) s' := by
  obtain ⟨F, h'⟩ := reachable_inv h.inv hrun
  refine ⟨fun p ha => h'.tablesAgree ha, h'.quiet, fun p op ha => ?_⟩
  refine wp_post (turn_sim op h' ha fun m hm => hm.not_unlink) ?_
  rintro _ s'' ⟨F'', h'', -⟩
  exact h''.quiet

end

/-- On the small machine, a process grows by a page. -/
theorem tables_agree_small :
    let _ := smallBuild .fifo
    ∃ s', Run Step (smallKernel .fifo) [⟨0, .growproc 0x1000#32, .ret 0⟩] s' ∧
      TablesAgree (s'.proc 0) (s'.dirs (s'.proc 0).pgdir) := by
  let _ := smallBuild .fifo
  have hrun : ∃ s', Run Step (smallKernel .fifo) [⟨0, .growproc 0x1000#32, .ret 0⟩] s' ∧
      Active s' 0 := ⟨_, .step ⟨by decide, rfl⟩ (.refl _), by decide⟩
  obtain ⟨s', hrun, ha⟩ := hrun
  exact ⟨s', hrun, (tables_agree (small_start .fifo) hrun).1 0 ha⟩

end Xv6
