import Xv6.Swap.Effect
import Xv6.Swap.Recover

/-!
# The counters of `NFU_SWAP`

The low eleven bits of a `VPA_Memory` entry count the ticks at which its page was found accessed.
`nfuIncrementLoop_any` says what a tick does to all entries, `nfuVictim_le` what the scan of
`linkNewPage` finds.
-/

namespace Xv6

open Lib

/-! ## Counters -/

/-- The counter of an entry. -/
def counter (w : Word) : Nat := (nfuMemCounter w).toNat

theorem counter_eq (w : Word) : counter w = w.toNat % 2048 := by
  unfold counter nfuMemCounter
  rw [BitVec.toNat_and]
  exact Nat.and_two_pow_sub_one_eq_mod w.toNat 11

/-- An entry one use later. -/
def countUse (w : Word) : Word :=
  BitVec.ofNat 32 (entryAddr w) ||| nfuMemCounter (nfuMemCounter w + 1)

theorem entryAddr_countUse (w : Word) : entryAddr (countUse w) = entryAddr w := entryAddr_counter w _

theorem entryAddr_iterate (w : Word) (k : Nat) : entryAddr (countUse^[k] w) = entryAddr w := by
  induction k with
  | zero => rfl
  | succ k ih => rw [Function.iterate_succ_apply', entryAddr_countUse, ih]

theorem counter_ofNat {a : Nat} (ha : a % PGSIZE = 0) :
    counter (BitVec.ofNat 32 a) = 0 := by
  rw [counter_eq, BitVec.toNat_ofNat]
  simp only [PGSIZE] at ha
  omega

theorem counter_countUse (w : Word) : counter (countUse w) = (counter w + 1) % 2048 := by
  have haddr : nfuMemCounter (BitVec.ofNat 32 (entryAddr w)) = 0#32 := by
    apply BitVec.eq_of_toNat_eq
    exact counter_ofNat (entryAddr_mod w)
  have hw := counter_eq w
  have hstep : nfuMemCounter (countUse w) = nfuMemCounter (nfuMemCounter w + 1) := by
    unfold countUse
    unfold nfuMemCounter at haddr ⊢
    rw [BitVec.and_or_distrib_right, haddr, BitVec.zero_or, BitVec.and_assoc, BitVec.and_self]
  have hnext := counter_eq (nfuMemCounter w + 1)
  unfold counter at hnext hw ⊢
  rw [hstep, hnext, BitVec.toNat_add, show (1 : Word).toNat = 1 from rfl]
  omega

/-- The scan of `linkNewPage` ends at a smallest counter. -/
theorem nfuVictim_le {mem : Nat → Word} {i : Nat} (h : nfuVictim mem = some i) :
    ∀ j < MAX_PSYC_PAGES, counter (mem i) ≤ counter (mem j) := by
  -- the best so far is below the initial bound and all counters seen
  have hscan : ∀ (l : List Nat) (best : Word × Option Nat),
      (∀ i, best.2 = some i → best.1 = nfuMemCounter (mem i)) →
      let r := l.foldl (nfuBest mem) best
      (∀ i, r.2 = some i → r.1 = nfuMemCounter (mem i)) ∧ r.1 ≤ best.1 ∧
        ∀ j ∈ l, r.1 ≤ nfuMemCounter (mem j) := by
    intro l
    induction l with
    | nil => exact fun best hb => ⟨hb, BitVec.le_refl _, fun j hj => absurd hj List.not_mem_nil⟩
    | cons k l ih =>
      intro best hb
      have hnext : (∀ i, (nfuBest mem best k).2 = some i →
          (nfuBest mem best k).1 = nfuMemCounter (mem i)) ∧ (nfuBest mem best k).1 ≤ best.1 ∧
          (nfuBest mem best k).1 ≤ nfuMemCounter (mem k) := by
        unfold nfuBest
        split
        · rename_i hle
          refine ⟨fun i hi => ?_, hle, BitVec.le_refl _⟩
          rw [Option.some.inj hi]
        · rename_i hle
          refine ⟨hb, BitVec.le_refl _, ?_⟩
          rw [BitVec.le_def] at hle ⊢
          omega
      obtain ⟨h1, h2, h3⟩ := ih _ hnext.1
      rw [BitVec.le_def] at *
      refine ⟨h1, ?_, fun j hj => ?_⟩
      · exact h2.trans hnext.2.1
      · rcases List.mem_cons.1 hj with rfl | hj
        · exact h2.trans hnext.2.2
        · exact h3 j hj
  obtain ⟨h1, -, h3⟩ := hscan (List.range MAX_PSYC_PAGES) (0xffffffff#32, none) fun i hi => by cases hi
  intro j hj
  have := h3 j (List.mem_range.2 hj)
  rw [h1 i h, BitVec.le_def] at this
  exact this

/-! ## A tick -/

/-- The accessed bit of the page in entry `i` is set. -/
def accessed (s : Kernel) (p i : Nat) : Bool :=
  has ((s.dirs (s.proc p).pgdir).pte (pageNo ((s.proc p).vpaMemory i))) PTE_A

theorem entryAddr_div (w : Word) : entryAddr w / PGSIZE = pageNo w := by
  rw [entryAddr_eq, Nat.mul_div_cancel _ (by decide)]

/-- The entries with one use more for those among `n` from `i` on that were accessed. -/
def usedEntries (s : Kernel) (p i n : Nat) : Nat → Word := fun j =>
  if i ≤ j ∧ j < i + n ∧ accessed s p j = true then countUse ((s.proc p).vpaMemory j)
  else (s.proc p).vpaMemory j

/-- `q` with other entries in `VPA_Memory`. -/
def Proc.withEntries (q : Proc) (m : Nat → Word) : Proc := q.withMem m q.sizeMem q.qHead q.qTail

theorem usedEntries_of_not {s : Kernel} {p i n j : Nat} (h : ¬ (i ≤ j ∧ j < i + n)) :
    usedEntries s p i n j = (s.proc p).vpaMemory j := if_neg fun hc => h ⟨hc.1, hc.2.1⟩

theorem usedEntries_of_mem {s : Kernel} {p i n j : Nat} (h1 : i ≤ j) (h2 : j < i + n) :
    usedEntries s p i n j = if accessed s p j = true then countUse ((s.proc p).vpaMemory j)
      else (s.proc p).vpaMemory j :=
  if_congr ⟨fun h => h.2.2, fun h => ⟨h1, h2, h⟩⟩ rfl rfl

theorem usedEntries_zero (s : Kernel) (p i : Nat) : usedEntries s p i 0 = (s.proc p).vpaMemory :=
  funext fun j => usedEntries_of_not (by omega)

/-- The first entry, then the others. -/
theorem usedEntries_succ {s s' : Kernel} {p i n : Nat}
    (hi : (s'.proc p).vpaMemory i = if accessed s p i = true then countUse ((s.proc p).vpaMemory i)
      else (s.proc p).vpaMemory i)
    (hmem : ∀ j ≠ i, (s'.proc p).vpaMemory j = (s.proc p).vpaMemory j)
    (hacc : ∀ j, i < j → j < i + (n + 1) → accessed s' p j = accessed s p j) :
    usedEntries s' p (i + 1) n = usedEntries s p i (n + 1) := by
  funext j
  by_cases hj : j = i
  · rw [hj, usedEntries_of_not (by omega), hi, usedEntries_of_mem (by omega) (by omega)]
  · by_cases hin : i + 1 ≤ j ∧ j < i + 1 + n
    · rw [usedEntries_of_mem hin.1 hin.2, usedEntries_of_mem (by omega) (by omega),
        hacc j (by omega) (by omega), hmem j hj]
    · rw [usedEntries_of_not hin, usedEntries_of_not (by omega), hmem j hj]

/-- The loop of `nfu_Increment_Counter` counts one use for each page that was accessed. -/
theorem nfuIncrementLoop_any {E : String → Prop} {p : Nat} (n : Nat) : ∀ (i : Nat) (s : Kernel),
    (∀ j k, i ≤ j → j < k → k < i + n →
      pageNo ((s.proc p).vpaMemory j) ≠ pageNo ((s.proc p).vpaMemory k)) →
    (∀ j, i ≤ j → j < i + n →
      (s.dirs (s.proc p).pgdir).hasTable (pageNo ((s.proc p).vpaMemory j)) = false → E "pte != 0") →
    wp (nfuIncrementLoop p n i) E (fun _ s' => s'.proc = Function.update s.proc p
      ((s.proc p).withEntries (usedEntries s p i n))) s := by
  induction n with
  | zero =>
    intro i s _ _
    change s.proc = _
    rw [usedEntries_zero]
    exact (Function.update_eq_self _ _).symm
  | succ n ih =>
    intro i s hinj hE
    have hlt := entryAddr_lt ((s.proc p).vpaMemory i)
    unfold nfuIncrementLoop
    refine wp_seq (getProc_wp (wp_seq ?_))
    cases ht : (s.dirs (s.proc p).pgdir).hasTable (pageNo ((s.proc p).vpaMemory i)) with
    | false =>
      refine walkpgdir_missing hlt (by rwa [entryAddr_div]) ?_
      exact hE i (Nat.le_refl i) (by omega) ht
    | true =>
      refine walkpgdir_found hlt (by rwa [entryAddr_div]) (wp_seq (loadPte_wp
        (by rwa [entryAddr_div]) ?_))
      rw [entryAddr_div]
      by_cases hacc : accessed s p i = true
      · rw [if_pos (show has _ PTE_A = true from hacc)]
        refine wp_seq (setProc_wp (wp_seq (storePte_wp ?_)))
        suffices h : wp (nfuIncrementLoop p n (i + 1)) E (fun _ s' => s'.proc = Function.update s.proc p
            ((s.proc p).withEntries (usedEntries s p i (n + 1))))
            (ticked s p (pageNo ((s.proc p).vpaMemory i)) i) from h
        have hproc : (ticked s p (pageNo ((s.proc p).vpaMemory i)) i).proc =
            Function.update s.proc p (tickEntry (s.proc p) i) := rfl
        have hself : (ticked s p (pageNo ((s.proc p).vpaMemory i)) i).proc p = tickEntry (s.proc p) i := by
          rw [hproc, Function.update_self]
        have hmem : ∀ j ≠ i, (tickEntry (s.proc p) i).vpaMemory j = (s.proc p).vpaMemory j :=
          fun j hj => Function.update_of_ne hj _ _
        have hdir : (ticked s p (pageNo ((s.proc p).vpaMemory i)) i).dirs (s.proc p).pgdir =
            (s.dirs (s.proc p).pgdir).setPage (pageNo ((s.proc p).vpaMemory i))
            ((s.dirs (s.proc p).pgdir).pte (pageNo ((s.proc p).vpaMemory i)) &&& ~~~PTE_A) :=
          Function.update_self _ _ _
        -- the bit that is cleared belongs to no other entry
        have hsees : ∀ j, i < j → j < i + (n + 1) →
            accessed (ticked s p (pageNo ((s.proc p).vpaMemory i)) i) p j = accessed s p j := by
          intro j hj hj'
          unfold accessed
          rw [hself, show (tickEntry (s.proc p) i).pgdir = (s.proc p).pgdir from rfl, hdir,
            PageDir.pte_setPage ht, hmem j (Nat.ne_of_gt hj),
            Function.update_of_ne (hinj i j (Nat.le_refl i) hj hj').symm]
        have hnext := ih (i + 1) (ticked s p (pageNo ((s.proc p).vpaMemory i)) i)
        rw [hself] at hnext
        refine wp_post (hnext (fun j k h1 h2 h3 => ?_) fun j h1 h2 hno => ?_) fun _ s' hs' => ?_
        · rw [hmem j (by omega), hmem k (by omega)]
          exact hinj j k (by omega) h2 (by omega)
        · rw [show (tickEntry (s.proc p) i).pgdir = (s.proc p).pgdir from rfl, hdir,
            PageDir.hasTable_setPage, hmem j (by omega)] at hno
          exact hE j (by omega) (by omega) hno
        · rw [hs', hproc, Function.update_idem, usedEntries_succ (s := s) ?_ ?_ hsees]
          · rfl
          · rw [hself, if_pos hacc]
            exact Function.update_self _ _ _
          · rw [hself]
            exact hmem
      · rw [if_neg (show ¬ has _ PTE_A = true from hacc)]
        have hnext := ih (i + 1) s (fun j k h1 h2 h3 => hinj j k (by omega) h2 (by omega))
          fun j h1 h2 hno => hE j (by omega) (by omega) hno
        rwa [usedEntries_succ (by rw [if_neg hacc]) (fun _ _ => rfl) fun _ _ _ => rfl] at hnext

end Xv6
