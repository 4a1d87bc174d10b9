import Xv6.Swap.Io
import Xv6.Swap.Link

/-!
# What the calls of `swap.c` do to the tables, from any state

Nothing is assumed of the page table, the frames or the file. `linkNewPage_any` lists the four
things that can happen to a page that is linked, `moveFromSwap_any` and `unlinkTables_cases` what
happens to one that is taken out.
-/

namespace Xv6

open Lib

variable {E : String → Prop} {s : Kernel} {p : Nat}

/-! ## `moveToSwap` -/

/-- Where `moveToSwap` can stop the kernel. -/
def moveStops : List String :=
  ["idx_mem < MAX_PSYC_PAGES", "filewrite", "trap", "myproc() == p", "V2P(p->pgdir) == rcr3()",
   "kfree"]

/-- `moveToSwap` wrote the page in `VPA_Memory[idx]` to slot `i`. -/
structure MovedOut (p idx i : Nat) (s s' : Kernel) : Prop where
  proc : s'.proc = Function.update s.proc p ((s.proc p).fillSlot i (pageNo ((s.proc p).vpaMemory idx)))
  file : ∃ f g, s.files (s.proc p).pid = some f ∧ i * PGSIZE ≤ f.size ∧ f.size ≤ g.size ∧
    (i + 1) * PGSIZE ≤ g.size ∧ s'.files = Function.update s.files (s.proc p).pid (some g)
  cons : s'.cons = s.cons

/-- `moveToSwap` gave up: the page has no page table, its frame is out of reach, or the slot starts
behind the end of the file. -/
inductive NotMoved (p i : Nat) (s : Kernel) : Kernel → Prop
  | page (m : String)
      (hm : m = errorStr "moveToSwap: walkpgdir failed VPA_Memory is dirty\n" ∨
        m = errorStr "moveToSwap: memory not found in PTE Entry\n") : NotMoved p i s (s.printed m)
  | file {f g : SwapFile} (hf : s.files (s.proc p).pid = some f) (hoff : f.size < i * PGSIZE)
      (hle : f.size ≤ g.size) : NotMoved p i s ((s.setFile (s.proc p).pid (some g)).printed
        (errorStr "moveToSwap: writeToSwapFile failed\n"))

theorem NotMoved.proc {i : Nat} {s' : Kernel} (h : NotMoved p i s s') : s'.proc = s.proc := by
  cases h <;> rfl

theorem assertPanic_any {c : Prop} [Decidable c] {m : String} {Q : Unit → Kernel → Prop} (hE : E m)
    (h : c → Q () s) : wp (assertPanic c m) E Q s := by
  unfold assertPanic
  split
  · exact h ‹_›
  · exact hE

variable [Build]

theorem moveToSwap_any {idx i : Nat} {Q : Int → Kernel → Prop} (hE : ∀ m ∈ moveStops, E m)
    (hi : i < MAX_SWAP_PAGES) (hok : ∀ s', MovedOut p idx i s s' → Q 0 s')
    (hfail : ∀ s', NotMoved p i s s' → Q (-1) s') : wp (moveToSwap p idx i) E Q s := by
  have haddr := entryAddr_eq ((s.proc p).vpaMemory idx)
  have hlt := entryAddr_lt ((s.proc p).vpaMemory idx)
  unfold moveToSwap
  refine wp_seq (assertPanic_any (hE _ (by decide)) fun _ => wp_seq (assertPanic_wp hi
    (wp_seq (getProc_wp (wp_seq (assertPanic_wp (entryAddr_mod _) (wp_seq ?_)))))))
  cases ht : (s.dirs (s.proc p).pgdir).hasTable (entryAddr ((s.proc p).vpaMemory idx) / PGSIZE) with
  | false =>
    exact walkpgdir_missing hlt ht (wp_seq (cprintf_wp (hfail _ (.page _ (.inl rfl)))))
  | true =>
    refine walkpgdir_found hlt ht (wp_seq (loadPte_wp ht ?_))
    dsimp only
    split
    · exact wp_seq (cprintf_wp (hfail _ (.page _ (.inr rfl))))
    · refine wp_seq (writeToSwapFile_any (fun m hm => hE m ?_) hi (fun f hf hroom => ?_)
        fun f g hf hoff hle => ?_)
      · rcases List.mem_cons.1 hm with rfl | hm
        · decide
        · rw [List.mem_singleton.1 hm]
          decide
      · rw [if_neg (by decide)]
        refine wp_seq (getProc_wp (wp_seq (setProc_wp (wp_seq (get_wp (wp_seq (assertPanic_any
          (hE _ (by decide)) fun _ => wp_seq (assertPanic_any (hE _ (by decide)) fun _ =>
          wp_seq (storePte_wp (wp_seq (kfree_any (hE _ (by decide)) (hok _ ⟨?_, ?_, rfl⟩))))))))))))
        · rw [haddr]
          rfl
        · exact ⟨f, _, hf, hroom, le_max_left _ _, le_max_right _ _, rfl⟩
      · rw [if_pos (by decide)]
        exact wp_seq (cprintf_wp (hfail _ (.file hf hoff hle)))

/-! ## `linkNewPage` -/

/-- The entry that makes room. -/
def Victim (q : Proc) (idx : Nat) : Prop :=
  match Build.policy with
  | .fifo => idx = q.qHead
  | .nfu => nfuVictim q.vpaMemory = some idx

/-- What `linkNewPage(p, a)` can return, and the state it leaves. -/
inductive LinkResult (p a : Nat) (s : Kernel) : Int → Kernel → Prop
  | pushed (hn : (s.proc p).sizeMem ≠ MAX_PSYC_PAGES) :
      LinkResult p a s 0 (s.setProc p (pushMemory (s.proc p) a))
  | noSlot (hn : (s.proc p).sizeMem = MAX_PSYC_PAGES)
      (hfree : getFreeSwapPageIndex (s.proc p) = none) : LinkResult p a s (-1) (s.printed fullMsg)
  | replaced {idx i : Nat} {t : Kernel} (hn : (s.proc p).sizeMem = MAX_PSYC_PAGES)
      (hfree : getFreeSwapPageIndex (s.proc p) = some i) (hv : Victim (s.proc p) idx)
      (hout : MovedOut p idx i s t) :
      LinkResult p a s 0 (t.setProc p (replaceMemory (t.proc p) idx a))
  | lost {i : Nat} {t : Kernel} (hpol : Build.policy = .fifo)
      (hn : (s.proc p).sizeMem = MAX_PSYC_PAGES)
      (hfree : getFreeSwapPageIndex (s.proc p) = some i) (hout : NotMoved p i s t) :
      LinkResult p a s 0 (t.setProc p (replaceMemory (t.proc p) (t.proc p).qHead a))
  | stuck {i : Nat} {t : Kernel} (hpol : Build.policy = .nfu)
      (hn : (s.proc p).sizeMem = MAX_PSYC_PAGES)
      (hfree : getFreeSwapPageIndex (s.proc p) = some i) (hout : NotMoved p i s t) :
      LinkResult p a s (-1) (t.printed (errorStr "linkNewPage: moveToSwap failed\n"))

theorem linkFullFifo_any {a : Nat} {Q : Int → Kernel → Prop} (hpol : Build.policy = .fifo)
    (hE : ∀ m ∈ moveStops, E m) (hn : (s.proc p).sizeMem = MAX_PSYC_PAGES)
    (hring : (s.proc p).qHead ≠ (s.proc p).qTail → E "p->q_head == p->q_tail")
    (hQ : ∀ r s', LinkResult p a s r s' → Q r s') : wp (linkFullFifo p a) E Q s := by
  have hrep : ∀ (q : Proc) (idx : Nat), replaceMemory q idx a =
      { q with
        vpaMemory := Function.update q.vpaMemory q.qTail (BitVec.ofNat 32 a)
        qTail := (q.qTail + 1) % MAX_PSYC_PAGES
        qHead := (q.qHead + 1) % MAX_PSYC_PAGES } := by
    intro q idx
    unfold replaceMemory
    rw [hpol]
  have hset : ∀ (t : Kernel) (idx : Nat), Q 0 (t.setProc p (replaceMemory (t.proc p) idx a)) →
      wp (do
        let q ← getProc p
        setProc p { q with
          vpaMemory := Function.update q.vpaMemory q.qTail (BitVec.ofNat 32 a)
          qTail := (q.qTail + 1) % MAX_PSYC_PAGES
          qHead := (q.qHead + 1) % MAX_PSYC_PAGES }
        pure (0 : Int)) E Q t := by
    intro t idx h
    rw [hrep] at h
    exact wp_seq (getProc_wp (wp_seq (setProc_wp h)))
  unfold linkFullFifo
  refine wp_seq (getProc_wp (wp_seq ?_))
  by_cases hq : (s.proc p).qHead = (s.proc p).qTail
  · refine assertPanic_wp hq ?_
    cases hfree : getFreeSwapPageIndex (s.proc p) with
    | none => exact wp_seq (cprintf_wp (hQ _ _ (.noSlot hn hfree)))
    | some i =>
      refine wp_seq (moveToSwap_any hE (getFreeSwapPageIndex_some hfree).1 (fun t ht => ?_)
        fun t ht => ?_)
      · refine hset t (s.proc p).qHead (hQ _ _ (.replaced hn hfree ?_ ht))
        unfold Victim
        rw [hpol]
      · exact hset t _ (hQ _ _ (.lost hpol hn hfree ht))
  · exact assertPanic_any (hring hq) fun h => absurd h hq

theorem linkFullNfu_any {a : Nat} {Q : Int → Kernel → Prop} (hpol : Build.policy = .nfu)
    (hE : ∀ m ∈ moveStops, E m) (hn : (s.proc p).sizeMem = MAX_PSYC_PAGES)
    (hQ : ∀ r s', LinkResult p a s r s' → Q r s') : wp (linkFullNfu p a) E Q s := by
  unfold linkFullNfu
  refine wp_seq (getProc_wp ?_)
  cases hfree : getFreeSwapPageIndex (s.proc p) with
  | none => exact wp_seq (cprintf_wp (hQ _ _ (.noSlot hn hfree)))
  | some i =>
    obtain ⟨idx, hidx, -⟩ := nfuVictim_some (s.proc p).vpaMemory
    dsimp only
    rw [hidx]
    refine wp_seq (moveToSwap_any hE (getFreeSwapPageIndex_some hfree).1 (fun t ht => ?_)
      fun t ht => ?_)
    · rw [if_neg (by decide)]
      have hrep : replaceMemory (t.proc p) idx a =
          { t.proc p with vpaMemory := Function.update (t.proc p).vpaMemory idx (BitVec.ofNat 32 a) } := by
        unfold replaceMemory
        rw [hpol]
      have hres : LinkResult p a s 0 (t.setProc p (replaceMemory (t.proc p) idx a)) :=
        .replaced hn hfree (by
          unfold Victim
          rw [hpol]
          exact hidx) ht
      rw [hrep] at hres
      exact wp_seq (getProc_wp (wp_seq (setProc_wp (hQ _ _ hres))))
    · rw [if_pos (by decide)]
      exact wp_seq (cprintf_wp (hQ _ _ (.stuck hpol hn hfree ht)))

theorem linkNewPage_any {a : Nat} {Q : Int → Kernel → Prop} (hE : ∀ m ∈ moveStops, E m)
    (halign : a % PGSIZE ≠ 0 → E "PTE_FLAGS(vpa) ==0")
    (hring : Build.policy = .fifo → (s.proc p).sizeMem = MAX_PSYC_PAGES →
      (s.proc p).qHead ≠ (s.proc p).qTail → E "p->q_head == p->q_tail")
    (hQ : ∀ r s', LinkResult p a s r s' → Q r s') : wp (linkNewPage p a) E Q s := by
  unfold linkNewPage
  by_cases ha : a % PGSIZE = 0
  · refine wp_seq (assertPanic_wp ha (wp_seq (getProc_wp ?_)))
    split
    · rename_i hn
      cases hpol : (Build.policy : Policy) with
      | fifo => exact linkFullFifo_any hpol hE hn (hring hpol hn) hQ
      | nfu => exact linkFullNfu_any hpol hE hn hQ
    · exact wp_seq (setProc_wp (hQ _ _ (.pushed ‹_›)))
  · exact wp_seq (assertPanic_any (halign ha) fun h => absurd h ha)

/-! ## `moveFromSwap` and `unlinkPage` -/

/-- What `moveFromSwap(p, a, mem)` can return, and the state it leaves. -/
inductive FetchResult (p a mem : Nat) (s : Kernel) : Int → Kernel → Prop
  | missing (hs : swapSlot (s.proc p) a = none) : FetchResult p a mem s (-1) s
  | fetched {i : Nat} {f : SwapFile} (hs : swapSlot (s.proc p) a = some i)
      (hf : s.files (s.proc p).pid = some f) (hroom : (i + 1) * PGSIZE ≤ f.size) (pg : Nat → Byte) :
      FetchResult p a mem s 0 ((s.setMem mem pg).setProc p ((s.proc p).clearSlot i))
  | short {i : Nat} {f : SwapFile} (hs : swapSlot (s.proc p) a = some i)
      (hf : s.files (s.proc p).pid = some f) (hroom : f.size < (i + 1) * PGSIZE) (pg : Nat → Byte) :
      FetchResult p a mem s (-1)
        ((s.setMem mem pg).printed (errorStr "moveFromSwap: readFromSwapFile failed\n"))

omit [Build] in
theorem moveFromSwap_any {a mem : Nat} {Q : Int → Kernel → Prop}
    (hE : ∀ m ∈ ["fileread", "trap"], E m) (halign : a % PGSIZE ≠ 0 → E "PTE_FLAGS(vpa) == 0")
    (hQ : ∀ r s', FetchResult p a mem s r s' → Q r s') : wp (moveFromSwap p a mem) E Q s := by
  unfold moveFromSwap
  by_cases ha : a % PGSIZE = 0
  · refine wp_seq (assertPanic_wp ha (wp_seq (getProc_wp ?_)))
    cases hs : swapSlot (s.proc p) a with
    | none => exact hQ _ _ (.missing hs)
    | some i =>
      obtain ⟨hi, -, -⟩ := swapSlot_some hs
      refine wp_seq (readFromSwapFile_any hE hi (fun f hf hroom => ?_) fun f hf hroom => ?_)
      · by_cases hin : (i + 1) * PGSIZE ≤ f.size
        · have hmin : min PGSIZE (f.size - i * PGSIZE) = PGSIZE := by
            simp only [PGSIZE] at *
            omega
          rw [hmin, if_neg (by simp)]
          exact wp_seq (getProc_wp (wp_seq (setProc_wp (hQ _ _ (.fetched hs hf hin _)))))
        · rw [if_pos (by simp only [PGSIZE] at *; omega)]
          exact wp_seq (cprintf_wp (hQ _ _ (.short hs hf (by omega) _)))
      · rw [if_pos (by decide)]
        have hs' : s.setMem mem (s.mem mem) = s := by
          unfold Kernel.setMem
          rw [Function.update_eq_self]
        have hres : FetchResult p a mem s (-1) ((s.setMem mem (s.mem mem)).printed _) :=
          .short hs hf (hroom.trans_le (Nat.mul_le_mul_right _ (Nat.le_succ i))) _
        rw [hs'] at hres
        exact wp_seq (cprintf_wp (hQ _ _ hres))
  · exact wp_seq (assertPanic_any (halign ha) fun h => absurd h ha)

/-- What `unlinkPage` can return, and the tables it leaves. -/
theorem unlinkTables_cases {q q' : Proc} {a : Nat} {r : Int} (h : unlinkTables q a = .ok (r, q')) :
    (r = 0 ∧ ∃ m n t, q' = q.withMem m n q.qHead t) ∨
      (r = 0 ∧ ∃ i, swapSlot q a = some i ∧ q' = q.clearSlot i) ∨ r = -1 ∧ q' = q := by
  unfold unlinkTables at h
  split at h
  · cases h
  · split at h
    · cases h
    · rename_i q1 hq
      obtain ⟨rfl, rfl⟩ := Prod.mk.inj (Except.ok.inj h)
      refine .inl ⟨rfl, ?_⟩
      unfold unlinkMemory at hq
      split at hq
      · split at hq
        · cases hq
        · dsimp only at hq
          generalize fifoAssert _ = x at hq
          cases x with
          | error m => cases hq
          | ok u =>
            cases hq
            exact ⟨_, _, _, rfl⟩
      · split at hq
        · cases hq
        · split at hq
          · cases hq
          · cases hq
            exact ⟨_, _, _, rfl⟩
    · split at h
      · rename_i i hs
        obtain ⟨rfl, rfl⟩ := Prod.mk.inj (Except.ok.inj h)
        exact .inr (.inl ⟨rfl, i, hs, rfl⟩)
      · obtain ⟨rfl, rfl⟩ := Prod.mk.inj (Except.ok.inj h)
        exact .inr (.inr ⟨rfl, rfl⟩)

end Xv6
