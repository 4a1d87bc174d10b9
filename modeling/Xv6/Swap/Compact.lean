import Xv6.Lib.Compact
import Xv6.Swap.Init
import Xv6.Swap.Io
import Xv6.Vm.Small
import Xv6.Vm.Walk

/-!
# `initSwap` packs the parent's slots

The child's table and file list the occupied slots of the parent in order. `Packing` is the
invariant of the copying loop: the table part is `Compacted`, the file part says where the bytes
of each slot went.
-/

namespace Xv6

open Lib

/-- The slot is occupied. -/
def slotTaken (w : Word) : Bool := has w SWAP_P

/-- The occupied slots of a process, in order. -/
def takenSlots (q : Proc) : List Nat := takenBelow q.vpaSwap slotTaken MAX_SWAP_PAGES

theorem Proc.moveSlot_vpaSwap (q : Proc) {i j : Nat} (n : Nat) :
    (q.moveSlot i j).vpaSwap n =
      if n = j then q.vpaSwap i else if n = i then 0 else q.vpaSwap n := by
  unfold Proc.moveSlot
  by_cases hij : j = i
  · rw [if_neg (not_not.2 hij)]
    subst hij
    split
    · rename_i h
      rw [h]
    · rfl
  · rw [if_pos hij]
    simp only [Function.update_apply]
    by_cases h1 : n = i
    · rw [if_pos h1, if_neg (by omega), if_pos h1]
    · rw [if_neg h1, if_neg h1]

theorem Proc.moveSlot_eq (q : Proc) (i j : Nat) : ∃ a, q.moveSlot i j = { q with vpaSwap := a } := by
  unfold Proc.moveSlot
  split
  · exact ⟨_, rfl⟩
  · exact ⟨q.vpaSwap, rfl⟩

theorem Proc.moveSlot_pid (q : Proc) (i j : Nat) : (q.moveSlot i j).pid = q.pid := by
  obtain ⟨a, ha⟩ := q.moveSlot_eq i j
  rw [ha]

/-- The child `q` and its file when the slots below `i` of the parent's table `r` and file `f` are
done. -/
structure CopiedSlots (r : Proc) (f : SwapFile) (q : Proc) (g : SwapFile) (i : Nat) : Prop where
  table : Compacted r.vpaSwap q.vpaSwap slotTaken 0 i
  memory : q.vpaMemory = r.vpaMemory
  size : q.sizeMem = r.sizeMem
  head : q.qHead = r.qHead
  tail : q.qTail = r.qTail
  room : (takenBelow r.vpaSwap slotTaken i).length * PGSIZE ≤ g.size
  bytes : ∀ (n : Nat) (h : n < (takenBelow r.vpaSwap slotTaken i).length), ∀ o < PGSIZE,
    (takenBelow r.vpaSwap slotTaken i).get ⟨n, h⟩ * PGSIZE + o < f.size →
      g.data (n * PGSIZE + o) = f.data ((takenBelow r.vpaSwap slotTaken i).get ⟨n, h⟩ * PGSIZE + o)

namespace CopiedSlots

variable {r q : Proc} {f g : SwapFile} {i : Nat}

theorem start (f : SwapFile) (q : Proc) (r : Proc) (g : SwapFile) :
    CopiedSlots r f (q.copyTables r) g 0 :=
  ⟨Compacted.start _ _ _, rfl, rfl, rfl, rfl, by simp [takenBelow], fun n h => absurd h (Nat.not_lt_zero n)⟩

theorem skip (h : CopiedSlots r f q g i) (hi : slotTaken (r.vpaSwap i) = false) :
    CopiedSlots r f q g (i + 1) := by
  have hl : takenBelow r.vpaSwap slotTaken (i + 1) = takenBelow r.vpaSwap slotTaken i := by
    rw [takenBelow_succ, hi]
    rfl
  refine ⟨h.table.skip hi, h.memory, h.size, h.head, h.tail, ?_, ?_⟩ <;> rw [hl]
  · exact h.room
  · exact h.bytes

theorem copy (h : CopiedSlots r f q g i) (hi : slotTaken (r.vpaSwap i) = true) {pg : Nat → Byte}
    (hpg : ∀ o < PGSIZE, i * PGSIZE + o < f.size → pg o = f.data (i * PGSIZE + o)) :
    CopiedSlots r f (q.moveSlot i (takenBelow r.vpaSwap slotTaken i).length)
      (g.writePage (takenBelow r.vpaSwap slotTaken i).length pg) (i + 1) := by
  have hl : takenBelow r.vpaSwap slotTaken (i + 1) = takenBelow r.vpaSwap slotTaken i ++ [i] := by
    rw [takenBelow_succ, hi]
    rfl
  have hlen : (takenBelow r.vpaSwap slotTaken (i + 1)).length =
      (takenBelow r.vpaSwap slotTaken i).length + 1 := by
    rw [hl, List.length_append, List.length_singleton]
  obtain ⟨a, ha⟩ := q.moveSlot_eq i (takenBelow r.vpaSwap slotTaken i).length
  refine ⟨h.table.move hi fun n => q.moveSlot_vpaSwap n, ?_, ?_, ?_, ?_, ?_, fun n hn o ho hf => ?_⟩
  · rw [ha]
    exact h.memory
  · rw [ha]
    exact h.size
  · rw [ha]
    exact h.head
  · rw [ha]
    exact h.tail
  · rw [hlen]
    exact le_max_right _ _
  · by_cases he : n = (takenBelow r.vpaSwap slotTaken i).length
    · subst he
      rw [SwapFile.writePage_data_self _ _ _ ho]
      simp only [hl, List.get_eq_getElem, List.getElem_concat_length] at hf ⊢
      exact hpg o ho hf
    · have hn' : n < (takenBelow r.vpaSwap slotTaken i).length := by omega
      rw [SwapFile.writePage_data_of_ne _ _ he ho]
      simp only [hl, List.get_eq_getElem, List.getElem_append_left hn'] at hf ⊢
      exact h.bytes n hn' o ho hf

end CopiedSlots

section

variable {s s' s0 : Kernel} {f : SwapFile} {k c b : Nat}

/-- The state `s0` in which the copying started, with the slots of the parent `c` below `i` copied to
the child `k`. -/
structure CopyingSlots (s0 : Kernel) (f : SwapFile) (k c i : Nat) (s : Kernel) : Prop where
  other : ∀ p ≠ k, s.proc p = s0.proc p
  self : ∃ T, s.proc k = { s0.proc k with vpaSwap := T }
  files : ∀ n ≠ (s0.proc k).pid, s.files n = s0.files n
  cons : s.cons = s0.cons
  copied : ∃ g, s.files (s0.proc k).pid = some g ∧ CopiedSlots (s0.proc c) f (s.proc k) g i

theorem CopyingSlots.pid {i : Nat} (h : CopyingSlots s0 f k c i s) :
    (s.proc k).pid = (s0.proc k).pid := by
  obtain ⟨T, hT⟩ := h.self
  rw [hT]

theorem CopyingSlots.step {i : Nat} {g : SwapFile} {pg : Nat → Byte}
    (h : CopyingSlots s0 f k c i s) (hg : s.files (s0.proc k).pid = some g)
    (hi : slotTaken ((s0.proc c).vpaSwap i) = true)
    (hpg : ∀ o < PGSIZE, i * PGSIZE + o < f.size → pg o = f.data (i * PGSIZE + o))
    (hproc : s'.proc = Function.update s.proc k
      ((s.proc k).moveSlot i (takenBelow (s0.proc c).vpaSwap slotTaken i).length))
    (hfiles : s'.files = Function.update s.files (s0.proc k).pid
      (some (g.writePage (takenBelow (s0.proc c).vpaSwap slotTaken i).length pg)))
    (hcons : s'.cons = s.cons) : CopyingSlots s0 f k c (i + 1) s' := by
  obtain ⟨g', hg', hcop⟩ := h.copied
  obtain rfl : g' = g := Option.some.inj (hg'.symm.trans hg)
  refine ⟨fun p hp => ?_, ?_, fun n hn => ?_, hcons.trans h.cons,
    g'.writePage (takenBelow (s0.proc c).vpaSwap slotTaken i).length pg, ?_, ?_⟩
  · rw [hproc, Function.update_of_ne hp]
    exact h.other p hp
  · obtain ⟨T, hT⟩ := h.self
    obtain ⟨T', hT'⟩ := (s.proc k).moveSlot_eq i (takenBelow (s0.proc c).vpaSwap slotTaken i).length
    refine ⟨T', ?_⟩
    rw [hproc, Function.update_self, hT', hT]
  · rw [hfiles, Function.update_of_ne hn]
    exact h.files n hn
  · rw [hfiles, Function.update_self]
  · rw [hproc, Function.update_self]
    exact hcop.copy hi hpg

variable [Build]

/-- The loop of `initSwap` from slot `i` on copies the rest, or an occupied slot of the parent starts
behind the end of the parent's file. -/
theorem initSwapLoop_copies (hkc : k ≠ c) (hf : s0.files (s0.proc c).pid = some f)
    (hpid : (s0.proc k).pid ≠ (s0.proc c).pid) (n : Nat) : ∀ (i : Nat) (s : Kernel),
    i + n = MAX_SWAP_PAGES → CopyingSlots s0 f k c i s →
    wp (initSwapLoop k c b n i (takenBelow (s0.proc c).vpaSwap slotTaken i).length) (fun _ => True)
      (fun res s' => res = 0 ∧ CopyingSlots s0 f k c MAX_SWAP_PAGES s' ∨
        res = -1 ∧ ∃ j < MAX_SWAP_PAGES, slotTaken ((s0.proc c).vpaSwap j) = true ∧
          f.size < j * PGSIZE) s := by
  induction n with
  | zero =>
    intro i s hi h
    obtain rfl : i = MAX_SWAP_PAGES := hi
    unfold initSwapLoop
    refine wp_seq (kfree_any trivial (.inl ⟨rfl, ?_⟩))
    exact ⟨h.other, h.self, h.files, h.cons, h.copied⟩
  | succ n ih =>
    intro i s hi h
    obtain ⟨g, hg, hcop⟩ := h.copied
    have hparent : s.proc c = s0.proc c := h.other c hkc.symm
    have hsource : s.files (s.proc c).pid = some f := by
      rw [hparent, h.files _ hpid.symm, hf]
    have hrest := hcop.table.rest i le_rfl
    unfold initSwapLoop
    refine wp_seq (getProc_wp ?_)
    rw [hrest]
    by_cases ho : has ((s0.proc c).vpaSwap i) SWAP_P = true
    · have htaken : slotTaken ((s0.proc c).vpaSwap i) = true := ho
      have hlen := takenBelow_length_le (s0.proc c).vpaSwap slotTaken i
      have hsucc : (takenBelow (s0.proc c).vpaSwap slotTaken (i + 1)).length =
          (takenBelow (s0.proc c).vpaSwap slotTaken i).length + 1 := by
        rw [takenBelow_succ, htaken, if_pos rfl, List.length_append, List.length_singleton]
      rw [ho]
      refine wp_seq (readFromSwapFile_any (fun _ _ => trivial) (by omega) (fun f' hf' hroom => ?_)
        fun f' hf' hroom => ?_)
      · obtain rfl : f' = f := Option.some.inj (hf'.symm.trans hsource)
        rw [if_neg (by omega)]
        have hself : ((s.setMem b fun o => if o < min PGSIZE (f'.size - i * PGSIZE) then
            f'.data (i * PGSIZE + o) else s.mem b o).setProc k ((s.proc k).moveSlot i
              (takenBelow (s0.proc c).vpaSwap slotTaken i).length)).proc k =
            (s.proc k).moveSlot i (takenBelow (s0.proc c).vpaSwap slotTaken i).length :=
          Function.update_self _ _ _
        refine wp_seq (setProc_wp (wp_seq (writeToSwapFile_any (fun _ _ => trivial) (by omega)
          (fun g' hg' hslot => ?_) fun g' g'' hg' hslot hsz => ?_)))
        · rw [hself, Proc.moveSlot_pid, h.pid] at hg' ⊢
          rw [if_neg (by decide), ← hsucc]
          refine ih (i + 1) _ (by omega) (h.step hg' htaken (fun o ho' hlt => ?_) rfl rfl rfl)
          change (Function.update s.mem b _) b o = _
          rw [Function.update_self]
          exact if_pos (by omega)
        · -- the first free place never lies behind the end of the child's file
          rw [hself, Proc.moveSlot_pid, h.pid] at hg'
          obtain rfl : g' = g := Option.some.inj (hg'.symm.trans hg)
          exact absurd hcop.room (Nat.not_le.2 hslot)
      · obtain rfl : f' = f := Option.some.inj (hf'.symm.trans hsource)
        rw [if_pos (by decide)]
        exact wp_seq (cprintf_wp (wp_seq (removeSwapFile_any (fun _ => trivial) fun _ _ _ =>
          .inr ⟨rfl, i, by omega, htaken, hroom⟩)))
    · have hfree : slotTaken ((s0.proc c).vpaSwap i) = false := Bool.eq_false_of_not_eq_true ho
      have hsame : takenBelow (s0.proc c).vpaSwap slotTaken (i + 1) =
          takenBelow (s0.proc c).vpaSwap slotTaken i := by
        rw [takenBelow_succ, hfree]
        rfl
      rw [Bool.eq_false_of_not_eq_true ho, if_pos (by decide), ← hsame]
      exact ih (i + 1) s (by omega) ⟨h.other, h.self, h.files, h.cons, g, hg, hcop.skip hfree⟩

/-- `initSwap` from any state: the child gets a packed copy, or an occupied slot of the parent starts
behind the end of its file. -/
theorem initSwap_any (hpar : (s.proc k).parent = some c) (hkc : k ≠ c)
    (hpid : (s.proc k).pid ≠ (s.proc c).pid) (hf : s.files (s.proc c).pid = some f) :
    wp (initSwap k) (fun _ => True) (fun res s' =>
      res = 0 ∧ (∃ T, s'.proc k = { (s.proc k).copyTables (s.proc c) with
          swapFile := true, vpaSwap := T }) ∧ (∀ p ≠ k, s'.proc p = s.proc p) ∧
        (∀ n ≠ (s.proc k).pid, s'.files n = s.files n) ∧ s'.cons = s.cons ∧
        (∃ g, s'.files (s.proc k).pid = some g ∧
          CopiedSlots (s.proc c) f (s'.proc k) g MAX_SWAP_PAGES) ∨
      res = -1 ∧ ∃ j < MAX_SWAP_PAGES, slotTaken ((s.proc c).vpaSwap j) = true ∧
        f.size < j * PGSIZE) s := by
  unfold initSwap
  refine wp_seq (getProc_wp ?_)
  rw [hpar]
  refine wp_seq (getProc_wp (wp_seq (setProc_wp (wp_seq (createSwapFile_wp fun g => ?_)))))
  rw [if_neg (by decide)]
  refine wp_seq (kalloc_wp (fun _ => trivial) fun b l _ => ?_)
  obtain ⟨t, ht⟩ : ∃ t, t = ((s.setProc k ((s.proc k).copyTables (s.proc c))).withFile k g).taken l :=
    ⟨_, rfl⟩
  have hk : t.proc k = { (s.proc k).copyTables (s.proc c) with swapFile := true } := by
    simp [ht, Kernel.taken, Kernel.withFile, Kernel.setProc, Kernel.setFile]
  have hkpid : (t.proc k).pid = (s.proc k).pid := by
    rw [hk]
    rfl
  have hother : ∀ p ≠ k, t.proc p = s.proc p := fun p hp => by
    simp [ht, Kernel.taken, Kernel.withFile, Kernel.setProc, Kernel.setFile, hp]
  have hfiles : t.files = Function.update s.files (s.proc k).pid (some g) := by
    simp [ht, Kernel.taken, Kernel.withFile, Kernel.setProc, Kernel.setFile, Proc.copyTables]
  have hc := hother c hkc.symm
  rw [← ht]
  have hsrc : t.files (t.proc c).pid = some f := by
    rw [hc, hfiles, Function.update_of_ne hpid.symm, hf]
  have hstart : CopyingSlots t f k c 0 t := by
    refine ⟨fun _ _ => rfl, ⟨_, rfl⟩, fun _ _ => rfl, rfl, g, ?_, ?_⟩
    · rw [hkpid, hfiles, Function.update_self]
    · have hstart := CopiedSlots.start f { s.proc k with swapFile := true } (s.proc c) g
      rw [hc, hk]
      exact hstart
  have hloop := initSwapLoop_copies (b := b) hkc hsrc (by rwa [hkpid, hc]) MAX_SWAP_PAGES 0 t
    (Nat.zero_add _) hstart
  refine wp_post hloop ?_
  rintro res s' (⟨rfl, h⟩ | ⟨rfl, hbad⟩)
  · obtain ⟨T, hT⟩ := h.self
    refine .inl ⟨rfl, ⟨T, by rw [hT, hk]⟩, fun p hp => (h.other p hp).trans (hother p hp), fun n hn => ?_,
      h.cons.trans (by rw [ht]; rfl), ?_⟩
    · rw [h.files n (by rwa [hkpid]), hfiles, Function.update_of_ne hn]
    · have hcop := h.copied
      rwa [hkpid, hc] at hcop
  · rw [hc] at hbad
    exact .inr ⟨rfl, hbad⟩

/-- After a successful `initSwap` the occupied slots of the child are the first ones. They list the
occupied slots of the parent in order and hold their bytes, as far as the parent's file reaches. The
other slots are free, with 0 in them if that is so in the parent. The tables of resident pages are
equal, and the parent has kept its table and its file. -/
theorem initSwap_compacts (hpar : (s.proc k).parent = some c) (hkc : k ≠ c)
    (hpid : (s.proc k).pid ≠ (s.proc c).pid) (hf : s.files (s.proc c).pid = some f)
    (hrun : initSwap k s = .ok (0, s')) :
    takenSlots (s'.proc k) = List.range (takenSlots (s.proc c)).length ∧
    (∀ (n : Nat) (h : n < (takenSlots (s.proc c)).length),
      (s'.proc k).vpaSwap n = (s.proc c).vpaSwap ((takenSlots (s.proc c)).get ⟨n, h⟩)) ∧
    ((∀ n < MAX_SWAP_PAGES, slotTaken ((s.proc c).vpaSwap n) = false → (s.proc c).vpaSwap n = 0) →
      ∀ n, (takenSlots (s.proc c)).length ≤ n → n < MAX_SWAP_PAGES → (s'.proc k).vpaSwap n = 0) ∧
    (∃ g, s'.files (s.proc k).pid = some g ∧ (takenSlots (s.proc c)).length * PGSIZE ≤ g.size ∧
      ∀ (n : Nat) (h : n < (takenSlots (s.proc c)).length), ∀ o < PGSIZE,
        (takenSlots (s.proc c)).get ⟨n, h⟩ * PGSIZE + o < f.size →
          g.data (n * PGSIZE + o) = f.data ((takenSlots (s.proc c)).get ⟨n, h⟩ * PGSIZE + o)) ∧
    (s'.proc k).vpaMemory = (s.proc c).vpaMemory ∧ (s'.proc k).sizeMem = (s.proc c).sizeMem ∧
    (s'.proc k).qHead = (s.proc c).qHead ∧ (s'.proc k).qTail = (s.proc c).qTail ∧
    s'.proc c = s.proc c ∧ s'.files (s.proc c).pid = some f := by
  obtain ⟨-, -, hother, hfiles, -, g, hg, hcop⟩ | ⟨hres, -⟩ :=
    of_wp (initSwap_any hpar hkc hpid hf) hrun
  swap
  · exact absurd hres (by decide)
  refine ⟨hcop.table.taken_eq (by decide), hcop.table.front, fun hzero n h1 h2 => ?_,
    ⟨g, hg, hcop.room, hcop.bytes⟩, hcop.memory, hcop.size, hcop.head, hcop.tail,
    hother c hkc.symm, (hfiles _ hpid.symm).trans hf⟩
  rw [hcop.table.gap n h1 h2]
  split
  · rfl
  · exact hzero n h2 (Bool.eq_false_of_not_eq_true ‹_›)

end

/-- A parent with pages in slots 1 and 3, and its child. -/
def twoSlots : Kernel where
  mem := fun _ _ => 0
  dirs := fun _ => zeroDir
  freelist := [57140]
  totalFreePages := 1
  proc := fun p =>
    if p = 0 then
      { emptyProc with
        pid := 1
        swapFile := true
        vpaSwap := fun i => if i = 1 then 0x5800#32 else if i = 3 then 0x2800#32 else 0 }
    else { emptyProc with pid := 2, parent := some 0 }
  initproc := 0
  nextpid := 3
  cur := 0
  cr3 := 0
  files := fun n => if n = 1 then some ⟨4 * PGSIZE, fun k => BitVec.ofNat 8 (k / PGSIZE)⟩ else none
  cons := []

theorem initSwap_compacts_two :
    let _ := smallBuild .fifo
    ∃ s', initSwap 1 twoSlots = .ok (0, s') ∧ takenSlots (s'.proc 1) = [0, 1] ∧
      (s'.proc 1).vpaSwap 0 = 0x5800#32 ∧ (s'.proc 1).vpaSwap 1 = 0x2800#32 := by
  let _ := smallBuild .fifo
  have hok : returns (initSwap 1 twoSlots) (fun r _ => decide (r = 0)) = true := by decide +kernel
  obtain ⟨r, s', hrun, htest⟩ := of_returns hok
  obtain rfl := of_decide_eq_true htest
  obtain ⟨h1, h2, -⟩ := initSwap_compacts (s := twoSlots) (c := 0) rfl (by decide) (by decide) rfl hrun
  exact ⟨s', hrun, h1, h2 0 (by decide), h2 1 (by decide)⟩

end Xv6
