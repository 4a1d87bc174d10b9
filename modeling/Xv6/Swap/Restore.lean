import Xv6.Swap.Compact
import Xv6.Swap.Link

/-!
# `restoreSwap` does not read the swap file

`restoreSwap` gives every page that is paged out a frame and marks it present, slot by slot. The
bytes of the slots stay in the file: the pages read what their frames held on the free list.
-/

namespace Xv6

open Lib

theorem pteFlags_inEntry (w : Word) (f : Nat) :
    pteFlags (inEntry w f) = (pteFlags w &&& ~~~PTE_PG) ||| PTE_P := by
  refine BitVec.eq_of_getLsbD_eq fun k hk => ?_
  unfold pteFlags inEntry pteFlags
  simp only [BitVec.getLsbD_and, BitVec.getLsbD_or]
  by_cases hlow : k < 12
  · have hmask : (0xFFF#32).getLsbD k = true := by interval_cases k <;> decide
    rw [getLsbD_pageWord f hlow, hmask]
    simp
  · have hmask : (0xFFF#32).getLsbD k = false := by interval_cases k <;> first | omega | decide
    have hflag : PTE_P.getLsbD k = false := by
      rw [BitVec.getLsbD_twoPow]
      simp
      omega
    rw [hmask, hflag]
    simp

/-- The page in slot `k`. -/
def slotPage (q : Proc) (k : Nat) : Nat := pageNo (q.vpaSwap k)

section

variable [Build] {s s' : Kernel} {c i : Nat} {f : SwapFile}

/-- Between `s` and `s'` the pages in the slots below `i` of slot `c` were given the first frames of
the free list. -/
structure Restoring (c i : Nat) (s s' : Kernel) : Prop where
  proc : s'.proc = s.proc
  cr3 : s'.cr3 = s.cr3
  mem : s'.mem = s.mem
  files : s'.files = s.files
  enough : (takenBelow (s.proc c).vpaSwap slotTaken i).length ≤ s.freelist.length
  free : s'.freelist = s.freelist.drop (takenBelow (s.proc c).vpaSwap slotTaken i).length
  pde : (s'.dirs (s.proc c).pgdir).pde = (s.dirs (s.proc c).pgdir).pde
  done : ∀ n k f : Nat, (takenBelow (s.proc c).vpaSwap slotTaken i)[n]? = some k → s.freelist[n]? = some f →
    (s'.dirs (s.proc c).pgdir).pte (slotPage (s.proc c) k) =
      inEntry ((s.dirs (s.proc c).pgdir).pte (slotPage (s.proc c) k)) f
  rest : ∀ u, (∀ k ∈ takenBelow (s.proc c).vpaSwap slotTaken i, slotPage (s.proc c) k ≠ u) →
    (s'.dirs (s.proc c).pgdir).pte u = (s.dirs (s.proc c).pgdir).pte u

theorem Agree.slotPage {q : Proc} {pte : Nat → Word} {m : Nat → Nat} (h : Agree q pte m)
    (hi : i < MAX_SWAP_PAGES) (ho : has (q.vpaSwap i) SWAP_P = true) :
    slotPage q i < NUSER ∧ entryAddr (q.vpaSwap i) = slotPage q i * PGSIZE ∧
      has (pte (slotPage q i)) PTE_PG = true := by
  obtain ⟨u, hu, he, hg⟩ := h.paged_of_slot hi ho
  rw [entryAddr_eq] at he
  obtain rfl : Xv6.slotPage q i = u := Nat.eq_of_mul_eq_mul_right (by decide) he
  exact ⟨hu, entryAddr_eq _, hg⟩

/-- No slot below `i` holds the page in slot `i`. -/
theorem Agree.slotPage_ne {q : Proc} {pte : Nat → Word} {m : Nat → Nat} {k : Nat} (h : Agree q pte m)
    (hi : i < MAX_SWAP_PAGES) (ho : has (q.vpaSwap i) SWAP_P = true)
    (hk : k ∈ takenBelow q.vpaSwap slotTaken i) : Xv6.slotPage q k ≠ Xv6.slotPage q i := by
  obtain ⟨hki, hok⟩ := mem_takenBelow.1 hk
  have hkm : k < MAX_SWAP_PAGES := lt_trans hki hi
  intro he
  have := h.slot_unique hkm hi hok ho (by rw [(h.slotPage hkm hok).2.1, (h.slotPage hi ho).2.1, he])
  omega

namespace Restoring

omit [Build] in
theorem start (c : Nat) (s : Kernel) : Restoring c 0 s s where
  proc := rfl
  cr3 := rfl
  mem := rfl
  files := rfl
  enough := Nat.zero_le _
  free := rfl
  pde := rfl
  done n k f hk := by cases hk
  rest _ _ := rfl

omit [Build] in
theorem skip (h : Restoring c i s s') (hi : has ((s.proc c).vpaSwap i) SWAP_P = false) :
    Restoring c (i + 1) s s' := by
  have hl : takenBelow (s.proc c).vpaSwap slotTaken (i + 1) =
      takenBelow (s.proc c).vpaSwap slotTaken i := by
    rw [takenBelow_succ, slotTaken, hi]
    rfl
  refine ⟨h.proc, h.cr3, h.mem, h.files, ?_, ?_, h.pde, ?_, ?_⟩ <;> rw [hl]
  · exact h.enough
  · exact h.free
  · exact h.done
  · exact h.rest

/-- The page in slot `i` gets the next frame. -/
theorem give (ha : Agree (s.proc c) (s.dirs (s.proc c).pgdir).pte fun _ => 0) (h : Restoring c i s s')
    (hi : i < MAX_SWAP_PAGES) (ho : has ((s.proc c).vpaSwap i) SWAP_P = true) {g : Nat} {l : List Nat}
    (hf : s'.freelist = g :: l) {t : Kernel} (hproc : t.proc = s'.proc) (hcr3 : t.cr3 = s'.cr3)
    (hmem : t.mem = s'.mem) (hfiles : t.files = s'.files) (hfree : t.freelist = l)
    (hdir : t.dirs (s.proc c).pgdir = (s'.dirs (s.proc c).pgdir).setPage (slotPage (s.proc c) i)
      (inEntry ((s'.dirs (s.proc c).pgdir).pte (slotPage (s.proc c) i)) g)) :
    Restoring c (i + 1) s t := by
  obtain ⟨hu, -, hg⟩ := ha.slotPage hi ho
  have hl : takenBelow (s.proc c).vpaSwap slotTaken (i + 1) =
      takenBelow (s.proc c).vpaSwap slotTaken i ++ [i] := by
    rw [takenBelow_succ, slotTaken, ho]
    rfl
  have hold := h.rest _ fun k hk => ha.slotPage_ne hi ho hk
  have ht : (s'.dirs (s.proc c).pgdir).hasTable (slotPage (s.proc c) i) = true :=
    PageDir.hasTable_of_has (by rwa [hold])
  have hnext : s.freelist[(takenBelow (s.proc c).vpaSwap slotTaken i).length]? = some g := by
    have := h.free
    rw [hf] at this
    rw [← List.head?_drop, ← this]
    rfl
  have hpte : (t.dirs (s.proc c).pgdir).pte = Function.update (s'.dirs (s.proc c).pgdir).pte
      (slotPage (s.proc c) i) (inEntry ((s.dirs (s.proc c).pgdir).pte (slotPage (s.proc c) i)) g) := by
    rw [hdir, PageDir.pte_setPage ht, hold]
  refine ⟨hproc.trans h.proc, hcr3.trans h.cr3, hmem.trans h.mem, hfiles.trans h.files, ?_, ?_, ?_,
    fun n k f hk hn => ?_, fun u hu' => ?_⟩
  · rw [hl, List.length_append, List.length_singleton]
    exact (List.getElem?_eq_some_iff.1 hnext).1
  · rw [hl, List.length_append, List.length_singleton, hfree, ← List.tail_drop, ← h.free, hf]
    rfl
  · rw [hdir]
    exact h.pde
  · rw [hpte]
    rw [hl, List.getElem?_append] at hk
    split at hk
    · have hne := ha.slotPage_ne hi ho (List.mem_of_getElem? hk)
      rw [Function.update_of_ne hne]
      exact h.done n k f hk hn
    · next hge =>
      obtain ⟨hz, hik⟩ := List.getElem?_eq_some_iff.1 hk
      rw [List.length_singleton] at hz
      obtain rfl : i = k := by
        rw [← hik]
        simp
      obtain rfl : n = (takenBelow (s.proc c).vpaSwap slotTaken i).length := by omega
      rw [hnext] at hn
      obtain rfl := Option.some.inj hn
      exact Function.update_self _ _ _
  · rw [hl] at hu'
    rw [hpte, Function.update_of_ne]
    · exact h.rest u fun k hk => hu' k (List.mem_append_left _ hk)
    · exact fun he => hu' i (List.mem_append_right _ (List.mem_singleton_self i)) he.symm

end Restoring

/-- The state after the page in slot `i` got frame `g`, with the free list `l` left. -/
def restoredPage (s s' : Kernel) (c i g : Nat) (l : List Nat) : Kernel :=
  let u := slotPage (s.proc c) i
  let D := s'.dirs (s.proc c).pgdir
  ((s'.taken l).printed (restoreMsg (u * PGSIZE) (s.proc c).pid)).setDir (s.proc c).pgdir
    (D.setPage u (inEntry (D.pte u) g))

/-- The loop of `restoreSwap` keeps what each of its rounds keeps: it gives a frame to every page that
is paged out, or the free list is too short. -/
theorem restoreSwapLoop_rule {I : Nat → Kernel → Prop}
    (ha : Agree (s.proc c) (s.dirs (s.proc c).pgdir).pte fun _ => 0) (hr : s.cr3 = (s.proc c).pgdir)
    (hI : ∀ i t, I i t → Restoring c i s t)
    (hskip : ∀ i t, I i t → has ((s.proc c).vpaSwap i) SWAP_P = false → I (i + 1) t)
    (hgive : ∀ i t g l, I i t → i < MAX_SWAP_PAGES → has ((s.proc c).vpaSwap i) SWAP_P = true →
      t.freelist = g :: l → I (i + 1) (restoredPage s t c i g l))
    {E : String → Prop} (n : Nat) : ∀ (i : Nat) (s' : Kernel), i + n = MAX_SWAP_PAGES → I i s' →
    wp (restoreSwapLoop c n i) E (fun r t =>
      r = 0 ∧ I MAX_SWAP_PAGES t ∨ r = -1 ∧ s.freelist.length < (takenSlots (s.proc c)).length) s' := by
  induction n with
  | zero =>
    intro i s' hi h
    obtain rfl : i = MAX_SWAP_PAGES := hi
    exact .inl ⟨rfl, h⟩
  | succ n ih =>
    intro i s' hi h0
    have h := hI i s' h0
    unfold restoreSwapLoop
    refine wp_seq (getProc_wp ?_)
    rw [h.proc]
    cases ho : has ((s.proc c).vpaSwap i) SWAP_P with
    | false =>
      rw [Bool.not_false, if_pos rfl]
      exact ih (i + 1) s' (by omega) (hskip i s' h0 ho)
    | true =>
      obtain ⟨hu, hea, hg⟩ := ha.slotPage (by omega) ho
      have hp := ha.absent_of_paged hu hg
      have hold := h.rest _ fun k hk => ha.slotPage_ne (by omega) ho hk
      have ht : (s'.dirs (s.proc c).pgdir).hasTable (slotPage (s.proc c) i) = true :=
        PageDir.hasTable_of_has (by rwa [hold])
      have hdiv : slotPage (s.proc c) i * PGSIZE / PGSIZE = slotPage (s.proc c) i :=
        Nat.mul_div_cancel _ (by decide)
      rw [Bool.not_true, if_neg Bool.false_ne_true, hea]
      refine wp_seq (walkpgdir_found (page_lt_word hu) (by rwa [hdiv]) ?_)
      rw [hdiv]
      refine wp_seq (loadPte_wp ht ?_)
      refine wp_seq (assertPanic_wp (by rwa [hold]) (wp_seq (assertPanic_wp (by rw [hold, hp]; rfl) ?_)))
      refine wp_seq (kalloc_wp (fun hf => wp_seq (cprintf_wp (wp_seq (cprintf_wp ?_)))) fun g l hf =>
        wp_seq (cprintf_wp (wp_seq (get_wp (wp_seq (assertPanic_wp ?_ (wp_seq (storePte_wp ?_))))))))
      · refine .inr ⟨rfl, ?_⟩
        have hlen := congrArg List.length h.free
        rw [hf, List.length_drop, List.length_nil] at hlen
        have hmem : i ∈ takenSlots (s.proc c) := mem_takenBelow.2 ⟨by omega, ho⟩
        have hlt : (takenBelow (s.proc c).vpaSwap slotTaken i).length <
            (takenSlots (s.proc c)).length := by
          have hle : (takenBelow (s.proc c).vpaSwap slotTaken (i + 1)).length ≤
              (takenSlots (s.proc c)).length :=
            ((List.range_sublist.2 (by omega)).filter _).length_le
          rw [takenBelow_succ, slotTaken, ho, if_pos rfl, List.length_append,
            List.length_singleton] at hle
          omega
        omega
      · exact hr.symm.trans h.cr3.symm
      · exact ih (i + 1) _ (by omega) (hgive i s' g l h0 (by omega) ho hf)

theorem restoreSwapLoop_any (ha : Agree (s.proc c) (s.dirs (s.proc c).pgdir).pte fun _ => 0)
    (hr : s.cr3 = (s.proc c).pgdir) {E : String → Prop} (n : Nat) : ∀ (i : Nat) (s' : Kernel),
    i + n = MAX_SWAP_PAGES → Restoring c i s s' →
    wp (restoreSwapLoop c n i) E (fun r t =>
      r = 0 ∧ Restoring c MAX_SWAP_PAGES s t ∨
      r = -1 ∧ s.freelist.length < (takenSlots (s.proc c)).length) s' :=
  restoreSwapLoop_rule ha hr (fun _ _ h => h) (fun _ _ h ho => h.skip ho)
    (fun _ _ _ _ h hi ho hf => h.give ha hi ho hf rfl rfl rfl rfl rfl (Function.update_self _ _ _)) n

/-- Every page that was paged out has a frame of its own from the free list, with the bytes of its
slot and the other flags it had. The pages that were present are as they were. -/
structure Restored (c : Nat) (f : SwapFile) (s s' : Kernel) : Prop where
  present : ∀ u < NUSER, (s.dirs (s.proc c).pgdir).view u ≠ none →
    has ((s'.dirs (s.proc c).pgdir).pte u) PTE_P = true
  fresh : ∀ u < NUSER, has ((s.dirs (s.proc c).pgdir).pte u) PTE_PG = true →
    pageNo ((s'.dirs (s.proc c).pgdir).pte u) ∈ s.freelist
  distinct : ∀ u < NUSER, ∀ v < NUSER, has ((s.dirs (s.proc c).pgdir).pte u) PTE_PG = true →
    has ((s.dirs (s.proc c).pgdir).pte v) PTE_PG = true →
    pageNo ((s'.dirs (s.proc c).pgdir).pte u) = pageNo ((s'.dirs (s.proc c).pgdir).pte v) → u = v
  flags : ∀ u < NUSER, has ((s.dirs (s.proc c).pgdir).pte u) PTE_PG = true →
    pteFlags ((s'.dirs (s.proc c).pgdir).pte u) =
      (pteFlags ((s.dirs (s.proc c).pgdir).pte u) &&& ~~~PTE_PG) ||| PTE_P
  bytes : ∀ k < MAX_SWAP_PAGES, has ((s.proc c).vpaSwap k) SWAP_P = true → ∀ o < PGSIZE,
    s'.mem (pageNo ((s'.dirs (s.proc c).pgdir).pte (slotPage (s.proc c) k))) o =
      f.data (k * PGSIZE + o)
  kept : ∀ u < NUSER, has ((s.dirs (s.proc c).pgdir).pte u) PTE_P = true →
    (s'.dirs (s.proc c).pgdir).pte u = (s.dirs (s.proc c).pgdir).pte u ∧
      s'.mem (pageNo ((s.dirs (s.proc c).pgdir).pte u)) =
        s.mem (pageNo ((s.dirs (s.proc c).pgdir).pte u))

omit [Build] in
/-- The page in the `n`-th occupied slot has the `n`-th free frame. -/
theorem Restoring.entry {k : Nat} (h : Restoring c MAX_SWAP_PAGES s s') (hk : k < MAX_SWAP_PAGES)
    (ho : has ((s.proc c).vpaSwap k) SWAP_P = true) :
    ∃ n g : Nat, (takenSlots (s.proc c))[n]? = some k ∧ s.freelist[n]? = some g ∧
      (s'.dirs (s.proc c).pgdir).pte (slotPage (s.proc c) k) =
        inEntry ((s.dirs (s.proc c).pgdir).pte (slotPage (s.proc c) k)) g := by
  have hmem : k ∈ takenSlots (s.proc c) := mem_takenBelow.2 ⟨hk, ho⟩
  obtain ⟨n, hn⟩ := List.mem_iff_getElem?.1 hmem
  have hlt : n < s.freelist.length :=
    lt_of_lt_of_le (List.getElem?_eq_some_iff.1 hn).1 h.enough
  exact ⟨n, _, hn, List.getElem?_eq_getElem hlt, h.done n k _ hn (List.getElem?_eq_getElem hlt)⟩

theorem Restoring.entry_of_paged (ha : Agree (s.proc c) (s.dirs (s.proc c).pgdir).pte fun _ => 0)
    (h : Restoring c MAX_SWAP_PAGES s s') {u : Nat} (hu : u < NUSER)
    (hg : has ((s.dirs (s.proc c).pgdir).pte u) PTE_PG = true) :
    ∃ n k g : Nat, (takenSlots (s.proc c))[n]? = some k ∧ slotPage (s.proc c) k = u ∧
      s.freelist[n]? = some g ∧
      (s'.dirs (s.proc c).pgdir).pte u = inEntry ((s.dirs (s.proc c).pgdir).pte u) g := by
  obtain ⟨k, hk⟩ := ha.slot_of_paged hu hg
  obtain ⟨hlt, ho, he⟩ := swapSlot_some hk
  rw [(ha.slotPage hlt ho).2.1] at he
  obtain rfl : slotPage (s.proc c) k = u := Nat.eq_of_mul_eq_mul_right (by decide) he
  obtain ⟨n, g, hn, hfree, hpte⟩ := h.entry hlt ho
  exact ⟨n, k, g, hn, rfl, hfree, hpte⟩

/-- A page that is not paged out keeps its entry. -/
theorem Restoring.kept (ha : Agree (s.proc c) (s.dirs (s.proc c).pgdir).pte fun _ => 0)
    (h : Restoring c MAX_SWAP_PAGES s s') {u : Nat}
    (hg : has ((s.dirs (s.proc c).pgdir).pte u) PTE_PG = false) :
    (s'.dirs (s.proc c).pgdir).pte u = (s.dirs (s.proc c).pgdir).pte u := by
  refine h.rest u fun k hk => ?_
  rintro rfl
  obtain ⟨hlt, ho⟩ := mem_takenBelow.1 hk
  rw [(ha.slotPage hlt ho).2.2] at hg
  cases hg

/-- `restoreSwap` returns 0 with the pages brought back exactly when the frames it takes happen to
hold the bytes of the slots. With too few free frames it returns `-1`. -/
theorem restoreSwap_restores (ha : Agree (s.proc c) (s.dirs (s.proc c).pgdir).pte fun _ => 0)
    (hr : s.cr3 = (s.proc c).pgdir) (_hf : s.files (s.proc c).pid = some f)
    (hnd : s.freelist.Nodup) (hman : ∀ g ∈ s.freelist, Managed g) :
    ∃ r s', restoreSwap c s = .ok (r, s') ∧
      ((r = 0 → Restored c f s s') ↔
        s.freelist.length < (takenSlots (s.proc c)).length ∨
        ∀ n k g : Nat, (takenSlots (s.proc c))[n]? = some k → s.freelist[n]? = some g →
          ∀ o < PGSIZE, s.mem g o = f.data (k * PGSIZE + o)) := by
  obtain ⟨r, s', hrun, hres⟩ := exists_of_wp
    (restoreSwapLoop_any ha hr MAX_SWAP_PAGES 0 s rfl (Restoring.start c s))
  refine ⟨r, s', hrun, ?_⟩
  obtain ⟨rfl, h⟩ | ⟨rfl, hlt⟩ := hres
  swap
  · exact ⟨fun _ => .inl hlt, fun _ hz => absurd hz (by decide)⟩
  have hno : ∀ n g w, s.freelist[n]? = some g → pageNo (inEntry w g) = g := fun n g w hn =>
    pageNo_inEntry w (hman g (List.mem_of_getElem? hn)).lt
  constructor
  · intro hall
    refine .inr fun n k g hk hn o hob => ?_
    obtain ⟨hlt, ho⟩ := mem_takenBelow.1 (List.mem_of_getElem? hk)
    rw [← (hall rfl).bytes k hlt ho o hob, h.done n k g hk hn, hno n g _ hn, h.mem]
  · rintro (hlt | hbytes) -
    · exact absurd h.enough (Nat.not_le.2 hlt)
    · refine ⟨fun u hu hv => ?_, fun u hu hg => ?_, fun u hu v hv hgu hgv he => ?_, fun u hu hg => ?_,
        fun k hk ho o hob => ?_, fun u hu hp => ?_⟩
      · obtain hp | hg := entryView_ne_none.1 hv
        · rwa [h.kept ha (ha.excl u hu hp)]
        · obtain ⟨n, k, g, -, -, -, hpte⟩ := h.entry_of_paged ha hu hg
          rw [hpte]
          exact (inEntry_flags _ g).1
      · obtain ⟨n, k, g, -, -, hn, hpte⟩ := h.entry_of_paged ha hu hg
        rw [hpte, hno n g _ hn]
        exact List.mem_of_getElem? hn
      · obtain ⟨n, k, g, hk, rfl, hn, hpte⟩ := h.entry_of_paged ha hu hgu
        obtain ⟨n', k', g', hk', rfl, hn', hpte'⟩ := h.entry_of_paged ha hv hgv
        rw [hpte, hpte', hno n g _ hn, hno n' g' _ hn'] at he
        have hnn : n = n' :=
          (List.getElem?_inj (List.getElem?_eq_some_iff.1 hn).1 hnd).1 (by rw [hn, hn', he])
        rw [hnn, hk'] at hk
        rw [Option.some.inj hk]
      · obtain ⟨n, k, g, -, -, -, hpte⟩ := h.entry_of_paged ha hu hg
        rw [hpte, pteFlags_inEntry]
      · obtain ⟨n, g, hk', hn, hpte⟩ := h.entry hk ho
        rw [hpte, hno n g _ hn, h.mem]
        exact hbytes n k g hk' hn o hob
      · exact ⟨h.kept ha (ha.excl u hu hp), by rw [h.mem]⟩

end

/-- A process whose page 1 is paged out to slot 0. -/
def pagedProc : Proc :=
  { emptyProc with
    sz := 2 * PGSIZE
    pgdir := 57341
    state := .runnable
    pid := 2
    swapFile := true
    vpaSwap := fun i => if i = 0 then 0x1800#32 else 0 }

def pagedDir : PageDir :=
  ⟨fun i => if i = 0 then 0x7#32 else 0, fun i j => if i = 0 ∧ j = 1 then 0x206#32 else 0⟩

/-- The slot of the page has `b` in all its bytes. -/
def pagedKernel (b : Byte) : Kernel where
  mem := fun _ _ => 0
  dirs := fun _ => pagedDir
  freelist := [57140]
  totalFreePages := 1
  proc := fun p => if p = 0 then pagedProc else emptyProc
  initproc := 0
  nextpid := 3
  cur := 0
  cr3 := 57341
  files := fun n => if n = 2 then some ⟨PGSIZE, fun _ => b⟩ else none
  cons := []

theorem pagedDir_pte (u : Nat) : pagedDir.pte u = if u = 1 then 0x206#32 else 0 := by
  unfold PageDir.pte
  by_cases hu : u / 1024 = 0
  · rw [show pagedDir.pde (u / 1024) = 0x7#32 from if_pos hu, if_pos (by decide)]
    refine if_congr ?_ rfl rfl
    omega
  · rw [show pagedDir.pde (u / 1024) = 0 from if_neg hu, has_zero, if_neg Bool.false_ne_true,
      if_neg (by omega)]

theorem paged_agree :
    let _ := smallBuild .fifo
    Agree pagedProc pagedDir.pte fun _ => 0 := by
  let _ := smallBuild .fifo
  refine ⟨⟨by decide, fun _ => by decide⟩, fun u _ => ?_, fun u _ => ?_, fun u _ => ?_, nofun,
    by decide⟩
  · rw [pagedDir_pte]
    split <;> rfl
  · have hcount : swapCount pagedProc (u * PGSIZE) = ind (PGSIZE = u * PGSIZE) := by
      unfold swapCount
      rw [Finset.sum_eq_single 0 (fun i _ hi => ?_) fun h => absurd (Finset.mem_range.2 (by decide)) h]
      · exact slotHolds_occupied _ (by decide)
      · rw [show pagedProc.vpaSwap i = 0 from if_neg hi]
        exact slotHolds_free _ (has_zero _)
    rw [hcount, pagedDir_pte]
    by_cases hu : u = 1
    · rw [if_pos hu, hu]
      decide
    · rw [if_neg hu, has_zero, ind_false]
      · rfl
      · simp only [PGSIZE]
        omega
  · rw [pagedDir_pte]
    split <;> decide

/-- Slot 0 and the free frame both hold zeros. -/
theorem restoreSwap_restores_zeros :
    let _ := smallBuild .fifo
    ∃ r s', restoreSwap 0 (pagedKernel 0) = .ok (r, s') ∧
      (r = 0 → Restored 0 ⟨PGSIZE, fun _ => 0⟩ (pagedKernel 0) s') := by
  let _ := smallBuild .fifo
  obtain ⟨r, s', hrun, hiff⟩ := restoreSwap_restores (s := pagedKernel 0) (c := 0) paged_agree rfl rfl
    (List.nodup_singleton 57140) (by decide)
  refine ⟨r, s', hrun, hiff.2 (.inr fun n k g _ _ o _ => rfl)⟩

/-- The page in slot 0 holds sevens; after `restoreSwap` it is present and reads zero. -/
theorem restoreSwap_loses_bytes :
    let _ := smallBuild .fifo
    Agree ((pagedKernel 7).proc 0) ((pagedKernel 7).dirs ((pagedKernel 7).proc 0).pgdir).pte
      (fun _ => 0) ∧
    ∃ s', restoreSwap 0 (pagedKernel 7) = .ok (0, s') ∧
      swapSlot ((pagedKernel 7).proc 0) PGSIZE = some 0 ∧
      (pagedKernel 7).files 2 = some ⟨PGSIZE, fun _ => 7⟩ ∧
      has ((s'.dirs 57341).pte 1) PTE_P = true ∧ s'.mem (pageNo ((s'.dirs 57341).pte 1)) 0 = 0 := by
  let _ := smallBuild .fifo
  refine ⟨paged_agree, ?_⟩
  have hok : returns (restoreSwap 0 (pagedKernel 7))
      (fun r s' => decide (r = 0 ∧ has ((s'.dirs 57341).pte 1) PTE_P = true ∧
        s'.mem (pageNo ((s'.dirs 57341).pte 1)) 0 = 0)) = true := by decide +kernel
  obtain ⟨r, s', hrun, htest⟩ := of_returns hok
  obtain ⟨rfl, hp, hb⟩ := of_decide_eq_true htest
  exact ⟨s', hrun, by decide, rfl, hp, hb⟩

end Xv6
