import Xv6.Vm.Inv
import Xv6.Swap.Init

/-!
# `initSwap`: the child's copy of the swap file

The loop goes over the parent's slots and moves the occupied ones to the front of the child's
table and file. What it keeps: the child's table lists the same pages as the parent's, the
slots packed so far hold their contents, and behind them up to the current slot nothing is
listed.
-/

namespace Xv6

open Lib

/-- Slots below `i` of the parent's table `r` are packed below `j` in the child's table `q`. -/
structure Packed (q r : Proc) (f : SwapFile) (G : Nat → Nat → Byte) (i j : Nat) : Prop where
  le : j ≤ i
  rest : ∀ k, i ≤ k → q.vpaSwap k = r.vpaSwap k
  gap : ∀ k, j ≤ k → k < i → has (q.vpaSwap k) SWAP_P = false
  below : ∀ k < MAX_SWAP_PAGES, has (q.vpaSwap k) SWAP_P = true → entryAddr (q.vpaSwap k) < KERNBASE
  count : ∀ a, swapCount q a = swapCount r a
  room : j * PGSIZE ≤ f.size
  bytes : ∀ k < j, has (q.vpaSwap k) SWAP_P = true → ∀ o < PGSIZE,
    f.data (k * PGSIZE + o) = G (entryAddr (q.vpaSwap k) / PGSIZE) o

namespace Packed

variable {q r : Proc} {f : SwapFile} {G : Nat → Nat → Byte} {i j : Nat}

theorem start (hv : q.vpaSwap = r.vpaSwap)
    (hlt : ∀ k < MAX_SWAP_PAGES, has (r.vpaSwap k) SWAP_P = true → entryAddr (r.vpaSwap k) < KERNBASE) :
    Packed q r f G 0 0 where
  le := le_rfl
  rest k _ := by rw [hv]
  gap k _ hk := absurd hk (Nat.not_lt_zero k)
  below := by rw [hv]; exact hlt
  count := swapCount_congr hv
  room := by omega
  bytes k hk := absurd hk (Nat.not_lt_zero k)

/-- Slot `i` is free. -/
theorem skip (h : Packed q r f G i j) (hi : has (q.vpaSwap i) SWAP_P = false) :
    Packed q r f G (i + 1) j where
  le := Nat.le_succ_of_le h.le
  rest k hk := h.rest k (by omega)
  gap k h1 h2 := by
    by_cases e : k = i
    · rw [e]; exact hi
    · exact h.gap k h1 (by omega)
  below := h.below
  count := h.count
  room := h.room
  bytes := h.bytes

theorem moveSlot_vpaSwap (h : Packed q r f G i j) (k : Nat) :
    (q.moveSlot i j).vpaSwap k =
      if k = j then q.vpaSwap i else if k = i then 0 else q.vpaSwap k := by
  have hle := h.le
  unfold Proc.moveSlot
  by_cases e : j = i
  · subst e
    rw [if_neg (by simp)]
    split
    · rename_i hk; rw [hk]
    · rfl
  · rw [if_pos e]
    dsimp only
    by_cases hk : k = i
    · rw [hk, Function.update_self, if_neg (Ne.symm e), if_pos rfl]
    · rw [Function.update_of_ne hk, if_neg hk, Function.update_apply]

theorem moveSlot_count (h : Packed q r f G i j) (hi : i < MAX_SWAP_PAGES) (a : Nat) :
    swapCount (q.moveSlot i j) a = swapCount q a := by
  have hle := h.le
  unfold Proc.moveSlot
  by_cases e : j = i
  · rw [if_neg (by simpa using e)]
  · rw [if_pos e]
    have h1 := swapCount_update (p := q) (i := j) (q.vpaSwap i) (by omega) a
    have h2 := swapCount_update
      (p := { q with vpaSwap := Function.update q.vpaSwap j (q.vpaSwap i) }) (i := i) 0 hi a
    rw [slotHolds_free a (h.gap j le_rfl (by omega))] at h1
    rw [slotHolds_free a (has_zero _)] at h2
    dsimp only at h2
    rw [Function.update_of_ne (Ne.symm e)] at h2
    omega

/-- Slot `i` is occupied: its entry and its page go to slot `j`. -/
theorem pack {pg : Nat → Byte} (h : Packed q r f G i j) (hi : i < MAX_SWAP_PAGES)
    (ho : has (q.vpaSwap i) SWAP_P = true)
    (hpg : ∀ o < PGSIZE, pg o = G (entryAddr (q.vpaSwap i) / PGSIZE) o) :
    Packed (q.moveSlot i j) r (f.writePage j pg) G (i + 1) (j + 1) := by
  have hle := h.le
  refine ⟨by omega, fun k hk => ?_, fun k h1 h2 => ?_, fun k hk hk' => ?_, fun a => ?_, ?_,
    fun k hk hk' o hlt => ?_⟩
  · rw [h.moveSlot_vpaSwap, if_neg (by omega), if_neg (by omega)]
    exact h.rest k (by omega)
  · rw [h.moveSlot_vpaSwap, if_neg (by omega)]
    split
    · exact has_zero _
    · exact h.gap k (by omega) (by omega)
  · rw [h.moveSlot_vpaSwap] at hk' ⊢
    split at hk'
    · rename_i e
      rw [if_pos e]
      exact h.below i hi ho
    · rename_i e
      split at hk'
      · rw [has_zero] at hk'; cases hk'
      · rename_i e'
        rw [if_neg e, if_neg e']
        exact h.below k hk hk'
  · rw [h.moveSlot_count hi, h.count]
  · simp only [SwapFile.writePage]
    omega
  · rw [h.moveSlot_vpaSwap] at hk' ⊢
    by_cases e : k = j
    · subst e
      rw [if_pos rfl, f.writePage_data_self k pg hlt]
      exact hpg o hlt
    · rw [if_neg e, if_neg (by omega)] at hk' ⊢
      rw [f.writePage_data_of_ne pg e hlt]
      exact h.bytes k (by omega) hk' o hlt

end Packed

/-! ## A slot that is not in use yet -/

/-- Slot `k` is being set up: it is not in use and its pid is its own. -/
structure Embryo (k : Nat) (s : Kernel) : Prop where
  hidden : (s.proc k).state.live = false
  fresh : ∀ p < NPROC, (s.proc p).state.active = true → (s.proc p).pid ≠ (s.proc k).pid

/-- Only slot `k`'s table of slots, its file and frame `b` changed. -/
structure Packing (k b : Nat) (s s' : Kernel) : Prop where
  cur : s'.cur = s.cur
  cr3 : s'.cr3 = s.cr3
  initproc : s'.initproc = s.initproc
  nextpid : s'.nextpid = s.nextpid
  dirs : s'.dirs = s.dirs
  other : ∀ p ≠ k, s'.proc p = s.proc p
  self : ∃ a, s'.proc k = { s.proc k with vpaSwap := a }
  mem : ∀ g ≠ b, s'.mem g = s.mem g

theorem Embryo.of_packing {k b : Nat} {s s' : Kernel} (h : Embryo k s) (hp : Packing k b s s') : Embryo k s' := by
  obtain ⟨a, ha⟩ := hp.self
  refine ⟨by rw [ha]; exact h.hidden, fun p hlt hact => ?_⟩
  by_cases e : p = k
  · rw [e, ha] at hact
    have := ProcState.live_of_active hact
    rw [show (Proc.state _) = (s.proc k).state from rfl, h.hidden] at this
    cases this
  · rw [hp.other p e] at hact ⊢
    rw [ha]
    exact h.fresh p hlt hact

theorem Packing.trans {k b : Nat} {s s' s'' : Kernel} (h1 : Packing k b s s') (h2 : Packing k b s' s'') :
    Packing k b s s'' := by
  obtain ⟨a, ha⟩ := h1.self
  obtain ⟨a', ha'⟩ := h2.self
  exact ⟨h2.cur.trans h1.cur, h2.cr3.trans h1.cr3, h2.initproc.trans h1.initproc,
    h2.nextpid.trans h1.nextpid, h2.dirs.trans h1.dirs,
    fun p hp => (h2.other p hp).trans (h1.other p hp), ⟨a', by rw [ha', ha]⟩,
    fun g hg => (h2.mem g hg).trans (h1.mem g hg)⟩

/-- Slot `i` of the parent's file `g` goes to slot `j` of the child's file `f`, through frame `b`. -/
def packStep (s : Kernel) (k b i j : Nat) (f g : SwapFile) : Kernel :=
  ((s.setMem b (g.page i (s.mem b))).setProc k ((s.proc k).moveSlot i j)).setFile (s.proc k).pid
    (some (f.writePage j (g.page i (s.mem b))))

theorem packStep_packing {k : Nat} (s : Kernel) (b i j : Nat) (f g : SwapFile) {a : Nat → Word}
    (ha : (s.proc k).moveSlot i j = { s.proc k with vpaSwap := a }) :
    Packing k b s (packStep s k b i j f g) :=
  ⟨rfl, rfl, rfl, rfl, rfl, fun _ hp => Function.update_of_ne hp _ _,
    ⟨a, (Function.update_self _ _ _).trans ha⟩, fun _ hx => Function.update_of_ne hx _ _⟩

section

variable [Build] {E : String → Prop} {s s' : Kernel} {P : Pend} {F : Nat → Nat → Nat → Byte}
  {c k : Nat}

/-- Changes to a slot whose frames are not counted. -/
theorem Inv.offstage (h : Inv s P F) (hk : Xv6.counted s P.skip k = false)
    (hk' : Xv6.counted s' P.skip k = false) (ha' : (s'.proc k).state.active = false)
    (hother : ∀ p ≠ k, s'.proc p = s.proc p)
    (hcur : s'.cur = s.cur) (hnext : s.nextpid ≤ s'.nextpid) (hdirs : s'.dirs = s.dirs)
    (hmem : s'.mem = s.mem) (hfree : s'.freelist = s.freelist)
    (hfiles : ∀ p < NPROC, (s.proc p).state.active = true →
      s'.files (s.proc p).pid = s.files (s.proc p).pid)
    (hquiet : ∀ t ∈ s'.cons, t ∉ dirtyMsgs) : Inv s' P F := by
  have hact : ∀ p, (s'.proc p).state.active = true →
      s'.proc p = s.proc p ∧ (s.proc p).state.active = true := fun p ha => by
    by_cases e : p = k
    · rw [e, ha'] at ha
      cases ha
    · rw [hother p e] at ha
      exact ⟨hother p e, ha⟩
  have hcnt : ∀ p, Xv6.counted s' P.skip p = true →
      s'.proc p = s.proc p ∧ Xv6.counted s P.skip p = true := fun p hc => by
    by_cases e : p = k
    · rw [e, hk'] at hc
      cases hc
    · unfold Xv6.counted at hc ⊢
      rw [hother p e] at hc
      exact ⟨hother p e, hc⟩
  have hcount : ∀ p f, procCount s' P.skip p f = procCount s P.skip p f := fun p f => by
    by_cases e : p = k
    · unfold procCount
      rw [e, hk, hk', if_neg (by decide), if_neg (by decide)]
    · unfold procCount Xv6.counted
      rw [hother p e, hdirs]
  refine ⟨fun f => ?_, fun p hp hc => ?_, fun p hp hc => ?_, fun p hp ha => ?_, fun p hp ha => ?_,
    fun p hp q hq ha hb => ?_, fun p hp ha => ?_, hquiet⟩
  · have hu : inUse s' P f = inUse s P f := by
      unfold inUse extraCount
      rw [hdirs, Finset.sum_congr rfl fun p _ => hcount p f]
    have h1 := h.own f
    unfold owned at h1 ⊢
    rw [hu, hfree]
    exact h1
  · rw [(hcnt p hc).1, hdirs]
    exact h.dirs p hp (hcnt p hc).2
  · rw [(hcnt p hc).1, hdirs]
    exact h.excl p hp (hcnt p hc).2
  · obtain ⟨hp', ha'⟩ := hact p ha
    rw [hp', hdirs, hmem, hcur, hfiles p hp ha']
    exact h.procs p hp ha'
  · exact h.skip p hp (hact p ha).2
  · rw [(hact p ha).1, (hact q hb).1]
    exact h.pids p hp q hq (hact p ha).2 (hact q hb).2
  · rw [(hact p ha).1]
    exact lt_of_lt_of_le (h.pidLt p hp (hact p ha).2) hnext

theorem Inv.setHidden (h : Inv s P F) (hk : (s.proc k).state.live = false) {q : Proc}
    (hq : q.state.live = false) : Inv (s.setProc k q) P F :=
  have hk' : ((s.setProc k q).proc k).state.live = false := by
    simpa only [Kernel.setProc, Function.update_self] using hq
  h.offstage (counted_of_hidden hk) (counted_of_hidden hk') (ProcState.not_active hk')
    (fun _ hp => Function.update_of_ne hp _ _) rfl le_rfl rfl rfl rfl (fun _ _ _ => rfl) h.quiet

theorem Inv.withFile (h : Inv s P F) (he : Embryo k s) (f : SwapFile) :
    Inv (s.withFile k f) P F :=
  have hk' : ((s.withFile k f).proc k).state.live = false := by
    simpa only [Kernel.withFile, Kernel.setProc, Function.update_self] using he.hidden
  h.offstage (counted_of_hidden he.hidden) (counted_of_hidden hk') (ProcState.not_active hk')
    (fun _ hp => Function.update_of_ne hp _ _) rfl le_rfl rfl rfl rfl
    (fun p hp ha => Function.update_of_ne (he.fresh p hp ha) _ _) h.quiet

theorem initSwapLoop_inv {b : Nat} (hkc : k ≠ c) (n : Nat) : ∀ (i j : Nat) (s : Kernel) (f : SwapFile),
    i + n = MAX_SWAP_PAGES → Inv s (P.hold b) F → Running s c → Embryo k s →
    (s.proc k).swapFile = true → s.files (s.proc k).pid = some f →
    Packed (s.proc k) (s.proc c) f (F c) i j →
    wp (initSwapLoop k c b n i j) E (fun r s' => r = 0 ∧ Inv s' P F ∧ Packing k b s s' ∧
      ∃ f j, s'.files (s.proc k).pid = some f ∧
        Packed (s'.proc k) (s.proc c) f (F c) MAX_SWAP_PAGES j) s := by
  induction n with
  | zero =>
    intro i j s f hi h hr he hsw hf hpk
    rw [initSwapLoop]
    refine wp_seq (kfree_wp h.own.managed_held ⟨rfl, h.give, ?_, f, j, hf, ?_⟩)
    · exact ⟨rfl, rfl, rfl, rfl, rfl, fun _ _ => rfl, ⟨_, rfl⟩, fun g hg =>
        Function.update_of_ne hg _ _⟩
    · rw [show MAX_SWAP_PAGES = i by omega]
      exact hpk
  | succ n ih =>
    intro i j s f hi h hr he hsw hf hpk
    have hlt : i < MAX_SWAP_PAGES := by omega
    rw [initSwapLoop]
    refine wp_seq (getProc_wp ?_)
    cases ho : has ((s.proc k).vpaSwap i) SWAP_P with
    | false =>
      rw [if_pos (by decide)]
      exact ih (i + 1) j s f (by omega) h hr he hsw hf (hpk.skip ho)
    | true =>
      rw [if_neg (by decide)]
      have hself := h.self hr
      obtain ⟨g, hg, hst⟩ := hself.stored
      have hoc : has ((s.proc c).vpaSwap i) SWAP_P = true := by rwa [← hpk.rest i le_rfl]
      refine wp_seq (readFromSwapFile_page hself.swapFile hg hlt (hst.room i hlt hoc) ?_)
      rw [if_neg (by decide)]
      have h1 : Inv (s.setMem b (g.page i (s.mem b))) (P.hold b) F :=
        h.fill (P.held_hold_self b) _
      obtain ⟨a, ha⟩ : ∃ a, (s.proc k).moveSlot i j = { s.proc k with vpaSwap := a } := by
        unfold Proc.moveSlot
        split <;> exact ⟨_, rfl⟩
      -- the entry moves, the page is written
      have hk2 : ((s.setMem b (g.page i (s.mem b))).setProc k ((s.proc k).moveSlot i j)).proc k =
          (s.proc k).moveSlot i j := Function.update_self _ _ _
      refine wp_seq (setProc_wp (wp_seq (writeToSwapFile_page (f := f) (p := k) ?_ ?_
        (lt_of_le_of_lt hpk.le hlt) hpk.room ?_)))
      · rw [hk2, ha]; exact hsw
      · rw [hk2, ha]; exact hf
      rw [if_neg (by decide)]
      have hm2 : ((s.setMem b (g.page i (s.mem b))).setProc k ((s.proc k).moveSlot i j)).mem b =
          g.page i (s.mem b) := Function.update_self _ _ _
      rw [hk2, hm2, ha, show (Proc.pid _) = (s.proc k).pid from rfl, ← ha]
      have hp3 := packStep_packing s b i j f g ha
      have hr3 : Running (packStep s k b i j f g) c := by
        refine ⟨hr.cur, hr.lt, ?_, ?_⟩ <;> rw [hp3.other c hkc.symm]
        · exact hr.active
        · exact hp3.cr3.trans hr.cr3
      have hk3 : (packStep s k b i j f g).proc k = (s.proc k).moveSlot i j :=
        Function.update_self _ _ _
      refine wp_post (ih (i + 1) (j + 1) (packStep s k b i j f g) (f.writePage j (g.page i (s.mem b)))
        (by omega) (h1.offstage (k := k) (counted_of_hidden he.hidden)
          (counted_of_hidden (he.of_packing hp3).hidden)
          (ProcState.not_active (he.of_packing hp3).hidden) hp3.other rfl le_rfl rfl rfl rfl
          (fun p hp hact => Function.update_of_ne (he.fresh p hp hact) _ _) h.quiet) hr3
        (he.of_packing hp3) ?_ ?_ ?_) ?_
      · rw [hk3, ha]; exact hsw
      · rw [hk3, ha]; exact Function.update_self _ _ _
      · rw [hk3, hp3.other c hkc.symm]
        refine hpk.pack hlt ho fun o hlt' => ?_
        rw [SwapFile.page, if_pos hlt', hst.slots i hlt hoc o hlt', hpk.rest i le_rfl]
      · rintro r s' ⟨hr', h', hp', f', j', hf', hpk'⟩
        rw [hk3, ha] at hf'
        rw [hp3.other c hkc.symm] at hpk'
        exact ⟨hr', h', hp3.trans hp', f', j', hf', hpk'⟩

end

end Xv6
