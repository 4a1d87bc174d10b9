import Xv6.Exec.Program
import Xv6.Proc.Start
import Xv6.Swap.Restore

/-!
# Up to the first program header

A process that calls `exec` has every frame accounted for and, unless it is the first process,
tables that agree with its directory. `exec` makes a directory, gives the caller empty tables and a
new swap file, and starts to load.
-/

namespace Xv6

open Lib

section

variable [Build]

/-- Slot `c` may call `exec`. The first process comes from `userinit`, which links no page. -/
structure Caller (s : Kernel) (c : Nat) : Prop where
  running : Running s c
  own : Own s Pend.none
  excl : Exclusive (s.dirs (s.proc c).pgdir)
  tables : (s.proc c).pid ≠ 1 → Agree (s.proc c) (s.dirs (s.proc c).pgdir).pte fun _ => 0
  file : (s.proc c).pid ≠ 1 → (s.proc c).swapFile = true ∧ ∃ f, s.files (s.proc c).pid = some f

/-- Between operations every process that can run may call `exec`. -/
theorem Inv.caller {s : Kernel} {F : Nat → Nat → Nat → Byte} {c : Nat} (h : Inv s Pend.none F)
    (hr : Running s c) : Caller s c := by
  have hself := h.self hr
  obtain ⟨f, hf, -⟩ := hself.stored
  exact ⟨hr, h.own, h.excl c hr.lt (h.counted hr.lt hr.active), fun _ => hself.agree,
    fun _ => ⟨hself.swapFile, f, hf⟩⟩

/-- What `exec` does to the caller's swap state leaves the rest of the machine alone. -/
structure Resets (c : Nat) (s s' : Kernel) : Prop where
  cur : s'.cur = s.cur
  cr3 : s'.cr3 = s.cr3
  initproc : s'.initproc = s.initproc
  nextpid : s'.nextpid = s.nextpid
  mem : s'.mem = s.mem
  other : ∀ p ≠ c, s'.proc p = s.proc p
  self : s'.proc c = { (s.proc c).freshTables with swapFile := true }
  files : ∀ n ≠ (s.proc c).pid, s'.files n = s.files n
  file : ∃ f, s'.files (s.proc c).pid = some f
  dirs : ∀ e ≠ (s.proc c).pgdir, s'.dirs e = s.dirs e
  pde : (s'.dirs (s.proc c).pgdir).pde = (s.dirs (s.proc c).pgdir).pde
  pages : ∀ u < NUSER, has ((s'.dirs (s.proc c).pgdir).pte u) PTE_P = true ∨
    (s'.dirs (s.proc c).pgdir).pte u = (s.dirs (s.proc c).pgdir).pte u
  cons : ∀ t ∈ s'.cons, t ∈ s.cons ∨ ∃ a b, t = restoreMsg a b

variable {E : String → Prop} {s s' : Kernel} {P : Pend} {c d n res : Nat}

/-! ## `restoreSwap` -/

/-- `restoreSwap` so far: the frames it gave out are accounted for. -/
structure Reclaims (P : Pend) (c i : Nat) (s s' : Kernel) : Prop extends Restoring c i s s' where
  own : Own s' P
  cur : s'.cur = s.cur
  initproc : s'.initproc = s.initproc
  nextpid : s'.nextpid = s.nextpid
  dirs : ∀ e ≠ (s.proc c).pgdir, s'.dirs e = s.dirs e
  cons : ∀ t ∈ s'.cons, t ∈ s.cons ∨ ∃ a b, t = restoreMsg a b

theorem Reclaims.give {i g : Nat} {l : List Nat}
    (ha : Agree (s.proc c) (s.dirs (s.proc c).pgdir).pte fun _ => 0) (hc : c < NPROC)
    (hl : counted s P.skip c = true) (h : Reclaims P c i s s') (hi : i < MAX_SWAP_PAGES)
    (ho : has ((s.proc c).vpaSwap i) SWAP_P = true) (hf : s'.freelist = g :: l) :
    Reclaims P c (i + 1) s (restoredPage s s' c i g l) := by
  obtain ⟨hu, -, hg⟩ := ha.slotPage hi ho
  have hold := h.rest _ fun k hk => ha.slotPage_ne hi ho hk
  have ht : (s'.dirs (s.proc c).pgdir).hasTable (slotPage (s.proc c) i) = true :=
    PageDir.hasTable_of_has (by rwa [hold])
  have hheld := h.own.take hf
  have hholders : 0 < holders (s'.taken l) P (s.proc c).pgdir := by
    have := holders_pos_of_proc (s := s'.taken l) (P := P) hc (by
      unfold counted at hl ⊢
      rwa [show (s'.taken l).proc = s.proc from h.proc])
    rwa [show (s'.taken l).proc = s.proc from h.proc] at this
  refine ⟨h.toRestoring.give ha hi ho hf rfl rfl rfl rfl rfl (Function.update_self _ _ _), ?_, h.cur,
    h.initproc, h.nextpid, fun e he => (Function.update_of_ne he _ _).trans (h.dirs e he), ?_⟩
  · have hmap := hheld.mapPage (d := (s.proc c).pgdir) (u := slotPage (s.proc c) i)
      (w := inEntry ((s'.dirs (s.proc c).pgdir).pte (slotPage (s.proc c) i)) g) hholders ht hu
      (by rw [show (s'.taken l).dirs = s'.dirs from rfl, hold]; exact ha.absent_of_paged hu hg)
      (inEntry_flags _ g).1 (pageNo_inEntry _ hheld.managed_held.lt)
    exact hmap
  · intro t hmem
    obtain rfl | hmem := List.mem_cons.1 hmem
    · exact .inr ⟨_, _, rfl⟩
    · exact h.cons t hmem

omit [Build] in
theorem takenSlots_le (q : Proc) : (takenSlots q).length ≤ MAX_SWAP_PAGES :=
  (List.length_filter_le _ _).trans (List.length_range).le

/-- When `restoreSwap` returns 0, which only a lack of frames can prevent, no page is paged out any
more. -/
theorem restoreSwap_own (ha : Agree (s.proc c) (s.dirs (s.proc c).pgdir).pte fun _ => 0)
    (hr : Running s c) (hown : Own s P) (hl : counted s P.skip c = true) :
    wp (restoreSwap c) E (fun r t => r = 0 ∧ Reclaims P c MAX_SWAP_PAGES s t ∧
      (∀ u < NUSER, has ((t.dirs (s.proc c).pgdir).pte u) PTE_PG = false) ∨
        r ≠ 0 ∧ s.freelist.length < MAX_SWAP_PAGES) s := by
  refine wp_post (restoreSwapLoop_rule (I := fun i t => Reclaims P c i s t) ha hr.cr3
    (fun _ _ h => h.toRestoring) (fun _ _ h ho => { h with toRestoring := h.toRestoring.skip ho })
    (fun _ _ _ _ h hi ho hf => h.give ha hr.lt hl hi ho hf) MAX_SWAP_PAGES 0 s rfl
    ⟨.start c s, hown, rfl, rfl, rfl, fun _ _ => rfl, fun _ h => .inl h⟩) ?_
  rintro r t (⟨hr, h⟩ | ⟨hr, hlt⟩)
  · refine .inl ⟨hr, h, fun u hu => ?_⟩
    cases hg : has ((s.dirs (s.proc c).pgdir).pte u) PTE_PG with
    | false => rwa [h.toRestoring.kept ha hg]
    | true =>
      obtain ⟨-, -, g, -, -, -, hpte⟩ := h.toRestoring.entry_of_paged ha hu hg
      rw [hpte]
      exact (inEntry_flags _ g).2.1
  · exact .inr ⟨by rw [hr]; decide, hlt.trans_le (takenSlots_le _)⟩

/-! ## `resetSwap` -/

omit [Build] in
/-- The state after `initFreshSwap`. -/
theorem initFreshSwap_wp {Q : Int → Kernel → Prop}
    (h : ∀ f, (s.files (s.proc c).pid).getD { size := 0, data := fun _ => 0 } = f →
      Q 0 ((s.setFile (s.proc c).pid (some f)).setProc c
        { (s.proc c).freshTables with swapFile := true })) : wp (initFreshSwap c) E Q s := by
  unfold initFreshSwap createSwapFile
  refine wp_seq (getProc_wp (wp_seq (setProc_wp (wp_seq (get_wp (wp_seq (set_wp ?_)))))))
  have hself : (s.setProc c (s.proc c).freshTables).proc c = (s.proc c).freshTables :=
    Function.update_self _ _ _
  have := h _ rfl
  unfold Kernel.withFile
  rw [hself]
  unfold Kernel.setProc Kernel.setFile at this ⊢
  simp only [Function.update_idem]
  exact this

/-- Ownership depends on the stacks and directories of the processes only. -/
theorem Own.congr (h : Own s P)
    (hp : ∀ p, (s'.proc p).state.live = (s.proc p).state.live ∧
      (s'.proc p).kstack = (s.proc p).kstack ∧ (s'.proc p).pgdir = (s.proc p).pgdir)
    (hdirs : s'.dirs = s.dirs) (hfree : s'.freelist = s.freelist) : Own s' P := fun f => by
  have hu := inUse_congr hp hdirs (rfl : P.skip = P.skip) (rfl : P.dirs = P.dirs) f
  have h1 := h f
  unfold owned at h1 ⊢
  rw [hu, hfree]
  exact h1

/-- Empty tables and a swap file for slot `c`. -/
theorem Own.fresh (h : Own s P) (f : Option SwapFile) (m : Nat) :
    Own ((s.setFile m f).setProc c { (s.proc c).freshTables with swapFile := true }) P := by
  refine h.congr (fun p => ?_) rfl rfl
  by_cases e : p = c
  · subst e
    simp only [Kernel.setProc, Function.update_self]
    exact ⟨rfl, rfl, rfl⟩
  · simp only [Kernel.setProc, Function.update_of_ne e]
    exact ⟨rfl, rfl, rfl⟩

/-- After `resetSwap` the caller has empty tables; at most `MAX_SWAP_PAGES` frames were taken. It
panics only when there are fewer. -/
theorem resetSwap_own (hr : Running s c) (hown : Own s P) (hl : counted s P.skip c = true)
    (hex : Exclusive (s.dirs (s.proc c).pgdir))
    (htab : (s.proc c).pid ≠ 1 → Agree (s.proc c) (s.dirs (s.proc c).pgdir).pte fun _ => 0)
    (hfile : (s.proc c).pid ≠ 1 → (s.proc c).swapFile = true ∧ ∃ f, s.files (s.proc c).pid = some f)
    (hE : s.freelist.length < MAX_SWAP_PAGES → ∀ m, E m) :
    wp (resetSwap c) E (fun _ t => Own t P ∧ Resets c s t ∧ Exclusive (t.dirs (s.proc c).pgdir) ∧
      (∀ g ∈ t.freelist, g ∈ s.freelist) ∧
      s.freelist.length ≤ t.freelist.length + MAX_SWAP_PAGES) s := by
  unfold resetSwap
  refine wp_seq (getProc_wp ?_)
  by_cases hpid : (s.proc c).pid = 1
  · rw [if_pos hpid]
    refine wp_seq (initFreshSwap_wp fun f _ => assertPanic_wp rfl ⟨hown.fresh _ _, ?_, hex,
      fun g hg => hg, Nat.le_add_right _ _⟩)
    exact ⟨rfl, rfl, rfl, rfl, rfl, fun p hp => Function.update_of_ne hp _ _,
      Function.update_self _ _ _, fun n hn => Function.update_of_ne hn _ _,
      ⟨f, Function.update_self _ _ _⟩, fun _ _ => rfl, rfl, fun _ _ => .inr rfl, fun _ ht => .inl ht⟩
  · obtain ⟨hsw, f, hf⟩ := hfile hpid
    rw [if_neg hpid]
    refine wp_seq (wp_post (restoreSwap_own (htab hpid) hr hown hl) ?_)
    rintro r t (⟨rfl, h, hpaged⟩ | ⟨hne, hlow⟩)
    swap
    · refine wp_seq ?_
      unfold assertPanic
      rw [if_neg hne]
      exact hE hlow _
    have hsw' : (t.proc c).swapFile = true := by rw [h.proc]; exact hsw
    have hf' : t.files (t.proc c).pid = some f := by rw [h.files, h.proc]; exact hf
    refine wp_seq (assertPanic_wp rfl (wp_seq (removeSwapFile_wp hsw' hf' (wp_seq (assertPanic_wp rfl ?_)))))
    refine wp_seq (initFreshSwap_wp fun f' _ => assertPanic_wp rfl ⟨?_, ?_, ?_, ?_, ?_⟩)
    · exact Own.fresh (s := t.setFile (t.proc c).pid none) h.own _ _
    · have hproc : (t.setFile (t.proc c).pid none).proc = s.proc := h.proc
      refine ⟨h.cur, h.cr3, h.initproc, h.nextpid, h.mem, fun p hp => ?_, ?_, fun n hn => ?_, ⟨f', ?_⟩,
        h.dirs, h.pde, fun u hu => ?_, h.cons⟩
      · exact (Function.update_of_ne hp _ _).trans (congrFun hproc p)
      · rw [hproc]
        exact Function.update_self _ _ _
      · rw [hproc]
        refine (Function.update_of_ne hn _ _).trans ?_
        rw [h.proc]
        exact (Function.update_of_ne hn _ _).trans (congrFun h.files n)
      · rw [hproc]
        exact Function.update_self _ _ _
      · cases hg : has ((s.dirs (s.proc c).pgdir).pte u) PTE_PG with
        | false => exact .inr (h.toRestoring.kept (htab hpid) hg)
        | true =>
          obtain ⟨-, -, g, -, -, -, hpte⟩ := h.toRestoring.entry_of_paged (htab hpid) hu hg
          left
          change has ((t.dirs (s.proc c).pgdir).pte u) PTE_P = true
          rw [hpte]
          exact (inEntry_flags _ g).1
    · intro u hu hg
      have hsome : has ((t.dirs (s.proc c).pgdir).pte u) PTE_PG = true := hg
      rw [hpaged u hu] at hsome
      cases hsome
    · intro g hg
      have hdrop : g ∈ t.freelist := hg
      rw [h.free] at hdrop
      exact List.mem_of_mem_drop hdrop
    · have hlen := congrArg List.length h.free
      rw [List.length_drop] at hlen
      have hle := takenSlots_le (s.proc c)
      have hle' : (takenBelow (s.proc c).vpaSwap slotTaken MAX_SWAP_PAGES).length ≤ MAX_SWAP_PAGES := hle
      change s.freelist.length ≤ t.freelist.length + MAX_SWAP_PAGES
      omega

/-! ## The first image -/

/-- The image before the first segment: no page at all. -/
theorem Image.start {s1 s2 : Kernel} (hc : Caller s c) (hown1 : Own s1 (Pend.none.withDir d))
    (hw : Wired d s s1) (hdir : DirOk (s1.dirs d)) (hzero : ∀ u < NUSER, (s1.dirs d).pte u = 0)
    (honly : OnlyKernel (s1.dirs d)) (hown2 : Own s2 (Pend.none.withDir d)) (hr : Resets c s1 s2)
    (hfree : ∀ g ∈ s2.freelist, g ∈ s1.freelist) (hlen : res ≤ s2.freelist.length + 1) :
    Image s2 c d 1 0 res s.freelist fun _ => 0 := by
  have hne : d ≠ (s1.proc c).pgdir := by
    refine (hown1.spare_ne hc.running.lt ?_).symm
    exact (counted_none hc.running.lt).trans (by rw [hw.proc]; exact ProcState.live_of_active hc.running.active)
  have hd : s2.dirs d = s1.dirs d := hr.dirs d hne
  have htable : ∀ i, i < NPDENTRIES → (has ((s1.dirs d).pde i) PTE_P = true ↔ i ∈ kernelTables) := honly
  refine ⟨hown2, ?_, hd ▸ hdir, fun u h1 h2 => ?_, ?_, fun u hu => .inr ⟨by omega, hd ▸ hzero u hu⟩, ?_, ?_,
    ?_, fun u h1 h2 => absurd h2 (by omega), fun _ _ => rfl,
    fun g hg => hc.own.still_free hown1 hw.toBeside (hfree g hg), by omega⟩
  · rw [hr.cur, hw.cur]
    exact hc.running.cur
  · rw [hd]
    refine (htable (u / 1024) (by simp only [NPDENTRIES]; omega)).2 ?_
    rw [kernelTables, Finset.mem_union, Finset.mem_Ico, Finset.mem_Ico]
    omega
  · rw [hd, show decide (1 < 1) = false from rfl, Bool.eq_false_iff]
    intro h0
    have hmem := (htable 0 (by decide)).1 h0
    rw [kernelTables, Finset.mem_union, Finset.mem_Ico, Finset.mem_Ico] at hmem
    omega
  · rw [hr.self, hd]
    have hfresh : Agree (s1.proc c).freshTables (s1.dirs d).pte fun u => if u ∈ [] then 1 else 0 :=
      Agree.fresh List.nodup_nil (fun u hu => by rw [hzero u hu, has_zero]; simp) fun u hu => by
        rw [hzero u hu, has_zero]
    exact hfresh.congr rfl rfl rfl rfl rfl
  · rw [hr.self]
    rfl
  · rw [hr.self]
    rfl

end

end Xv6
