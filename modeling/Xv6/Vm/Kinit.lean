import Mathlib.Data.List.Nodup
import Xv6.Lib.Run
import Xv6.Vm.Kalloc
import Xv6.Vm.Small

/-!
# `kinit1`, `kinit2` and the count of free pages

The allocator starts with nothing, is given memory twice, and then serves `kalloc` and `kfree`.
`total_free_pages` goes down before `kalloc` knows whether there is a page. The count is the length
of the free list until a `kalloc` fails.
-/

namespace Xv6

open Lib

section

variable [Build]

/-- `kfree` of an address: one below `KERNBASE` is below `end`. -/
def kfreeAt (v : Nat) : K Unit :=
  if v % PGSIZE = 0 ∧ KERNBASE ≤ v then kfree ((v - KERNBASE) / PGSIZE)
  else do
    modify fun s => { s with totalFreePages := s.totalFreePages + 1 }
    kpanic "kfree"

/-- The loop of `freerange`, which can go over every page of the address space. -/
def freeLoop (vend : Nat) : Nat → Nat → K Unit
  | 0, _ => pure ()
  | k + 1, p =>
    if (p + PGSIZE) % 2 ^ 32 ≤ vend then do
      kfreeAt p
      freeLoop vend k ((p + PGSIZE) % 2 ^ 32)
    else pure ()

def freerange (vstart vend : Word) : K Unit := freeLoop vend.toNat (2 ^ 20) (pgroundup vstart.toNat)

/-- `kinit1`; no call is made while another is under way, so `use_lock` is left out. -/
def kinit1 (vstart vend : Word) : K Unit := freerange vstart vend

def kinit2 (vstart vend : Word) : K Unit := freerange vstart vend

end

/-- The frames from `vstart`, rounded up, to `vend`. -/
def rangeFrames (vstart vend : Word) : List Nat :=
  List.range' ((pgroundup vstart.toNat - KERNBASE) / PGSIZE) ((vend.toNat - pgroundup vstart.toNat) / PGSIZE)

section

variable [Build] {s s' : Kernel} {vstart vend : Word} {f p k e : Nat}

omit [Build] in
theorem kalloc_ok {r : Option Nat} (h : kalloc s = .ok (r, s')) :
    (s.freelist = [] ∧ r = none ∧ s' = s.taken []) ∨ ∃ f l, s.freelist = f :: l ∧ r = some f ∧ s' = s.taken l := by
  have hspec : wp kalloc Anyway (fun r t => (s.freelist = [] ∧ r = none ∧ t = s.taken []) ∨
      ∃ f l, s.freelist = f :: l ∧ r = some f ∧ t = s.taken l) s :=
    kalloc_wp (fun hn => .inl ⟨hn, rfl, rfl⟩) fun f l hl => .inr ⟨f, l, hl, rfl, rfl⟩
  exact of_wp hspec h

theorem kfree_ok (h : kfree f s = .ok ((), s')) : Managed f ∧ s' = s.freed f := by
  have hspec : wp (kfree f) Anyway (fun _ t => Managed f ∧ t = s.freed f) s := by
    by_cases hm : Managed f
    · exact kfree_wp hm ⟨hm, rfl⟩
    · unfold kfree
      rw [if_neg hm]
      exact trivial
  exact of_wp hspec h

theorem kfreeAt_ok (h : kfreeAt p s = .ok ((), s')) :
    KERNBASE ≤ p ∧ p < KERNBASE + PHYSTOP ∧ s' = s.freed ((p - KERNBASE) / PGSIZE) := by
  unfold kfreeAt at h
  split at h
  · next hp =>
    obtain ⟨hm, hs⟩ := kfree_ok h
    refine ⟨hp.2, ?_, hs⟩
    have hhi : (p - KERNBASE) / PGSIZE * PGSIZE < PHYSTOP := hm.2
    simp only [PGSIZE, KERNBASE, PHYSTOP] at hhi hp ⊢
    omega
  · cases h

/-- The loop frees the frames in order, and it ends within the address space. -/
theorem freeLoop_ok (hp : p % PGSIZE = 0) (hlt : p < 2 ^ 32) (hk : 2 ^ 20 ≤ k + p / PGSIZE)
    (h : freeLoop e k p s = .ok ((), s')) :
    s'.freelist = (List.range' ((p - KERNBASE) / PGSIZE) ((e - p) / PGSIZE)).reverse ++ s.freelist ∧
      s'.totalFreePages = s.totalFreePages + ((e - p) / PGSIZE : Nat) := by
  induction k generalizing p s with
  | zero =>
    simp only [PGSIZE] at hk
    omega
  | succ k ih =>
    rw [freeLoop] at h
    split at h
    · next hle =>
      cases hfree : kfreeAt p s with
      | error m => exact absurd h (by simp only [bind, StateT.bind, hfree, Except.bind]; exact nofun)
      | ok r =>
        obtain ⟨⟨⟩, s1⟩ := r
        rw [seq_of_ok hfree] at h
        obtain ⟨hlo, hhi, rfl⟩ := kfreeAt_ok hfree
        simp only [PGSIZE, KERNBASE, PHYSTOP] at hp hk hle hlo hhi h ⊢
        rw [Nat.mod_eq_of_lt (by omega)] at h hle
        obtain ⟨hl, ht⟩ := ih (by simp only [PGSIZE]; omega) (by omega) (by simp only [PGSIZE]; omega) h
        simp only [PGSIZE, KERNBASE] at hl ht
        have hnext : (p + 4096 - 2147483648) / 4096 = (p - 2147483648) / 4096 + 1 := by omega
        have hcount : (e - p) / 4096 = (e - (p + 4096)) / 4096 + 1 := by omega
        rw [hcount, List.range'_succ, List.reverse_cons, List.append_assoc, ← hnext]
        refine ⟨hl, ht.trans ?_⟩
        change s.totalFreePages + 1 + _ = _
        omega
    · next hgt =>
      cases h
      have h0 : (e - p) / PGSIZE = 0 := by
        simp only [PGSIZE] at hp hgt ⊢
        omega
      rw [h0]
      exact ⟨rfl, (Int.add_zero _).symm⟩

theorem freerange_ok (h : freerange vstart vend s = .ok ((), s')) :
    s'.freelist = (rangeFrames vstart vend).reverse ++ s.freelist ∧
      s'.totalFreePages = s.totalFreePages + (rangeFrames vstart vend).length := by
  have hround : pgroundup vstart.toNat % PGSIZE = 0 ∧ pgroundup vstart.toNat < 2 ^ 32 := by
    unfold pgroundup
    simp only [PGSIZE]
    omega
  have hloop := freeLoop_ok hround.1 hround.2 (Nat.le_add_right _ _) h
  unfold rangeFrames
  rwa [List.length_range']

end

/-! ## Sequences of calls -/

/-- The kernel, and the pages that `kalloc` handed out and did not get back. -/
structure Allocator where
  kern : Kernel
  held : List Nat

/-- The calls to the allocator. -/
inductive Call where
  | kinit1 (vstart vend : Word)
  | kinit2 (vstart vend : Word)
  | kalloc
  | kfree (f : Nat)

/-- None of the pages is the allocator's yet. -/
def Fresh (s : Allocator) (vstart vend : Word) : Prop :=
  ∀ f ∈ rangeFrames vstart vend, f ∉ s.kern.freelist ∧ f ∉ s.held

instance (s : Allocator) (vstart vend : Word) : Decidable (Fresh s vstart vend) := by
  unfold Fresh
  infer_instance

section

variable [Build]

/-- A call that returns. Memory is given once, and the page that is freed was obtained. -/
def Call.run (s : Allocator) : Call → Option Allocator
  | .kinit1 vstart vend =>
    if Fresh s vstart vend then
      match Xv6.kinit1 vstart vend s.kern with
      | .ok (_, t) => some ⟨t, s.held⟩
      | .error _ => none
    else none
  | .kinit2 vstart vend =>
    if Fresh s vstart vend then
      match Xv6.kinit2 vstart vend s.kern with
      | .ok (_, t) => some ⟨t, s.held⟩
      | .error _ => none
    else none
  | .kalloc =>
    match Xv6.kalloc s.kern with
    | .ok (r, t) => some ⟨t, r.toList ++ s.held⟩
    | .error _ => none
  | .kfree f =>
    if f ∈ s.held then
      match Xv6.kfree f s.kern with
      | .ok (_, t) => some ⟨t, s.held.erase f⟩
      | .error _ => none
    else none

abbrev AllocRun : Allocator → List Call → Allocator → Prop := Run fun s c s' => c.run s = some s'

/-- The allocator in the kernel image. -/
structure Unused (s : Allocator) : Prop where
  freelist : s.kern.freelist = []
  total : s.kern.totalFreePages = 0
  held : s.held = []

/-- The free list has no page twice, and the counter is its length. -/
def Counted (s : Kernel) : Prop := s.freelist.Nodup ∧ s.totalFreePages = s.freelist.length

/-- Every page of the allocator is free once or held once, and the counter is right. -/
structure AllocOk (s : Allocator) : Prop where
  pages : (s.kern.freelist ++ s.held).Nodup
  total : s.kern.totalFreePages = s.kern.freelist.length

variable {s s' s0 : Allocator} {c : Call} {t : List Call}

omit [Build] in
theorem Unused.ok (h : Unused s) : AllocOk s := by
  refine ⟨?_, ?_⟩
  · rw [h.freelist, h.held]
    exact List.nodup_nil
  · rw [h.freelist, h.total]
    rfl

omit [Build] in
theorem AllocOk.counted (h : AllocOk s) : Counted s.kern := ⟨h.pages.of_append_left, h.total⟩

/-- What a call that returns has done. -/
inductive Called (s : Allocator) : Call → Allocator → Prop
  | init {vstart vend : Word} {c : Call} {t : Kernel} (call : c = .kinit1 vstart vend ∨ c = .kinit2 vstart vend)
      (fresh : Fresh s vstart vend) (freelist : t.freelist = (rangeFrames vstart vend).reverse ++ s.kern.freelist)
      (total : t.totalFreePages = s.kern.totalFreePages + (rangeFrames vstart vend).length) : Called s c ⟨t, s.held⟩
  | none (empty : s.kern.freelist = []) : Called s .kalloc ⟨s.kern.taken [], s.held⟩
  | page {f : Nat} {l : List Nat} (head : s.kern.freelist = f :: l) :
      Called s .kalloc ⟨s.kern.taken l, f :: s.held⟩
  | kfree {f : Nat} (held : f ∈ s.held) : Called s (.kfree f) ⟨s.kern.freed f, s.held.erase f⟩

theorem Call.run_called (hr : c.run s = some s') : Called s c s' := by
  cases c with
  | kinit1 vstart vend | kinit2 vstart vend =>
    rw [Call.run] at hr
    split at hr
    · next hf =>
      split at hr
      · next hk =>
        cases hr
        obtain ⟨hlist, htotal⟩ := freerange_ok hk
        first
        | exact .init (.inl rfl) hf hlist htotal
        | exact .init (.inr rfl) hf hlist htotal
      · cases hr
    · cases hr
  | kalloc =>
    rw [Call.run] at hr
    split at hr
    · next hk =>
      cases hr
      obtain ⟨hl, rfl, rfl⟩ | ⟨f, l, hl, rfl, rfl⟩ := kalloc_ok hk
      · exact .none hl
      · exact .page hl
    · cases hr
  | kfree f =>
    rw [Call.run] at hr
    split at hr
    · next hheld =>
      split at hr
      · next hk =>
        cases hr
        obtain ⟨-, rfl⟩ := kfree_ok hk
        exact .kfree hheld
      · cases hr
    · cases hr

omit [Build] in
/-- What each call keeps, when `kalloc` finds a page. -/
theorem AllocOk.called (h : AllocOk s) (hc : c = .kalloc → s.kern.freelist ≠ []) (hs : Called s c s') :
    AllocOk s' := by
  cases hs with
  | @init vstart vend _ t _ fresh freelist total =>
    refine ⟨?_, ?_⟩
    · rw [freelist, List.append_assoc, List.nodup_append']
      refine ⟨List.nodup_reverse.2 List.nodup_range', h.pages, fun f hm hin => ?_⟩
      obtain ⟨hfree, hheld⟩ := fresh f (List.mem_reverse.1 hm)
      exact (List.mem_append.1 hin).elim hfree hheld
    · change t.totalFreePages = t.freelist.length
      rw [total, freelist, List.length_append, List.length_reverse, h.total]
      omega
  | none empty => exact absurd empty (hc rfl)
  | @page f l head =>
    have hpages := h.pages
    have htotal := h.total
    rw [head] at hpages htotal
    refine ⟨List.perm_middle.nodup_iff.2 hpages, ?_⟩
    change s.kern.totalFreePages - 1 = l.length
    rw [htotal, List.length_cons]
    omega
  | @kfree f held =>
    have hmove := ((List.perm_cons_erase held).append_left _).nodup_iff.1 h.pages
    refine ⟨List.perm_middle.nodup_iff.1 hmove, ?_⟩
    change s.kern.totalFreePages + 1 = (s.kern.freelist.length + 1 : Nat)
    rw [h.total]
    omega

/-- The counter is right in every state of a run exactly when no `kalloc` of the run is made while
the free list is empty. -/
theorem counted_iff (h0 : Unused s0) :
    (∀ t1 t2 s1, t = t1 ++ t2 → AllocRun s0 t1 s1 → AllocRun s1 t2 s → Counted s1.kern) ↔
      ∀ t1 t2 s1 s2, t = t1 ++ .kalloc :: t2 → AllocRun s0 t1 s1 → Call.kalloc.run s1 = some s2 →
        AllocRun s2 t2 s → s1.kern.freelist ≠ [] := by
  constructor
  · intro hall t1 t2 s1 s2 ht h1 hk h2 hempty
    have hbefore := (hall t1 _ s1 ht h1 (.step hk h2)).2
    have hafter := (hall (t1 ++ [.kalloc]) t2 s2 (by rw [ht, List.append_assoc]; rfl) (h1.snoc hk) h2).2
    cases Call.run_called hk with
    | init call => rcases call with hc | hc <;> cases hc
    | none =>
      -- The list stays empty, and the counter goes down.
      have hdown : s1.kern.totalFreePages - 1 = 0 := hafter
      rw [hempty] at hbefore
      rw [hbefore] at hdown
      exact absurd hdown (by decide)
    | page head =>
      rw [hempty] at head
      cases head
  · intro hsupply t1 t2 s1 ht h1 h2
    have hrun := h1.restrict (C := fun s c => c = .kalloc → s.kern.freelist ≠ []) fun u1 l u2 r1 r2 hu g1 g2 g3 hl => by
      subst hl
      refine hsupply u1 (u2 ++ t2) r1 r2 ?_ g1 g2 (g3.append h2)
      rw [ht, hu, List.append_assoc, List.cons_append]
    have hok : AllocOk s1 := hrun.invariant (I := AllocOk) (C := fun _ => True)
      (fun _ hi hs => hi.called hs.2 (Call.run_called hs.1)) (fun _ _ => trivial) h0.ok
    exact hok.counted

omit [Build] in
/-- The allocator only gets pages from `kinit1` and `kinit2`. -/
theorem Called.pages (hs : Called s c s') {f : Nat} (hf : f ∈ s'.kern.freelist ++ s'.held) :
    f ∈ s.kern.freelist ++ s.held ∨
      ∃ vstart vend, (c = .kinit1 vstart vend ∨ c = .kinit2 vstart vend) ∧ f ∈ rangeFrames vstart vend := by
  cases hs with
  | init call fresh freelist total =>
    rw [freelist, List.append_assoc] at hf
    rcases List.mem_append.1 hf with hf | hf
    · exact .inr ⟨_, _, call, List.mem_reverse.1 hf⟩
    · exact .inl hf
  | none empty =>
    refine .inl ?_
    rw [empty]
    exact hf
  | page head =>
    refine .inl ?_
    rw [head]
    exact List.perm_middle.mem_iff.1 hf
  | kfree held =>
    refine .inl (((List.perm_cons_erase held).append_left _).mem_iff.2 ?_)
    exact List.perm_middle.mem_iff.2 hf

end

/-- A kernel before `kinit1`. -/
def bootKernel : Kernel where
  mem := fun _ _ => 0
  dirs := fun _ => zeroDir
  freelist := []
  totalFreePages := 0
  proc := fun _ => emptyProc
  initproc := 0
  nextpid := 1
  cur := 0
  cr3 := 0
  files := fun _ => none
  cons := []

theorem boot_unused : Unused ⟨bootKernel, []⟩ := ⟨rfl, rfl, rfl⟩

/-- The calls in order. -/
def runCalls [Build] (s : Allocator) : List Call → Option Allocator
  | [] => some s
  | c :: t => (c.run s).bind fun s' => runCalls s' t

theorem runCalls_run [Build] {s s' : Allocator} {t : List Call} (h : runCalls s t = some s') : AllocRun s t s' := by
  induction t generalizing s with
  | nil =>
    cases h
    exact .refl _
  | cons c t ih =>
    obtain ⟨s1, h1, h2⟩ := Option.bind_eq_some_iff.1 h
    exact .step h1 (ih h2)

theorem counted_kinit1 :
    let _ := smallBuild .fifo
    ∃ s, AllocRun ⟨bootKernel, []⟩ [.kinit1 0x8dfff000 0x8e000000] s ∧ s.kern.freelist = [57343] ∧ Counted s.kern := by
  intro _
  have hrun : (match runCalls ⟨bootKernel, []⟩ [.kinit1 0x8dfff000 0x8e000000] with
      | some s => decide (s.kern.freelist = [57343])
      | none => false) = true := by decide +kernel
  split at hrun
  · next _ s hs =>
    refine ⟨s, runCalls_run hs, of_decide_eq_true hrun, ?_⟩
    refine (counted_iff boot_unused).2 (fun t1 t2 s1 s2 ht => ?_) _ [] s (List.append_nil _).symm (runCalls_run hs) (.refl s)
    have hmem : Call.kalloc ∈ [Call.kinit1 0x8dfff000 0x8e000000] := ht ▸ List.mem_append_right t1 List.mem_cons_self
    cases List.mem_singleton.1 hmem
  · cases hrun

/-- One page is given, taken, asked for once more, and given back. -/
theorem counted_fails :
    let _ := smallBuild .fifo
    ∃ s, AllocRun ⟨bootKernel, []⟩ [.kinit1 0x8dfff000 0x8e000000, .kalloc, .kalloc, .kfree 57343] s ∧
      s.kern.freelist = [57343] ∧ s.kern.totalFreePages = 0 ∧ ¬ Counted s.kern := by
  intro _
  have hrun : (match runCalls ⟨bootKernel, []⟩ [.kinit1 0x8dfff000 0x8e000000, .kalloc, .kalloc, .kfree 57343] with
      | some s => decide (s.kern.freelist = [57343] ∧ s.kern.totalFreePages = 0)
      | none => false) = true := by decide +kernel
  split at hrun
  · next _ s hs =>
    obtain ⟨hlist, htotal⟩ := of_decide_eq_true hrun
    refine ⟨s, runCalls_run hs, hlist, htotal, fun hc => ?_⟩
    have hlen := hc.2
    rw [hlist, htotal] at hlen
    exact absurd hlen (by decide)
  · cases hrun

end Xv6
