import Xv6.Exec.Args

/-!
# `exec` on arbitrary files

The checks of `exec` let a segment start at address 0, but the image starts at `PGSIZE`. When such a
segment has bytes to load, `loaduvm` finds no page table and panics, or takes the empty entry of
page 0 for frame 0 and reads into it. Nothing else in a file can harm the kernel.
-/

namespace Xv6

open Lib

/-- The check that stands before a write of `loaduvm`: the frame was free when `exec` began and is a
page of the new directory now. -/
def watch (L : List Nat) (d g : Nat) : K Unit := do
  let s ← get
  assertPanic (g ∈ L ∧ ∃ u, u < NUSER ∧ has ((s.dirs d).pte u) PTE_P = true ∧ pageNo ((s.dirs d).pte u) = g)
    "watch"

section

variable [Build] {E : String → Prop} {s : Kernel} {c d : Nat} {f : ProgFile} {argv : List (List Byte)}

theorem watch_permits (L : List Nat) : Permits (watch L) E c d L := by
  intro t n guard res img u h h1 h2
  have hun := h.lt_user h2
  obtain ⟨g, hg, hman, hpte⟩ := h.page h1 h2
  unfold watch
  refine wp_seq (get_wp (assertPanic_wp ⟨?_, u, hun, ?_, rfl⟩ rfl))
  · rw [hpte, pageNo_pageEntry guard u hman.lt]
    exact hg
  · rw [h.present hun, decide_eq_true ⟨h1, h2⟩]

theorem watch_watches (L : List Nat) : Watches (watch L) c d L := by
  intro t n res img h
  unfold watch
  refine wp_seq (get_wp ?_)
  unfold assertPanic
  rw [if_neg]
  · exact trivial
  · rintro ⟨-, u, hu, hp, hzero⟩
    rw [h.present hu] at hp
    obtain ⟨h1, h2⟩ := of_decide_eq_true hp
    obtain ⟨g, -, hman, hpte⟩ := h.page h1 h2
    rw [hpte, pageNo_pageEntry 0 u hman.lt] at hzero
    exact hman.pos hzero

/-- `exec` returns, and `loaduvm` only writes into pages that were allocated for the new directory. -/
def SafeExec (s : Kernel) (f : ProgFile) (argv : List (List Byte)) : Prop :=
  (∃ r s', exec (some f) argv s = .ok (r, s')) ∧ ∃ r s', execWith (watch s.freelist) (some f) argv s = .ok (r, s')

theorem execWith_returns {touch : Nat → Nat → K Unit} (hc : Caller s c) (hfree : PLENTY ≤ s.freelist.length)
    (hf : f.size ≤ MAXFILE * BSIZE) (hargc : argv.length ≤ MAXARG) (hlen : ∀ arg ∈ argv, arg.length + 1 ≤ MAXSTR)
    (ht : ∀ d, Permits touch E c d s.freelist) (hs : loads f ≠ .strays) (hb : loads f ≠ .big) :
    wp (execWith touch (some f) argv) E (fun _ s' => Own s' Pend.none) s := by
  unfold execWith
  refine wp_seq (wp_post (loadFile_loads hc hfree hf ht hs hb) ?_)
  rintro (_ | ⟨entry, slot, dir, sz⟩) s1 h1
  · exact h1.2.1
  · obtain ⟨rfl, hk, m, -, rfl, hi, -⟩ := h1
    exact wp_post (hi.startImage hk hargc hlen entry) fun _ _ h => h.1

theorem execWith_strays (hc : Caller s c) (hfree : PLENTY ≤ s.freelist.length) (hf : f.size ≤ MAXFILE * BSIZE)
    (hs : loads f = .strays) : wp (execWith (watch s.freelist) (some f) argv) Anyway (fun _ _ => False) s := by
  simp only [PLENTY] at hfree
  have h1 : pages PGSIZE = 1 := by decide
  unfold execWith
  refine wp_seq (loadFile_rule hc (.inl (show ENOUGH + 79 ≤ _ from hfree)) (fun _ _ => trivial) (fun hbad => ?_)
    (fun _ hlow => by omega) fun elf d s2 hh hm _ hi => ?_)
  · exfalso
    unfold loads at hs
    cases hh : readElfhdr f with
    | none =>
      rw [hh] at hs
      cases hs
    | some elf =>
      rw [hh] at hs
      dsimp only at hs
      rw [if_pos (hbad elf hh)] at hs
      cases hs
  · have hverdict : scan f elf.phnum elf.phoff PGSIZE = .strays := by
      rw [← hs]
      unfold loads
      rw [hh]
      exact (if_neg (not_not.2 hm)).symm
    unfold loadPages
    refine wp_seq (wp_post (loadProgram_strays (watch_permits _) (watch_watches _) le_rfl hf elf.phnum elf.phoff PGSIZE
      _ s2 (by rw [h1]; exact hi) le_rfl (by decide) hverdict) ?_)
    exact fun _ _ hfalse => hfalse.elim

theorem not_safeExec (hc : Caller s c) (hfree : PLENTY ≤ s.freelist.length) (hf : f.size ≤ MAXFILE * BSIZE)
    (hs : loads f = .strays) : ¬ SafeExec s f argv := by
  rintro ⟨-, r, s', hrun⟩
  exact of_wp (execWith_strays hc hfree hf hs) hrun

/-- With enough memory and an image of at most `MAX_PSYC_PAGES` pages, `exec` is safe exactly when no
segment strays. -/
theorem exec_safe_iff (hc : Caller s c) (hfree : PLENTY ≤ s.freelist.length) (hf : f.size ≤ MAXFILE * BSIZE)
    (hargc : argv.length ≤ MAXARG) (hlen : ∀ arg ∈ argv, arg.length + 1 ≤ MAXSTR) (hb : loads f ≠ .big) :
    SafeExec s f argv ↔ loads f ≠ .strays := by
  constructor
  · exact fun hsafe hs => not_safeExec hc hfree hf hs hsafe
  · intro hs
    have hpure : ∀ d, Permits (fun _ _ => pure ()) (fun _ => False) c d s.freelist :=
      fun _ _ _ _ _ _ _ _ _ _ => rfl
    obtain ⟨r, s', hrun, -⟩ := exists_of_wp (execWith_returns hc hfree hf hargc hlen hpure hs hb)
    obtain ⟨r', s'', hrun', -⟩ := exists_of_wp (execWith_returns hc hfree hf hargc hlen
      (fun _ => watch_permits s.freelist) hs hb)
    exact ⟨⟨r, s', hrun⟩, r', s'', hrun'⟩

end

theorem exec_safe_small :
    let _ := smallBuild .fifo
    SafeExec (smallKernel .fifo) (oneSegment 0x1000 4 4) [] := by
  intro _
  refine (exec_safe_iff small_caller (small_plenty .fifo) (by decide) (by decide) (by decide) ?_).2 ?_
  · rw [loads_oneSegment]
    decide
  · rw [loads_oneSegment]
    decide

theorem loads_zero : loads (oneSegment 0 4 4) = .strays := by decide +kernel

/-- A file with a segment at address 0. -/
theorem exec_unsafe_zero :
    let _ := smallBuild .fifo
    ¬ SafeExec (smallKernel .fifo) (oneSegment 0 4 4) [] := by
  intro _
  exact not_safeExec small_caller (small_plenty .fifo) (by decide) loads_zero

end Xv6
