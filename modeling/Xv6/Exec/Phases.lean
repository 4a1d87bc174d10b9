import Xv6.Exec.Commit

/-!
# The two halves of `exec`

`loadFile` leaves a directory with the pages of the new image, whatever the file holds, or gives
up. `startImage` pushes the arguments and changes to the image, or gives up.
-/

namespace Xv6

open Lib

section

variable [Build] {E : String → Prop} {s s' : Kernel} {c d n m guard res sz : Nat} {L : List Nat}
  {img : Nat → Byte} {touch : Nat → Nat → K Unit} {f : ProgFile}

/-! ## Up to the first program header -/

/-- From the call of `exec` in `s` to `s'`: there is a directory `d`, and the swap state of the caller
is reset. -/
structure Begun (s : Kernel) (c d : Nat) (s' : Kernel) : Prop where
  lt : c < NPROC
  live : (s'.proc c).state.live = true
  excl : Exclusive (s'.dirs (s'.proc c).pgdir)
  ne : d ≠ (s'.proc c).pgdir
  steps : ∃ s1, Wired d s s1 ∧ Resets c s1 s'

/-- Loading does not concern the old directory. -/
structure Kept (s : Kernel) (c : Nat) : Prop where
  lt : c < NPROC
  live : (s.proc c).state.live = true
  excl : Exclusive (s.dirs (s.proc c).pgdir)

omit [Build] in
theorem Kept.builds {d : Nat} {L : List Nat} (h : Kept s c) (hne : (s.proc c).pgdir ≠ d) (hb : Builds c d L s s') :
    Kept s' c := by
  obtain ⟨a, m, k, x, y, hq⟩ := hb.self
  have hdir : (s'.proc c).pgdir = (s.proc c).pgdir := by rw [hq]; rfl
  refine ⟨h.lt, ?_, ?_⟩
  · rw [hq]
    exact h.live
  · rw [hdir, hb.dirs _ hne]
    exact h.excl

omit [Build] in
theorem Begun.kept {s1 : Kernel} (h : Begun s c d s1) (hb : Builds c d L s1 s') : Kept s' c :=
  Kept.builds ⟨h.lt, h.live, h.excl⟩ h.ne.symm hb

/-- To reason about `loadFile`, reason about the exits before the first program header and about
`loadPages` from the empty image. -/
theorem loadFile_rule {Q : Option NewImage → Kernel → Prop} (hc : Caller s c) (hres : res + 79 ≤ s.freelist.length ∨ res = 0)
    (hE : s.freelist.length < 80 → ∀ m, E m)
    (hbad : (∀ elf, readElfhdr f = some elf → elf.magic ≠ ELF_MAGIC) → Q none s)
    (hfull : ∀ s1, s.freelist.length < 65 → Q none s1)
    (hload : ∀ elf d s2, readElfhdr f = some elf → elf.magic = ELF_MAGIC → Begun s c d s2 →
      Image s2 c d 1 0 res s.freelist (fun _ => 0) → wp (loadPages touch d f elf) E (fun r s3 => match r with
        | none => wp (freevm d) E (fun _ => Q none) s3
        | some sz => Q (some ⟨elf.entry, c, d, sz⟩) s3) s2) :
    wp (loadFile touch f) E Q s := by
  unfold loadFile
  cases hh : readElfhdr f with
  | none => exact hbad fun elf he => by rw [hh] at he; cases he
  | some elf =>
    dsimp only
    by_cases hm : elf.magic ≠ ELF_MAGIC
    · rw [if_pos hm]
      exact hbad fun elf' he => by
        rw [hh] at he
        exact Option.some.inj he ▸ hm
    · rw [if_neg hm]
      refine wp_seq (wp_post (setupkvm_own hc.own) ?_)
      rintro (_ | d) s1 hres1
      · exact hfull s1 hres1.2.1
      · obtain ⟨hown1, hw, hdir, hzero, honly, hlen1⟩ := hres1
        have hr1 : Running s1 c := hw.toBeside.running hc.running
        have hlive : (s1.proc c).state.live = true := ProcState.live_of_active hr1.active
        have hcounted : counted s1 (Pend.none.withDir d).skip c = true := (counted_none hr1.lt).trans hlive
        have hold : s1.dirs (s1.proc c).pgdir = s.dirs (s.proc c).pgdir := by
          rw [hw.dirs _ (hown1.spare_ne hr1.lt hcounted), hw.proc]
        refine wp_seq (get_wp ?_)
        rw [hr1.cur]
        refine wp_seq (wp_post (resetSwap_own hr1 hown1 hcounted ?_ ?_ ?_ fun hlow => hE ?_) ?_)
        · rw [hold]
          exact hc.excl
        · intro hpid
          rw [hw.proc] at hpid
          rw [hold, hw.proc]
          exact hc.tables hpid
        · intro hpid
          rw [hw.proc] at hpid
          rw [hw.proc, hw.files]
          exact hc.file hpid
        · simp only [MAX_SWAP_PAGES] at hlow
          omega
        · rintro _ s2 ⟨hown2, hreset, hex, hfree, hlen2⟩
          have himage : Image s2 c d 1 0 res s.freelist fun _ => 0 := by
            refine Image.start hc hown1 hw hdir hzero honly hown2 hreset hfree ?_
            simp only [MAX_SWAP_PAGES] at hlen2
            omega
          have hpg : (s2.proc c).pgdir = (s1.proc c).pgdir := by rw [hreset.self]; rfl
          have hbegun : Begun s c d s2 := by
            refine ⟨hr1.lt, ?_, hpg ▸ hex, ?_, s1, hw, hreset⟩
            · rw [hreset.self]
              exact hlive
            · rw [hpg]
              exact (hown1.spare_ne hr1.lt hcounted).symm
          refine wp_seq (wp_post (hload elf d s2 hh (not_not.1 hm) hbegun himage) ?_)
          rintro (_ | sz) s3 h3
          · exact wp_seq h3
          · exact h3

/-! ## Loading a file whatever it holds -/

omit [Build] in
theorem Builds.mono {L' : List Nat} (h : Builds c d L s s') (hL : ∀ g ∈ L, g ∈ L') : Builds c d L' s s' :=
  { h with mem := fun g hg => hL g (h.mem g hg) }

/-- What becomes of a program file. -/
def loads (f : ProgFile) : Verdict :=
  match readElfhdr f with
  | none => .fails
  | some elf => if elf.magic ≠ ELF_MAGIC then .fails else scan f elf.phnum elf.phoff PGSIZE

/-- The file begins with an ELF header. -/
def HasHeader (f : ProgFile) : Prop := ∃ elf, readElfhdr f = some elf ∧ elf.magic = ELF_MAGIC

/-- The image that a program file describes. -/
def program (f : ProgFile) : Nat → Byte :=
  match readElfhdr f with
  | none => fun _ => 0
  | some elf => contents f elf.phnum elf.phoff fun _ => 0

/-- Free frames that are enough for `exec`: 65 for `setupkvm`, 15 for `restoreSwap`, and those of the
image with its page table. -/
abbrev PLENTY : Nat := 96

theorem Image.paged (h : Image s c d n guard res L img) {u : Nat} (hu : u < NUSER) :
    has ((s.dirs d).pte u) PTE_PG = false := by
  obtain ⟨-, -, g, -, -, hp⟩ | ⟨-, hp⟩ := h.entries u hu
  · rw [hp, (pageEntry_flags guard u g).2.1]
  · rw [hp, has_zero]

theorem Image.exclusive (h : Image s c d n guard res L img) : Exclusive (s.dirs d) := by
  intro u hu hg
  rw [h.paged hu] at hg
  cases hg

/-- `loadFile` does what `loads` says. -/
theorem loadFile_loads (hc : Caller s c) (hfree : PLENTY ≤ s.freelist.length) (hf : f.size ≤ MAXFILE * BSIZE)
    (ht : ∀ d, Permits touch E c d s.freelist) (hs : loads f ≠ .strays) (hb : loads f ≠ .big) :
    wp (loadFile touch f) E (fun r s' => match r with
      | none => loads f = .fails ∧ Own s' Pend.none ∧ (HasHeader f → (s'.proc c).vpaSwap = fun _ => 0)
      | some x => x.slot = c ∧ Kept s' c ∧ ∃ sz, loads f = .fits sz ∧ x.sz = (pages sz + 2) * PGSIZE ∧
        Image s' c x.dir (pages sz + 2) (pages sz) ENOUGH s.freelist (program f) ∧
        ∃ s2, Begun s c x.dir s2 ∧ Builds c x.dir s.freelist s2 s') s := by
  simp only [PLENTY] at hfree
  refine loadFile_rule hc (.inl (show ENOUGH + 79 ≤ _ from hfree)) (fun hlow => by omega) (fun hbad => ?_)
    (fun _ hlow => by omega) fun elf d s2 hh hm hbegun hi => ?_
  · refine ⟨?_, hc.own, fun ⟨elf, hh, hm⟩ => absurd hm (hbad elf hh)⟩
    unfold loads
    cases hh : readElfhdr f with
    | none => rfl
    | some elf => exact if_pos (hbad elf hh)
  · have hverdict : loads f = scan f elf.phnum elf.phoff PGSIZE := by
      unfold loads
      rw [hh]
      exact if_neg (not_not.2 hm)
    have hprogram : program f = contents f elf.phnum elf.phoff fun _ => 0 := by
      unfold program
      rw [hh]
    have h1 : pages PGSIZE = 1 := by decide
    rw [hverdict] at hs hb ⊢
    rw [hprogram]
    unfold loadPages
    refine wp_seq (wp_post (loadProgram_scan (ht d) (.inl le_rfl) hf elf.phnum elf.phoff PGSIZE _ s2
      (by rw [h1]; exact hi) le_rfl (by decide) (by decide) hs hb) ?_)
    rintro r s3 (⟨hv, -, hhi, hroom, hb3, hi3⟩ | ⟨hv, hb3, hi3⟩ | hlow)
    · refine wp_post (hi3.allocStack (.inl le_rfl) hhi hroom) ?_
      rintro r s4 (⟨rfl, hi4, hb4⟩ | ⟨-, hlow⟩)
      · exact ⟨rfl, hbegun.kept (hb3.trans hb4), _, hv, rfl, hi4, s2, hbegun, hb3.trans hb4⟩
      · exact absurd hlow (Nat.lt_irrefl _)
    · change wp (freevm d) E (fun _ => _) s3
      refine wp_post (freevm_own hi3.own hi3.exclusive) ?_
      rintro _ s4 ⟨hown, hfree⟩
      exact ⟨hv, hown, fun _ => by rw [hfree.proc]; exact hi3.slots⟩
    · exact absurd hlow (Nat.lt_irrefl _)

/-! ## The second half -/

/-- The caller `c` runs the image in directory `d` with the arguments `argv`: they are in the last
page, and below it the image is as it was in `s`. -/
structure Started (s : Kernel) (c d top : Nat) (argv : List (List Byte)) (esp : Nat) (s' : Kernel) : Prop where
  pgdir : (s'.proc c).pgdir = d
  sz : (s'.proc c).sz = top
  stack : ∃ m, (∀ a, top - PGSIZE ≤ a → a < top → userByte s' d a = some (m a)) ∧
    Stacked m (top - PGSIZE) top esp argv
  image : ∀ a < top - PGSIZE, userByte s' d a = userByte s d a

/-- `startImage` gives up exactly when the arguments do not fit in a page. -/
theorem Image.startImage {argv : List (List Byte)} (h : Image s c d (n + 2) n res L img) (hk : Kept s c)
    (hargc : argv.length ≤ MAXARG) (hlen : ∀ arg ∈ argv, arg.length + 1 ≤ MAXSTR) (entry : Word) :
    wp (startImage ⟨entry, c, d, (n + 2) * PGSIZE⟩ argv) E (fun r s' => Own s' Pend.none ∧
      if argRoom argv ≤ PGSIZE then
        r = some ⟨entry, (n + 2) * PGSIZE - argRoom argv⟩ ∧
          Started s c d ((n + 2) * PGSIZE) argv ((n + 2) * PGSIZE - argRoom argv) s' ∧
          ∃ img' s1, Image s1 c d (n + 2) n res L img' ∧ Builds c d L s s1 ∧ Commits c d ((n + 2) * PGSIZE) s1 s' ∧
            (∀ a < (n + 1) * PGSIZE, img' a = img a) ∧
            Stacked img' ((n + 1) * PGSIZE) ((n + 2) * PGSIZE) ((n + 2) * PGSIZE - argRoom argv) argv
      else r = none ∧ (s'.proc c).vpaSwap = fun _ => 0) s := by
  have hlow : (n + 2) * PGSIZE - PGSIZE = (n + 1) * PGSIZE := by
    rw [show n + 2 = n + 1 + 1 from rfl, Nat.succ_mul, Nat.add_sub_cancel]
  have hword : (n + 2) * PGSIZE ≤ 2 ^ 32 := by
    have hcount := h.size
    have htab := h.agree.table.size
    simp only [MAX_PSYC_PAGES, PGSIZE] at *
    omega
  unfold Xv6.startImage
  refine wp_seq (wp_post (h.buildStack hargc hlen) ?_)
  rintro r s1 ⟨hb1, hres⟩
  by_cases hfit : argRoom argv ≤ PGSIZE
  · rw [if_pos hfit] at hres
    obtain ⟨img1, rfl, h1, hstack, hsame⟩ := hres
    obtain ⟨hlt, hlive1, hex1⟩ := hk.builds (h.own.spare_ne hk.lt ((counted_none hk.lt).trans hk.live)) hb1
    refine wp_seq (wp_post (h1.commit hlt hlive1 hex1 _) ?_)
    rintro _ s2 ⟨hown, hcom⟩
    refine ⟨hown, ?_⟩
    rw [if_pos hfit]
    have hself : s2.proc c = { s1.proc c with pgdir := d, sz := (n + 2) * PGSIZE } := by
      rw [hcom.proc]
      exact Function.update_self _ _ _
    refine ⟨rfl, ⟨by rw [hself], by rw [hself], ⟨img1, fun a hlo hhi => ?_, ?_⟩, fun a ha => ?_⟩,
      img1, s1, h1, hb1, hcom, hsame, hstack⟩
    · rw [hlow] at hlo
      have hpage : a / PGSIZE = n + 1 := by
        simp only [PGSIZE] at *
        omega
      rw [hcom.userByte h1 hlt hlive1 (hhi.trans_le hword), h1.userByte hhi, hpage,
        if_pos ⟨by omega, by omega, by omega⟩]
    · rw [hlow]
      exact hstack
    · rw [hlow] at ha
      have hhi : a < (n + 2) * PGSIZE := ha.trans_le (Nat.mul_le_mul_right _ (by omega))
      rw [hcom.userByte h1 hlt hlive1 (hhi.trans_le hword), h1.userByte hhi, h.userByte hhi, hsame a ha]
  · rw [if_neg hfit] at hres
    obtain ⟨rfl, img1, h1⟩ := hres
    refine wp_seq (wp_post (freevm_own h1.own h1.exclusive) ?_)
    rintro _ s2 ⟨hown, hfree⟩
    refine ⟨hown, ?_⟩
    rw [if_neg hfit, hfree.proc]
    exact ⟨rfl, h1.slots⟩

end

end Xv6
