import Xv6.Exec.Load

/-!
# What the program headers do

`scan` follows the loop of `exec` over the program headers with nothing but the contents of the
file: which sizes the image goes through, where the loop gives up, and whether a segment is loaded
below the first page (`strays`) or the image gets more pages than the tables hold without eviction
(`big`). `contents` is the image that the segments make. `loadProgram_scan` says that the loop does
what `scan` says.
-/

namespace Xv6

open Lib

/-- How the loop over the program headers ends. -/
inductive Verdict where
  /-- With an image of this size. -/
  | fits (sz : Nat)
  /-- With `goto bad`. -/
  | fails
  /-- With a segment that starts in page 0, which is never mapped. -/
  | strays
  /-- With more than `MAX_PSYC_PAGES` pages, those of the stack included. -/
  | big
  deriving DecidableEq

/-- The largest image, in pages from page 0 on, that leaves room for the two pages of the stack. -/
abbrev ROOM : Nat := MAX_PSYC_PAGES - 1

def Proghdr.top (ph : Proghdr) : Nat := (ph.vaddr + ph.memsz) % 2 ^ 32

/-- A loadable segment of `f` on top of an image of `sz` bytes. -/
def segment (f : ProgFile) (ph : Proghdr) (sz : Nat) : Verdict :=
  if ph.memsz < ph.filesz then .fails
  else if ph.top < ph.vaddr then .fails
  else if KERNBASE ≤ ph.top then .fails
  else if ROOM < pages (max sz ph.top) then .big
  else if ph.vaddr % PGSIZE ≠ 0 then .fails
  else if ph.filesz = 0 then .fits (max sz ph.top)
  else if ph.vaddr = 0 then
    if PGSIZE < max sz ph.top ∧ f.size ≤ ph.off then .fails else .strays
  else if ph.off + ph.filesz ≤ f.size then .fits (max sz ph.top)
  else .fails

/-- The loop with `n` headers left, the next at `off`. -/
def scan (f : ProgFile) : Nat → Word → Nat → Verdict
  | 0, _, sz => .fits sz
  | n + 1, off, sz =>
    match readProghdr f off.toNat with
    | none => .fails
    | some ph =>
      if ph.type ≠ ELF_PROG_LOAD then scan f n (off + 32) sz
      else match segment f ph sz with
        | .fits sz => scan f n (off + 32) sz
        | v => v

/-- The segment of `ph` over the image `img`. -/
def Proghdr.over (ph : Proghdr) (f : ProgFile) (img : Nat → Byte) : Nat → Byte :=
  overwrite img ph.vaddr ph.filesz fun k => f.data (ph.off + k)

/-- The loadable segments, in the order of their headers, over the image `img`. -/
def contents (f : ProgFile) : Nat → Word → (Nat → Byte) → Nat → Byte
  | 0, _, img => img
  | n + 1, off, img =>
    match readProghdr f off.toNat with
    | none => img
    | some ph =>
      if ph.type ≠ ELF_PROG_LOAD then contents f n (off + 32) img
      else contents f n (off + 32) (ph.over f img)

theorem readProghdr_lt {f : ProgFile} {off : Nat} {ph : Proghdr} (h : readProghdr f off = some ph) :
    ph.off < 2 ^ 32 ∧ ph.vaddr < 2 ^ 32 ∧ ph.filesz < 2 ^ 32 ∧ ph.memsz < 2 ^ 32 := by
  unfold readProghdr at h
  split at h
  · obtain rfl := Option.some.inj h
    exact ⟨BitVec.isLt _, BitVec.isLt _, BitVec.isLt _, BitVec.isLt _⟩
  · cases h

/-- A segment whose end does not wrap ends where its header says. -/
theorem Proghdr.top_eq {ph : Proghdr} (hv : ph.vaddr < 2 ^ 32) (hm : ph.memsz < 2 ^ 32)
    (h : ¬ ph.top < ph.vaddr) : ph.top = ph.vaddr + ph.memsz := by
  unfold top at *
  omega

section

variable [Build] {E : String → Prop} {s : Kernel} {c d n res : Nat} {L : List Nat} {img : Nat → Byte}
  {touch : Nat → Nat → K Unit} {f : ProgFile}

/-! ## One segment -/

/-- `readi` into page `u`: all bytes, or not as many as were asked for. -/
theorem readFrame_image {u off k : Nat} (h : Image s c d n 0 res L img) (ht : Permits touch E c d L)
    (hlo : 1 ≤ u) (hlt : u < n) (hk : 0 < k) (hkp : k ≤ PGSIZE) (hsz : f.size ≤ MAXFILE * BSIZE) :
    wp (readFrame (touch d) f (pageNo ((s.dirs d).pte u)) off k) E (fun ok s' => Builds c d L s s' ∧
      if off + k ≤ f.size then
        ok = true ∧ Image s' c d n 0 res L (overwrite img (u * PGSIZE) k fun j => f.data (off + j))
      else ok = false ∧ ∃ img', Image s' c d n 0 res L img') s := by
  have hfill : ∀ r, r + 1 ≤ k → _ := fun r hr =>
    h.fill (o := 0) (k := r + 1) hlo hlt (by rw [Nat.zero_add]; exact hr.trans hkp)
      fun j => f.data (off + j)
  have htouch := ht s n 0 res img u h hlo hlt
  generalize pageNo ((s.dirs d).pte u) = g at hfill htouch ⊢
  have hwrite : ∀ r, r + 1 ≤ k → wp (do
      touch d g
      modify fun s => s.setMem g fun j => if j < r + 1 then f.data (off + j) else s.mem g j
      pure (decide (r + 1 = k)) : K Bool) E (fun ok s' => Builds c d L s s' ∧ ok = decide (r + 1 = k) ∧
        Image s' c d n 0 res L (overwrite img (u * PGSIZE) (r + 1) fun j => f.data (off + j))) s := by
    intro r hr
    refine wp_seq (wp_post htouch ?_)
    rintro _ t hts
    have heq : (fun j => if j < r + 1 then f.data (off + j) else s.mem g j) =
        overwrite (s.mem g) 0 (r + 1) fun j => f.data (off + j) := by
      funext j
      unfold overwrite
      rw [Nat.zero_add, Nat.sub_zero]
      exact if_congr (by omega) rfl rfl
    refine wp_seq (modify_wp ?_)
    obtain ⟨himg, hb⟩ := hfill r hr
    rw [Nat.add_zero (u * PGSIZE)] at himg
    rw [hts, heq]
    exact ⟨hb, rfl, himg⟩
  simp only [MAXFILE, BSIZE] at hsz
  simp only [PGSIZE] at hkp
  unfold readFrame
  by_cases hfit : off + k ≤ f.size
  · have hread : f.readi off k = some k := by
      unfold SwapFile.readi
      rw [if_neg (by omega), if_neg (by omega)]
    obtain ⟨r, rfl⟩ : ∃ r, k = r + 1 := ⟨k - 1, by omega⟩
    rw [hread]
    refine wp_post (hwrite r le_rfl) ?_
    rintro ok s' ⟨hb, rfl, hi⟩
    rw [if_pos hfit]
    exact ⟨hb, decide_eq_true rfl, hi⟩
  · simp only [if_neg hfit]
    unfold SwapFile.readi
    by_cases hout : f.size < off ∨ 2 ^ 32 ≤ off + k
    · rw [if_pos hout]
      exact ⟨.refl c d L s, rfl, img, h⟩
    · rw [if_neg hout, if_pos (by omega)]
      cases hr : f.size - off with
      | zero => exact ⟨.refl c d L s, decide_eq_false (by omega), img, h⟩
      | succ r =>
        refine wp_post (hwrite r (by omega)) ?_
        rintro ok s' ⟨hb, rfl, hi⟩
        exact ⟨hb, decide_eq_false (by omega), _, hi⟩

/-- The loop of `loaduvm` after `j` pages, where all pages of the segment are mapped. -/
theorem loadLoop_image {v off sz : Nat} (ht : Permits touch E c d L) (hsz : f.size ≤ MAXFILE * BSIZE)
    (hv : 1 ≤ v) (hoff : off < 2 ^ 32) (hpos : 0 < sz) (k : Nat) :
    ∀ (j : Nat) (s : Kernel), j + k = pages sz → v + pages sz ≤ n → (0 < j → off + min sz (j * PGSIZE) ≤ f.size) →
      Image s c d n 0 res L
        (overwrite img (v * PGSIZE) (min sz (j * PGSIZE)) fun i => f.data (off + i)) →
      wp (loadLoop touch d (v * PGSIZE) f off sz k (j * PGSIZE)) E (fun r s' => Builds c d L s s' ∧
        if off + sz ≤ f.size then
          r = 0 ∧ Image s' c d n 0 res L (overwrite img (v * PGSIZE) sz fun i => f.data (off + i))
        else r = -1 ∧ ∃ img', Image s' c d n 0 res L img') s := by
  induction k with
  | zero =>
    intro j s hj _ hdone h
    have hmin : min sz (j * PGSIZE) = sz := by
      have : ¬ j < pages sz := by omega
      rw [lt_pages] at this
      omega
    have hjpos : 0 < j := by
      have := (lt_pages (u := 0)).2 (show 0 * PGSIZE < sz by omega)
      omega
    rw [hmin] at hdone h
    refine ⟨.refl c d L s, ?_⟩
    rw [if_pos (hdone hjpos)]
    exact ⟨rfl, h⟩
  | succ k ih =>
    intro j s hj hn hdone h
    have hlt : j * PGSIZE < sz := lt_pages.1 (by omega)
    have hmin : min sz (j * PGSIZE) = j * PGSIZE := Nat.min_eq_right hlt.le
    rw [hmin] at hdone h
    have hun : v + j < NUSER := h.lt_user (by omega)
    have haddr : (v * PGSIZE + j * PGSIZE) % 2 ^ 32 = (v + j) * PGSIZE := by
      rw [← Nat.add_mul]
      exact Nat.mod_eq_of_lt (page_lt_word hun)
    have hoff' : (off + j * PGSIZE) % 2 ^ 32 = off + j * PGSIZE := by
      refine Nat.mod_eq_of_lt ?_
      simp only [MAXFILE, BSIZE] at hsz
      rcases Nat.eq_zero_or_pos j with rfl | hjpos
      · rw [Nat.zero_mul]
        exact hoff
      · have := hdone hjpos
        omega
    have hdiv : (v + j) * PGSIZE / PGSIZE = v + j := Nat.mul_div_cancel _ (by decide)
    have htab : (s.dirs d).hasTable (v + j) = true :=
      PageDir.hasTable_of_has (by rw [h.present hun, decide_eq_true ⟨by omega, by omega⟩])
    obtain ⟨n1, hn1, hn1pos, hn1le, hnext⟩ : ∃ n1, n1 = (if sz - j * PGSIZE < PGSIZE then sz - j * PGSIZE
        else PGSIZE) ∧ 0 < n1 ∧ n1 ≤ PGSIZE ∧ j * PGSIZE + n1 = min sz ((j + 1) * PGSIZE) := by
      refine ⟨_, rfl, ?_⟩
      rw [Nat.succ_mul]
      split <;> simp only [PGSIZE] at * <;> omega
    rw [loadLoop, haddr]
    refine wp_seq (walkpgdir_found (page_lt_word hun) (by rwa [hdiv]) ?_)
    rw [hdiv]
    refine wp_seq (loadPte_wp htab ?_)
    dsimp only
    rw [← hn1, hoff']
    refine wp_seq (wp_post (readFrame_image h ht (by omega) (by omega) hn1pos hn1le hsz) ?_)
    rintro ok s1 ⟨hb1, hres⟩
    split at hres
    · next hfit =>
      obtain ⟨rfl, h1⟩ := hres
      have hjoin : overwrite (overwrite img (v * PGSIZE) (j * PGSIZE) fun i => f.data (off + i))
          ((v + j) * PGSIZE) n1 (fun i => f.data (off + j * PGSIZE + i)) =
          overwrite img (v * PGSIZE) (min sz ((j + 1) * PGSIZE)) fun i => f.data (off + i) := by
        rw [← hnext, ← overwrite_append, Nat.add_mul]
        simp only [Nat.add_assoc]
      rw [hjoin] at h1
      rw [if_pos rfl, ← Nat.succ_mul]
      refine wp_post (ih (j + 1) s1 (by omega) hn (fun _ => by omega) h1) ?_
      rintro r s2 ⟨hb2, hres⟩
      exact ⟨hb1.trans hb2, hres⟩
    · next hfit =>
      obtain ⟨rfl, h1⟩ := hres
      rw [if_neg Bool.false_ne_true]
      refine ⟨hb1, ?_⟩
      rw [if_neg (by omega)]
      exact ⟨rfl, h1⟩

theorem loaduvm_image {v off sz : Nat} (h : Image s c d n 0 res L img) (ht : Permits touch E c d L)
    (hf : f.size ≤ MAXFILE * BSIZE) (hv : 1 ≤ v) (hoff : off < 2 ^ 32) (hpos : 0 < sz)
    (hn : v + pages sz ≤ n) :
    wp (loaduvm touch d (v * PGSIZE) f off sz) E (fun r s' => Builds c d L s s' ∧
      if off + sz ≤ f.size then
        r = 0 ∧ Image s' c d n 0 res L (overwrite img (v * PGSIZE) sz fun i => f.data (off + i))
      else r = -1 ∧ ∃ img', Image s' c d n 0 res L img') s := by
  unfold loaduvm
  rw [if_neg (by rw [Nat.mul_mod_left]; decide)]
  have h0 : Image s c d n 0 res L (overwrite img (v * PGSIZE) (min sz (0 * PGSIZE)) fun i => f.data (off + i)) := by
    rw [Nat.zero_mul, Nat.min_zero, overwrite_none]
    exact h
  have hloop := loadLoop_image ht hf hv hoff hpos (pages sz) 0 s (Nat.zero_add _) hn
    (fun h => absurd h (Nat.lt_irrefl 0)) h0
  rwa [Nat.zero_mul] at hloop

/-- A segment at address 0 on an image with pages: the entry of page 0 is read as frame 0. -/
theorem loaduvm_low {off sz : Nat} {Q : Int → Kernel → Prop} (h : Image s c d n 0 res L img) (hn : 1 < n)
    (hoff : off < 2 ^ 32) (hpos : 0 < sz)
    (hQ : wp (readFrame (touch d) f 0 off (if sz < PGSIZE then sz else PGSIZE)) E (fun ok s' =>
      wp (if ok then loadLoop touch d 0 f off sz (pages sz - 1) PGSIZE else pure (-1)) E Q s') s) :
    wp (loaduvm touch d 0 f off sz) E Q s := by
  have hpte : (s.dirs d).pte 0 = 0 := h.absent (by decide) (by omega)
  obtain ⟨k, hk⟩ : ∃ k, pages sz = k + 1 := by
    have := (lt_pages (u := 0)).2 (show 0 * PGSIZE < sz by omega)
    exact ⟨pages sz - 1, by omega⟩
  unfold loaduvm
  rw [if_neg (by decide), show (sz + PGSIZE - 1) / PGSIZE = k + 1 from hk, loadLoop]
  refine wp_seq (walkpgdir_found (by decide) ?_ (wp_seq (loadPte_wp ?_ ?_)))
  · rw [show (0 + 0) % 2 ^ 32 / PGSIZE = 0 by decide, h.low, decide_eq_true hn]
  · rw [show (0 + 0) % 2 ^ 32 / PGSIZE = 0 by decide, h.low, decide_eq_true hn]
  · rw [show (0 + 0) % 2 ^ 32 / PGSIZE = 0 by decide, hpte, show pageNo 0 = 0 by decide, Nat.add_zero,
      Nat.mod_eq_of_lt hoff, Nat.sub_zero, Nat.zero_add]
    rw [hk, Nat.add_sub_cancel] at hQ
    exact wp_seq hQ

/-! ## The segments -/

/-- Loading from `s` ended with verdict `v`: with the image `img`, with some image that is to be
thrown away, or for lack of frames. -/
inductive LoadEnds (c d res : Nat) (L : List Nat) (s : Kernel) (v : Verdict) (img : Nat → Byte) :
    Option Nat → Kernel → Prop
  | fits {m : Nat} {s' : Kernel} (verdict : v = .fits m) (lo : PGSIZE ≤ m) (hi : m < KERNBASE)
      (room : pages m ≤ ROOM) (builds : Builds c d L s s')
      (image : Image s' c d (pages m) 0 res L img) : LoadEnds c d res L s v img (some m) s'
  | fails {n : Nat} {img' : Nat → Byte} {s' : Kernel} (verdict : v = .fails) (builds : Builds c d L s s')
      (image : Image s' c d n 0 res L img') : LoadEnds c d res L s v img none s'
  | short {s' : Kernel} (low : res < ENOUGH) : LoadEnds c d res L s v img none s'

/-- What a loadable segment does to the image, as `segment` says. -/
theorem loadSegment_image {ph : Proghdr} {sz off : Nat} (h : Image s c d (pages sz) 0 res L img)
    (ht : Permits touch E c d L) (hE : ENOUGH ≤ res ∨ ∀ m, E m) (hf : f.size ≤ MAXFILE * BSIZE)
    (hlo : PGSIZE ≤ sz) (hsz : sz < KERNBASE) (hph : readProghdr f off = some ph) (hs : segment f ph sz ≠ .strays) (hb : segment f ph sz ≠ .big) :
    wp (loadSegment touch d f ph sz) E (LoadEnds c d res L s (segment f ph sz) (ph.over f img)) s := by
  obtain ⟨hoff, hva, hfs, hms⟩ := readProghdr_lt hph
  -- the tests of `loadSegment` and of `segment` are the same, in the same order
  unfold segment at hs hb ⊢
  unfold loadSegment
  by_cases h1 : ph.memsz < ph.filesz
  · rw [if_pos h1, if_pos h1]
    exact .fails rfl (.refl c d L s) h
  rw [if_neg h1] at hs hb
  rw [if_neg h1, if_neg h1, show (ph.vaddr + ph.memsz) % 2 ^ 32 = ph.top from rfl]
  by_cases h2 : ph.top < ph.vaddr
  · rw [if_pos h2, if_pos h2]
    exact .fails rfl (.refl c d L s) h
  rw [if_neg h2] at hs hb
  rw [if_neg h2, if_neg h2]
  have htop := Proghdr.top_eq hva hms h2
  by_cases h3 : KERNBASE ≤ ph.top
  · unfold allocuvm
    rw [if_pos h3, if_pos h3]
    exact .fails rfl (.refl c d L s) h
  rw [if_neg h3] at hs hb
  rw [if_neg h3]
  have h4 : ¬ ROOM < pages (max sz ph.top) := fun h4 => hb (if_pos h4)
  rw [if_neg h4] at hs hb
  rw [if_neg h4]
  refine wp_seq (wp_post (h.allocuvm hE hsz (by omega) ((Nat.not_lt.1 h4).trans (by decide))) ?_)
  rintro r s1 (⟨rfl, hi1, hb1⟩ | ⟨rfl, hlow⟩)
  swap
  · rw [if_pos rfl]
    exact .short hlow
  rw [if_neg (show max sz ph.top ≠ 0 by simp only [PGSIZE] at hlo; omega)]
  by_cases h5 : ph.vaddr % PGSIZE ≠ 0
  · rw [if_pos h5, if_pos h5]
    exact .fails rfl hb1 hi1
  rw [if_neg h5] at hs hb
  rw [if_neg h5, if_neg h5]
  have hfits : ∀ {s' : Kernel}, Builds c d L s s' →
      Image s' c d (pages (max sz ph.top)) 0 res L (ph.over f img) →
      LoadEnds c d res L s (.fits (max sz ph.top)) (ph.over f img) (some (max sz ph.top)) s' := fun hb' h' =>
    .fits rfl (by omega) (by omega) (by omega) hb' h'
  by_cases h6 : ph.filesz = 0
  · have hover : ph.over f img = img := by
      unfold Proghdr.over
      rw [h6, overwrite_none]
    rw [if_pos h6]
    unfold loaduvm
    rw [if_neg h5, h6]
    exact hfits hb1 (by rw [hover]; exact hi1)
  rw [if_neg h6] at hs hb
  rw [if_neg h6]
  have hpos : 0 < ph.filesz := Nat.pos_of_ne_zero h6
  by_cases h7 : ph.vaddr = 0
  · -- page 0 is read as frame 0, but the file ends before the segment
    rw [if_pos h7] at hs
    have h8 : PGSIZE < max sz ph.top ∧ f.size ≤ ph.off := by
      by_contra h8
      exact hs (if_neg h8)
    rw [if_pos h7, if_pos h8, h7]
    refine wp_seq (loaduvm_low hi1 (lt_pages.2 (by rw [Nat.one_mul]; exact h8.1)) hoff hpos ?_)
    have hn1 : 0 < if ph.filesz < PGSIZE then ph.filesz else PGSIZE := by
      split
      · exact hpos
      · decide
    generalize (if ph.filesz < PGSIZE then ph.filesz else PGSIZE) = n1 at hn1
    have hread : wp (readFrame (touch d) f 0 ph.off n1) E (fun ok s' => ok = false ∧ s' = s1) s1 := by
      unfold readFrame SwapFile.readi
      by_cases hout : f.size < ph.off ∨ 2 ^ 32 ≤ ph.off + n1
      · rw [if_pos hout]
        exact ⟨rfl, rfl⟩
      · rw [if_neg hout, if_pos (by omega), show f.size - ph.off = 0 by omega]
        exact ⟨decide_eq_false hn1.ne, rfl⟩
    refine wp_post hread ?_
    rintro _ _ ⟨rfl, rfl⟩
    exact .fails rfl hb1 hi1
  rw [if_neg h7] at hs hb
  rw [if_neg h7]
  obtain ⟨v, hv⟩ : ∃ v, ph.vaddr = v * PGSIZE :=
    ⟨ph.vaddr / PGSIZE, by simp only [PGSIZE] at *; omega⟩
  have hvpos : 1 ≤ v := by
    rcases Nat.eq_zero_or_pos v with rfl | hp
    · exact absurd (by rw [hv, Nat.zero_mul]) h7
    · exact hp
  have hroom : v + pages ph.filesz ≤ pages (max sz ph.top) := by
    have hle : v * PGSIZE + ph.filesz ≤ max sz ph.top := by omega
    have := pages_mono hle
    unfold pages at this ⊢
    simp only [PGSIZE] at this ⊢
    omega
  rw [hv]
  refine wp_seq (wp_post (loaduvm_image hi1 ht hf hvpos hoff hpos hroom) ?_)
  rintro r s2 ⟨hb2, hres⟩
  by_cases h9 : ph.off + ph.filesz ≤ f.size
  · rw [if_pos h9] at hres ⊢
    obtain ⟨rfl, hi2⟩ := hres
    rw [if_neg (by decide)]
    refine hfits (hb1.trans hb2) ?_
    unfold Proghdr.over
    rw [hv]
    exact hi2
  · rw [if_neg h9] at hres ⊢
    obtain ⟨rfl, img', hi2⟩ := hres
    rw [if_pos (by decide)]
    exact .fails rfl (hb1.trans hb2) hi2

/-- The loop over the program headers does what `scan` says. -/
theorem loadProgram_scan (ht : Permits touch E c d L) (hE : ENOUGH ≤ res ∨ ∀ m, E m)
    (hf : f.size ≤ MAXFILE * BSIZE) (n : Nat) :
    ∀ (off : Word) (sz : Nat) (img : Nat → Byte) (s : Kernel), Image s c d (pages sz) 0 res L img →
      PGSIZE ≤ sz → sz < KERNBASE → pages sz ≤ ROOM → scan f n off sz ≠ .strays → scan f n off sz ≠ .big →
      wp (loadProgram touch d f n off sz) E
        (LoadEnds c d res L s (scan f n off sz) (contents f n off img)) s := by
  induction n with
  | zero =>
    intro off sz img s h hlo hhi hroom _ _
    exact .fits rfl hlo hhi hroom (.refl c d L s) h
  | succ n ih =>
    intro off sz img s h hlo hhi hroom hs hb
    rw [loadProgram]
    rw [scan] at hs hb ⊢
    rw [contents]
    cases hph : readProghdr f off.toNat with
    | none => exact .fails rfl (.refl c d L s) h
    | some ph =>
      rw [hph] at hs hb
      dsimp only at hs hb ⊢
      by_cases hty : ph.type ≠ ELF_PROG_LOAD
      · rw [if_pos hty] at hs hb ⊢
        rw [if_pos hty, if_pos hty]
        exact ih (off + 32) sz img s h hlo hhi hroom hs hb
      · rw [if_neg hty] at hs hb ⊢
        rw [if_neg hty, if_neg hty]
        refine wp_seq (wp_post (loadSegment_image h ht hE hf hlo hhi hph (fun he => ?_) fun he => ?_) ?_)
        · rw [he] at hs
          exact hs rfl
        · rw [he] at hb
          exact hb rfl
        · rintro r s1 (⟨hv, hlo1, hhi1, hroom1, hb1, hi1⟩ | ⟨hv, hb1, hi1⟩ | hlow)
          · rw [hv] at hs hb ⊢
            refine wp_post (ih (off + 32) _ _ s1 hi1 hlo1 hhi1 hroom1 hs hb) ?_
            rintro r s2 (⟨hv2, h1, h2, h3, hb2, hi2⟩ | ⟨hv2, hb2, hi2⟩ | hlow)
            · exact .fits hv2 h1 h2 h3 (hb1.trans hb2) hi2
            · exact .fails hv2 (hb1.trans hb2) hi2
            · exact .short hlow
          · rw [hv]
            exact .fails rfl hb1 hi1
          · exact .short hlow

/-! ## Stray segments -/

/-- `touch` stops the machine at a write into frame 0. -/
def Watches (touch : Nat → Nat → K Unit) (c d : Nat) (L : List Nat) : Prop :=
  ∀ t n res img, Image t c d n 0 res L img → wp (touch d 0) Anyway (fun _ _ => False) t

theorem loadSegment_strays {ph : Proghdr} {sz off : Nat} (h : Image s c d (pages sz) 0 res L img)
    (ht : Watches touch c d L) (hres : ENOUGH ≤ res) (hf : f.size ≤ MAXFILE * BSIZE) (hlo : PGSIZE ≤ sz)
    (hsz : sz < KERNBASE) (hph : readProghdr f off = some ph) (hs : segment f ph sz = .strays) :
    wp (loadSegment touch d f ph sz) Anyway (fun _ _ => False) s := by
  obtain ⟨hoff, hva, hfs, hms⟩ := readProghdr_lt hph
  unfold segment at hs
  split at hs
  · cases hs
  next h1 =>
  split at hs
  · cases hs
  next h2 =>
  split at hs
  · cases hs
  next h3 =>
  split at hs
  · cases hs
  next h4 =>
  split at hs
  · cases hs
  next h5 =>
  split at hs
  · cases hs
  next h6 =>
  split at hs
  swap
  · split at hs <;> cases hs
  next h7 =>
  split at hs
  · cases hs
  next h8 =>
  unfold loadSegment
  rw [if_neg h1, show (ph.vaddr + ph.memsz) % 2 ^ 32 = ph.top from rfl, if_neg h2]
  refine wp_seq (wp_post (h.allocuvm (.inl hres) hsz (by omega) ((Nat.not_lt.1 h4).trans (by decide))) ?_)
  rintro r s1 (⟨rfl, hi1, -⟩ | ⟨-, hlow⟩)
  swap
  · exact absurd hres (Nat.not_le.2 hlow)
  rw [if_neg (show max sz ph.top ≠ 0 by simp only [PGSIZE] at hlo; omega), if_neg h5, h7]
  have hpos : 0 < ph.filesz := Nat.pos_of_ne_zero h6
  by_cases hone : 1 < pages (max sz ph.top)
  · -- there is a page table, and the entry of page 0 names frame 0
    have h9 : ph.off < f.size := by
      by_contra h9
      exact h8 ⟨by rw [lt_pages, Nat.one_mul] at hone; exact hone, by omega⟩
    refine wp_seq (loaduvm_low hi1 hone hoff hpos ?_)
    have hn1 : 0 < (if ph.filesz < PGSIZE then ph.filesz else PGSIZE) ∧
        (if ph.filesz < PGSIZE then ph.filesz else PGSIZE) ≤ PGSIZE := by
      split
      · exact ⟨hpos, by omega⟩
      · exact ⟨by decide, le_rfl⟩
    generalize (if ph.filesz < PGSIZE then ph.filesz else PGSIZE) = n1 at hn1
    simp only [MAXFILE, BSIZE] at hf
    simp only [PGSIZE] at hn1
    obtain ⟨k, hk⟩ : ∃ k, (if f.size < ph.off + n1 then f.size - ph.off else n1) = k + 1 := by
      split
      · exact ⟨f.size - ph.off - 1, by omega⟩
      · exact ⟨n1 - 1, by omega⟩
    unfold readFrame SwapFile.readi
    rw [if_neg (by omega), hk]
    exact wp_seq (wp_post (ht s1 _ _ _ hi1) fun _ _ hfalse => hfalse.elim)
  · unfold loaduvm
    obtain ⟨k, hk⟩ : ∃ k, pages ph.filesz = k + 1 := by
      have := (lt_pages (u := 0)).2 (show 0 * PGSIZE < ph.filesz by omega)
      exact ⟨pages ph.filesz - 1, by omega⟩
    rw [if_neg (by decide), show (ph.filesz + PGSIZE - 1) / PGSIZE = k + 1 from hk, loadLoop]
    refine wp_seq (wp_seq (walkpgdir_missing (by decide) ?_ trivial))
    rw [show (0 + 0) % 2 ^ 32 / PGSIZE = 0 by decide, hi1.low, decide_eq_false hone]

/-- A loop that strays stops the machine when `touch` watches. -/
theorem loadProgram_strays (hp : Permits touch Anyway c d L) (ht : Watches touch c d L) (hres : ENOUGH ≤ res)
    (hf : f.size ≤ MAXFILE * BSIZE) (n : Nat) :
    ∀ (off : Word) (sz : Nat) (img : Nat → Byte) (s : Kernel), Image s c d (pages sz) 0 res L img →
      PGSIZE ≤ sz → sz < KERNBASE → scan f n off sz = .strays →
      wp (loadProgram touch d f n off sz) Anyway (fun _ _ => False) s := by
  induction n with
  | zero =>
    intro off sz img s _ _ _ hs
    cases hs
  | succ n ih =>
    intro off sz img s h hlo hhi hs
    rw [loadProgram]
    rw [scan] at hs
    cases hph : readProghdr f off.toNat with
    | none =>
      rw [hph] at hs
      cases hs
    | some ph =>
      rw [hph] at hs
      dsimp only at hs ⊢
      by_cases hty : ph.type ≠ ELF_PROG_LOAD
      · rw [if_pos hty] at hs
        rw [if_pos hty]
        exact ih (off + 32) sz img s h hlo hhi hs
      · rw [if_neg hty] at hs
        rw [if_neg hty]
        by_cases hseg : segment f ph sz = .strays
        · exact wp_seq (wp_post (loadSegment_strays h ht hres hf hlo hhi hph hseg) fun _ _ hfalse => hfalse.elim)
        · have hnotbig : segment f ph sz ≠ .big := fun he => by
            rw [he] at hs
            cases hs
          refine wp_seq (wp_post (loadSegment_image h hp (.inl hres) hf hlo hhi hph hseg hnotbig) ?_)
          rintro r s1 (⟨hv, hlo1, hhi1, -, -, hi1⟩ | ⟨hv, -, -⟩ | hlow)
          · rw [hv] at hs
            exact ih (off + 32) _ _ s1 hi1 hlo1 hhi1 hs
          · rw [hv] at hs
            cases hs
          · exact absurd hres (Nat.not_le.2 hlow)

end

end Xv6
