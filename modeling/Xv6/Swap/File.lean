import Xv6.Param
import Xv6.Vm.Kalloc

/-!
# Swap files

`/.swap<pid>` as a byte array with the acceptance tests of `readi` and `writei`,
and the chunked loop of `filewrite`. A swap file is created by `createSwapFile`,
which reuses a file of that name, and unlinked by `removeSwapFile`.
-/

namespace Xv6

open Lib

/-- The count `readi` returns, `none` for `-1`. -/
def SwapFile.readi (f : SwapFile) (off n : Nat) : Option Nat :=
  if f.size < off ∨ 2 ^ 32 ≤ off + n then none
  else some (if f.size < off + n then f.size - off else n)

/-- `writei` of `n` bytes of `src` at `off`, `none` for `-1`. -/
def SwapFile.writei (f : SwapFile) (src : Nat → Byte) (off n : Nat) : Option SwapFile :=
  if f.size < off ∨ 2 ^ 32 ≤ off + n then none
  else if MAXFILE * BSIZE < off + n then none
  else some
    { size := if 0 < n ∧ f.size < off + n then off + n else f.size
      data := fun k => if off ≤ k ∧ k < off + n then src (k - off) else f.data k }

/-- The `while(i < n)` loop of `filewrite`; the count reached and the file. -/
def filewriteLoop (src : Nat → Byte) (n : Nat) : Nat → Nat → Nat → SwapFile → Nat × SwapFile
  | 0, i, _, f => (i, f)
  | fuel + 1, i, off, f =>
    if i < n then
      let max := (MAXOPBLOCKS - 1 - 1 - 2) / 2 * 512
      let n1 := if n - i > max then max else n - i
      match f.writei (fun k => src (i + k)) off n1 with
      | none => (i, f)
      | some f' => filewriteLoop src n fuel (i + n1) (off + n1) f'
    else (i, f)

/-- The swap file behind `p->swapFile`. -/
def swapFileOf (p : Nat) (op : String) : K SwapFile := do
  let s ← get
  if (s.proc p).swapFile then
    match s.files (s.proc p).pid with
    | none => kpanic op
    | some f => pure f
  else kpanic "trap"

/-- `writeToSwapFile(p, src, off, n)` from frame `src`. -/
def writeToSwapFile (p : Nat) (src : Nat) (off n : Nat) : K Int := do
  let f ← swapFileOf p "filewrite"
  let s ← get
  let r := filewriteLoop (s.mem src) n n 0 off f
  set (s.setFile (s.proc p).pid (some r.2))
  pure (if r.1 = n then (n : Int) else -1)

/-- `readFromSwapFile(p, dst, off, n)` into frame `dst`. -/
def readFromSwapFile (p : Nat) (dst : Nat) (off n : Nat) : K Int := do
  let f ← swapFileOf p "fileread"
  match f.readi off n with
  | none => pure (-1)
  | some r => do
    modify fun s => s.setMem dst fun k => if k < r then f.data (off + k) else s.mem dst k
    pure r

/-! ## Whole pages -/

/-- The file with page `pg` in slot `i`. -/
def SwapFile.writePage (f : SwapFile) (i : Nat) (pg : Nat → Byte) : SwapFile where
  size := max f.size ((i + 1) * PGSIZE)
  data k := if i * PGSIZE ≤ k ∧ k < (i + 1) * PGSIZE then pg (k - i * PGSIZE) else f.data k

/-- Slot `i` read over the page `old`. -/
def SwapFile.page (f : SwapFile) (i : Nat) (old : Nat → Byte) : Nat → Byte := fun k =>
  if k < PGSIZE then f.data (i * PGSIZE + k) else old k

theorem SwapFile.writePage_data_self (f : SwapFile) (i : Nat) (pg : Nat → Byte) {o : Nat}
    (ho : o < PGSIZE) : (f.writePage i pg).data (i * PGSIZE + o) = pg o := by
  simp only [writePage]
  rw [if_pos (by simp only [PGSIZE] at *; omega), Nat.add_sub_cancel_left]

theorem SwapFile.writePage_data_of_ne (f : SwapFile) {i j : Nat} (pg : Nat → Byte) (h : j ≠ i)
    {o : Nat} (ho : o < PGSIZE) :
    (f.writePage i pg).data (j * PGSIZE + o) = f.data (j * PGSIZE + o) := by
  simp only [writePage]
  rw [if_neg]
  simp only [PGSIZE] at *
  omega

theorem SwapFile.write_nothing (f : SwapFile) (src : Nat → Byte) {off n : Nat} (i : Nat)
    (h : off ≤ f.size) (hn : n = 0) :
    ({ size := max f.size (off + n)
       data := fun k => if off ≤ k ∧ k < off + n then src (i + (k - off)) else f.data k } :
      SwapFile) = f := by
  subst hn
  cases f
  simp only [SwapFile.mk.injEq] at h ⊢
  exact ⟨by omega, funext fun k => if_neg (by omega)⟩

/-- The chunked loop of `filewrite` writes everything when the range fits in a file. -/
theorem filewriteLoop_eq (src : Nat → Byte) (n : Nat) :
    ∀ (fuel i off : Nat) (f : SwapFile), i ≤ n → n - i ≤ fuel → off ≤ f.size →
      off + (n - i) ≤ MAXFILE * BSIZE →
      filewriteLoop src n fuel i off f =
        (n, { size := max f.size (off + (n - i))
              data := fun k => if off ≤ k ∧ k < off + (n - i) then src (i + (k - off))
                else f.data k }) := by
  intro fuel
  induction fuel with
  | zero =>
    intro i off f hi hfuel hoff hmax
    rw [filewriteLoop, f.write_nothing src i hoff (by omega), show i = n by omega]
  | succ fuel ih =>
    intro i off f hi hfuel hoff hmax
    by_cases hlt : i < n
    · have hw : ∀ n1, 0 < n1 → n1 ≤ n - i → f.writei (fun k => src (i + k)) off n1 = some
          { size := max f.size (off + n1)
            data := fun k => if off ≤ k ∧ k < off + n1 then src (i + (k - off))
              else f.data k } := by
        intro n1 hpos hle
        simp only [MAXFILE, BSIZE] at hmax
        unfold SwapFile.writei
        rw [if_neg (by omega), if_neg (by simp only [MAXFILE, BSIZE]; omega)]
        congr 2
        split <;> omega
      obtain ⟨n1, hn1, hpos, hle⟩ : ∃ n1, n1 = (if n - i > (MAXOPBLOCKS - 1 - 1 - 2) / 2 * 512
          then (MAXOPBLOCKS - 1 - 1 - 2) / 2 * 512 else n - i) ∧ 0 < n1 ∧ n1 ≤ n - i := by
        refine ⟨_, rfl, ?_⟩
        simp only [MAXOPBLOCKS]
        split <;> omega
      rw [filewriteLoop, if_pos hlt]
      simp only [← hn1, hw n1 hpos hle]
      rw [ih _ _ _ (by omega) (by omega) (by simp only; omega) (by omega)]
      simp only [Prod.mk.injEq, SwapFile.mk.injEq, true_and]
      refine ⟨by omega, funext fun k => ?_⟩
      by_cases h1 : off + n1 ≤ k ∧ k < off + n1 + (n - (i + n1))
      · rw [if_pos h1, if_pos (by omega)]
        congr 1
        omega
      · rw [if_neg h1]
        by_cases h2 : off ≤ k ∧ k < off + n1
        · rw [if_pos h2, if_pos (by omega)]
        · rw [if_neg h2, if_neg (by omega)]
    · rw [filewriteLoop, if_neg hlt, f.write_nothing src i hoff (by omega), show i = n by omega]

theorem filewriteLoop_zero (src : Nat → Byte) {n off : Nat} {f : SwapFile} (hoff : off ≤ f.size)
    (hmax : off + n ≤ MAXFILE * BSIZE) :
    filewriteLoop src n n 0 off f =
      (n, { size := max f.size (off + n)
            data := fun k => if off ≤ k ∧ k < off + n then src (k - off) else f.data k }) := by
  have h := filewriteLoop_eq src n n 0 off f (Nat.zero_le n) (Nat.sub_le n 0) hoff
  simp only [Nat.sub_zero, Nat.zero_add] at h
  exact h hmax

section

variable {s : Kernel} {p i : Nat} {f : SwapFile} {E : String → Prop}

/-- Every slot lies below the largest file size. -/
theorem slot_fits (hi : i < MAX_SWAP_PAGES) : i * PGSIZE + PGSIZE ≤ MAXFILE * BSIZE := by
  simp only [MAXFILE, BSIZE, PGSIZE, MAX_SWAP_PAGES] at hi ⊢
  omega

theorem swapFileOf_wp {op : String} {Q : SwapFile → Kernel → Prop}
    (hs : (s.proc p).swapFile = true) (hf : s.files (s.proc p).pid = some f) (h : Q f s) :
    wp (swapFileOf p op) E Q s := by
  simp [swapFileOf, hs, hf, h]

theorem writeToSwapFile_page {src : Nat} {Q : Int → Kernel → Prop}
    (hs : (s.proc p).swapFile = true) (hf : s.files (s.proc p).pid = some f)
    (hi : i < MAX_SWAP_PAGES) (hroom : i * PGSIZE ≤ f.size)
    (h : Q (PGSIZE : Int) (s.setFile (s.proc p).pid (some (f.writePage i (s.mem src))))) :
    wp (writeToSwapFile p src (i * PGSIZE) PGSIZE) E Q s := by
  have hloop := filewriteLoop_zero (s.mem src) hroom (slot_fits hi)
  rw [show i * PGSIZE + PGSIZE = (i + 1) * PGSIZE by simp only [PGSIZE]; omega] at hloop
  unfold writeToSwapFile
  rw [wp_bind]
  refine swapFileOf_wp hs hf ?_
  simp only [wp_bind, wp_get, wp_set, wp_pure, hloop]
  rw [if_pos trivial]
  exact h

theorem readFromSwapFile_page {dst : Nat} {Q : Int → Kernel → Prop}
    (hs : (s.proc p).swapFile = true) (hf : s.files (s.proc p).pid = some f)
    (hi : i < MAX_SWAP_PAGES) (hroom : (i + 1) * PGSIZE ≤ f.size)
    (h : Q (PGSIZE : Int) (s.setMem dst (f.page i (s.mem dst)))) :
    wp (readFromSwapFile p dst (i * PGSIZE) PGSIZE) E Q s := by
  have hread : f.readi (i * PGSIZE) PGSIZE = some PGSIZE := by
    simp only [PGSIZE, MAX_SWAP_PAGES] at hi hroom ⊢
    unfold SwapFile.readi
    rw [if_neg (by omega), if_neg (by omega)]
  unfold readFromSwapFile
  rw [wp_bind]
  refine swapFileOf_wp hs hf ?_
  simp only [hread, wp_bind, wp_modify, wp_pure]
  exact h

end

/-! ## Creating and removing -/

/-- `p->swapFile` refers to the file `f`. -/
def Kernel.withFile (s : Kernel) (p : Nat) (f : SwapFile) : Kernel :=
  (s.setFile (s.proc p).pid (some f)).setProc p { s.proc p with swapFile := true }

def createSwapFile (p : Nat) : K Int := do
  let s ← get
  set (s.withFile p ((s.files (s.proc p).pid).getD { size := 0, data := fun _ => 0 }))
  pure 0

theorem createSwapFile_wp {s : Kernel} {p : Nat} {E : String → Prop} {Q : Int → Kernel → Prop}
    (h : ∀ f, Q 0 (s.withFile p f)) : wp (createSwapFile p) E Q s :=
  wp_seq (get_wp (wp_seq (set_wp (h _))))

def removeSwapFile (p : Nat) : K Int := do
  let s ← get
  if (s.proc p).swapFile then
    match s.files (s.proc p).pid with
    | none => kpanic "fileclose"
    | some _ => do
      set (s.setFile (s.proc p).pid none)
      pure 0
  else pure (-1)

theorem removeSwapFile_wp {s : Kernel} {p : Nat} {f : SwapFile} {E : String → Prop}
    {Q : Int → Kernel → Prop} (hs : (s.proc p).swapFile = true)
    (hf : s.files (s.proc p).pid = some f) (h : Q 0 (s.setFile (s.proc p).pid none)) :
    wp (removeSwapFile p) E Q s := by
  unfold removeSwapFile
  refine wp_seq (get_wp ?_)
  rw [if_pos hs, hf]
  exact wp_seq (set_wp h)

end Xv6
