import Xv6.Swap.Move

/-!
# Swap file reads and writes from any state

`filewrite` writes everything exactly when the range starts inside the file and fits in the
largest file. `moveToSwap` either leaves the tables alone or has written the page and entered
it in the slot.
-/

namespace Xv6

open Lib

theorem SwapFile.writei_some {f g : SwapFile} {src : Nat → Byte} {off n : Nat}
    (h : f.writei src off n = some g) :
    off ≤ f.size ∧ off + n ≤ MAXFILE * BSIZE ∧ f.size ≤ g.size ∧ g.size ≤ max f.size (off + n) := by
  unfold SwapFile.writei at h
  split at h
  · cases h
  · split at h
    · cases h
    · cases h
      refine ⟨by omega, by omega, ?_, ?_⟩ <;> dsimp only <;> split <;> omega

/-- The loop of `filewrite` ends with a count in reach and never shortens the file. -/
theorem filewriteLoop_le (src : Nat → Byte) (n : Nat) : ∀ (fuel i off : Nat) (f : SwapFile),
    i ≤ n → (filewriteLoop src n fuel i off f).1 ≤ n ∧
      f.size ≤ (filewriteLoop src n fuel i off f).2.size := by
  intro fuel
  induction fuel with
  | zero => exact fun i off f hi => ⟨hi, Nat.le_refl _⟩
  | succ fuel ih =>
    intro i off f hi
    rw [filewriteLoop]
    split
    · dsimp only
      split
      · exact ⟨hi, Nat.le_refl _⟩
      · rename_i hlt _ f' hw
        have hsz := (SwapFile.writei_some hw).2.2.1
        obtain ⟨h1, h2⟩ := ih (i + if n - i > (MAXOPBLOCKS - 1 - 1 - 2) / 2 * 512 then
          (MAXOPBLOCKS - 1 - 1 - 2) / 2 * 512 else n - i) (off + if n - i > (MAXOPBLOCKS - 1 - 1 - 2) / 2 * 512 then
          (MAXOPBLOCKS - 1 - 1 - 2) / 2 * 512 else n - i) f' (by split <;> omega)
        exact ⟨h1, hsz.trans h2⟩
    · exact ⟨hi, Nat.le_refl _⟩

/-- A loop that gets to the end started inside the file, and the range fits in a file. -/
theorem filewriteLoop_fits (src : Nat → Byte) (n : Nat) : ∀ (fuel i off : Nat) (f : SwapFile),
    i < n → (filewriteLoop src n fuel i off f).1 = n →
      off ≤ f.size ∧ off + (n - i) ≤ MAXFILE * BSIZE := by
  intro fuel
  induction fuel with
  | zero =>
    intro i off f hi h
    rw [filewriteLoop] at h
    exact absurd h (by dsimp only; omega)
  | succ fuel ih =>
    intro i off f hi h
    rw [filewriteLoop, if_pos hi] at h
    dsimp only at h
    obtain ⟨n1, hn1, hpos, hle⟩ : ∃ n1, n1 = (if n - i > (MAXOPBLOCKS - 1 - 1 - 2) / 2 * 512
        then (MAXOPBLOCKS - 1 - 1 - 2) / 2 * 512 else n - i) ∧ 0 < n1 ∧ n1 ≤ n - i := by
      refine ⟨_, rfl, ?_⟩
      simp only [MAXOPBLOCKS]
      split <;> omega
    rw [← hn1] at h
    split at h
    · exact absurd h (by dsimp only; omega)
    · rename_i f' hw
      obtain ⟨hoff, hfit, -⟩ := SwapFile.writei_some hw
      refine ⟨hoff, ?_⟩
      by_cases hlast : i + n1 < n
      · have := (ih _ _ _ hlast h).2
        omega
      · omega

section

variable {E : String → Prop} {s : Kernel} {p : Nat}

/-- A page is written to slot `i` exactly when the slot starts inside the file. -/
theorem writeToSwapFile_any {src i : Nat} {Q : Int → Kernel → Prop} (hE : ∀ m ∈ ["filewrite", "trap"], E m)
    (hi : i < MAX_SWAP_PAGES)
    (hok : ∀ f, s.files (s.proc p).pid = some f → i * PGSIZE ≤ f.size →
      Q (PGSIZE : Int) (s.setFile (s.proc p).pid (some (f.writePage i (s.mem src)))))
    (hfail : ∀ f g, s.files (s.proc p).pid = some f → f.size < i * PGSIZE → f.size ≤ g.size →
      Q (-1) (s.setFile (s.proc p).pid (some g))) :
    wp (writeToSwapFile p src (i * PGSIZE) PGSIZE) E Q s := by
  by_cases hs : (s.proc p).swapFile = true
  · cases hf : s.files (s.proc p).pid with
    | none =>
      unfold writeToSwapFile swapFileOf
      simpa [hs, hf, kpanic] using hE _ (by simp)
    | some f =>
      by_cases hroom : i * PGSIZE ≤ f.size
      · exact writeToSwapFile_page hs hf hi hroom (hok f hf hroom)
      · have hle := filewriteLoop_le (s.mem src) PGSIZE PGSIZE 0 (i * PGSIZE) f (Nat.zero_le _)
        have hne : (filewriteLoop (s.mem src) PGSIZE PGSIZE 0 (i * PGSIZE) f).1 ≠ PGSIZE :=
          fun h => hroom (filewriteLoop_fits _ _ _ _ _ _ (by decide) h).1
        unfold writeToSwapFile
        rw [wp_bind]
        refine swapFileOf_wp hs hf ?_
        simp only [wp_bind, wp_get, wp_set, wp_pure]
        rw [if_neg hne]
        exact hfail f _ hf (by omega) hle.2
  · unfold writeToSwapFile swapFileOf
    simpa [hs, kpanic] using hE _ (by simp)

/-- Slot `i` is read into the frame `dst` as far as the file reaches. -/
theorem readFromSwapFile_any {dst i : Nat} {Q : Int → Kernel → Prop}
    (hE : ∀ m ∈ ["fileread", "trap"], E m) (hi : i < MAX_SWAP_PAGES)
    (hok : ∀ f, s.files (s.proc p).pid = some f → i * PGSIZE ≤ f.size →
      Q (min PGSIZE (f.size - i * PGSIZE) : Nat) (s.setMem dst fun k =>
        if k < min PGSIZE (f.size - i * PGSIZE) then f.data (i * PGSIZE + k) else s.mem dst k))
    (hfail : ∀ f, s.files (s.proc p).pid = some f → f.size < i * PGSIZE → Q (-1) s) :
    wp (readFromSwapFile p dst (i * PGSIZE) PGSIZE) E Q s := by
  by_cases hs : (s.proc p).swapFile = true
  · cases hf : s.files (s.proc p).pid with
    | none =>
      unfold readFromSwapFile swapFileOf
      simpa [hs, hf, kpanic] using hE _ (by simp)
    | some f =>
      unfold readFromSwapFile
      rw [wp_bind]
      refine swapFileOf_wp hs hf ?_
      by_cases hroom : i * PGSIZE ≤ f.size
      · have hread : f.readi (i * PGSIZE) PGSIZE = some (min PGSIZE (f.size - i * PGSIZE)) := by
          simp only [PGSIZE, MAX_SWAP_PAGES] at hi hroom ⊢
          unfold SwapFile.readi
          rw [if_neg (by omega)]
          split
          · rw [Nat.min_eq_right (by omega)]
          · rw [Nat.min_eq_left (by omega)]
        simp only [hread, wp_bind, wp_modify, wp_pure]
        exact hok f hf hroom
      · have hread : f.readi (i * PGSIZE) PGSIZE = none := by
          unfold SwapFile.readi
          rw [if_pos (.inl (by omega))]
        simp only [hread, wp_pure]
        exact hfail f hf (by omega)
  · unfold readFromSwapFile swapFileOf
    simpa [hs, kpanic] using hE _ (by simp)

theorem removeSwapFile_any {Q : Int → Kernel → Prop} (hE : ∀ m, E m)
    (h : ∀ r t, (t = s ∨ t = s.setFile (s.proc p).pid none) → Q r t) :
    wp (removeSwapFile p) E Q s := by
  unfold removeSwapFile
  refine wp_seq (get_wp ?_)
  split
  · split
    · exact hE _
    · exact wp_seq (set_wp (h _ _ (.inr rfl)))
  · exact h _ _ (.inl rfl)

theorem kfree_any [Build] {f : Nat} {Q : Unit → Kernel → Prop} (hE : E "kfree")
    (h : Q () (s.freed f)) : wp (kfree f) E Q s := by
  by_cases hm : Managed f
  · exact kfree_wp hm h
  · unfold kfree
    rw [wp_bind, wp_modify, if_neg hm]
    exact hE

end

end Xv6
