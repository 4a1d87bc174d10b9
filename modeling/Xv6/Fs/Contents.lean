import Xv6.Fs.Write

/-!
# `readi` and `writei`: files as byte arrays

`s.contents i` is what inode `i` holds, as a list of `size` bytes. `writei` takes a good file
system to a good file system and writes its bytes into that list: the blocks it adds are the ones
that the new size asks for, and the inode is flushed when there are any. `readi` finds every block
it asks for, so it changes nothing.
-/

namespace Xv6

open Lib

variable {v : Volume} {s s' s1 s2 : Fs} {n bn b ip off i : Nat} {x : Site} {src : List (BitVec 8)}

/-- The byte at `k` of inode `i`. -/
def Fs.byte (s : Fs) (i k : Nat) : BitVec 8 :=
  s.block ((s.dinode i).refAt s.block (siteOf (k / BSIZE))) (k % BSIZE)

/-- The bytes of inode `i`. -/
def Fs.contents (s : Fs) (i : Nat) : List (BitVec 8) := (List.range (s.dinode i).size).map (s.byte i)

@[simp] theorem Fs.length_contents (s : Fs) (i : Nat) : (s.contents i).length = (s.dinode i).size := by
  unfold contents
  rw [List.length_map, List.length_range]

/-- The bytes `src` have been written at `off` of inode `i`, and no others have changed. -/
structure Written (i off : Nat) (src : List (BitVec 8)) (s s' : Fs) : Prop where
  size : (s'.dinode i).size = max (s.dinode i).size (off + src.length)
  type : ∀ j, (s'.dinode j).type = (s.dinode j).type
  others : ∀ j, j ≠ i → (s'.dinode j).size = (s.dinode j).size
  here : ∀ k, off ≤ k → k < off + src.length → s'.byte i k = src.getD (k - off) 0
  kept : ∀ j k, (s.dinode j).Live → k < (s.dinode j).size →
    ¬ (j = i ∧ off ≤ k ∧ k < off + src.length) → s'.byte j k = s.byte j k

/-- From the loop's view, with the copy of the inode, to the inodes on the disk. -/
theorem Written.of_bytes (h : FsOk v s) (href : 0 < (s.icache ip).ref)
    (hvalid : (s.icache ip).valid = true)
    (hw : WroteBytes ip i off src s s1) (hblk : s'.block = s1.block)
    (hr : ∀ j x, (s'.dinode j).refAt s'.block x = (s1.table ip j).refAt s1.block x)
    (hsize : (s'.dinode i).size = max (s.dinode i).size (off + src.length))
    (htype : ∀ j, (s'.dinode j).type = (s.dinode j).type)
    (hothers : ∀ j, j ≠ i → (s'.dinode j).size = (s.dinode j).size) : Written i off src s s' := by
  have hnew : ∀ j k, s'.byte j k = s1.byteAt ip j k := fun j k => by
    unfold Fs.byte Fs.byteAt
    rw [hr, hblk]
  refine ⟨hsize, htype, hothers, fun k hk hlt => (hnew i k).trans (hw.here k hk hlt),
    fun j k hl hk hout => ?_⟩
  have hsame := h.table_same href hvalid j
  have hmax := h.size j hl
  have hbn : k / BSIZE < nblocks (s.dinode j).size ∧ k / BSIZE < MAXFILE := by
    unfold nblocks
    simp only [BSIZE, MAXFILE] at *
    omega
  have hthere : (s.table ip j).refAt s.block (siteOf (k / BSIZE)) ≠ 0 := by
    rw [hsame.refAt, h.shape j hl _ (siteOf_ne_indirect _), siteOf_rank hbn.2]
    exact hbn.1
  rw [hnew, hw.kept j k (hsame.live.2 hl) hthere (by omega) hout]
  unfold Fs.byte Fs.byteAt
  rw [hsame.refAt]

/-- `writei` takes a write of `n` bytes at `off`. -/
def Accepts (size off n : Nat) : Prop := off ≤ size ∧ off + n < 2 ^ 32 ∧ off + n ≤ MAXFILE * BSIZE

instance (size off n : Nat) : Decidable (Accepts size off n) := by
  unfold Accepts
  infer_instance

/-- What `writei` on a file or a directory does and returns. -/
def WriteSpec (i off : Nat) (src : List (BitVec 8)) (s : Fs) (r : Option Nat) (s' : Fs) : Prop :=
  if Accepts (s.dinode i).size off src.length then r = some src.length ∧ Written i off src s s'
  else r = none ∧ s' = s

theorem WriteSpec.accepted (hacc : Accepts (s.dinode i).size off src.length)
    (hw : Written i off src s s') : WriteSpec i off src s (some src.length) s' := by
  unfold WriteSpec
  rw [if_pos hacc]
  exact ⟨rfl, hw⟩

theorem WriteSpec.rejected (hacc : ¬ Accepts (s.dinode i).size off src.length) :
    WriteSpec i off src s none s := by
  unfold WriteSpec
  rw [if_neg hacc]
  exact ⟨rfl, rfl⟩

/-- The cache entries hold the same inodes, with the same counts. -/
def SameSlots (s s' : Fs) : Prop := ∀ k, (s'.icache k).ref = (s.icache k).ref ∧
  (s'.icache k).inum = (s.icache k).inum ∧ (s'.icache k).valid = (s.icache k).valid

theorem FileOpen.resize (h : FileOpen v s ip n) (k : Nat) :
    FileOpen v (s.setNode ip { s.node ip with size := k }) ip n := by
  have hs : NodeStored ip { s.node ip with size := k } s
      (s.setNode ip { s.node ip with size := k }) := ⟨rfl, rfl⟩
  have href : ∀ x, Dinode.refAt s.block { s.node ip with size := k } x =
      (s.node ip).refAt s.block x := fun x => by cases x <;> rfl
  refine h.restore hs h.live ?_ (fun x hx => ?_) fun _ _ _ _ => rfl
  · refine h.alloc.congr (fun j => ?_) (fun j x hj => ?_) fun _ _ => rfl
    · by_cases hj : j = (s.icache ip).inum
      · rw [hj, hs.table_self, Fs.table_self]
        exact Iff.rfl
      · rw [hs.table_of_ne hj]
    · by_cases hji : j = (s.icache ip).inum
      · rw [hji, hs.table_self, Fs.table_self]
        exact href x
      · rw [hs.table_of_ne hji]
        rfl
  · rw [← h.here x hx, Fs.setNode_block, href x]

theorem writei_wp {E : String → Prop} (hE : E "balloc: out of blocks") (h : FsOk v s)
    (href : 0 < (s.icache ip).ref) (hvalid : (s.icache ip).valid = true) (src : List (BitVec 8)) :
    wp (writei v ip off src) E (fun r s' => FsOk v s' ∧ SameSlots s s' ∧
      ((s.node ip).type ≠ .dev → WriteSpec (s.icache ip).inum off src s r s')) s := by
  have hrefl : SameSlots s s := fun _ => ⟨rfl, rfl, rfl⟩
  obtain ⟨hsame, hlive⟩ := h.cache.agree ip href hvalid
  have hsize : (s.node ip).size ≤ MAXFILE * BSIZE := by
    rw [hsame.size]
    exact h.size _ hlive
  unfold writei
  refine wp_seq (get_wp (wp_ite.2 ⟨fun hdev => ?_, fun hdev => ?_⟩))
  · have hstay : ∀ r, FsOk v s ∧ SameSlots s s ∧
        ((s.node ip).type ≠ .dev → WriteSpec (s.icache ip).inum off src s r s) := fun r =>
      ⟨h, hrefl, fun hne => absurd hdev hne⟩
    refine wp_ite.2 ⟨fun _ => hstay _, fun _ => ?_⟩
    split
    · exact hstay _
    · exact hstay _
  have hreject : ¬ Accepts (s.node ip).size off src.length → FsOk v s ∧ SameSlots s s ∧
      ((s.node ip).type ≠ .dev → WriteSpec (s.icache ip).inum off src s none s) := fun hno => by
    exact ⟨h, hrefl, fun _ => .rejected (by rw [← hsame.size]; exact hno)⟩
  refine wp_ite.2 ⟨fun hoff => hreject fun hacc => ?_, fun hoff => wp_ite.2
    ⟨fun hmax => hreject fun hacc => absurd hacc.2.2 (not_le.2 hmax), fun hmax => ?_⟩⟩
  · rcases hoff with hoff | hoff
    · exact absurd hacc.1 (not_le.2 hoff)
    · exact absurd hacc.2.1 (not_lt.2 hoff)
  rw [not_or, not_lt, not_le] at hoff
  have hoff' : off ≤ (s.node ip).size := hoff.1
  have hacc : Accepts (s.dinode (s.icache ip).inum).size off src.length := by
    rw [← hsame.size]
    exact ⟨hoff', hoff.2, not_lt.1 hmax⟩
  have hw := h.writing href hvalid
  have hn : off ≤ nblocks (s.node ip).size * BSIZE := by
    unfold nblocks
    simp only [BSIZE]
    omega
  refine wp_seq (wp_post (writeLoop_wp hE _ off src s _ hw hn (not_lt.1 hmax) le_rfl) fun r s1 hr => ?_)
  obtain ⟨hcount, hw1, ⟨a, ha⟩, hold, hbytes⟩ := hr
  subst hcount
  have hslots : SameSlots s s1 := ha.slot
  refine wp_ite.2 ⟨fun hgrow => ?_, fun hgrow => ?_⟩
  · -- The size grows: the inode is written to the disk.
    obtain ⟨_, hgrow⟩ := hgrow
    have hgrow' : (s.node ip).size < off + src.length := hgrow
    refine wp_seq (setNode_wp (wp_seq (wp_seq (get_wp (modify_wp ?_)))))
    have hle : nblocks (s.node ip).size ≤ nblocks (off + src.length) := by
      unfold nblocks
      simp only [BSIZE]
      omega
    rw [max_eq_right hle] at hw1
    have hw2 := hw1.resize (off + src.length)
    have hnode := Fs.setNode_node s1 ip { s1.node ip with size := off + src.length }
    have hstored : NodeStored ip { s1.node ip with size := off + src.length } s1
        (s1.setNode ip { s1.node ip with size := off + src.length }) := ⟨rfl, rfl⟩
    have hn2 : nblocks (off + src.length) = nblocks
        ((s1.setNode ip { s1.node ip with size := off + src.length }).node ip).size := by
      rw [hnode]
    rw [hn2] at hw2
    refine ⟨hw2.flush (by rw [hnode]; exact not_lt.1 hmax), fun k => ?_, fun _ => .accepted hacc ?_⟩
    · obtain ⟨h1, h2, h3⟩ := hstored.slot k
      exact ⟨h1.trans (hslots k).1, h2.trans (hslots k).2.1, h3.trans (hslots k).2.2⟩
    have hinum : (s1.icache ip).inum = (s.icache ip).inum := (hslots ip).2.1
    have hdisk : ∀ {j}, j ≠ (s.icache ip).inum →
        (s1.setNode ip { s1.node ip with size := off + src.length }).table ip j = s.dinode j := by
      intro j hj
      rw [hstored.table_of_ne (by rw [hinum]; exact hj), s1.table_of_ne (by rw [hinum]; exact hj),
        ha.dinode]
    have hself : (s1.setNode ip { s1.node ip with size := off + src.length }).table ip
        (s.icache ip).inum = { s1.node ip with size := off + src.length } := by
      rw [← hinum]
      exact hstored.table_self
    have hn1 : s1.node ip = { s.node ip with addrs := a } := ha.node
    refine .of_bytes h href hvalid hbytes rfl (fun j x => ?_) ?_ (fun j => ?_) fun j hj => ?_
    · change ((s1.setNode ip _).table ip j).refAt s1.block x = _
      by_cases hj : j = (s.icache ip).inum
      · subst hj
        rw [hself, ← hinum, Fs.table_self]
        cases x <;> rfl
      · rw [hdisk hj, s1.table_of_ne (by rw [hinum]; exact hj), ha.dinode]
    · change ((s1.setNode ip _).table ip (s.icache ip).inum).size = _
      rw [hself, ← hsame.size]
      exact (max_eq_right hgrow'.le).symm
    · change ((s1.setNode ip _).table ip j).type = _
      by_cases hj : j = (s.icache ip).inum
      · subst hj
        rw [hself, ← hsame.type, hn1]
      · rw [hdisk hj]
    · change ((s1.setNode ip _).table ip j).size = _
      rw [hdisk hj]
  · -- No block was added.
    have hgrow' : ¬ (0 < src.length ∧ (s.node ip).size < off + src.length) := hgrow
    have hle : nblocks (off + src.length) ≤ nblocks (s.node ip).size := by
      unfold nblocks
      simp only [BSIZE]
      omega
    have hcache := hold hle
    have hnode : s1.node ip = s.node ip := by
      unfold Fs.node
      rw [hcache]
    rw [max_eq_left hle, ← hnode] at hw1
    have hok : FsOk v s1 := by
      refine hw1.settle (by rw [hnode]; exact hsize) ?_
      rw [hnode, ha.dinode, hcache]
      exact hsame
    refine ⟨hok, hslots, fun _ => .accepted hacc (.of_bytes h href hvalid hbytes rfl
      (fun j x => ?_) ?_ (fun j => by rw [ha.dinode]) fun j _ => by rw [ha.dinode])⟩
    · exact (hok.table_same (by rw [hcache]; exact href) (by rw [hcache]; exact hvalid) j).refAt.symm
    · rw [ha.dinode, ← hsame.size]
      omega

/-- The loop returns the bytes of the file. -/
theorem readLoop_wp {E : String → Prop} (h : (s.node ip).Shape s.block n) (hmax : n ≤ MAXFILE) :
    ∀ (k off m : Nat), off + m ≤ n * BSIZE → m ≤ k →
    wp (readLoop v ip k off m) E (fun r s' => s' = s ∧
      r = (List.range m).map fun j => s.byteAt ip (s.icache ip).inum (off + j)) s := by
  intro k
  induction k with
  | zero =>
    intro off m _ hk
    obtain rfl : m = 0 := by omega
    exact ⟨rfl, rfl⟩
  | succ k ih =>
    intro off m hm hk
    unfold readLoop
    refine wp_ite.2 ⟨fun h0 => ?_, fun hpos => ?_⟩
    · subst h0
      exact ⟨rfl, rfl⟩
    have hbn : off / BSIZE < n := by
      simp only [BSIZE] at *
      omega
    refine wp_seq (wp_post (bmap_old_wp h hbn (hbn.trans_le hmax)) ?_)
    rintro b _ ⟨hb, rfl⟩
    refine wp_seq (wp_seq (get_wp ?_))
    simp only [wp_pure]
    -- `w` bytes come from this block.
    generalize hw : min m (BSIZE - off % BSIZE) = w
    refine wp_seq (wp_post (ih (off + w) (m - w) (by omega) (by simp only [BSIZE] at *; omega)) ?_)
    rintro r _ ⟨rfl, hr⟩
    refine ⟨rfl, ?_⟩
    have hm : m = w + (m - w) := by omega
    rw [hr, hm, List.range_add, List.map_append, List.map_map, Nat.add_sub_cancel_left]
    congr 1
    · refine List.map_congr_left fun j hj => ?_
      have hlt := List.mem_range.1 hj
      have hdiv : (off + j) / BSIZE = off / BSIZE ∧ (off + j) % BSIZE = off % BSIZE + j := by
        simp only [BSIZE] at *
        omega
      unfold Fs.byteAt
      rw [hdiv.1, hdiv.2, Fs.table_self, hb]
    · refine List.map_congr_left fun j _ => ?_
      rw [Function.comp_apply, Nat.add_assoc]

/-- What `readi` on a file or a directory returns. -/
def ReadSpec (f : List (BitVec 8)) (off n : Nat) : Option (List (BitVec 8)) :=
  if off ≤ f.length ∧ off + n < 2 ^ 32 then some ((f.drop off).take n) else none

/-- `readi` of bytes that are in the blocks of the file. -/
theorem readi_here {E : String → Prop} (h : (s.node ip).Shape s.block n) (hmax : n ≤ MAXFILE)
    (hdev : (s.node ip).type ≠ .dev) (m : Nat) (hin : min (off + m) (s.node ip).size ≤ n * BSIZE) :
    wp (readi v ip off m) E (fun r s' => s' = s ∧
      r = ReadSpec ((List.range (s.node ip).size).map (s.byteAt ip (s.icache ip).inum)) off m) s := by
  unfold readi
  refine wp_seq (get_wp (wp_ite.2 ⟨fun hd => absurd hd hdev, fun _ => ?_⟩))
  unfold ReadSpec
  rw [List.length_map, List.length_range]
  refine wp_ite.2 ⟨fun hoff => ⟨rfl, ?_⟩, fun hoff => ?_⟩
  · rw [if_neg fun hin => hoff.elim (not_lt.2 hin.1) (not_le.2 hin.2)]
  rw [not_or, not_lt, not_le] at hoff
  have hoff' : off ≤ (s.node ip).size := hoff.1
  have hclip : (if (s.node ip).size < off + m then (s.node ip).size - off else m) =
      min m ((s.node ip).size - off) := by
    split <;> omega
  refine wp_seq (wp_post (readLoop_wp h hmax _ off _ ?_ le_rfl) ?_)
  · change off + (if (s.node ip).size < off + m then (s.node ip).size - off else m) ≤ _
    rw [hclip]
    omega
  · rintro r s1 ⟨hs, hr⟩
    refine ⟨hs, ?_⟩
    rw [if_pos ⟨hoff', hoff.2⟩, hr]
    change some ((List.range (if (s.node ip).size < off + m then (s.node ip).size - off else m)).map _)
      = _
    rw [hclip]
    refine congrArg some (List.ext_getElem ?_ fun k hk hk' => ?_)
    · simp only [List.length_map, List.length_range, List.length_take, List.length_drop]
    · simp only [List.getElem_map, List.getElem_take, List.getElem_drop, List.getElem_range]

theorem readi_wp {E : String → Prop} (h : FsOk v s) (href : 0 < (s.icache ip).ref)
    (hvalid : (s.icache ip).valid = true) (m : Nat) :
    wp (readi v ip off m) E (fun r s' => s' = s ∧
      ((s.node ip).type ≠ .dev → r = ReadSpec (s.contents (s.icache ip).inum) off m)) s := by
  obtain ⟨hsame, hlive⟩ := h.cache.agree ip href hvalid
  have hsize : (s.node ip).size ≤ MAXFILE * BSIZE := by
    rw [hsame.size]
    exact h.size _ hlive
  by_cases hdev : (s.node ip).type = .dev
  · unfold readi
    refine wp_seq (get_wp (wp_ite.2 ⟨fun _ => ?_, fun hd => absurd hdev hd⟩))
    refine wp_ite.2 ⟨fun _ => ⟨rfl, fun hne => absurd hdev hne⟩, fun _ => ?_⟩
    split
    · exact ⟨rfl, fun hne => absurd hdev hne⟩
    · exact ⟨rfl, fun hne => absurd hdev hne⟩
  · refine wp_post (readi_here (h.writing href hvalid).here ?_ hdev m ?_) ?_
    · unfold nblocks
      simp only [BSIZE, MAXFILE] at *
      omega
    · unfold nblocks
      simp only [BSIZE]
      omega
    · rintro r s1 ⟨hs, hr⟩
      refine ⟨hs, fun _ => ?_⟩
      have htable := h.table_same href hvalid (s.icache ip).inum
      have hbytes : (List.range (s.node ip).size).map (s.byteAt ip (s.icache ip).inum) =
          s.contents (s.icache ip).inum := by
        unfold Fs.contents
        rw [← hsame.size]
        refine List.map_congr_left fun k _ => ?_
        unfold Fs.byteAt Fs.byte
        rw [htable.refAt]
      rw [hr, hbytes]

end Xv6
