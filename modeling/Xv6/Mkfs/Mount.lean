import Xv6.Mkfs.Build

/-!
# The kernel on an image of `mkfs`

The finished image has the inodes and the blocks that were built, except for the size of the root
directory, and the bitmap of the counter.
-/

namespace Xv6

open Lib

variable {v : Volume} {m : Mkfs} {s : Fs} {i bn : Nat}
  {files : List (List (BitVec 8) × List (BitVec 8))}

/-- The file system that the kernel finds on the image. -/
def Mkfs.mount (m : Mkfs) : Fs where
  block := m.sect
  dinode := fun i => if i < inodeSlots then m.inode i else noInode
  icache := fun _ => ⟨0, 0, false, noInode⟩
  logged := []

/-! ## The finished image -/

theorem Mkfs.finish_sect {b : Nat} (hb : nmeta ≤ b) : m.finish.sect b = m.sect b := by
  have hn : nmeta = 60 := by decide
  have hs : mkBmapstart = 58 := by decide
  unfold Mkfs.finish
  dsimp only
  rw [Function.update_of_ne (by omega), Mkfs.storeInode_sect (by decide) (by omega)]

theorem Mkfs.finish_bitmap (m : Mkfs) : m.finish.sect mkBmapstart = firstBits m.freeblock := by
  unfold Mkfs.finish
  dsimp only
  rw [Function.update_self]

/-- The inode with its size rounded up. -/
def Dinode.roundUp (d : Dinode) : Dinode := { d with size := (d.size / BSIZE + 1) * BSIZE }

theorem Mkfs.finish_inode (hi : i < inodeSlots) (hsize : (m.inode ROOTINO).size ≤ MAXFILE * BSIZE) :
    m.finish.inode i = if i = ROOTINO then (m.inode i).roundUp else m.inode i := by
  have hfits : (m.inode ROOTINO).roundUp.Fits := by
    refine ⟨?_, (m.inode_fits ROOTINO).addr, (m.inode_fits ROOTINO).beyond⟩
    unfold Dinode.roundUp
    simp only [MAXFILE, BSIZE] at *
    omega
  have hsect : m.finish.inode i = (m.storeInode ROOTINO (m.inode ROOTINO).roundUp).inode i := by
    unfold Mkfs.inode Mkfs.finish
    dsimp only
    rw [Function.update_of_ne]
    · rfl
    · simp only [inodeSlots, ninodeblocks, NINODES, IPB, mkInodestart, mkBmapstart, LOGSIZE] at *
      omega
  rw [hsect]
  split
  · next he =>
    subst he
    exact Mkfs.storeInode_self hfits
  · next he => exact Mkfs.storeInode_of_ne he

namespace Built

theorem size_root (h : Built v files m s) : (m.inode ROOTINO).size = DIRENT * (files.length + 2) := by
  rw [← h.sim.nodes ROOTINO (by decide), ← length_rootBytes, ← h.entries, Fs.length_contents]

theorem size_root_le (h : Built v files m s) : (m.inode ROOTINO).size ≤ MAXFILE * BSIZE := by
  rw [← h.sim.nodes ROOTINO (by decide)]
  exact h.sim.ok.size ROOTINO h.live_root

/-- An inode of the finished image has the blocks it had. -/
theorem refAt_finish (hv : Mkfs.Layout v) (h : Built v files m s) (hi : i < inodeSlots) (hl : (s.dinode i).Live)
    (x : Site) : (m.finish.inode i).refAt m.finish.sect x = (s.dinode i).refAt s.block x := by
  have haddr : (m.finish.inode i).addrs = (s.dinode i).addrs := by
    rw [Mkfs.finish_inode hi h.size_root_le, h.sim.nodes i hi]
    split
    · rfl
    · rfl
  have hblk : (s.dinode i).addrs NDIRECT ≠ 0 →
      m.finish.sect ((s.dinode i).addrs NDIRECT) = s.block ((s.dinode i).addrs NDIRECT) := by
    intro h0
    have hdata := h.sim.ok.alloc.data i .indirect hl h0
    have hlow : nmeta ≤ (s.dinode i).addrs NDIRECT := hv.datastart ▸ hdata.1
    rw [Mkfs.finish_sect hlow, h.sim.blocks.data _ hlow]
  rw [← Dinode.refAt_congr hblk]
  cases x with
  | direct k => exact congrFun haddr k
  | indirect => exact congrFun haddr NDIRECT
  | entry j => exact Dinode.refAt_entry_congr (congrFun haddr NDIRECT)

theorem blockAt_finish (hv : Mkfs.Layout v) (h : Built v files m s) (hi : i < inodeSlots)
    (hl : (s.dinode i).Live) :
    (m.finish.inode i).blockAt m.finish.sect bn ≠ 0 ↔ bn < nblocks (s.dinode i).size := by
  rw [← h.sim.ok.exact.filled i bn hl]
  unfold Dinode.blockAt
  rw [h.refAt_finish hv hi hl]

theorem live (h : Built v files m s) (h1 : 1 ≤ i) (hi : i ≤ files.length + 1) : (s.dinode i).Live := by
  rcases Nat.eq_or_lt_of_le h1 with h1 | h1
  · subst h1
    exact h.live_root
  · have hlt : i - 2 < files.length := by omega
    have := h.live_file (List.getElem?_eq_getElem hlt)
    rwa [show i - 2 + 2 = i by omega] at this

/-- The size that an inode of the image has. -/
def imageSize (s : Fs) (i : Nat) : Nat :=
  if i = ROOTINO then ((s.dinode i).size / BSIZE + 1) * BSIZE else (s.dinode i).size

theorem mount_dinode (h : Built v files m s) (hi : i < inodeSlots) :
    m.finish.mount.dinode i = { s.dinode i with size := imageSize s i } := by
  have hm : m.finish.mount.dinode i = m.finish.inode i := if_pos hi
  rw [hm, Mkfs.finish_inode hi h.size_root_le, ← h.sim.nodes i hi]
  unfold imageSize Dinode.roundUp
  split
  · rfl
  · rfl

theorem mount_type (h : Built v files m s) (i : Nat) : (m.finish.mount.dinode i).Live ↔ (s.dinode i).Live := by
  by_cases hi : i < inodeSlots
  · rw [h.mount_dinode hi]
    rfl
  · have hm : m.finish.mount.dinode i = noInode := if_neg hi
    rw [hm]
    exact iff_of_false (fun hl => hl rfl) (h.sim.beyond i (Nat.le_of_not_lt hi))

theorem lt_slots (h : Built v files m s) (hl : (s.dinode i).Live) : i < inodeSlots := by
  by_contra hi
  exact h.sim.beyond i (Nat.le_of_not_lt hi) hl

theorem mount_refAt (hv : Mkfs.Layout v) (h : Built v files m s) (hl : (s.dinode i).Live) (x : Site) :
    (m.finish.mount.dinode i).refAt m.finish.mount.block x = (s.dinode i).refAt s.block x := by
  have hi := h.lt_slots hl
  have hm : m.finish.mount.dinode i = m.finish.inode i := if_pos hi
  rw [hm]
  exact h.refAt_finish hv hi hl x

/-- The bitmap marks the blocks below the counter. -/
theorem mount_used (hv : Mkfs.Layout v) (h : Built v files m s) (hf : m.freeblock < BSIZE * 8) {b : Nat}
    (hb : b < FSSIZE) : v.used m.finish.mount.block b = decide (b < m.freeblock) := by
  have hs : mkBmapstart = 58 := by decide
  have hn : nmeta = 60 := by decide
  unfold Volume.used Volume.bblock
  rw [hv.bmapstart]
  simp only [BPB, FSSIZE, BSIZE] at *
  by_cases h0 : b / 4096 = 0
  · rw [h0, Nat.zero_add, show m.finish.mount.block mkBmapstart = _ from m.finish_bitmap, testBit_firstBits]
    exact decide_eq_decide.2 (by omega)
  · have h1 : b / 4096 + mkBmapstart = mkBmapstart + 1 := by omega
    have hzero : m.finish.mount.block (mkBmapstart + 1) = fun _ => 0 := by
      change m.finish.sect (mkBmapstart + 1) = _
      unfold Mkfs.finish
      dsimp only
      rw [Function.update_of_ne (Nat.succ_ne_self _), Mkfs.storeInode_sect (by decide) (by omega)]
      exact h.sim.outer _ (by omega)
    rw [h1, hzero, decide_eq_false (by omega)]
    unfold testBit
    simp

/-- Every block of the image is referred to once, and marked if it is used. -/
theorem mount_alloc (hv : Mkfs.Layout v) (h : Built v files m s) (hf : m.freeblock < BSIZE * 8) :
    Alloc v m.finish.mount.block m.finish.mount.dinode [] := by
  refine h.sim.ok.alloc.congr h.mount_type (fun i x hl => h.mount_refAt hv hl x) fun b hb => ?_
  rw [hv.size] at hb
  rw [h.mount_used hv hf hb, h.sim.blocks.used b hb]

theorem mount_shape (hv : Mkfs.Layout v) (h : Built v files m s) (hl : (s.dinode i).Live) :
    (m.finish.mount.dinode i).Shape m.finish.mount.block (nblocks (s.dinode i).size) := by
  intro x hx
  rw [h.mount_refAt hv hl]
  exact h.sim.ok.shape i hl x hx

/-- When no size is rounded past the last block, the kernel finds the file system it would leave. -/
theorem mount_ok (hv : Mkfs.Layout v) (h : Built v files m s) (hf : m.freeblock < BSIZE * 8)
    (hroot : (files.length + 2) % (BSIZE / DIRENT) ≠ 0) : FsOk v m.finish.mount := by
  have hsizes : ∀ i, (s.dinode i).Live → (m.finish.mount.dinode i).size ≤ MAXFILE * BSIZE ∧
      nblocks (m.finish.mount.dinode i).size = nblocks (s.dinode i).size := by
    intro i hl
    have hle := h.sim.ok.size i hl
    rw [h.mount_dinode (h.lt_slots hl)]
    dsimp only
    unfold imageSize
    split
    · next he =>
      subst he
      rw [h.sim.nodes ROOTINO (by decide), h.size_root] at *
      unfold nblocks
      simp only [MAXFILE, BSIZE, DIRENT] at *
      omega
    · exact ⟨hle, rfl⟩
  refine ⟨h.mount_alloc hv hf, fun i hl => ?_, fun i hl => ?_, ?_⟩
  · rw [(hsizes i ((h.mount_type i).1 hl)).2]
    exact h.mount_shape hv ((h.mount_type i).1 hl)
  · exact (hsizes i ((h.mount_type i).1 hl)).1
  · exact ⟨fun _ _ hj => absurd hj (Nat.lt_irrefl 0), fun _ hk => absurd hk (Nat.lt_irrefl 0),
      fun _ hk => absurd hk (Nat.lt_irrefl 0)⟩

end Built

end Xv6
