import Mathlib.Order.Interval.Finset.Nat
import Xv6.Mkfs.Mount

/-!
# Holes in an image

The size of the root directory is rounded up to the next multiple of a block after its last entry
was added. When the entries fill their blocks exactly there is one block more than was allocated.
Nothing checks the number of files either: from inode 208 on, inodes are written over the bitmap,
and the bitmap over the inodes.
-/

namespace Xv6

open Lib

variable {v : Volume} {m img : Mkfs} {s : Fs} {i bn : Nat}
  {files : List (List (BitVec 8) × List (BitVec 8))}

/-- Every block below the end of the file has an address. -/
def Mkfs.NoHole (m : Mkfs) (i : Nat) : Prop :=
  ∀ bn, bn < nblocks (m.inode i).size → (m.inode i).blockAt m.sect bn ≠ 0

namespace Built

theorem noHole_file (hv : Mkfs.Layout v) (h : Built v files m s) (hi : i < inodeSlots)
    (hl : (s.dinode i).Live) (hne : i ≠ ROOTINO) : m.finish.NoHole i := by
  intro bn hbn
  rw [h.blockAt_finish hv hi hl]
  rwa [Mkfs.finish_inode hi h.size_root_le, if_neg hne, ← h.sim.nodes i hi] at hbn

/-- The root has a hole when its entries fill their blocks. -/
theorem noHole_root (hv : Mkfs.Layout v) (h : Built v files m s) :
    m.finish.NoHole ROOTINO ↔ (files.length + 2) % (BSIZE / DIRENT) ≠ 0 := by
  have hsize := h.size_root
  have hfin : (m.finish.inode ROOTINO).size = (DIRENT * (files.length + 2) / BSIZE + 1) * BSIZE := by
    rw [Mkfs.finish_inode (by decide) h.size_root_le, if_pos rfl, ← hsize]
    rfl
  have hiff : ∀ bn, (m.finish.inode ROOTINO).blockAt m.finish.sect bn ≠ 0 ↔
      bn < nblocks (DIRENT * (files.length + 2)) := by
    intro bn
    rw [h.blockAt_finish hv (by decide) h.live_root, h.sim.nodes ROOTINO (by decide), hsize]
  unfold Mkfs.NoHole
  rw [hfin]
  constructor
  · intro hall
    have := (hiff (DIRENT * (files.length + 2) / BSIZE)).1 (hall _ (by
      unfold nblocks
      simp only [BSIZE, DIRENT]
      omega))
    unfold nblocks at this
    simp only [BSIZE, DIRENT] at *
    omega
  · intro hne bn hbn
    rw [hiff]
    unfold nblocks at hbn ⊢
    simp only [BSIZE, DIRENT] at *
    omega

end Built

/-! ## Too many files -/

/-- The bitmap read as an inode. -/
theorem bitmap_hole {f : Nat} (hf : 64 < f) (hsect : img.sect mkBmapstart = firstBits f) :
    ¬ img.NoHole inodeSlots := by
  have hinode : img.inode inodeSlots = getDinode (firstBits f) 0 := by
    unfold Mkfs.inode
    rw [show inodeSlots / IPB + mkInodestart = mkBmapstart by decide, hsect,
      show inodeSlots % IPB = 0 by decide]
  have hbit : ∀ j k, k < 32 → (getWord (firstBits f) j).getLsbD k = decide (32 * j + k < f) :=
    fun j k hk => by rw [getLsbD_getWord _ _ hk, testBit_firstBits]
  intro hno
  unfold Mkfs.NoHole at hno
  rw [hinode] at hno
  by_cases h96 : f ≤ 96
  · -- The size is not 0, and no address is set.
    have hsize : 0 < (getWord (firstBits f) 2).toNat := by
      refine Nat.pos_of_ne_zero fun h0 => ?_
      have hb := hbit 2 0 (by decide)
      rw [BitVec.eq_of_toNat_eq (y := 0#32) h0, decide_eq_true (by omega)] at hb
      simp at hb
    have haddr : getWord (firstBits f) 3 = 0#32 := by
      refine BitVec.eq_of_getLsbD_eq fun k hk => ?_
      rw [hbit 3 k hk, decide_eq_false (by omega), BitVec.getLsbD_zero]
    refine hno 0 ?_ ?_
    · change 0 < nblocks (getWord (firstBits f) 2).toNat
      unfold nblocks
      simp only [BSIZE]
      omega
    · change (getWord (firstBits f) 3).toNat = 0
      rw [haddr]
      rfl
  · -- The size is larger than any file.
    have hsize : getWord (firstBits f) 2 = BitVec.allOnes 32 := by
      refine BitVec.eq_of_getLsbD_eq fun k hk => ?_
      rw [hbit 2 k hk, decide_eq_true (by omega), BitVec.getLsbD_allOnes, decide_eq_true hk]
    refine hno MAXFILE ?_ ?_
    · change MAXFILE < nblocks (getWord (firstBits f) 2).toNat
      rw [hsize]
      decide
    · exact if_neg (Nat.lt_irrefl _)

/-- The blocks of the root directory are below the counter. -/
theorem Built.counter (hv : Mkfs.Layout v) (h : Built v files m s) {k : Nat} (hk : k ≤ NDIRECT)
    (hroot : k ≤ nblocks (DIRENT * (files.length + 2))) : nmeta + k ≤ m.freeblock := by
  have hsize : (s.dinode ROOTINO).size = DIRENT * (files.length + 2) := by
    rw [h.sim.nodes ROOTINO (by decide), h.size_root]
  have hne : ∀ j, j < k → ∀ hj : j < NDIRECT, (s.dinode ROOTINO).refAt s.block (.direct ⟨j, hj⟩) ≠ 0 := by
    intro j hjk hj
    rw [h.sim.ok.shape ROOTINO h.live_root (.direct ⟨j, hj⟩) nofun, hsize]
    exact Nat.lt_of_lt_of_le hjk hroot
  have hcard : (Finset.range k).card ≤ (Finset.Ico nmeta m.freeblock).card := by
    refine Finset.card_le_card_of_injOn (s.dinode ROOTINO).addrs (fun j hj => ?_) fun i hi j hj hij => ?_
    · have hjk := Finset.mem_range.1 hj
      have hjd : j < NDIRECT := Nat.lt_of_lt_of_le hjk hk
      have hdata := h.sim.ok.alloc.data ROOTINO (.direct ⟨j, hjd⟩) h.live_root (hne j hjk hjd)
      have hused := h.sim.ok.alloc.ref_used h.live_root (hne j hjk hjd)
      rw [h.sim.blocks.used _ (hv.size ▸ hdata.2), decide_eq_true_iff] at hused
      exact Finset.mem_coe.2 (Finset.mem_Ico.2 ⟨hv.datastart ▸ hdata.1, hused⟩)
    · have hik := Finset.mem_range.1 (Finset.mem_coe.1 hi)
      have hjk := Finset.mem_range.1 (Finset.mem_coe.1 hj)
      have hid : i < NDIRECT := Nat.lt_of_lt_of_le hik hk
      have hjd : j < NDIRECT := Nat.lt_of_lt_of_le hjk hk
      have hsite := (h.sim.ok.alloc.unique ROOTINO (.direct ⟨i, hid⟩) ROOTINO (.direct ⟨j, hjd⟩) h.live_root
        h.live_root (hne i hik hid) hij).2
      exact congrArg Fin.val (Site.direct.inj hsite)
  rw [Finset.card_range, Nat.card_Ico] at hcard
  have := h.sim.blocks.start
  omega

/-- With more files than the blocks of inodes hold, the bitmap lies over an inode. -/
theorem main_overflow (hv : Mkfs.Layout v) (hmany : inodeSlots < files.length + 2) :
    wp (Mkfs.main files) Anyway (fun _ m' => ¬ m'.NoHole inodeSlots) Mkfs.blank := by
  refine main_wp hv fun m s h => ?_
  have hslots : inodeSlots = 208 := by decide
  have hlen : (files.take 206).length = 206 := by
    rw [List.length_take]
    omega
  rw [← List.take_append_drop 206 files, addFiles_append, bind_assoc]
  refine wp_seq (wp_post (h.addFiles hv (files.take 206) [] m s (by rw [hlen]; decide)) ?_)
  rintro ⟨⟩ m1 ⟨-, s1, h1⟩
  rw [List.nil_append] at h1
  have hcount : nmeta + 7 ≤ m1.freeblock := h1.counter hv (by decide) (by rw [hlen]; decide)
  refine wp_seq (wp_post (Grows.addFiles ROOTINO (files.drop 206) m1) fun _ m2 h2 => ?_)
  refine finish_wp fun _ => bitmap_hole ?_ m2.finish_bitmap
  have hn : nmeta = 60 := by decide
  omega

/-- An image has no hole, and the kernel reads it without a write, exactly when the inodes are within
their blocks and the entries of the root do not fill theirs. -/
theorem mkfs_no_holes_iff (h : Mkfs.main files Mkfs.blank = .ok ((), img)) :
    (∀ i, 1 ≤ i → i ≤ files.length + 1 → img.NoHole i ∧ ∀ v, Mkfs.Layout v → ∀ off n,
      ∃ r, readi v 0 off n (Draft.opened img.mount i) = .ok (r, Draft.opened img.mount i)) ↔
    files.length + 2 ≤ inodeSlots ∧ (files.length + 2) % (BSIZE / DIRENT) ≠ 0 := by
  constructor
  · intro hall
    have hroom : files.length + 2 ≤ inodeSlots := by
      by_contra hmany
      have hhole := of_wp (main_overflow Mkfs.layout_volume (Nat.lt_of_not_le hmany)) h
      exact hhole (hall inodeSlots (by decide) (by omega)).1
    obtain ⟨m, s, hb, -, rfl⟩ := of_wp (main_built Mkfs.layout_volume hroom) h
    exact ⟨hroom, (hb.noHole_root Mkfs.layout_volume).1 (hall ROOTINO (Nat.le_refl _) (Nat.le_add_left ..)).1⟩
  · rintro ⟨hroom, hmod⟩ i h1 hi
    obtain ⟨m, s, hb, hf, rfl⟩ := of_wp (main_built Mkfs.layout_volume hroom) h
    refine ⟨?_, fun v hv off n => ?_⟩
    · by_cases hne : i = ROOTINO
      · subst hne
        exact (hb.noHole_root Mkfs.layout_volume).2 hmod
      · exact hb.noHole_file Mkfs.layout_volume (by omega) (hb.live h1 hi) hne
    · obtain ⟨m', s', hb', hf', he⟩ := of_wp (main_built hv hroom) h
      rw [he]
      have hok := hb'.mount_ok hv hf' hmod
      have hlive : (m'.finish.mount.dinode i).Live := (hb'.mount_type i).2 (hb'.live h1 hi)
      have hslot := Fs.setSlot_self m'.finish.mount 0 ⟨i, 1, true, m'.finish.mount.dinode i⟩
      have href : 0 < ((Draft.opened m'.finish.mount i).icache 0).ref := by
        unfold Draft.opened
        rw [hslot]
        exact Nat.one_pos
      have hvalid : ((Draft.opened m'.finish.mount i).icache 0).valid = true := by
        unfold Draft.opened
        rw [hslot]
      have hwp : wp (readi v 0 off n) (fun _ => False) (fun _ s1 => s1 = Draft.opened m'.finish.mount i)
          (Draft.opened m'.finish.mount i) :=
        wp_post (readi_wp (Draft.opened_ok hok (fun _ => rfl) hlive) href hvalid n) fun _ _ hr => hr.1
      obtain ⟨r, s1, hr, hs⟩ := exists_of_wp hwp
      exact ⟨r, hs ▸ hr⟩

namespace Listing

/-- Thirty empty files: with "." and ".." they are the entries of one block. -/
def thirty : List (List (BitVec 8) × List (BitVec 8)) :=
  (List.range 30).map fun i => ([BitVec.ofNat 8 (97 + i)], [])

/-- One file, with two bytes. -/
def one : List (List (BitVec 8) × List (BitVec 8)) := [([97#8], [1#8, 2#8])]

end Listing

/-- With thirty files the root has a second block that was never allocated, and the kernel allocates
one when it reads there. -/
theorem thirty_files_hole :
    ∃ img, Mkfs.main Listing.thirty Mkfs.blank = .ok ((), img) ∧ ¬ img.NoHole ROOTINO ∧
      ∃ r s, readi Mkfs.volume 0 BSIZE DIRENT (Draft.opened img.mount ROOTINO) = .ok (r, s) ∧
        (Draft.opened img.mount ROOTINO).logged = [] ∧ s.logged ≠ [] := by
  have hok : returns (Mkfs.main Listing.thirty Mkfs.blank) (fun _ img =>
      decide (1 < nblocks (img.inode ROOTINO).size ∧ (img.inode ROOTINO).blockAt img.sect 1 = 0) &&
        returns (readi Mkfs.volume 0 BSIZE DIRENT (Draft.opened img.mount ROOTINO)) fun _ s =>
          !s.logged.isEmpty) = true := by decide +kernel
  obtain ⟨⟨⟩, img, himg, htest⟩ := of_returns hok
  rw [Bool.and_eq_true, decide_eq_true_iff] at htest
  obtain ⟨⟨hsize, hzero⟩, hread⟩ := htest
  obtain ⟨r, s, hr, hlogged⟩ := of_returns hread
  refine ⟨img, himg, fun hno => hno 1 hsize hzero, r, s, hr, rfl, fun hnil => ?_⟩
  rw [hnil] at hlogged
  exact Bool.noConfusion hlogged

theorem one_file_no_hole : ∃ img, Mkfs.main Listing.one Mkfs.blank = .ok ((), img) ∧
    ∀ i, 1 ≤ i → i ≤ 2 → img.NoHole i := by
  have hok : returns (Mkfs.main Listing.one Mkfs.blank) (fun _ _ => true) = true := by decide +kernel
  obtain ⟨⟨⟩, img, himg, -⟩ := of_returns hok
  exact ⟨img, himg, fun i h1 hi => ((mkfs_no_holes_iff himg).2 (by decide) i h1 hi).1⟩

end Xv6
