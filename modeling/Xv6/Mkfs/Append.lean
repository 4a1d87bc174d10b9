import Xv6.Fs.ByteFile
import Xv6.Mkfs.Image

/-!
# `mkfs` appends as the kernel writes

The kernel allocates blocks by the bitmap, `mkfs` by a counter. `Draft v m s` relates an image under
construction to a file system of the kernel whose bitmap has the blocks below the counter: then
`balloc` returns the counter, and `iappend` does what `writei` does at the end of a file.
-/

namespace Xv6

open Lib

/-- The volume that the superblock of `mkfs` describes. -/
structure Mkfs.Layout (v : Volume) : Prop where
  size : v.size = FSSIZE
  ninodes : v.ninodes = NINODES
  inodestart : v.inodestart = mkInodestart
  bmapstart : v.bmapstart = mkBmapstart
  datastart : v.datastart = nmeta

/-- Such a volume, without devices. -/
def Mkfs.volume : Volume where
  size := FSSIZE
  ninodes := NINODES
  inodestart := mkInodestart
  bmapstart := mkBmapstart
  datastart := nmeta
  devRead := fun _ => none
  devWrite := fun _ => none
  bmap_pos := by decide
  bmap_fits := by decide
  small := by decide

theorem Mkfs.layout_volume : Mkfs.Layout Mkfs.volume := ⟨rfl, rfl, rfl, rfl, rfl⟩

/-- The inodes that the blocks of inodes hold. -/
abbrev inodeSlots : Nat := ninodeblocks * IPB

variable {v : Volume} {m m0 : Mkfs} {s s' : Fs} {d : Dinode} {i n off : Nat} {p : List (BitVec 8)}

/-- Data blocks are sectors, and the used blocks are those below the counter. -/
structure SameBlocks (v : Volume) (m : Mkfs) (s : Fs) : Prop where
  data : ∀ b, nmeta ≤ b → s.block b = m.sect b
  used : ∀ b, b < FSSIZE → v.used s.block b = decide (b < m.freeblock)
  fresh : ∀ b, m.freeblock ≤ b → m.sect b = fun _ => 0
  start : nmeta ≤ m.freeblock

theorem SameBlocks.congr (h : SameBlocks v m s) (hb : s'.block = s.block) : SameBlocks v m s' :=
  ⟨fun b => hb ▸ h.data b, fun b => hb ▸ h.used b, h.fresh, h.start⟩

/-! ## Blocks -/

/-- The loop of `balloc` with the bit that it finds in the block of `b`. -/
def ballocFound (v : Volume) (k b : Nat) (d : Nat → BitVec 8) : Option Nat → F Nat
  | some bi => do
    bchange (v.bblock b) (setBit d bi)
    bzero (b + bi)
    pure (b + bi)
  | none => ballocLoop v k (b + BPB)

/-- The loop of `balloc` stops at the counter. -/
theorem ballocLoop_first {f : Nat} (hv : Mkfs.Layout v)
    (hused : ∀ b, b < FSSIZE → v.used s.block b = decide (b < f)) (hf : f < FSSIZE) :
    ∀ k b : Nat, b % BPB = 0 → b ≤ f → f < b + k * BPB →
    ballocLoop v k b s = .ok (f,
      { s with
        block := Function.update (Function.update s.block (v.bblock f)
          (setBit (s.block (v.bblock f)) (f % BPB))) f fun _ => 0
        logged := s.logged ++ [v.bblock f] ++ [f] }) := by
  intro k
  induction k with
  | zero =>
    intro b _ hb hlt
    omega
  | succ k ih =>
    intro b hmod hb hlt
    have hbit : ∀ bi, bi < BPB → b + bi < FSSIZE →
        testBit (s.block (v.bblock b)) bi = decide (b + bi < f) := by
      intro bi hbi hsize
      rw [← hused _ hsize]
      unfold Volume.used Volume.bblock
      simp only [BPB] at *
      rw [show (b + bi) / 4096 = b / 4096 by omega, show (b + bi) % 4096 = bi by omega]
    have hsize : v.size = FSSIZE := hv.size
    have hstep : ballocLoop v (k + 1) b s = ballocFound v k b (s.block (v.bblock b))
        ((List.range (min BPB (v.size - b))).find? fun bi =>
          !testBit (s.block (v.bblock b)) bi) s := rfl
    by_cases hin : f < b + BPB
    · have hfind : ((List.range (min BPB (v.size - b))).find? fun bi =>
          !testBit (s.block (v.bblock b)) bi) = some (f - b) := by
        rw [List.find?_range_eq_some]
        refine ⟨?_, List.mem_range.2 (by omega), fun j hj => ?_⟩
        · rw [hbit _ (by omega) (by omega), decide_eq_false (by omega)]
          rfl
        · rw [hbit _ (by omega) (by omega), decide_eq_true (by omega)]
          rfl
      have hblock : v.bblock b = v.bblock f := by
        unfold Volume.bblock
        simp only [BPB] at *
        omega
      have hpos : f - b = f % BPB := by
        simp only [BPB] at *
        omega
      have hsum : b + f % BPB = f := by omega
      rw [hstep, hfind, hpos, hblock]
      unfold ballocFound
      dsimp only
      rw [hblock, hsum]
      rfl
    · have hfind : ((List.range (min BPB (v.size - b))).find? fun bi =>
          !testBit (s.block (v.bblock b)) bi) = none := by
        rw [List.find?_eq_none]
        intro bi hbi
        have := List.mem_range.1 hbi
        rw [hbit _ (by omega) (by omega), decide_eq_true (by omega)]
        decide
      rw [hstep, hfind]
      refine ih (b + BPB) ?_ (by omega) ?_
      · rw [Nat.add_mod_right, hmod]
      · rw [Nat.add_mul] at hlt
        omega

/-- `balloc` takes the block that the counter is at. -/
theorem SameBlocks.balloc (hv : Mkfs.Layout v) (h : SameBlocks v m s) (hlt : m.freeblock < FSSIZE) :
    wp (balloc v) (fun _ => False) (fun b s1 => b = m.freeblock ∧
      SameBlocks v { m with freeblock := m.freeblock + 1 } s1 ∧ s1.icache = s.icache ∧
      s1.dinode = s.dinode) s := by
  have hsize : v.size = FSSIZE := hv.size
  have hdata : v.datastart = nmeta := hv.datastart
  have hrun := ballocLoop_first hv h.used hlt ((v.size + BPB - 1) / BPB) 0 (Nat.zero_mod _)
    (Nat.zero_le _) (by
      simp only [BPB, FSSIZE] at *
      omega)
  have hD : v.Data m.freeblock := ⟨by rw [hdata]; exact h.start, by rw [hsize]; exact hlt⟩
  have hbm : v.bblock m.freeblock < nmeta := by
    rw [← hdata]
    exact Volume.bblock_lt hD.2
  refine wp_ok hrun ⟨rfl, ⟨fun b hb => ?_, fun b hb => ?_, fun b hb => h.fresh b (by
    have : m.freeblock + 1 ≤ b := hb
    omega), Nat.le_succ_of_le h.start⟩, rfl, rfl⟩
  · dsimp only
    by_cases he : b = m.freeblock
    · subst he
      rw [Function.update_self, h.fresh _ (Nat.le_refl _)]
    · rw [Function.update_of_ne he, Function.update_of_ne (by omega), h.data b hb]
  · dsimp only
    rw [Volume.used_update hD (by rw [hsize]; exact hb), Volume.used_setBit, h.used b hb,
      ← Bool.decide_or]
    exact decide_eq_decide.2 (by omega)

/-- `d` is the inode in the memory of `mkfs` and in entry 0 of the cache; since `m0` nothing was
written below the data blocks. -/
structure Shadow (v : Volume) (m0 : Mkfs) (d : Dinode) (m : Mkfs) (s : Fs) : Prop where
  blocks : SameBlocks v m s
  low : ∀ b, b < nmeta → m.sect b = m0.sect b
  freeinode : m.freeinode = m0.freeinode
  grows : m0.freeblock ≤ m.freeblock
  node : s.node 0 = d
  fits : d.Fits

theorem Dinode.Fits.setAddr (h : d.Fits) {k b : Nat} (hk : k ≤ NDIRECT) (hb : b < 2 ^ 32) :
    (d.setAddr k b).Fits := by
  refine ⟨h.size, fun j hj => ?_, fun j hj => ?_⟩
  · by_cases he : j = k
    · subst he
      rwa [Dinode.setAddr_self]
    · rw [Dinode.setAddr_of_ne he]
      exact h.addr j hj
  · rw [Dinode.setAddr_of_ne (by omega)]
    exact h.beyond j hj

/-- The next block becomes one of the inode: the kernel goes on from the state `s1`. -/
theorem Shadow.take (hv : Mkfs.Layout v) (h : Shadow v m0 d m s) {k : Nat} (hk : k ≤ NDIRECT)
    (hlt : m.freeblock < FSSIZE) :
    ∃ s1, Shadow v m0 (d.setAddr k m.freeblock) { m with freeblock := m.freeblock + 1 } s1 ∧
      ∀ {E : String → Prop} {x : Nat → F Nat} {Q : Nat → Fs → Prop}, wp (x m.freeblock) E Q s1 →
        wp (do
          let addr ← balloc v
          setNode 0 fun d => d.setAddr k addr
          x addr) E Q s := by
  obtain ⟨_, s1, hrun, rfl, hb, hc, -⟩ := exists_of_wp (h.blocks.balloc hv hlt)
  have hnode : s1.node 0 = d := by
    rw [← h.node]
    unfold Fs.node
    rw [hc]
  refine ⟨s1.setNode 0 (d.setAddr k m.freeblock), ⟨⟨hb.data, hb.used, hb.fresh, hb.start⟩, h.low,
    h.freeinode, Nat.le_succ_of_le h.grows, Fs.setNode_node _ _ _, h.fits.setAddr hk ?_⟩, fun hx => ?_⟩
  · simp only [FSSIZE] at hlt
    omega
  · refine wp_seq (wp_ok hrun (wp_seq (setNode_wp ?_)))
    rwa [hnode]

theorem rsect_wp {E : String → Prop} {Q : (Nat → BitVec 8) → Mkfs → Prop} {sec : Nat} (hE : E "read")
    (h : sec < FSSIZE → Q (m.sect sec) m) : wp (Mkfs.rsect sec) E Q m :=
  wp_seq (get_wp (wp_ite.2 ⟨h, fun _ => hE⟩))

theorem rsect_ok {E : String → Prop} {Q : (Nat → BitVec 8) → Mkfs → Prop} {sec : Nat} (hlt : sec < FSSIZE)
    (h : Q (m.sect sec) m) : wp (Mkfs.rsect sec) E Q m :=
  wp_seq (get_wp (wp_ite.2 ⟨fun _ => h, fun hn => absurd hlt hn⟩))

theorem nextBlock_wp {E : String → Prop} {Q : Nat → Mkfs → Prop}
    (h : Q m.freeblock { m with freeblock := m.freeblock + 1 }) : wp Mkfs.nextBlock E Q m :=
  wp_seq (get_wp (wp_seq (set_wp h)))

/-- What `mkfs` and the kernel do with the indirect block. -/
theorem Shadow.entry (hv : Mkfs.Layout v) (h : Shadow v m0 d m s) (fbn : Nat)
    (hlow : nmeta ≤ d.addrs NDIRECT) (hhigh : d.addrs NDIRECT < m.freeblock) :
    wp (do
      let indirect ← Mkfs.rsect (d.addrs NDIRECT)
      if (getWord indirect (fbn - NDIRECT)).toNat = 0 then do
        let b ← Mkfs.nextBlock
        Mkfs.wsect (d.addrs NDIRECT) (setWord indirect (fbn - NDIRECT) (BitVec.ofNat 32 b))
        pure (d, b)
      else pure (d, (getWord indirect (fbn - NDIRECT)).toNat)) Anyway
      (fun r m1 => r.2 < FSSIZE →
        wp (do
          let a ← bread (d.addrs NDIRECT)
          let addr := (getWord a (fbn - NDIRECT)).toNat
          if addr = 0 then do
            let addr ← balloc v
            let a ← bread (d.addrs NDIRECT)
            bchange (d.addrs NDIRECT) (setWord a (fbn - NDIRECT) (BitVec.ofNat 32 addr))
            pure addr
          else pure addr) (fun _ => False) (fun b s1 => b = r.2 ∧ Shadow v m0 r.1 m1 s1) s) m := by
  have hsect : s.block (d.addrs NDIRECT) = m.sect (d.addrs NDIRECT) := h.blocks.data _ hlow
  refine wp_seq (rsect_wp trivial fun hlt => ?_)
  refine wp_ite.2 ⟨fun h0 => ?_, fun h0 _ => ?_⟩
  · refine wp_seq (nextBlock_wp (wp_seq (modify_wp ?_)))
    intro hf
    have hf : m.freeblock < FSSIZE := hf
    refine wp_seq (wp_seq (get_wp ?_))
    simp only [wp_pure]
    rw [hsect, if_pos h0]
    refine wp_seq (wp_post (h.blocks.balloc hv hf) ?_)
    rintro _ s1 ⟨rfl, hb, hc, -⟩
    refine wp_seq (wp_seq (get_wp ?_))
    simp only [wp_pure]
    rw [show s1.block (d.addrs NDIRECT) = m.sect (d.addrs NDIRECT) from hb.data _ hlow]
    have hD : v.Data (d.addrs NDIRECT) := ⟨by rw [hv.datastart]; exact hlow, by rw [hv.size]; exact hlt⟩
    refine wp_seq (modify_wp ⟨rfl, ⟨fun b hbd => ?_, fun b hbs => ?_, fun b hbf => ?_, hb.start⟩,
      fun b hbl => ?_, h.freeinode, Nat.le_succ_of_le h.grows, ?_, h.fits⟩)
    · dsimp only
      by_cases he : b = d.addrs NDIRECT
      · rw [he, Function.update_self, Function.update_self]
      · rw [Function.update_of_ne he, Function.update_of_ne he]
        exact hb.data b hbd
    · rw [Volume.used_update hD (by rw [hv.size]; exact hbs)]
      exact hb.used b hbs
    · have hbf : m.freeblock + 1 ≤ b := hbf
      dsimp only
      rw [Function.update_of_ne (by omega)]
      exact hb.fresh b hbf
    · dsimp only
      rw [Function.update_of_ne (by omega)]
      exact h.low b hbl
    · rw [← h.node]
      unfold Fs.node
      dsimp only
      rw [hc]
  · refine wp_seq (wp_seq (get_wp ?_))
    simp only [wp_pure]
    rw [hsect, if_neg h0]
    exact ⟨rfl, h⟩

/-- A block of an open file is in use. -/
theorem FileOpen.ref_below (hv : Mkfs.Layout v) (h : FileOpen v s 0 n) (hb : SameBlocks v m s) {x : Site}
    (hx : (s.node 0).refAt s.block x ≠ 0) :
    nmeta ≤ (s.node 0).refAt s.block x ∧ (s.node 0).refAt s.block x < m.freeblock := by
  have hlive : (s.table 0 (s.icache 0).inum).Live := by
    rw [Fs.table_self]
    exact h.live
  have hdata := h.alloc.data _ x hlive
  have hused := h.alloc.ref_used (x := x) hlive
  rw [Fs.table_self] at hdata hused
  obtain ⟨hlow, hhigh⟩ := hdata hx
  rw [hv.datastart] at hlow
  rw [hv.size] at hhigh
  have := hused hx
  rw [hb.used _ hhigh, decide_eq_true_iff] at this
  exact ⟨hlow, this⟩

/-- `mkfs` finds or makes the block that `bmap` does, if it lies in the image. -/
theorem Shadow.blockFor (hv : Mkfs.Layout v) (h : Shadow v m0 d m s) (ho : FileOpen v s 0 n) {fbn : Nat}
    (hmax : fbn < MAXFILE) :
    wp (Mkfs.blockFor d fbn) Anyway (fun r m1 => r.2 < FSSIZE →
      wp (bmap v 0 fbn) (fun _ => False) (fun b s1 => b = r.2 ∧ Shadow v m0 r.1 m1 s1) s) m := by
  have hnode : (s.icache 0).node = d := h.node
  unfold Mkfs.blockFor bmap
  refine wp_ite.2 ⟨fun hlt => ?_, fun hge => ?_⟩
  · refine wp_ite.2 ⟨fun h0 => ?_, fun h0 _ => ?_⟩
    · refine wp_seq (nextBlock_wp fun hf => wp_seq (get_wp ?_))
      rw [if_pos hlt, hnode, if_pos h0]
      obtain ⟨s1, h1, hx⟩ := h.take hv (show fbn ≤ NDIRECT by omega) hf
      exact hx ⟨rfl, h1⟩
    · refine wp_seq (get_wp ?_)
      rw [if_pos hlt, hnode, if_neg h0]
      exact ⟨rfl, h⟩
  · have hent : fbn - NDIRECT < NINDIRECT := by
      simp only [NDIRECT, NINDIRECT, MAXFILE] at *
      omega
    refine wp_ite.2 ⟨fun h0 => ?_, fun h0 => ?_⟩
    · refine wp_seq (nextBlock_wp ?_)
      by_cases hf : m.freeblock < FSSIZE
      · obtain ⟨s1, h1, hx⟩ := h.take hv (Nat.le_refl NDIRECT) hf
        have hnew : (d.setAddr NDIRECT m.freeblock).addrs NDIRECT = m.freeblock := Dinode.setAddr_self _
        have hentry := h1.entry hv fbn (by rw [hnew]; exact h.blocks.start) (by
          rw [hnew]
          exact Nat.lt_succ_self _)
        refine wp_post hentry fun r m1 hr hx1 => wp_seq (get_wp ?_)
        rw [if_neg hge, if_pos hent, hnode, if_pos h0]
        rw [hnew] at hr
        exact hx (hr hx1)
      · refine wp_seq (wp_seq (rsect_wp trivial fun hlt => ?_))
        rw [Dinode.setAddr_self] at hlt
        exact absurd hlt hf
    · have hind := ho.ref_below hv h.blocks (x := .indirect) (by rw [Dinode.refAt_indirect, h.node]; exact h0)
      rw [Dinode.refAt_indirect, h.node] at hind
      refine wp_post (h.entry hv fbn hind.1 hind.2) fun r m1 hr hx => wp_seq (get_wp ?_)
      rw [if_neg hge, if_pos hent, hnode, if_neg h0]
      exact hr hx

/-! ## `iappend` -/

/-- The bytes of one block are changed in both. -/
theorem Shadow.write (hv : Mkfs.Layout v) (h : Shadow v m0 d m s) {x : Nat} (hlow : nmeta ≤ x)
    (hhigh : x < m.freeblock) (hlt : x < FSSIZE) (f : Nat → BitVec 8) {l : List Nat} :
    Shadow v m0 d { m with sect := Function.update m.sect x f }
      { s with block := Function.update s.block x f, logged := l } := by
  have hD : v.Data x := ⟨by rw [hv.datastart]; exact hlow, by rw [hv.size]; exact hlt⟩
  refine ⟨⟨fun b hb => ?_, fun b hb => ?_, fun b hb => ?_, h.blocks.start⟩, fun b hb => ?_, h.freeinode,
    h.grows, h.node, h.fits⟩
  · dsimp only
    by_cases he : b = x
    · rw [he, Function.update_self, Function.update_self]
    · rw [Function.update_of_ne he, Function.update_of_ne he]
      exact h.blocks.data b hb
  · rw [Volume.used_update hD (by rw [hv.size]; exact hb)]
    exact h.blocks.used b hb
  · have hb : m.freeblock ≤ b := hb
    dsimp only
    rw [Function.update_of_ne (by omega)]
    exact h.blocks.fresh b hb
  · dsimp only
    rw [Function.update_of_ne (by omega)]
    exact h.low b hb

/-- The two loops go together, with the same offset at the end. -/
theorem appendLoop_shadow (hv : Mkfs.Layout v) : ∀ (k : Nat) (d : Dinode) (off : Nat)
    (p : List (BitVec 8)) (m : Mkfs) (s : Fs) (n : Nat), Shadow v m0 d m s → FileOpen v s 0 n →
    off ≤ n * BSIZE →
    wp (Mkfs.appendLoop k d off p) Anyway (fun r m' =>
      wp (writeLoop v 0 k off p) (fun _ => False) (fun off' s' => off' = r.2 ∧ Shadow v m0 r.1 m' s') s) m := by
  intro k
  induction k with
  | zero => exact fun d off p m s n h _ _ => ⟨rfl, h⟩
  | succ k ih =>
    intro d off p m s n h ho hoff
    unfold Mkfs.appendLoop
    refine wp_ite.2 ⟨fun hp => ?_, fun hp => wp_ite.2 ⟨fun hmax => ?_, fun _ => trivial⟩⟩
    · subst hp
      unfold writeLoop
      rw [if_pos rfl]
      exact ⟨rfl, h⟩
    refine wp_seq (wp_post (h.blockFor hv ho hmax) ?_)
    rintro ⟨d1, x⟩ m1 hbmap
    refine wp_seq (rsect_wp trivial fun hx => wp_seq (modify_wp ?_))
    have hbn : off / BSIZE ≤ n := by
      simp only [BSIZE] at *
      omega
    have hboth := wp_and (hbmap hx) (bmap_wp (E := Anyway) trivial ho hbn hmax)
    obtain ⟨y, s1, hrun, ⟨hy, h1⟩, hb⟩ := exists_of_wp (wp_mono hboth (fun _ hm => hm.1) fun _ _ hq => hq)
    obtain rfl : x = y := hy.symm
    have hrank : (siteOf (off / BSIZE)).rank = off / BSIZE := siteOf_rank hmax
    have hne : (s1.node 0).refAt s1.block (siteOf (off / BSIZE)) ≠ 0 := by
      rw [hb.writing.here _ (siteOf_ne_indirect _), hrank]
      omega
    have hbelow := hb.writing.ref_below hv h1.blocks hne
    rw [hb.addr] at hne hbelow
    have hsect : s1.block x = m1.sect x := h1.blocks.data x hbelow.1
    have hstart : off - off / BSIZE * BSIZE = off % BSIZE := by
      simp only [BSIZE]
      omega
    have hcount : min p.length ((off / BSIZE + 1) * BSIZE - off) = min p.length (BSIZE - off % BSIZE) := by
      simp only [BSIZE]
      congr 1
      omega
    rw [hstart, hcount]
    have h2 := h1.write hv hbelow.1 hbelow.2 hx (l := s1.logged ++ [x]) fun i =>
      if off % BSIZE ≤ i ∧ i < off % BSIZE + min p.length (BSIZE - off % BSIZE) then
        p.getD (i - off % BSIZE) 0 else m1.sect x i
    have ho2 := hb.writing.writeData (siteOf_ne_indirect _) hb.addr hne (fun i =>
      if off % BSIZE ≤ i ∧ i < off % BSIZE + min p.length (BSIZE - off % BSIZE) then
        p.getD (i - off % BSIZE) 0 else m1.sect x i) (m := s1.logged ++ [x])
    refine wp_post (ih _ _ _ _ _ _ h2 ho2 ?_) fun r m' hloop => ?_
    · have := Nat.le_max_right n (off / BSIZE + 1)
      simp only [BSIZE] at *
      omega
    · unfold writeLoop
      rw [if_neg hp]
      refine wp_seq (wp_ok hrun (wp_seq (wp_seq (get_wp ?_))))
      simp only [wp_pure]
      rw [hsect]
      exact wp_seq (modify_wp hloop)

/-- The loop ends after the last byte, inside a file of `MAXFILE` blocks. -/
theorem appendLoop_end : ∀ (k : Nat) (d : Dinode) (off : Nat) (p : List (BitVec 8)) (m : Mkfs),
    p.length ≤ k → wp (Mkfs.appendLoop k d off p) Anyway (fun r _ =>
      r.2 = off + p.length ∧ (p ≠ [] → r.2 ≤ MAXFILE * BSIZE)) m := by
  intro k
  induction k with
  | zero =>
    intro d off p m hk
    rw [List.length_eq_zero_iff.1 (Nat.le_zero.1 hk)]
    exact ⟨rfl, fun h => absurd rfl h⟩
  | succ k ih =>
    intro d off p m hk
    unfold Mkfs.appendLoop
    refine wp_ite.2 ⟨fun hp => ?_, fun hp => wp_ite.2 ⟨fun hmax => ?_, fun _ => trivial⟩⟩
    · subst hp
      exact ⟨rfl, fun h => absurd rfl h⟩
    have hpos : 0 < p.length := List.length_pos_iff.2 hp
    refine wp_seq (wp_post (wp_trivial _) ?_)
    rintro ⟨d1, x⟩ m1 -
    refine wp_seq (rsect_wp trivial fun _ => wp_seq (modify_wp ?_))
    have hlen : (p.drop (min p.length ((off / BSIZE + 1) * BSIZE - off))).length ≤ k := by
      rw [List.length_drop]
      simp only [BSIZE]
      omega
    refine wp_post (ih _ _ _ _ hlen) ?_
    rintro r m2 ⟨hr, hfit⟩
    rw [List.length_drop] at hr
    refine ⟨by omega, fun _ => ?_⟩
    by_cases hd : p.drop (min p.length ((off / BSIZE + 1) * BSIZE - off)) = []
    · have hle := List.drop_eq_nil_iff.1 hd
      simp only [BSIZE, MAXFILE] at *
      omega
    · exact hfit hd

/-- The sectors before the data that hold no inodes, until the bitmap is written. -/
def Mkfs.outer (b : Nat) : Nat → BitVec 8 :=
  if b = 1 then ofWords fun j => BitVec.ofNat 32 (Mkfs.superblock.getD j 0) else fun _ => 0

theorem Mkfs.lt_of_outer {b : Nat} (hb : b < mkInodestart ∨ mkBmapstart ≤ b ∧ b < nmeta) : b < nmeta := by
  rcases hb with hb | hb
  · exact hb.trans (by decide)
  · exact hb.2

/-- An image under construction, and a file system of the kernel with the same inodes and blocks. -/
structure Draft (v : Volume) (m : Mkfs) (s : Fs) : Prop where
  blocks : SameBlocks v m s
  nodes : ∀ i, i < inodeSlots → s.dinode i = m.inode i
  outer : ∀ b, b < mkInodestart ∨ mkBmapstart ≤ b ∧ b < nmeta → m.sect b = Mkfs.outer b
  beyond : ∀ i, inodeSlots ≤ i → ¬ (s.dinode i).Live
  ok : FsOk v s
  cold : ∀ k, (s.icache k).ref = 0

/-- An inode is stored in its sector. -/
def Mkfs.storeInode (m : Mkfs) (i : Nat) (d : Dinode) : Mkfs :=
  { m with
    sect := Function.update m.sect (i / IPB + mkInodestart)
      (putDinode (m.sect (i / IPB + mkInodestart)) (i % IPB) d) }

theorem inodeSector_lt (hi : i < inodeSlots) : i / IPB + mkInodestart < FSSIZE := by
  simp only [inodeSlots, ninodeblocks, NINODES, IPB, mkInodestart, LOGSIZE, FSSIZE] at *
  omega

theorem winode_wp {E : String → Prop} {Q : Unit → Mkfs → Prop} (hi : i < inodeSlots)
    (h : Q () (m.storeInode i d)) : wp (Mkfs.winode i d) E Q m :=
  wp_seq (rsect_ok (inodeSector_lt hi) (modify_wp h))

theorem rinode_wp {E : String → Prop} {Q : Dinode → Mkfs → Prop} (hi : i < inodeSlots)
    (h : Q (m.inode i) m) : wp (Mkfs.rinode i) E Q m :=
  wp_seq (rsect_ok (inodeSector_lt hi) h)

theorem Mkfs.storeInode_self (hd : d.Fits) : (m.storeInode i d).inode i = d := by
  unfold Mkfs.inode Mkfs.storeInode
  dsimp only
  rw [Function.update_self, getDinode_putDinode hd]

theorem Mkfs.storeInode_of_ne {j : Nat} (hj : j ≠ i) : (m.storeInode i d).inode j = m.inode j := by
  unfold Mkfs.inode Mkfs.storeInode
  dsimp only
  by_cases hs : j / IPB + mkInodestart = i / IPB + mkInodestart
  · rw [hs, Function.update_self, getDinode_putDinode_of_ne]
    simp only [IPB] at *
    omega
  · rw [Function.update_of_ne hs]

/-- Only a sector of inodes changes. -/
theorem Mkfs.storeInode_sect {b : Nat} (hi : i < inodeSlots) (hb : b < mkInodestart ∨ mkBmapstart ≤ b) :
    (m.storeInode i d).sect b = m.sect b := by
  refine Function.update_of_ne ?_ _ _
  simp only [inodeSlots, ninodeblocks, NINODES, IPB, mkInodestart, mkBmapstart, LOGSIZE] at *
  omega

theorem SameBlocks.storeInode (h : SameBlocks v m s) (hi : i < inodeSlots) :
    SameBlocks v (m.storeInode i d) s := by
  have hmeta : mkBmapstart ≤ nmeta := Nat.le_add_right _ _
  refine ⟨fun b hb => ?_, h.used, fun b hb => ?_, h.start⟩
  · rw [Mkfs.storeInode_sect hi (.inr (hmeta.trans hb))]
    exact h.data b hb
  · rw [Mkfs.storeInode_sect hi (.inr (hmeta.trans (h.start.trans hb)))]
    exact h.fresh b hb

theorem Mkfs.inode_fits (m : Mkfs) (i : Nat) : (m.inode i).Fits := getDinode_fits _ _

theorem Shadow.inode {j : Nat} (h : Shadow v m0 d m s) (hj : j < inodeSlots) : m.inode j = m0.inode j := by
  unfold Mkfs.inode
  rw [h.low]
  simp only [inodeSlots, ninodeblocks, nmeta, NINODES, IPB, mkInodestart, LOGSIZE] at *
  omega

/-- The file system with nothing in the cache. -/
theorem FsOk.cold (h : FsOk v s) {ic : Nat → Inode} (hc : ∀ k, (ic k).ref = 0) {l : List Nat} :
    FsOk v { s with icache := ic, logged := l } :=
  ⟨h.alloc, h.shape, h.size, ⟨fun j _ hj => absurd hj (by rw [hc j]; exact Nat.lt_irrefl 0),
    fun k hk => absurd hk (by rw [hc k]; exact Nat.lt_irrefl 0),
    fun k hk => absurd hk (by rw [hc k]; exact Nat.lt_irrefl 0)⟩⟩

namespace Draft

/-- Entry 0 of the cache holds inode `i`. -/
def opened (s : Fs) (i : Nat) : Fs := s.setSlot 0 ⟨i, 1, true, s.dinode i⟩

theorem opened_ok (hok : FsOk v s) (hcold : ∀ k, (s.icache k).ref = 0) (hlive : (s.dinode i).Live) :
    FsOk v (opened s i) := by
  refine hok.setSlot _ fun _ => ⟨by decide, fun k _ hk => ?_, fun _ => ⟨⟨rfl, rfl, rfl⟩, hlive⟩⟩
  rw [hcold k] at hk
  exact absurd hk (Nat.lt_irrefl 0)

theorem iappend_nil (hi : i < inodeSlots) :
    wp (Mkfs.iappend i []) Anyway (fun _ m' => m' = m.storeInode i (m.inode i)) m :=
  wp_seq (rinode_wp hi (wp_seq (winode_wp hi rfl)))

/-- `iappend` writes what `writei` writes at the end of the file. -/
theorem iappend_cons (hv : Mkfs.Layout v) (h : Draft v m s) (hi : i < inodeSlots)
    (hlive : (s.dinode i).Live) (hdev : (s.dinode i).type ≠ .dev) (hp : p ≠ []) :
    wp (Mkfs.iappend i p) Anyway (fun _ m' => m'.freeinode = m.freeinode ∧
      m.freeblock ≤ m'.freeblock ∧ ∃ s', Draft v m' s' ∧ Written i (s.dinode i).size p s s') m := by
  have hnode : s.dinode i = m.inode i := h.nodes i hi
  have hok := opened_ok h.ok h.cold hlive
  have hslot : (opened s i).icache 0 = ⟨i, 1, true, s.dinode i⟩ := Fs.setSlot_self ..
  have href : 0 < ((opened s i).icache 0).ref := by rw [hslot]; exact Nat.one_pos
  have hvalid : ((opened s i).icache 0).valid = true := by rw [hslot]
  have hin : ((opened s i).icache 0).inum = i := by rw [hslot]
  have hd : (opened s i).node 0 = s.dinode i := by unfold Fs.node; rw [hslot]
  have ho := hok.writing href hvalid
  rw [hd] at ho
  have hmir : Shadow v m (m.inode i) m (opened s i) :=
    ⟨⟨h.blocks.data, h.blocks.used, h.blocks.fresh, h.blocks.start⟩, fun _ _ => rfl, rfl, Nat.le_refl _,
      hd.trans hnode, m.inode_fits i⟩
  refine wp_seq (rinode_wp hi (wp_seq ?_))
  rw [← hnode] at hmir ⊢
  have hoff : (s.dinode i).size ≤ nblocks (s.dinode i).size * BSIZE := by
    unfold nblocks
    simp only [BSIZE]
    omega
  refine wp_post (wp_both (appendLoop_end _ _ _ p m (Nat.le_refl _))
    (appendLoop_shadow hv p.length (s.dinode i) _ p m (opened s i) _ hmir ho hoff)) ?_
  rintro ⟨d', off'⟩ m1 ⟨⟨rfl, hmax⟩, hloop⟩
  have hmax : (s.dinode i).size + p.length ≤ MAXFILE * BSIZE := hmax hp
  have hboth := wp_and hloop (writeLoop_wp (E := Anyway) trivial p.length _ p _ _ ho hoff hmax (Nat.le_refl _))
  obtain ⟨_, s1, hrun, ⟨rfl, h1⟩, hwrote⟩ := exists_of_wp (wp_mono hboth (fun _ hm => hm.1) fun _ _ hq => hq)
  obtain ⟨a, hstored⟩ := hwrote.stored
  have hdin : s1.dinode = s.dinode := hstored.dinode
  have hin1 : (s1.icache 0).inum = i := (hstored.slot 0).2.1.trans hin
  have hnode1 : (s1.icache 0).node = d' := h1.node
  have hpos : 0 < p.length := List.length_pos_iff.2 hp
  have hsmall : (s.dinode i).size + p.length < 2 ^ 32 := by
    simp only [MAXFILE, BSIZE] at hmax
    omega
  -- The kernel stores the inode with its new size, as `mkfs` does.
  have hkernel : wp (writei v 0 (s.dinode i).size p) (fun _ => False) (fun r s2 => r = some p.length ∧
      s2.block = s1.block ∧ s2.dinode = Function.update s.dinode i
        { d' with size := (s.dinode i).size + p.length }) (opened s i) := by
    unfold writei
    refine wp_seq (get_wp ?_)
    rw [show ((opened s i).icache 0).node = s.dinode i from hd, if_neg hdev, if_neg (by omega),
      if_neg (by omega)]
    refine wp_seq (wp_ok hrun ?_)
    rw [if_pos (by omega)]
    refine wp_seq (setNode_wp (wp_seq (wp_seq (get_wp (modify_wp ⟨rfl, rfl, ?_⟩)))))
    simp only [Fs.setNode, Fs.setSlot, Fs.node, Function.update_self]
    rw [hin1, hnode1, hdin]
  have hall := wp_and hkernel (writei_wp (E := Anyway) trivial hok href hvalid p)
  obtain ⟨_, s2, -, ⟨rfl, hblk, hdin2⟩, hok2, -, hspec⟩ :=
    exists_of_wp (wp_mono hall (fun _ hm => hm.1) fun _ _ hq => hq)
  have hspec := hspec (by rw [hd]; exact hdev)
  unfold WriteSpec at hspec
  rw [hin] at hspec
  have hacc : Accepts ((opened s i).dinode i).size (s.dinode i).size p.length :=
    ⟨Nat.le_refl _, hsmall, hmax⟩
  rw [if_pos hacc] at hspec
  obtain ⟨-, hw⟩ := hspec
  have hfits : ({ d' with size := (s.dinode i).size + p.length } : Dinode).Fits :=
    ⟨hsmall, h1.fits.addr, h1.fits.beyond⟩
  refine winode_wp hi ⟨h1.freeinode, h1.grows, { s2 with icache := s.icache }, ⟨?_, fun j hj => ?_,
    fun b hb => ?_, fun j hj => ?_, hok2.cold h.cold, h.cold⟩,
    ⟨hw.size, hw.type, hw.others, hw.here, hw.kept⟩⟩
  · exact (h1.blocks.storeInode hi).congr hblk
  · dsimp only
    rw [hdin2]
    by_cases he : j = i
    · subst he
      rw [Function.update_self, Mkfs.storeInode_self hfits]
    · rw [Function.update_of_ne he, Mkfs.storeInode_of_ne he, h1.inode hj, h.nodes j hj]
  · rw [Mkfs.storeInode_sect hi (hb.imp_right And.left), h1.low b (Mkfs.lt_of_outer hb)]
    exact h.outer b hb
  · dsimp only
    rw [hdin2, Function.update_of_ne (by omega)]
    exact h.beyond j hj

/-- An append to a file or a directory. -/
theorem iappend (hv : Mkfs.Layout v) (h : Draft v m s) (hi : i < inodeSlots) (hlive : (s.dinode i).Live)
    (hdev : (s.dinode i).type ≠ .dev) (p : List (BitVec 8)) :
    wp (Mkfs.iappend i p) Anyway (fun _ m' => m'.freeinode = m.freeinode ∧
      m.freeblock ≤ m'.freeblock ∧ ∃ s', Draft v m' s' ∧ Written i (s.dinode i).size p s s') m := by
  by_cases hp : p = []
  · subst hp
    refine wp_post (iappend_nil hi) ?_
    rintro ⟨⟩ _ rfl
    refine ⟨rfl, Nat.le_refl _, s, ⟨h.blocks.storeInode hi, fun j hj => ?_, fun b hb => ?_, h.beyond,
      h.ok, h.cold⟩, ⟨?_, fun _ => rfl, fun _ _ => rfl, fun k h1 h2 => ?_, fun _ _ _ _ _ => rfl⟩⟩
    · rw [h.nodes j hj]
      by_cases he : j = i
      · subst he
        rw [Mkfs.storeInode_self (m.inode_fits j)]
      · rw [Mkfs.storeInode_of_ne he]
    · rw [Mkfs.storeInode_sect hi (hb.imp_right And.left)]
      exact h.outer b hb
    · rw [List.length_nil, Nat.add_zero, Nat.max_self]
    · rw [List.length_nil] at h2
      omega
  · exact h.iappend_cons hv hi hlive hdev hp

/-- `ialloc` makes an empty inode of the next number. -/
theorem ialloc (h : Draft v m s) (hi : m.freeinode < inodeSlots)
    (hfree : ¬ (s.dinode m.freeinode).Live) (t : FileType) :
    wp (Mkfs.ialloc t) Anyway (fun r m' => r = m.freeinode ∧ m'.freeinode = m.freeinode + 1 ∧
      m'.freeblock = m.freeblock ∧ ∃ s', Draft v m' s' ∧ s'.block = s.block ∧
        s'.dinode = Function.update s.dinode m.freeinode ⟨t, 0, 0, 1, 0, fun _ => 0⟩) m := by
  have hfits : (⟨t, 0, 0, 1, 0, fun _ => 0⟩ : Dinode).Fits :=
    ⟨Nat.two_pow_pos 32, fun _ _ => Nat.two_pow_pos 32, fun _ _ => rfl⟩
  refine wp_seq (get_wp (wp_seq (set_wp (wp_seq (winode_wp hi ⟨rfl, rfl, rfl,
    { s with dinode := Function.update s.dinode m.freeinode ⟨t, 0, 0, 1, 0, fun _ => 0⟩ },
    ⟨?_, fun j hj => ?_, fun b hb => ?_, fun j hj => ?_, ?_, h.cold⟩, rfl, rfl⟩)))))
  · have hb : SameBlocks v { m with freeinode := m.freeinode + 1 } s :=
      ⟨h.blocks.data, h.blocks.used, h.blocks.fresh, h.blocks.start⟩
    exact (hb.storeInode hi).congr rfl
  · dsimp only
    by_cases he : j = m.freeinode
    · subst he
      rw [Function.update_self, Mkfs.storeInode_self hfits]
    · rw [Function.update_of_ne he, Mkfs.storeInode_of_ne he]
      exact h.nodes j hj
  · rw [Mkfs.storeInode_sect hi (hb.imp_right And.left)]
    exact h.outer b hb
  · dsimp only
    rw [Function.update_of_ne (by omega)]
    exact h.beyond j hj
  · refine h.ok.retype (fun _ _ => rfl) rfl (fun hl => absurd hl hfree) fun k hk => ?_
    rw [h.cold k] at hk
    exact absurd hk (Nat.lt_irrefl 0)

end Draft

end Xv6
