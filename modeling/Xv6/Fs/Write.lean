import Xv6.Fs.Bmap

/-!
# The loop of `writei`

It keeps `FileOpen`, adds the blocks that the new end asks for, and changes only the bytes it
writes.
-/

namespace Xv6

open Lib

variable {v : Volume} {s s' s1 s2 : Fs} {n bn b ip off : Nat} {x : Site}

/-- The copy in a valid entry is what the inode is on the disk. -/
theorem FsOk.table_same (h : FsOk v s) (href : 0 < (s.icache ip).ref)
    (hvalid : (s.icache ip).valid = true) (i : Nat) : (s.table ip i).Same (s.dinode i) := by
  by_cases hi : i = (s.icache ip).inum
  · rw [hi, Fs.table_self]
    exact (h.cache.agree ip href hvalid).1
  · rw [s.table_of_ne hi]
    exact ⟨rfl, rfl, rfl⟩

theorem Dinode.Same.live {d e : Dinode} (h : d.Same e) : d.Live ↔ e.Live := by
  unfold Dinode.Live
  rw [h.type]

theorem FsOk.writing (h : FsOk v s) (href : 0 < (s.icache ip).ref)
    (hvalid : (s.icache ip).valid = true) :
    FileOpen v s ip (nblocks (s.node ip).size) := by
  obtain ⟨hsame, hlive⟩ := h.cache.agree ip href hvalid
  have htable := h.table_same href hvalid
  refine ⟨href, hvalid, hsame.live.2 hlive, ?_, fun x hx => ?_, fun i _ hl => h.shape i hl,
    fun i _ hl => h.size i hl, h.cache.single, h.cache.bound, fun k hk hv => ?_⟩
  · exact h.alloc.congr (fun i => (htable i).live) (fun i x _ => (htable i).refAt) fun _ _ => rfl
  · rw [hsame.refAt, hsame.size]
    exact h.shape _ hlive x hx
  · obtain ⟨hk', hl⟩ := h.cache.agree k hk hv
    have ht := htable (s.icache k).inum
    exact ⟨⟨hk'.type.trans ht.type.symm, hk'.size.trans ht.size.symm,
      hk'.addrs.trans ht.addrs.symm⟩, ht.live.2 hl⟩

/-- The inodes on the disk are those of `T`, and so many blocks are there as the sizes say. -/
theorem FsOk.of_table {T : Nat → Dinode} (hd : ∀ i, (T i).Same (s.dinode i))
    (halloc : Alloc v s.block T []) (hcache : Cache s T)
    (hshape : ∀ i, (T i).Live → (T i).Shape s.block (nblocks (T i).size))
    (hsize : ∀ i, (T i).Live → (T i).size ≤ MAXFILE * BSIZE) : FsOk v s := by
  have hlives : ∀ i, (s.dinode i).Live ↔ (T i).Live := fun i => (hd i).live.symm
  refine ⟨halloc.congr hlives (fun i x _ => (hd i).refAt.symm) fun _ _ => rfl, fun i hl x hx => ?_,
    fun i hl => ?_, hcache.single, hcache.bound, fun k hk hv => ?_⟩
  · rw [← (hd i).refAt, ← (hd i).size]
    exact hshape i ((hlives i).1 hl) x hx
  · rw [← (hd i).size]
    exact hsize i ((hlives i).1 hl)
  · obtain ⟨hk', hl⟩ := hcache.agree k hk hv
    have ht := hd (s.icache k).inum
    exact ⟨⟨hk'.type.trans ht.type, hk'.size.trans ht.size, hk'.addrs.trans ht.addrs⟩,
      (hlives _).2 hl⟩

namespace FileOpen

/-- The end of a write: the inode on the disk is the one in memory. -/
theorem settle (h : FileOpen v s ip (nblocks (s.node ip).size))
    (hsize : (s.node ip).size ≤ MAXFILE * BSIZE)
    (hsame : (s.node ip).Same (s.dinode (s.icache ip).inum)) : FsOk v s := by
  refine .of_table (T := s.table ip) (fun i => ?_) h.alloc h.cache (fun i hl => ?_) fun i hl => ?_
  · by_cases hi : i = (s.icache ip).inum
    · rw [hi, Fs.table_self]
      exact hsame
    · rw [s.table_of_ne hi]
      exact ⟨rfl, rfl, rfl⟩
  · by_cases hi : i = (s.icache ip).inum
    · rw [hi, Fs.table_self]
      exact h.here
    · rw [s.table_of_ne hi] at hl ⊢
      exact h.shape i hi hl
  · by_cases hi : i = (s.icache ip).inum
    · rw [hi, Fs.table_self]
      exact hsize
    · rw [s.table_of_ne hi] at hl ⊢
      exact h.size i hi hl

/-- `iupdate` at the end of a write. -/
theorem flush (h : FileOpen v s ip (nblocks (s.node ip).size))
    (hsize : (s.node ip).size ≤ MAXFILE * BSIZE) {m : List Nat} :
    FsOk v { s with dinode := s.table ip, logged := m } := by
  have htable : Fs.table { s with dinode := s.table ip, logged := m } ip = s.table ip :=
    Function.update_idem ..
  have hopen : FileOpen v { s with dinode := s.table ip, logged := m } ip
      (nblocks (s.node ip).size) := by
    refine ⟨h.ref, h.valid, h.live, ?_, h.here, fun i hi hl => ?_, fun i hi hl => ?_,
      h.cache.single, h.cache.bound, ?_⟩
    · rw [htable]
      exact h.alloc
    · change (s.table ip i).Live at hl
      change (s.table ip i).Shape s.block (nblocks (s.table ip i).size)
      rw [s.table_of_ne hi] at hl ⊢
      exact h.shape i hi hl
    · change (s.table ip i).Live at hl
      change (s.table ip i).size ≤ _
      rw [s.table_of_ne hi] at hl ⊢
      exact h.size i hi hl
    · rw [htable]
      exact h.cache.agree
  refine hopen.settle hsize ?_
  change (s.node ip).Same (s.table ip (s.icache ip).inum)
  rw [Fs.table_self]
  exact ⟨rfl, rfl, rfl⟩

/-- The contents of a block of the file change. -/
theorem writeData (h : FileOpen v s ip n) (hx : x ≠ .indirect)
    (hb : (s.node ip).refAt s.block x = b) (hb0 : b ≠ 0) (f : Nat → BitVec 8) {m : List Nat} :
    FileOpen v { s with block := Function.update s.block b f, logged := m } ip n := by
  have hself : (s.table ip (s.icache ip).inum).Live := by
    rw [Fs.table_self]
    exact h.live
  have href0 : (s.table ip (s.icache ip).inum).refAt s.block x ≠ 0 := by
    rw [Fs.table_self, hb]
    exact hb0
  have hdata : v.Data b := by
    have := h.alloc.data _ x hself href0
    rwa [Fs.table_self, hb] at this
  have hnot : Alloc.NotIndirect (s.table ip) b := by
    intro i hi he
    refine hx (h.alloc.unique _ x i .indirect hself hi href0 ?_).2
    rw [Fs.table_self, hb]
    exact he.symm
  have href : ∀ i, (s.table ip i).Live → ∀ y,
      (s.table ip i).refAt (Function.update s.block b f) y = (s.table ip i).refAt s.block y :=
    fun i hi y => Dinode.refAt_congr fun _ => Function.update_of_ne (hnot i hi) _ _
  refine h.restore ⟨rfl, (NodeStored.refl s ip).icache⟩ h.live (h.alloc.write hdata hnot f)
    (fun y hy => ?_) fun j y hj hl => ?_
  · have := href _ hself y
    rw [Fs.table_self] at this
    rw [← h.here y hy]
    exact iff_of_eq (congrArg (· ≠ 0) this)
  · have := href j (by rw [s.table_of_ne hj]; exact hl) y
    rwa [s.table_of_ne hj] at this

end FileOpen

/-- The byte at `k` of inode `j`, with the copy in entry `ip` for its own. -/
def Fs.byteAt (s : Fs) (ip j k : Nat) : BitVec 8 :=
  s.block ((s.table ip j).refAt s.block (siteOf (k / BSIZE))) (k % BSIZE)

/-- From `s` to `s'` the bytes `src` have been written at `off` of inode `i`, and nothing else that
was there has changed. -/
structure WroteBytes (ip i off : Nat) (src : List (BitVec 8)) (s s' : Fs) : Prop where
  here : ∀ k, off ≤ k → k < off + src.length → s'.byteAt ip i k = src.getD (k - off) 0
  refs : ∀ j x, (s.table ip j).Live → x ≠ .indirect → (s.table ip j).refAt s.block x ≠ 0 →
    (s'.table ip j).Live ∧ (s'.table ip j).refAt s'.block x = (s.table ip j).refAt s.block x
  kept : ∀ j k, (s.table ip j).Live → (s.table ip j).refAt s.block (siteOf (k / BSIZE)) ≠ 0 →
    k < MAXFILE * BSIZE → ¬ (j = i ∧ off ≤ k ∧ k < off + src.length) →
    s'.byteAt ip j k = s.byteAt ip j k

namespace WroteBytes

variable {i : Nat} {l l' : List (BitVec 8)}

/-- Nothing is written where no data changes. -/
theorem of_kept (h : DataKept ip s s') : WroteBytes ip i off [] s s' := by
  refine ⟨fun k hk hlt => absurd (lt_of_le_of_lt hk hlt) (lt_irrefl _), fun j x hl hx h0 => ?_,
    fun j k hl h0 _ _ => ?_⟩
  · obtain ⟨hl', hr, _⟩ := h j x hl hx h0
    exact ⟨hl', hr⟩
  · obtain ⟨_, hr, hb⟩ := h j _ hl (siteOf_ne_indirect _) h0
    unfold Fs.byteAt
    rw [hr, hb]

theorem append (h1 : WroteBytes ip i off l s s1) (h2 : WroteBytes ip i (off + l.length) l' s1 s2)
    (hthere : ∀ k, off ≤ k → k < off + l.length → (s1.table ip i).Live ∧
      (s1.table ip i).refAt s1.block (siteOf (k / BSIZE)) ≠ 0 ∧ k < MAXFILE * BSIZE) :
    WroteBytes ip i off (l ++ l') s s2 := by
  refine ⟨fun k hk hlt => ?_, fun j x hl hx h0 => ?_, fun j k hl h0 hmax hout => ?_⟩
  · rw [List.length_append] at hlt
    by_cases hfirst : k < off + l.length
    · obtain ⟨hl, h0, hmax⟩ := hthere k hk hfirst
      rw [h2.kept i k hl h0 hmax (by omega), h1.here k hk hfirst,
        List.getD_append _ _ _ _ (by omega)]
    · rw [h2.here k (by omega) (by omega), List.getD_append_right _ _ _ _ (by omega)]
      congr 1
      omega
  · obtain ⟨hl1, hr1⟩ := h1.refs j x hl hx h0
    obtain ⟨hl2, hr2⟩ := h2.refs j x hl1 hx (by rw [hr1]; exact h0)
    exact ⟨hl2, hr2.trans hr1⟩
  · rw [List.length_append] at hout
    obtain ⟨hl1, hr1⟩ := h1.refs j _ hl (siteOf_ne_indirect _) h0
    rw [h2.kept j k hl1 (by rw [hr1]; exact h0) hmax (by omega), h1.kept j k hl h0 hmax (by omega)]

end WroteBytes

/-- A part of a block of the file is overwritten. -/
theorem FileOpen.writeBytes (h : FileOpen v s ip n) (hlt : off / BSIZE < MAXFILE)
    (hb : (s.node ip).refAt s.block (siteOf (off / BSIZE)) = b) (hb0 : b ≠ 0)
    {src : List (BitVec 8)} (hfit : off % BSIZE + src.length ≤ BSIZE) {m : List Nat} :
    WroteBytes ip (s.icache ip).inum off src s
      { s with
        block := Function.update s.block b fun i =>
          if off % BSIZE ≤ i ∧ i < off % BSIZE + src.length then src.getD (i - off % BSIZE) 0
          else s.block b i
        logged := m } := by
  have hself : (s.table ip (s.icache ip).inum).Live := by
    rw [Fs.table_self]
    exact h.live
  have hbself : (s.table ip (s.icache ip).inum).refAt s.block (siteOf (off / BSIZE)) = b := by
    rw [Fs.table_self]
    exact hb
  -- No place of another kind refers to `b`.
  have hplace : ∀ {j x}, (s.table ip j).Live → (s.table ip j).refAt s.block x = b →
      j = (s.icache ip).inum ∧ x = siteOf (off / BSIZE) := fun {j x} hl he =>
    h.alloc.unique j x _ _ hl hself (by rw [he]; exact hb0) (he.trans hbself.symm)
  have href : ∀ {j x} (f : Nat → BitVec 8), (s.table ip j).Live →
      (s.table ip j).refAt (Function.update s.block b f) x = (s.table ip j).refAt s.block x :=
    fun {j x} f hl => Dinode.refAt_congr fun _ => Function.update_of_ne (fun he =>
      siteOf_ne_indirect _ (hplace (x := .indirect) hl he).2.symm) _ _
  refine ⟨fun k hk hkl => ?_, fun j x hl _ _ => ⟨hl, href _ hl⟩, fun j k hl h0 hmax hout => ?_⟩
  · have hsame : k / BSIZE = off / BSIZE := by
      simp only [BSIZE] at *
      omega
    have hmod : k % BSIZE - off % BSIZE = k - off := by
      simp only [BSIZE] at *
      omega
    unfold Fs.byteAt
    change Function.update s.block b _ ((s.table ip _).refAt (Function.update s.block b _) _) _ = _
    rw [href _ hself, hsame, hbself, Function.update_self, if_pos, hmod]
    simp only [BSIZE] at *
    omega
  · unfold Fs.byteAt
    change Function.update s.block b _ ((s.table ip _).refAt (Function.update s.block b _) _) _ = _
    rw [href _ hl]
    by_cases he : (s.table ip j).refAt s.block (siteOf (k / BSIZE)) = b
    · obtain ⟨hj, hsite⟩ := hplace hl he
      have hk : k / BSIZE = off / BSIZE := by
        have hr := congrArg Site.rank hsite
        rwa [siteOf_rank hlt, siteOf_rank] at hr
        simp only [MAXFILE, BSIZE] at *
        omega
      have hin : ¬ (off % BSIZE ≤ k % BSIZE ∧ k % BSIZE < off % BSIZE + src.length) := by
        simp only [BSIZE] at *
        omega
      rw [he, Function.update_self, if_neg hin]
    · rw [Function.update_of_ne he]

/-- `writeLoop` has written `src` at `off`. -/
structure WroteTo (v : Volume) (ip n off : Nat) (src : List (BitVec 8)) (s : Fs) (r : Nat) (s' : Fs) :
    Prop where
  count : r = off + src.length
  writing : FileOpen v s' ip (max n (nblocks (off + src.length)))
  stored : ∃ a, NodeStored ip { s.node ip with addrs := a } s s'
  old : nblocks (off + src.length) ≤ n → s'.icache = s.icache
  bytes : WroteBytes ip (s.icache ip).inum off src s s'

theorem WroteTo.nil (h : FileOpen v s ip n) (hoff : off ≤ n * BSIZE) : WroteTo v ip n off [] s off s := by
  refine ⟨rfl, ?_, ⟨_, .refl s ip⟩, fun _ => rfl, .of_kept (.refl ip s)⟩
  rw [max_eq_left]
  · exact h
  · unfold nblocks
    simp only [BSIZE, List.length_nil] at *
    omega

/-- One block of `writeLoop`: `s1` is the state after `bmap`, `l` what goes into the block. -/
theorem Bmapped.write (hb : Bmapped v ip n (off / BSIZE) s b s1) (hlt : off / BSIZE < MAXFILE)
    {l src : List (BitVec 8)} {w : Nat} (hl : l.length = w) (hpos : 0 < w)
    (hfit : off % BSIZE + w ≤ BSIZE) {m : List Nat} {r : Nat}
    (hr : WroteTo v ip (max n (off / BSIZE + 1)) (off + w) src
      { s1 with
        block := Function.update s1.block b fun i =>
          if off % BSIZE ≤ i ∧ i < off % BSIZE + w then l.getD (i - off % BSIZE) 0
          else s1.block b i
        logged := m } r s2) : WroteTo v ip n off (l ++ src) s r s2 := by
  subst hl
  have hb0 : b ≠ 0 := by
    rw [← hb.addr]
    refine (hb.writing.here _ (siteOf_ne_indirect _)).2 ?_
    rw [siteOf_rank hlt]
    exact lt_of_lt_of_le (Nat.lt_succ_self _) (le_max_right _ _)
  have hlen : off + (l ++ src).length = off + l.length + src.length := by
    rw [List.length_append]
    omega
  have hblocks : off / BSIZE + 1 ≤ nblocks (off + l.length + src.length) := by
    unfold nblocks
    simp only [BSIZE] at *
    omega
  obtain ⟨a, ha⟩ := hb.stored
  obtain ⟨a2, ha2⟩ := hr.stored
  have hinum : (s1.icache ip).inum = (s.icache ip).inum := (ha.slot ip).2.1
  have hw := hb.writing.writeBytes hlt hb.addr hb0 hfit (m := m)
  rw [hinum] at hw
  have hbytes : WroteBytes ip (s.icache ip).inum (off + l.length) src _ s2 := hinum ▸ hr.bytes
  have hself : (s1.table ip (s.icache ip).inum) = s1.node ip := by
    rw [← hinum, Fs.table_self]
  rw [← List.nil_append (l ++ src)]
  refine ⟨?_, ?_, ⟨a2, ?_⟩, fun hle => ?_, (WroteBytes.of_kept hb.kept).append
    (hw.append hbytes fun k hk hkl => ?_) fun k hk hkl => absurd hkl (not_lt.2 hk)⟩
  · rw [List.nil_append, hlen]
    exact hr.count
  · rw [List.nil_append, hlen]
    have := hr.writing
    rwa [max_assoc, max_eq_right hblocks] at this
  · refine NodeStored.trans ha ⟨ha2.dinode, ?_⟩
    have hn : s1.node ip = { s.node ip with addrs := a } := ha.node
    have h2 := ha2.icache
    unfold Fs.node at h2 hn
    dsimp only at h2
    rw [hn] at h2
    exact h2
  · rw [List.nil_append, hlen] at hle
    have hold := hb.old (by omega)
    subst hold
    exact hr.old (le_trans hle (le_max_left _ _))
  · have hsame : k / BSIZE = off / BSIZE := by
      simp only [BSIZE] at *
      omega
    obtain ⟨hl, hr⟩ := hw.refs (s.icache ip).inum (siteOf (off / BSIZE))
      (by rw [hself]; exact hb.writing.live) (siteOf_ne_indirect _) (by rw [hself, hb.addr]; exact hb0)
    refine ⟨hl, ?_, ?_⟩
    · rw [hsame, hr, hself, hb.addr]
      exact hb0
    · simp only [BSIZE, MAXFILE] at *
      omega

theorem writeLoop_wp {E : String → Prop} (hE : E "balloc: out of blocks") :
    ∀ (k off : Nat) (src : List (BitVec 8)) (s : Fs) (n : Nat),
    FileOpen v s ip n → off ≤ n * BSIZE → off + src.length ≤ MAXFILE * BSIZE → src.length ≤ k →
    wp (writeLoop v ip k off src) E (WroteTo v ip n off src s) s := by
  intro k
  induction k with
  | zero =>
    intro off src s n h hoff _ hk
    obtain rfl : src = [] := List.length_eq_zero_iff.1 (by omega)
    exact .nil h hoff
  | succ k ih =>
    intro off src s n h hoff hmax hk
    unfold writeLoop
    by_cases hsrc : src = []
    · subst hsrc
      rw [if_pos rfl]
      exact .nil h hoff
    · rw [if_neg hsrc]
      have hpos : 0 < src.length := List.length_pos_iff.2 hsrc
      have hbn : off / BSIZE ≤ n := by
        simp only [BSIZE] at *
        omega
      have hlt : off / BSIZE < MAXFILE := by
        simp only [BSIZE, MAXFILE] at *
        omega
      refine wp_seq (wp_post (bmap_wp hE h hbn hlt) fun b s1 hb => ?_)
      refine wp_seq (wp_seq (get_wp ?_))
      simp only [wp_pure]
      refine wp_seq (modify_wp ?_)
      -- `w` bytes go into this block.
      generalize hw : min src.length (BSIZE - off % BSIZE) = w
      have htake : (src.take w).length = w := by
        rw [List.length_take]
        omega
      have hblock : (fun i => if off % BSIZE ≤ i ∧ i < off % BSIZE + w then
          src.getD (i - off % BSIZE) 0 else s1.block b i) = fun i =>
          if off % BSIZE ≤ i ∧ i < off % BSIZE + w then
            (src.take w).getD (i - off % BSIZE) 0 else s1.block b i := by
        funext i
        split
        · rw [List.getD_eq_getElem?_getD, List.getD_eq_getElem?_getD, List.getElem?_take_of_lt]
          omega
        · rfl
      have hb0 : b ≠ 0 := by
        rw [← hb.addr]
        refine (hb.writing.here _ (siteOf_ne_indirect _)).2 ?_
        rw [siteOf_rank hlt]
        exact lt_of_lt_of_le (Nat.lt_succ_self _) (le_max_right _ _)
      rw [hblock]
      have hopen := hb.writing.writeData (siteOf_ne_indirect _) hb.addr hb0 (fun i =>
        if off % BSIZE ≤ i ∧ i < off % BSIZE + w then
          (src.take w).getD (i - off % BSIZE) 0 else s1.block b i) (m := s1.logged ++ [b])
      refine wp_post (ih (off + w) (src.drop w) _ _ hopen ?_ ?_ ?_) fun r s2 hr => ?_
      · simp only [BSIZE] at *
        omega
      · rw [List.length_drop]
        omega
      · rw [List.length_drop]
        simp only [BSIZE] at *
        omega
      · have hwrote := hb.write hlt htake (by simp only [BSIZE] at *; omega)
          (by simp only [BSIZE] at *; omega) hr
        rwa [List.take_append_drop] at hwrote

end Xv6
