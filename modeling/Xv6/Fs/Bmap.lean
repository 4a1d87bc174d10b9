import Xv6.Fs.BlockOps

/-!
# Growing a file

While `writei` runs, the blocks of the inode are in its copy in memory only. `FileOpen` is the
invariant of that time: the copy in cache entry `ip` stands for its inode. `bmap` keeps it and
adds at most the next block; where the block is there already it changes nothing.
-/

namespace Xv6

open Lib

variable {v : Volume} {s s' s1 s2 : Fs} {n n' bn b ip i : Nat} {x y : Site}
  {d e : Dinode}

/-- The same type, size and blocks. -/
structure Dinode.Same (d e : Dinode) : Prop where
  type : d.type = e.type
  size : d.size = e.size
  addrs : d.addrs = e.addrs

theorem Dinode.Same.refAt {blk : Blocks} (h : d.Same e) : d.refAt blk x = e.refAt blk x := by
  cases x with
  | direct k => exact congrFun h.addrs _
  | indirect => exact congrFun h.addrs _
  | entry j => rw [refAt_entry, refAt_entry, h.addrs]

/-- No inode is in the cache twice, and a valid entry is a copy of its inode in `T`. -/
structure Cache (s : Fs) (T : Nat → Dinode) : Prop where
  single : ∀ j k, 0 < (s.icache j).ref → 0 < (s.icache k).ref →
    (s.icache j).inum = (s.icache k).inum → j = k
  bound : ∀ k, 0 < (s.icache k).ref → k < NINODE
  agree : ∀ k, 0 < (s.icache k).ref → (s.icache k).valid = true →
    (s.node k).Same (T (s.icache k).inum) ∧ (T (s.icache k).inum).Live

/-- The state of the file system between operations. -/
structure FsOk (v : Volume) (s : Fs) : Prop where
  alloc : Alloc v s.block s.dinode []
  shape : ∀ i, (s.dinode i).Live → (s.dinode i).Shape s.block (nblocks (s.dinode i).size)
  size : ∀ i, (s.dinode i).Live → (s.dinode i).size ≤ MAXFILE * BSIZE
  cache : Cache s s.dinode

/-- The inodes, with the copy in entry `ip` for its own. -/
def Fs.table (s : Fs) (ip : Nat) : Nat → Dinode :=
  Function.update s.dinode (s.icache ip).inum (s.node ip)

/-- The state while the inode in entry `ip` is written: it has `n` blocks. -/
structure FileOpen (v : Volume) (s : Fs) (ip n : Nat) : Prop where
  ref : 0 < (s.icache ip).ref
  valid : (s.icache ip).valid = true
  live : (s.node ip).Live
  alloc : Alloc v s.block (s.table ip) []
  here : (s.node ip).Shape s.block n
  shape : ∀ i, i ≠ (s.icache ip).inum → (s.dinode i).Live →
    (s.dinode i).Shape s.block (nblocks (s.dinode i).size)
  size : ∀ i, i ≠ (s.icache ip).inum → (s.dinode i).Live → (s.dinode i).size ≤ MAXFILE * BSIZE
  cache : Cache s (s.table ip)

@[simp] theorem Fs.table_self (s : Fs) (ip : Nat) : s.table ip (s.icache ip).inum = s.node ip :=
  Function.update_self ..

theorem Fs.table_of_ne (s : Fs) {ip i : Nat} (h : i ≠ (s.icache ip).inum) :
    s.table ip i = s.dinode i := Function.update_of_ne h ..

/-- Only the blocks and the log have changed, and the copy in entry `ip` is `e`. -/
structure NodeStored (ip : Nat) (e : Dinode) (s s' : Fs) : Prop where
  dinode : s'.dinode = s.dinode
  icache : s'.icache = (s.setNode ip e).icache

namespace NodeStored

theorem node (h : NodeStored ip e s s') : s'.node ip = e := by
  unfold Fs.node
  rw [h.icache]
  exact Fs.setNode_node s ip e

theorem slot (h : NodeStored ip e s s') (k : Nat) : (s'.icache k).ref = (s.icache k).ref ∧
    (s'.icache k).inum = (s.icache k).inum ∧ (s'.icache k).valid = (s.icache k).valid := by
  rw [h.icache, Fs.setNode_icache]
  by_cases hk : k = ip
  · subst hk
    rw [Function.update_self]
    exact ⟨rfl, rfl, rfl⟩
  · rw [Function.update_of_ne hk]
    exact ⟨rfl, rfl, rfl⟩

theorem node_of_ne (h : NodeStored ip e s s') {k : Nat} (hk : k ≠ ip) : s'.node k = s.node k := by
  unfold Fs.node
  rw [h.icache, Fs.setNode_icache, Function.update_of_ne hk]

theorem table_of_ne (h : NodeStored ip e s s') (hi : i ≠ (s.icache ip).inum) :
    s'.table ip i = s.table ip i := by
  rw [s.table_of_ne hi, s'.table_of_ne (by rw [(h.slot ip).2.1]; exact hi), h.dinode]

theorem table_self (h : NodeStored ip e s s') : s'.table ip (s.icache ip).inum = e := by
  rw [← (h.slot ip).2.1, Fs.table_self, h.node]

theorem trans (h1 : NodeStored ip d s s1) (h2 : NodeStored ip e s1 s2) : NodeStored ip e s s2 := by
  refine ⟨h2.dinode.trans h1.dinode, ?_⟩
  rw [h2.icache, Fs.setNode_icache, Fs.setNode_icache, h1.icache, Fs.setNode_icache,
    Function.update_self, Function.update_idem]

theorem refl (s : Fs) (ip : Nat) : NodeStored ip (s.node ip) s s :=
  ⟨rfl, (Function.update_eq_self ip s.icache).symm⟩

theorem of_bitmap {P : Nat → Prop} (h : BitmapOnly v P s s') : NodeStored ip (s.node ip) s s' :=
  ⟨h.dinode, by rw [h.icache]; exact (NodeStored.refl s ip).icache⟩

end NodeStored

/-- `balloc` changes no reference. -/
theorem Balloced.refAt {T : Nat → Dinode} {l : List Nat} (h : Balloced v T l s b s')
    (hold : Alloc v s.block T l) (hi : (T i).Live) :
    (T i).refAt s'.block x = (T i).refAt s.block x := by
  refine Dinode.refAt_congr fun h0 => h.kept _ (hold.data i .indirect hi h0) ?_
  exact (h.alloc.held b List.mem_cons_self).2 i .indirect hi

/-- Every block of data that was there is there, with its contents. -/
def DataKept (ip : Nat) (s s' : Fs) : Prop :=
  ∀ j x, (s.table ip j).Live → x ≠ .indirect → (s.table ip j).refAt s.block x ≠ 0 →
    (s'.table ip j).Live ∧ (s'.table ip j).refAt s'.block x = (s.table ip j).refAt s.block x ∧
      s'.block ((s.table ip j).refAt s.block x) = s.block ((s.table ip j).refAt s.block x)

theorem DataKept.refl (ip : Nat) (s : Fs) : DataKept ip s s := fun _ _ hl _ _ => ⟨hl, rfl, rfl⟩

theorem DataKept.trans (h1 : DataKept ip s s1) (h2 : DataKept ip s1 s2) : DataKept ip s s2 := by
  intro j x hl hx h0
  obtain ⟨hl1, hr1, hb1⟩ := h1 j x hl hx h0
  obtain ⟨hl2, hr2, hb2⟩ := h2 j x hl1 hx (by rw [hr1]; exact h0)
  rw [hr1] at hr2 hb2
  exact ⟨hl2, hr2, hb2.trans hb1⟩

namespace FileOpen

/-- What the invariant reads, when the references of the other inodes stay. -/
theorem restore (h : FileOpen v s ip n) (hs : NodeStored ip e s s') (hlive : e.Live)
    (halloc : Alloc v s'.block (s'.table ip) [])
    (hhere : e.Shape s'.block n')
    (hothers : ∀ j y, j ≠ (s.icache ip).inum → (s.dinode j).Live →
      (s.dinode j).refAt s'.block y = (s.dinode j).refAt s.block y) :
    FileOpen v s' ip n' := by
  obtain ⟨href, hinum, hvalid⟩ := hs.slot ip
  refine ⟨by rw [href]; exact h.ref, by rw [hvalid]; exact h.valid, by rw [hs.node]; exact hlive,
    halloc, by rw [hs.node]; exact hhere, fun j hj hl x hx => ?_, fun j hj hl => ?_, ?_,
    fun k hk => h.cache.bound k ((hs.slot k).1 ▸ hk), ?_⟩
  · rw [hinum] at hj
    rw [hs.dinode] at hl ⊢
    rw [hothers j x hj hl]
    exact h.shape j hj hl x hx
  · rw [hinum] at hj
    rw [hs.dinode] at hl ⊢
    exact h.size j hj hl
  · intro j k hj hk he
    rw [(hs.slot j).1] at hj
    rw [(hs.slot k).1] at hk
    rw [(hs.slot j).2.1, (hs.slot k).2.1] at he
    exact h.cache.single j k hj hk he
  · intro k hk hv
    rw [(hs.slot k).1] at hk
    rw [(hs.slot k).2.2] at hv
    rw [(hs.slot k).2.1]
    by_cases hkp : k = ip
    · subst hkp
      rw [hs.table_self, hs.node]
      exact ⟨⟨rfl, rfl, rfl⟩, hlive⟩
    · have hne : (s.icache k).inum ≠ (s.icache ip).inum := fun he =>
        hkp (h.cache.single k ip hk h.ref he)
      rw [hs.table_of_ne hne, hs.node_of_ne hkp]
      exact h.cache.agree k hk hv

/-- Storing a new block at the place `x`, which was empty, touches no data that was there. -/
theorem store_kept (h : FileOpen v s ip n) (hb : Balloced v (s.table ip) [] s b s1)
    (hs : NodeStored ip e s s2) (htype : e.type = (s.node ip).type)
    (hx : (s.node ip).refAt s.block x = 0)
    (hhere : ∀ y, e.refAt s2.block y = if y = x then b else (s.node ip).refAt s1.block y)
    (hothers : ∀ j y, j ≠ (s.icache ip).inum → (s.dinode j).Live →
      (s.dinode j).refAt s2.block y = (s.dinode j).refAt s1.block y)
    (hblk : ∀ c, (∀ j, (s.table ip j).Live → (s.table ip j).refAt s.block .indirect ≠ c) →
      s2.block c = s1.block c) : DataKept ip s s2 := by
  intro j y hl hy h0
  have hkept : s2.block ((s.table ip j).refAt s.block y) = s.block ((s.table ip j).refAt s.block y) := by
    rw [hblk _ fun k hk he => ?_, hb.kept _ (h.alloc.data j y hl h0) fun he => ?_]
    · refine (hb.alloc.held b List.mem_cons_self).2 j y hl ?_
      rw [hb.refAt h.alloc hl]
      exact he
    · exact hy (h.alloc.unique j y k .indirect hl hk h0 he.symm).2
  by_cases hj : j = (s.icache ip).inum
  · subst hj
    rw [Fs.table_self] at hl h0 hkept ⊢
    have hold := hb.refAt (x := y) (i := (s.icache ip).inum) h.alloc (by rw [Fs.table_self]; exact hl)
    rw [Fs.table_self] at hold
    rw [hs.table_self, hhere y, if_neg fun he => h0 (by rw [he]; exact hx), hold]
    refine ⟨?_, rfl, hkept⟩
    unfold Dinode.Live
    rw [htype]
    exact hl
  · have hold := hb.refAt (x := y) h.alloc hl
    rw [hs.table_of_ne hj]
    rw [s.table_of_ne hj] at hl hold hkept ⊢
    exact ⟨hl, (hothers j y hj hl).trans hold, hkept⟩

/-- A block from `balloc` is stored at the place `x`. -/
theorem store (h : FileOpen v s ip n) (hb : Balloced v (s.table ip) [] s b s1)
    (hs : NodeStored ip e s s2) (htype : e.type = (s.node ip).type)
    (hx : (s.node ip).refAt s.block x = 0)
    (hhere : ∀ y, e.refAt s2.block y = if y = x then b else (s.node ip).refAt s1.block y)
    (hothers : ∀ j y, j ≠ (s.icache ip).inum → (s.dinode j).Live →
      (s.dinode j).refAt s2.block y = (s.dinode j).refAt s1.block y)
    (hblk : ∀ c, (∀ j, (s.table ip j).Live → (s.table ip j).refAt s.block .indirect ≠ c) →
      s2.block c = s1.block c)
    (hused : ∀ c, c < v.size → v.used s2.block c = v.used s1.block c)
    (hrank : ∀ y : Site, y ≠ .indirect → (y.rank < n' ↔ y = x ∨ y.rank < n)) :
    FileOpen v s2 ip n' ∧ DataKept ip s s2 := by
  have hlive : e.Live := by
    unfold Dinode.Live
    rw [htype]
    exact h.live
  have hself : (s.table ip (s.icache ip).inum).Live := by
    rw [Fs.table_self]
    exact h.live
  have hold : ∀ y, (s.node ip).refAt s1.block y = (s.node ip).refAt s.block y := by
    intro y
    have := hb.refAt (x := y) h.alloc hself
    rwa [Fs.table_self] at this
  refine ⟨h.restore hs hlive ?_ (fun y hy => ?_) fun j y hj hl => ?_,
    h.store_kept hb hs htype hx hhere hothers hblk⟩
  · refine hb.alloc.assign hself (by rw [Fs.table_self, hold, hx]) (fun j => ?_) (fun j y hj => ?_)
      hused
    · by_cases hj : j = (s.icache ip).inum
      · rw [hj, hs.table_self, Fs.table_self]
        exact iff_of_true hlive h.live
      · rw [hs.table_of_ne hj]
    · by_cases hji : j = (s.icache ip).inum
      · subst hji
        rw [hs.table_self, Fs.table_self, hhere y]
        simp only [true_and]
      · rw [if_neg fun hc => hji hc.1, hs.table_of_ne hji]
        rw [s.table_of_ne hji] at hj ⊢
        exact hothers j y hji hj
  · rw [hhere y, hrank y hy]
    split
    · rename_i hyx
      exact iff_of_true hb.data.pos.ne' (.inl hyx)
    · rename_i hyx
      rw [hold y, h.here y hy, or_iff_right hyx]
  · rw [hothers j y hj hl]
    have := hb.refAt (i := j) (x := y) h.alloc (by rw [s.table_of_ne hj]; exact hl)
    rwa [s.table_of_ne hj] at this

/-- `balloc` for a direct slot. -/
theorem storeDirect (h : FileOpen v s ip n) (hb : Balloced v (s.table ip) [] s b s1)
    (hbn : bn < NDIRECT) (hzero : (s.node ip).addrs bn = 0) (hn : n = bn) :
    (FileOpen v (s1.setNode ip ((s1.node ip).setAddr bn b)) ip (bn + 1) ∧
        DataKept ip s (s1.setNode ip ((s1.node ip).setAddr bn b))) ∧
      NodeStored ip ((s.node ip).setAddr bn b) s
        (s1.setNode ip ((s1.node ip).setAddr bn b)) := by
  have hnode : s1.node ip = s.node ip := by
    unfold Fs.node
    rw [hb.icache]
  have hs : NodeStored ip ((s.node ip).setAddr bn b) s
      (s1.setNode ip ((s1.node ip).setAddr bn b)) := by
    rw [hnode]
    exact (NodeStored.of_bitmap hb.toBitmapOnly).trans ⟨rfl, rfl⟩
  refine ⟨h.store (x := .direct ⟨bn, hbn⟩) hb hs rfl hzero (fun y => ?_) (fun _ _ _ _ => rfl)
    (fun _ _ => rfl) (fun _ _ => rfl) fun y hy => ?_, hs⟩
  · cases y with
    | direct k =>
      rw [Dinode.refAt_direct, Dinode.refAt_direct]
      by_cases hk : k.val = bn
      · rw [if_pos (by rw [Site.direct.injEq]; exact Fin.ext hk), hk, Dinode.setAddr_self]
      · rw [if_neg (by rw [Site.direct.injEq]; exact fun he => hk (congrArg Fin.val he)),
          Dinode.setAddr_of_ne hk]
    | indirect =>
      rw [if_neg nofun]
      exact Dinode.setAddr_of_ne hbn.ne'
    | entry j =>
      rw [if_neg nofun]
      exact Dinode.refAt_entry_congr (Dinode.setAddr_of_ne hbn.ne')
  · subst hn
    have hlt : n < 12 := hbn
    cases y with
    | direct k =>
      simp only [Site.rank, Site.direct.injEq, Fin.ext_iff]
      omega
    | indirect => exact absurd rfl hy
    | entry j =>
      simp only [Site.rank, reduceCtorEq, false_or]
      omega

/-- `balloc` for the indirect block. -/
theorem storeIndirect (h : FileOpen v s ip n) (hb : Balloced v (s.table ip) [] s b s1)
    (hzero : (s.node ip).addrs NDIRECT = 0) :
    (FileOpen v (s1.setNode ip ((s1.node ip).setAddr NDIRECT b)) ip n ∧
        DataKept ip s (s1.setNode ip ((s1.node ip).setAddr NDIRECT b))) ∧
      NodeStored ip ((s.node ip).setAddr NDIRECT b) s
        (s1.setNode ip ((s1.node ip).setAddr NDIRECT b)) := by
  have hnode : s1.node ip = s.node ip := by
    unfold Fs.node
    rw [hb.icache]
  have hs : NodeStored ip ((s.node ip).setAddr NDIRECT b) s
      (s1.setNode ip ((s1.node ip).setAddr NDIRECT b)) := by
    rw [hnode]
    exact (NodeStored.of_bitmap hb.toBitmapOnly).trans ⟨rfl, rfl⟩
  refine ⟨h.store (x := .indirect) hb hs rfl hzero (fun y => ?_) (fun _ _ _ _ => rfl)
    (fun _ _ => rfl) (fun _ _ => rfl) fun y hy => ?_, hs⟩
  · cases y with
    | direct k =>
      rw [if_neg nofun]
      exact Dinode.setAddr_of_ne k.isLt.ne
    | indirect =>
      rw [if_pos rfl]
      exact Dinode.setAddr_self _
    | entry j =>
      -- The new indirect block is empty.
      rw [if_neg nofun, Dinode.refAt_entry (d := s.node ip), if_pos hzero, Dinode.refAt_entry,
        Dinode.setAddr_self, if_neg hb.data.pos.ne', Fs.setNode_block, hb.zero, getWord_zero]
      rfl
  · rw [or_iff_right hy]

/-- `balloc` for an entry of the indirect block. -/
theorem storeEntry (h : FileOpen v s ip n) (hb : Balloced v (s.table ip) [] s b s1)
    (hbn : bn < MAXFILE) (hge : NDIRECT ≤ bn) (hind : (s.node ip).addrs NDIRECT ≠ 0)
    (hzero : (getWord (s.block ((s.node ip).addrs NDIRECT)) (bn - NDIRECT)).toNat = 0) (hn : n = bn)
    {m : List Nat} :
    FileOpen v
      { s1 with
        block := Function.update s1.block ((s.node ip).addrs NDIRECT)
          (setWord (s1.block ((s.node ip).addrs NDIRECT)) (bn - NDIRECT) (BitVec.ofNat 32 b))
        logged := m } ip (bn + 1) ∧
    DataKept ip s
      { s1 with
        block := Function.update s1.block ((s.node ip).addrs NDIRECT)
          (setWord (s1.block ((s.node ip).addrs NDIRECT)) (bn - NDIRECT) (BitVec.ofNat 32 b))
        logged := m } := by
  have hself : (s.table ip (s.icache ip).inum).Live := by
    rw [Fs.table_self]
    exact h.live
  have hdata : v.Data ((s.node ip).addrs NDIRECT) := by
    have := h.alloc.data _ .indirect hself
    rw [Fs.table_self] at this
    exact this hind
  have hs : NodeStored ip (s.node ip) s
      { s1 with
        block := Function.update s1.block ((s.node ip).addrs NDIRECT)
          (setWord (s1.block ((s.node ip).addrs NDIRECT)) (bn - NDIRECT) (BitVec.ofNat 32 b))
        logged := m } := by
    have hbits : NodeStored ip (s.node ip) s s1 := .of_bitmap hb.toBitmapOnly
    refine hbits.trans ⟨rfl, ?_⟩
    have := (NodeStored.refl s1 ip).icache
    rwa [hbits.node] at this
  have hlt : bn - NDIRECT < NINDIRECT := by
    simp only [MAXFILE, NDIRECT, NINDIRECT] at *
    omega
  refine h.store (x := .entry ⟨bn - NDIRECT, hlt⟩) hb hs rfl ?_ (fun y => ?_) (fun j y hj hl => ?_)
    (fun c hc => Function.update_of_ne (fun he => hc _ hself ?_) _ _)
    (fun c hc => Volume.used_update hdata hc _) fun y hy => ?_
  · rw [Dinode.refAt_entry, if_neg hind]
    exact hzero
  · cases y with
    | direct k => rw [if_neg nofun]; rfl
    | indirect => rw [if_neg nofun]; rfl
    | entry j =>
      rw [Dinode.refAt_entry, Dinode.refAt_entry, if_neg hind, if_neg hind]
      dsimp only
      rw [Function.update_self]
      by_cases hj : j.val = bn - NDIRECT
      · rw [if_pos (by rw [Site.entry.injEq]; exact Fin.ext hj), hj, getWord_setWord_self,
          BitVec.toNat_ofNat, Nat.mod_eq_of_lt hb.data.lt]
      · rw [if_neg (by rw [Site.entry.injEq]; exact fun he => hj (congrArg Fin.val he)),
          getWord_setWord_of_ne hj]
  · -- The indirect block of `ip` belongs to no other inode.
    refine Dinode.refAt_congr fun h0 => Function.update_of_ne (fun he => ?_) _ _
    have hlj : (s.table ip j).Live := by
      rw [s.table_of_ne hj]
      exact hl
    have := h.alloc.unique j .indirect (s.icache ip).inum .indirect hlj hself
    rw [Fs.table_self, s.table_of_ne hj] at this
    exact hj (this h0 he).1
  · rw [Fs.table_self]
    exact he.symm
  · subst hn
    cases y with
    | direct k =>
      have := k.isLt
      simp only [Site.rank, reduceCtorEq, false_or]
      simp only [NDIRECT] at *
      omega
    | indirect => exact absurd rfl hy
    | entry j =>
      simp only [Site.rank, Site.entry.injEq, Fin.ext_iff]
      simp only [NDIRECT] at *
      omega

end FileOpen

/-- `bmap` has returned block `b`, the `bn`-th of the inode. -/
structure Bmapped (v : Volume) (ip n bn : Nat) (s : Fs) (b : Nat) (s' : Fs) : Prop where
  writing : FileOpen v s' ip (max n (bn + 1))
  addr : (s'.node ip).refAt s'.block (siteOf bn) = b
  old : bn < n → s' = s
  stored : ∃ a, NodeStored ip { s.node ip with addrs := a } s s'
  kept : DataKept ip s s'

namespace FileOpen

/-- The block is there already. -/
theorem bmapped_old (h : FileOpen v s ip n) (hbn : bn < n)
    (hb : (s.node ip).refAt s.block (siteOf bn) = b) : Bmapped v ip n bn s b s := by
  refine ⟨?_, hb, fun _ => rfl, ⟨(s.node ip).addrs, .refl s ip⟩, .refl ip s⟩
  rw [max_eq_left hbn]
  exact h

theorem siteOf_direct {bn : Nat} (h : bn < NDIRECT) : siteOf bn = .direct ⟨bn, h⟩ := dif_pos h

theorem siteOf_entry (h : ¬ bn < NDIRECT) (hlt : bn - NDIRECT < NINDIRECT) :
    siteOf bn = .entry ⟨bn - NDIRECT, hlt⟩ := by
  unfold siteOf
  rw [dif_neg h]
  congr 2
  exact Nat.mod_eq_of_lt hlt

/-- The entry of the indirect block, once that is there. -/
theorem bmapEntry_wp {E : String → Prop} (hE : E "balloc: out of blocks") (h : FileOpen v s ip n) (hbn : bn ≤ n) (hmax : bn < MAXFILE)
    (hge : ¬ bn < NDIRECT) (hind : (s.node ip).addrs NDIRECT ≠ 0) :
    wp (do
      let a ← bread ((s.node ip).addrs NDIRECT)
      let addr := (getWord a (bn - NDIRECT)).toNat
      if addr = 0 then do
        let addr ← balloc v
        let a ← bread ((s.node ip).addrs NDIRECT)
        bchange ((s.node ip).addrs NDIRECT) (setWord a (bn - NDIRECT) (BitVec.ofNat 32 addr))
        pure addr
      else pure addr) E
      (fun b s' => (bn < n → s' = s) ∧ (s'.node ip).refAt s'.block (siteOf bn) = b ∧
        (n = bn → FileOpen v s' ip (bn + 1)) ∧ NodeStored ip (s.node ip) s s' ∧
        DataKept ip s s') s := by
  have hlt : bn - NDIRECT < NINDIRECT := by
    simp only [MAXFILE, NDIRECT, NINDIRECT] at *
    omega
  have hsite := siteOf_entry hge hlt
  have hhere := h.here (siteOf bn) (siteOf_ne_indirect bn)
  rw [siteOf_rank hmax, hsite, Dinode.refAt_entry, if_neg hind] at hhere
  refine wp_seq (wp_seq (get_wp ?_))
  simp only [wp_pure]
  refine wp_ite.2 ⟨fun h0 => ?_, fun h0 => ?_⟩
  · have hn : n = bn := by
      have := mt hhere.2 (not_not.2 h0)
      omega
    refine wp_seq (wp_post (balloc_wp hE h.alloc) fun b s1 hb => ?_)
    refine wp_seq (wp_seq (get_wp ?_))
    simp only [wp_pure]
    refine wp_seq (modify_wp ?_)
    obtain ⟨hw, hkept⟩ := h.storeEntry hb hmax (not_lt.1 hge) hind h0 hn
      (m := s1.logged ++ [(s.node ip).addrs NDIRECT])
    have hs : NodeStored ip (s.node ip) s
        { s1 with
          block := Function.update s1.block ((s.node ip).addrs NDIRECT)
            (setWord (s1.block ((s.node ip).addrs NDIRECT)) (bn - NDIRECT) (BitVec.ofNat 32 b))
          logged := s1.logged ++ [(s.node ip).addrs NDIRECT] } :=
      have hbits : NodeStored ip (s.node ip) s s1 := .of_bitmap hb.toBitmapOnly
      ⟨hb.dinode, hbits.icache⟩
    refine ⟨fun hlt => by omega, ?_, fun _ => hw, hs, hkept⟩
    rw [hs.node, hsite, Dinode.refAt_entry, if_neg hind]
    dsimp only
    rw [Function.update_self, getWord_setWord_self, BitVec.toNat_ofNat,
      Nat.mod_eq_of_lt hb.data.lt]
  · have hltn := hhere.1 h0
    refine ⟨fun _ => rfl, ?_, fun hn => by omega, .refl s ip, .refl ip s⟩
    rw [hsite, Dinode.refAt_entry, if_neg hind]

end FileOpen

theorem bmap_wp {E : String → Prop} (hE : E "balloc: out of blocks") (h : FileOpen v s ip n)
    (hbn : bn ≤ n) (hmax : bn < MAXFILE) : wp (bmap v ip bn) E (Bmapped v ip n bn s) s := by
  unfold bmap
  refine wp_seq (get_wp ?_)
  by_cases hdir : bn < NDIRECT
  · rw [if_pos hdir]
    have hsite := FileOpen.siteOf_direct hdir
    have hhere := h.here (siteOf bn) (siteOf_ne_indirect bn)
    rw [siteOf_rank hmax, hsite, Dinode.refAt_direct] at hhere
    refine wp_ite.2 ⟨fun h0 => ?_, fun h0 => ?_⟩
    · have hn : n = bn := by
        have := mt hhere.2 (not_not.2 h0)
        omega
      refine wp_seq (wp_post (balloc_wp hE h.alloc) fun b s1 hb => ?_)
      refine wp_seq (setNode_wp ?_)
      obtain ⟨⟨hw, hkept⟩, hs⟩ := h.storeDirect hb hdir h0 hn
      refine ⟨?_, ?_, fun hlt => by omega, ⟨_, hs⟩, hkept⟩
      · rw [max_eq_right (by omega)]
        exact hw
      · rw [hs.node, hsite, Dinode.refAt_direct]
        exact Dinode.setAddr_self _
    · exact h.bmapped_old (hhere.1 h0) (by rw [hsite]; rfl)
  · rw [if_neg hdir]
    have hlt : bn - NDIRECT < NINDIRECT := by
      simp only [MAXFILE, NDIRECT, NINDIRECT] at *
      omega
    rw [if_pos hlt]
    by_cases h0 : (s.node ip).addrs NDIRECT = 0
    · -- Both the indirect block and its first entry are new.
      have hn : n = bn := by
        have hzero : (s.node ip).refAt s.block (.entry ⟨0, by decide⟩) = 0 := by
          rw [Dinode.refAt_entry, if_pos h0]
        have hle : ¬ NDIRECT < n := mt (h.here (.entry ⟨0, by decide⟩) nofun).2 (not_not.2 hzero)
        omega
      refine wp_ite.2 ⟨fun _ => ?_, fun hne => absurd h0 hne⟩
      refine wp_seq (wp_post (balloc_wp hE h.alloc) fun b s1 hb => ?_)
      refine wp_seq (setNode_wp ?_)
      obtain ⟨⟨hw, hkept⟩, hs⟩ := h.storeIndirect hb h0
      have hat : ((s1.setNode ip ((s1.node ip).setAddr NDIRECT b)).node ip).addrs NDIRECT = b := by
        rw [Fs.setNode_node]
        exact Dinode.setAddr_self _
      have hrest := hw.bmapEntry_wp hE hbn hmax hdir (by rw [hat]; exact hb.data.pos.ne')
      rw [hat] at hrest
      refine wp_post hrest ?_
      rintro b2 s2 ⟨-, haddr, hw2, hs2, hkept2⟩
      refine ⟨?_, haddr, fun hlt => by omega, ⟨_, hs.trans (hs.node ▸ hs2)⟩, hkept.trans hkept2⟩
      rw [max_eq_right (by omega)]
      exact hw2 hn
    · refine wp_ite.2 ⟨fun he => absurd he h0, fun _ => ?_⟩
      refine wp_post (h.bmapEntry_wp hE hbn hmax hdir h0) ?_
      rintro b s' ⟨hold, haddr, hw, hs, hkept⟩
      refine ⟨?_, haddr, hold, ⟨_, hs⟩, hkept⟩
      rcases hbn.eq_or_lt with he | hlt
      · rw [max_eq_right (by omega)]
        exact hw he.symm
      · rw [hold hlt, max_eq_left hlt]
        exact h

/-- `bmap` of a block that is there returns it and changes nothing. -/
theorem bmap_old_wp {E : String → Prop} (h : (s.node ip).Shape s.block n) (hbn : bn < n)
    (hmax : bn < MAXFILE) :
    wp (bmap v ip bn) E (fun b s' => b = (s.node ip).refAt s.block (siteOf bn) ∧ s' = s) s := by
  have hhere := (h (siteOf bn) (siteOf_ne_indirect bn)).2 (by rw [siteOf_rank hmax]; exact hbn)
  unfold bmap
  refine wp_seq (get_wp ?_)
  by_cases hdir : bn < NDIRECT
  · rw [if_pos hdir]
    rw [FileOpen.siteOf_direct hdir] at hhere ⊢
    exact wp_ite.2 ⟨fun h0 => absurd h0 hhere, fun _ => ⟨rfl, rfl⟩⟩
  · rw [if_neg hdir]
    have hlt : bn - NDIRECT < NINDIRECT := by
      simp only [MAXFILE, NDIRECT, NINDIRECT] at *
      omega
    rw [FileOpen.siteOf_entry hdir hlt, Dinode.refAt_entry] at hhere ⊢
    by_cases hind : (s.node ip).addrs NDIRECT = 0
    · exact absurd (if_pos hind) hhere
    · rw [if_neg hind] at hhere ⊢
      rw [if_pos hlt]
      refine wp_ite.2 ⟨fun h0 => absurd h0 hind, fun _ => wp_seq (wp_seq (wp_seq (get_wp ?_)))⟩
      exact wp_ite.2 ⟨fun h0 => absurd h0 hhere, fun _ => ⟨rfl, rfl⟩⟩

end Xv6
