import Xv6.Fs.Blocks

/-!
# What `balloc`, `bfree`, `itrunc` and `bmap` do to the invariant

Each keeps `Alloc` and says which data blocks it leaves alone. The panics `freeing free block` and
`bmap: out of range` are never reached.
-/

namespace Xv6

open Lib

/-- The panics that the file system can reach. -/
def FsStops (m : String) : Prop := m ≠ "freeing free block" ∧ m ≠ "bmap: out of range"

theorem fsStops_balloc : FsStops "balloc: out of blocks" := ⟨by decide, by decide⟩

variable {v : Volume} {s s' : Fs} {T : Nat → Dinode} {l : List Nat} {i b ip : Nat}

/-- Only the bitmap, the log and the contents of the blocks of `P` have changed. -/
structure BitmapOnly (v : Volume) (P : Nat → Prop) (s s' : Fs) : Prop where
  kept : ∀ c, v.Data c → ¬ P c → s'.block c = s.block c
  dinode : s'.dinode = s.dinode
  icache : s'.icache = s.icache

namespace BitmapOnly

variable {P Q : Nat → Prop} {s1 s2 s3 : Fs}

theorem refl (s : Fs) : BitmapOnly v P s s := ⟨fun _ _ _ => rfl, rfl, rfl⟩

theorem trans (h1 : BitmapOnly v P s1 s2) (h2 : BitmapOnly v P s2 s3) : BitmapOnly v P s1 s3 :=
  ⟨fun c hc hp => (h2.kept c hc hp).trans (h1.kept c hc hp), h2.dinode.trans h1.dinode,
    h2.icache.trans h1.icache⟩

end BitmapOnly

/-- `balloc` has returned block `b`. -/
structure Balloced (v : Volume) (T : Nat → Dinode) (l : List Nat) (s : Fs) (b : Nat) (s' : Fs) :
    Prop extends BitmapOnly v (· = b) s s' where
  data : v.Data b
  alloc : Alloc v s'.block T (b :: l)
  zero : s'.block b = fun _ => 0

/-- The only panic is for want of a free block. -/
theorem ballocLoop_wp {E : String → Prop} (hE : E "balloc: out of blocks")
    (h : Alloc v s.block T l) : ∀ (k b : Nat), b % BPB = 0 →
    wp (ballocLoop v k b) E (Balloced v T l s) s := by
  intro k
  induction k with
  | zero =>
    intro b _
    exact hE
  | succ k ih =>
    intro b hb
    unfold ballocLoop
    refine wp_seq (wp_seq (get_wp ?_))
    simp only [wp_pure]
    split
    · rename_i bi hfind
      have hbi := List.find?_some hfind
      have hlt : bi < min BPB (v.size - b) := List.mem_range.1 (List.mem_of_find?_eq_some hfind)
      have hblock : v.bblock (b + bi) = v.bblock b := by
        unfold Volume.bblock
        simp only [BPB] at *
        omega
      have hmod : (b + bi) % BPB = bi := by
        simp only [BPB] at *
        omega
      have hfree : v.used s.block (b + bi) = false := by
        unfold Volume.used
        rw [hblock, hmod]
        simpa using hbi
      obtain ⟨hdata, hheld⟩ := h.take (by omega) hfree
      rw [hblock, hmod] at hheld
      refine wp_seq (modify_wp (wp_seq (modify_wp ?_)))
      refine ⟨⟨fun c hc hne => ?_, rfl, rfl⟩, hdata, ?_, Function.update_self ..⟩
      · have hlt : b < v.size := by omega
        refine (Function.update_of_ne hne _ _).trans (Function.update_of_ne ?_ _ _)
        exact hc.ne_bblock hlt
      · exact hheld.write hdata (hheld.held_notIndirect List.mem_cons_self) _
    · refine ih (b + BPB) ?_
      rw [Nat.add_mod_right]
      exact hb

theorem balloc_wp {E : String → Prop} (hE : E "balloc: out of blocks") (h : Alloc v s.block T l) :
    wp (balloc v) E (Balloced v T l s) s :=
  ballocLoop_wp hE h _ 0 rfl

theorem bfree_wp {E : String → Prop} (h : Alloc v s.block T (b :: l)) :
    wp (bfree v b) E
      (fun _ s' => Alloc v s'.block T l ∧ BitmapOnly v (fun _ => False) s s') s := by
  obtain ⟨hused, hgive⟩ := h.give
  unfold bfree
  refine wp_seq (wp_seq (get_wp ?_))
  simp only [wp_pure]
  rw [if_pos (show testBit (s.block (v.bblock b)) (b % BPB) = true from hused)]
  refine modify_wp ⟨hgive, fun c hc _ => Function.update_of_ne ?_ _ _, rfl, rfl⟩
  exact hc.ne_bblock (h.held b List.mem_cons_self).1.2

/-! ### `itrunc` -/

/-- The places of direct blocks from the `i`-th on. -/
def directsFrom (i : Nat) : List Site := ((List.finRange NDIRECT).drop i).map .direct

/-- The places of entries of the indirect block from the `j`-th on. -/
def entriesFrom (j : Nat) : List Site := ((List.finRange NINDIRECT).drop j).map .entry

theorem blocksAt_directsFrom {d : Dinode} {blk : Blocks} (h : i < NDIRECT) :
    d.blocksAt blk (directsFrom i) =
      if d.addrs i = 0 then d.blocksAt blk (directsFrom (i + 1))
      else d.addrs i :: d.blocksAt blk (directsFrom (i + 1)) := by
  have hcons : directsFrom i = .direct ⟨i, h⟩ :: directsFrom (i + 1) := by
    unfold directsFrom
    rw [List.drop_eq_getElem_cons (by simpa using h), List.map_cons]
    simp
  rw [hcons]
  exact Dinode.blocksAt_cons _ _

theorem blocksAt_entriesFrom {d : Dinode} {blk : Blocks} {j : Nat} (hd : d.addrs NDIRECT ≠ 0)
    (h : j < NINDIRECT) :
    d.blocksAt blk (entriesFrom j) =
      if (getWord (blk (d.addrs NDIRECT)) j).toNat = 0 then d.blocksAt blk (entriesFrom (j + 1))
      else (getWord (blk (d.addrs NDIRECT)) j).toNat :: d.blocksAt blk (entriesFrom (j + 1)) := by
  have hcons : entriesFrom j = .entry ⟨j, h⟩ :: entriesFrom (j + 1) := by
    unfold entriesFrom
    rw [List.drop_eq_getElem_cons (by simpa using h), List.map_cons]
    simp
  rw [hcons, Dinode.blocksAt_cons, Dinode.refAt_entry, if_neg hd]

theorem directsFrom_end : directsFrom NDIRECT = [] := rfl

theorem entriesFrom_end : entriesFrom NINDIRECT = [] := by
  unfold entriesFrom
  rw [List.drop_eq_nil_of_le (by simp)]
  rfl

/-- `addrs` with the slots `i` to `i + k - 1` cleared. -/
def clearAddrs (d : Dinode) (i k : Nat) : Dinode :=
  { d with addrs := fun m => if i ≤ m ∧ m < i + k then 0 else d.addrs m }

theorem clearAddrs_step (d : Dinode) (i k : Nat) :
    clearAddrs (if d.addrs i ≠ 0 then d.setAddr i 0 else d)
      (i + 1) k = clearAddrs d i (k + 1) := by
  unfold clearAddrs Dinode.setAddr
  split
  · congr 1
    funext m
    by_cases hm : m = i
    · subst hm
      simp
    · dsimp only
      rw [Function.update_of_ne hm]
      congr 1
      exact propext ⟨fun h => by omega, fun h => by omega⟩
  · rename_i h0
    congr 1
    funext m
    by_cases hm : m = i
    · subst hm
      rw [if_neg (by omega), if_pos (by omega)]
      simpa using h0
    · congr 1
      exact propext ⟨fun h => by omega, fun h => by omega⟩

/-- The copy in entry `ip` of the cache. -/
def Fs.node (s : Fs) (ip : Nat) : Dinode := (s.icache ip).node

/-- The cache with another copy in entry `ip`. -/
def Fs.setNode (s : Fs) (ip : Nat) (d : Dinode) : Fs :=
  s.setSlot ip { s.icache ip with node := d }

@[simp] theorem Fs.setNode_node (s : Fs) (ip : Nat) (d : Dinode) : (s.setNode ip d).node ip = d := by
  unfold node setNode setSlot
  dsimp only
  rw [Function.update_self]

@[simp] theorem Fs.setNode_block (s : Fs) (ip : Nat) (d : Dinode) :
    (s.setNode ip d).block = s.block := rfl

@[simp] theorem Fs.setNode_dinode (s : Fs) (ip : Nat) (d : Dinode) :
    (s.setNode ip d).dinode = s.dinode := rfl

theorem Fs.setNode_icache (s : Fs) (ip : Nat) (d : Dinode) :
    (s.setNode ip d).icache = Function.update s.icache ip { s.icache ip with node := d } := rfl

/-- Blocks have been freed and the copy in entry `ip` is now `d`. -/
structure Freed (v : Volume) (ip : Nat) (d : Dinode) (s s' : Fs) : Prop where
  kept : ∀ c, v.Data c → s'.block c = s.block c
  dinode : s'.dinode = s.dinode
  icache : s'.icache = (s.setNode ip d).icache

theorem Freed.node {d : Dinode} (h : Freed v ip d s s') : s'.node ip = d := by
  unfold Fs.node
  rw [h.icache]
  exact Fs.setNode_node s ip d

theorem Freed.trans {d e : Dinode} {s1 s2 s3 : Fs} (h1 : Freed v ip d s1 s2)
    (h2 : Freed v ip e s2 s3) : Freed v ip e s1 s3 := by
  refine ⟨fun c hc => (h2.kept c hc).trans (h1.kept c hc), h2.dinode.trans h1.dinode, ?_⟩
  rw [h2.icache, Fs.setNode_icache, Fs.setNode_icache, h1.icache, Fs.setNode_icache,
    Function.update_self, Function.update_idem]

theorem Freed.of_bitmap (h : BitmapOnly v (fun _ => False) s s') : Freed v ip (s.node ip) s s' := by
  refine ⟨fun c hc => h.kept c hc id, h.dinode, ?_⟩
  rw [h.icache, Fs.setNode_icache]
  exact (Function.update_eq_self ip s.icache).symm

theorem Freed.setNode (d : Dinode) : Freed v ip d s (s.setNode ip d) :=
  ⟨fun _ _ => rfl, rfl, rfl⟩

theorem setNode_wp {f : Dinode → Dinode} {Q : Unit → Fs → Prop} {E : String → Prop}
    (h : Q () (s.setNode ip (f (s.node ip)))) : wp (setNode ip f) E Q s :=
  modify_wp h

theorem blocksAt_direct_congr {d e : Dinode} {blk blk' : Blocks} {xs : List (Fin NDIRECT)}
    (h : ∀ k ∈ xs, e.addrs k = d.addrs k) :
    e.blocksAt blk' (xs.map .direct) = d.blocksAt blk (xs.map .direct) := by
  induction xs with
  | nil => rfl
  | cons k xs ih =>
    have hk := h k List.mem_cons_self
    have ih := ih fun m hm => h m (List.mem_cons_of_mem _ hm)
    rw [List.map_cons, Dinode.blocksAt_cons, Dinode.blocksAt_cons, ih, Dinode.refAt_direct,
      Dinode.refAt_direct, hk]

theorem itruncDirect_wp {E : String → Prop} : ∀ (k i : Nat) (s : Fs), i + k = NDIRECT →
    Alloc v s.block T ((s.node ip).blocksAt s.block (directsFrom i) ++ l) →
    wp (itruncDirect v ip k i) E
      (fun _ s' => Alloc v s'.block T l ∧ Freed v ip (clearAddrs (s.node ip) i k) s s') s := by
  intro k
  induction k with
  | zero =>
    intro i s hik h
    obtain rfl : i = NDIRECT := by omega
    refine ⟨by simpa [directsFrom_end, Dinode.blocksAt] using h, fun _ _ => rfl, rfl, ?_⟩
    rw [show clearAddrs (s.node ip) NDIRECT 0 = s.node ip by
      unfold clearAddrs
      congr 1
      funext m
      exact if_neg (by omega)]
    exact (Function.update_eq_self ip s.icache).symm
  | succ k ih =>
    intro i s hik h
    rw [blocksAt_directsFrom (by omega)] at h
    unfold itruncDirect
    refine wp_seq (get_wp ?_)
    rw [← clearAddrs_step]
    by_cases ha : (s.node ip).addrs i = 0
    · rw [if_pos ha] at h
      rw [if_neg (not_not.2 ha)]
      refine wp_ite.2 ⟨fun hne => absurd ha hne, fun _ => ?_⟩
      exact ih (i + 1) s (by omega) h
    · rw [if_neg ha] at h
      rw [if_pos ha]
      refine wp_ite.2 ⟨fun _ => ?_, fun hne => absurd (not_not.1 hne) ha⟩
      refine wp_seq (wp_post (bfree_wp h) ?_)
      rintro _ s1 ⟨h1, hb⟩
      refine wp_seq (setNode_wp ?_)
      have hnode : s1.node ip = s.node ip := by
        unfold Fs.node
        rw [hb.icache]
      have hfreed : Freed v ip ((s.node ip).setAddr i 0) s
          (s1.setNode ip ((s1.node ip).setAddr i 0)) := by
        rw [hnode]
        exact (Freed.of_bitmap hb).trans (.setNode _)
      refine wp_post (ih (i + 1) _ (by omega) ?_) ?_
      · rw [Fs.setNode_node, Fs.setNode_block]
        rw [← hnode] at h1
        have hsame : Dinode.blocksAt s1.block
            ((s1.node ip).setAddr i 0) (directsFrom (i + 1)) =
            (s1.node ip).blocksAt s.block (directsFrom (i + 1)) := by
          refine blocksAt_direct_congr fun m hm => Function.update_of_ne ?_ _ _
          obtain ⟨n, hn, rfl⟩ := List.getElem_of_mem hm
          simp
          omega
        rw [hsame]
        exact h1
      · rintro _ s2 ⟨h2, hf⟩
        refine ⟨h2, hfreed.trans ?_⟩
        rw [Fs.setNode_node, hnode] at hf
        rw [hnode]
        exact hf

theorem blocksAt_entries_congr {d : Dinode} {blk blk' : Blocks} {xs : List (Fin NINDIRECT)}
    (h : blk' (d.addrs NDIRECT) = blk (d.addrs NDIRECT)) :
    d.blocksAt blk' (xs.map .entry) = d.blocksAt blk (xs.map .entry) := by
  unfold Dinode.blocksAt
  rw [show d.refAt blk' = d.refAt blk from funext fun x => Dinode.refAt_congr fun _ => h]

theorem itruncIndirect_wp {E : String → Prop} {d : Dinode} (hd : d.addrs NDIRECT ≠ 0)
    (hdata : v.Data (d.addrs NDIRECT)) {a : Nat → BitVec 8} : ∀ (k j : Nat) (s : Fs), j + k = NINDIRECT → s.block (d.addrs NDIRECT) = a →
    Alloc v s.block T (d.blocksAt s.block (entriesFrom j) ++ l) →
    wp (itruncIndirect v a k j) E
      (fun _ s' => Alloc v s'.block T l ∧ BitmapOnly v (fun _ => False) s s') s := by
  intro k
  induction k with
  | zero =>
    intro j s hjk _ h
    obtain rfl : j = NINDIRECT := by omega
    refine ⟨?_, .refl s⟩
    rw [entriesFrom_end] at h
    exact h
  | succ k ih =>
    intro j s hjk ha h
    rw [blocksAt_entriesFrom hd (by omega), ha] at h
    unfold itruncIndirect
    by_cases h0 : (getWord a j).toNat = 0
    · rw [if_pos h0] at h
      refine wp_ite.2 ⟨fun hne => absurd h0 hne, fun _ => ?_⟩
      exact ih (j + 1) s (by omega) ha h
    · rw [if_neg h0] at h
      refine wp_ite.2 ⟨fun _ => ?_, fun hne => absurd (not_not.1 hne) h0⟩
      refine wp_seq (wp_post (bfree_wp h) ?_)
      rintro _ s1 ⟨h1, hb⟩
      have hkept := hb.kept _ hdata id
      refine wp_post (ih (j + 1) s1 (by omega) (hkept.trans ha) ?_) ?_
      · rw [show d.blocksAt s1.block (entriesFrom (j + 1)) = d.blocksAt s.block (entriesFrom (j + 1))
          from blocksAt_entries_congr hkept]
        exact h1
      · rintro _ s2 ⟨h2, hb2⟩
        exact ⟨h2, hb.trans hb2⟩

/-- `itrunc` has freed the blocks of inode `i`; its copy in entry `ip` and on the disk is `e`. -/
structure Truncated (v : Volume) (ip i : Nat) (e : Dinode) (s s' : Fs) : Prop where
  alloc : Alloc v s'.block s'.dinode []
  empty : ∀ k, k ≤ NDIRECT → e.addrs k = 0
  size : e.size = 0
  type : e.type = (s.node ip).type
  kept : ∀ c, v.Data c → s'.block c = s.block c
  dinode : s'.dinode = Function.update s.dinode i e
  icache : s'.icache = (s.setNode ip e).icache

/-- The copy of inode `ip` without blocks. -/
def emptied (d : Dinode) : Dinode :=
  { d with size := 0, addrs := fun m => if m ≤ NDIRECT then 0 else d.addrs m }

theorem sites_eq : sites = directsFrom 0 ++ (entriesFrom 0 ++ [.indirect]) := by
  unfold sites directsFrom entriesFrom
  rw [List.drop_zero, List.drop_zero]

theorem itrunc_wp {E : String → Prop} (h : Alloc v s.block s.dinode []) (hlive : (s.dinode (s.icache ip).inum).Live)
    (hagree : (s.dinode (s.icache ip).inum).addrs = (s.node ip).addrs) :
    wp (itrunc v ip) E
      (fun _ s' => Truncated v ip (s.icache ip).inum (emptied (s.node ip)) s s') s := by
  have hempty : ∀ k, k ≤ NDIRECT → (emptied (s.node ip)).addrs k = 0 := fun k hk => if_pos hk
  have href : (s.dinode (s.icache ip).inum).refAt s.block = (s.node ip).refAt s.block := by
    funext x
    cases x with
    | direct k => exact congrFun hagree _
    | indirect => exact congrFun hagree _
    | entry j => rw [Dinode.refAt_entry, Dinode.refAt_entry, hagree]
  have hblocks : (s.dinode (s.icache ip).inum).blocksAt s.block sites =
      (s.node ip).blocksAt s.block (directsFrom 0) ++
        ((s.node ip).blocksAt s.block (entriesFrom 0) ++ (s.node ip).blocksAt s.block [.indirect]) := by
    unfold Dinode.blocksAt
    rw [href, sites_eq]
    simp only [List.filter_append, List.map_append]
  have hrel := h.release hlive hempty
  rw [hblocks] at hrel
  unfold itrunc
  refine wp_seq (wp_post (itruncDirect_wp NDIRECT 0 s rfl hrel) ?_)
  rintro _ s1 ⟨h1, hf1⟩
  refine wp_seq (get_wp ?_)
  have hn1 := hf1.node
  have haddr : (s1.icache ip).node.addrs NDIRECT = (s.node ip).addrs NDIRECT := by
    change (s1.node ip).addrs NDIRECT = _
    rw [hn1]
    rfl
  -- What is left is to store the emptied copy.
  have hend : ∀ s2, Alloc v s2.block (Function.update s.dinode (s.icache ip).inum
      (emptied (s.node ip))) [] → (∃ d, Freed v ip d s s2 ∧ { d with size := 0 } = emptied (s.node ip)) →
      wp (do
        setNode ip fun d => { d with size := 0 }
        iupdate v ip) E
        (fun _ s' => Truncated v ip (s.icache ip).inum (emptied (s.node ip)) s s') s2 := by
    rintro s2 h2 ⟨d, hf, hd⟩
    refine wp_seq (setNode_wp (wp_seq (get_wp (modify_wp ?_))))
    rw [hf.node, hd]
    have hslot : (s2.setNode ip (emptied (s.node ip))).icache =
        (s.setNode ip (emptied (s.node ip))).icache := (hf.trans (.setNode _)).icache
    have hinum : ((s2.setNode ip (emptied (s.node ip))).icache ip).inum = (s.icache ip).inum := by
      rw [hslot, Fs.setNode_icache, Function.update_self]
    have hnode : ((s2.setNode ip (emptied (s.node ip))).icache ip).node = emptied (s.node ip) :=
      Fs.setNode_node s2 ip _
    rw [hinum, hnode, Fs.setNode_dinode, hf.dinode]
    exact ⟨h2, hempty, rfl, rfl, fun c hc => hf.kept c hc, rfl, hslot⟩
  by_cases h0 : (s.node ip).addrs NDIRECT = 0
  · refine wp_ite.2 ⟨fun hne => absurd (haddr.trans h0) hne, fun _ => ?_⟩
    have hnone : (s.node ip).blocksAt s.block (entriesFrom 0) ++
        (s.node ip).blocksAt s.block [.indirect] = [] := by
      rw [← Dinode.blocksAt_append]
      refine Dinode.blocksAt_eq_nil fun x hx => ?_
      rcases List.mem_append.1 hx with hx | hx
      · obtain ⟨j, _, rfl⟩ := List.mem_map.1 hx
        rw [Dinode.refAt_entry, if_pos h0]
      · rw [List.mem_singleton.1 hx]
        exact h0
    rw [hnone] at h1
    refine hend s1 h1 ⟨_, hf1, ?_⟩
    unfold clearAddrs emptied
    congr 1
    funext m
    by_cases hm : m = NDIRECT
    · subst hm
      simp [h0]
    · dsimp only
      congr 1
      exact propext ⟨fun h => by omega, fun h => by omega⟩
  · refine wp_ite.2 ⟨fun _ => ?_, fun hne => absurd (not_not.1 hne) (haddr ▸ h0)⟩
    refine wp_seq (wp_seq (get_wp ?_))
    simp only [wp_pure]
    have hind : (s.node ip).blocksAt s.block [.indirect] = [(s.node ip).addrs NDIRECT] := by
      rw [Dinode.blocksAt_cons, Dinode.refAt_indirect, if_neg h0]
      rfl
    have hdata : v.Data ((s.node ip).addrs NDIRECT) := by
      have := h.data _ .indirect hlive
      rw [href] at this
      exact this h0
    have hkept := hf1.kept _ hdata
    rw [hind, ← show (s.node ip).blocksAt s1.block (entriesFrom 0) =
      (s.node ip).blocksAt s.block (entriesFrom 0) from blocksAt_entries_congr hkept] at h1
    refine wp_seq (wp_post (itruncIndirect_wp h0 hdata NINDIRECT 0 s1 rfl (by rw [haddr]) h1) ?_)
    rintro _ s2 ⟨h2, hb2⟩
    rw [haddr]
    refine wp_seq (wp_post (bfree_wp h2) ?_)
    rintro _ s3 ⟨h3, hb3⟩
    refine wp_seq (setNode_wp ?_)
    have hb := hb2.trans hb3
    have hnode : s3.node ip = s1.node ip := by
      unfold Fs.node
      rw [hb.icache]
    refine hend _ h3 ⟨_, (hf1.trans (.of_bitmap hb)).trans (.setNode _), ?_⟩
    rw [hnode, hn1]
    unfold clearAddrs emptied Dinode.setAddr
    congr 1
    funext m
    by_cases hm : m = NDIRECT
    · subst hm
      simp
    · dsimp only
      rw [Function.update_of_ne hm]
      congr 1
      exact propext ⟨fun h => by omega, fun h => by omega⟩

end Xv6
