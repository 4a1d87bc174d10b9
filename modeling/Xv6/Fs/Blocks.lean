import Mathlib.Data.List.FinRange
import Mathlib.Data.List.Nodup
import Xv6.Fs.Inode

/-!
# Who refers to which block

`Alloc` is the invariant of the free bitmap: a data block is marked used exactly when it is held or
one place of one inode refers to it. The lemmas say what it takes to hold a free block, to store a
held block in an inode, and to take all blocks out of an inode.
-/

namespace Xv6

open Lib

/-- The places of an inode that refer to a block. -/
inductive Site where
  | direct (k : Fin NDIRECT)
  | indirect
  | entry (j : Fin NINDIRECT)
  deriving DecidableEq

/-- The contents of the blocks. -/
abbrev Blocks : Type := Nat → Nat → BitVec 8

variable {v : Volume} {blk blk' : Blocks} {T T' : Nat → Dinode} {d e : Dinode} {i j b c : Nat}
  {x y : Site} {l : List Nat}

namespace Dinode

def Live (d : Dinode) : Prop := d.type ≠ .free

/-- The block that a place refers to, 0 for none. -/
def refAt (blk : Blocks) (d : Dinode) : Site → Nat
  | .direct k => d.addrs k
  | .indirect => d.addrs NDIRECT
  | .entry j => if d.addrs NDIRECT = 0 then 0 else (getWord (blk (d.addrs NDIRECT)) j).toNat

@[simp] theorem refAt_direct (k : Fin NDIRECT) : d.refAt blk (.direct k) = d.addrs k := rfl

@[simp] theorem refAt_indirect : d.refAt blk .indirect = d.addrs NDIRECT := rfl

theorem refAt_entry (j : Fin NINDIRECT) : d.refAt blk (.entry j) =
    if d.addrs NDIRECT = 0 then 0 else (getWord (blk (d.addrs NDIRECT)) j).toNat := rfl

@[simp] theorem setAddr_self (k : Nat) : (d.setAddr k b).addrs k = b := Function.update_self ..

theorem setAddr_of_ne {k m : Nat} (h : m ≠ k) : (d.setAddr k b).addrs m = d.addrs m :=
  Function.update_of_ne h ..

theorem refAt_entry_congr {j : Fin NINDIRECT} (h : d.addrs NDIRECT = e.addrs NDIRECT) :
    d.refAt blk (.entry j) = e.refAt blk (.entry j) := by
  rw [refAt_entry, refAt_entry, h]

theorem refAt_congr (h : d.addrs NDIRECT ≠ 0 → blk' (d.addrs NDIRECT) = blk (d.addrs NDIRECT)) :
    d.refAt blk' x = d.refAt blk x := by
  cases x with
  | direct k => rfl
  | indirect => rfl
  | entry j =>
    rw [refAt_entry, refAt_entry]
    by_cases h0 : d.addrs NDIRECT = 0
    · rw [if_pos h0, if_pos h0]
    · rw [if_neg h0, if_neg h0, h h0]

/-- No place refers to a block. -/
theorem refAt_of_empty (h : ∀ k, k ≤ NDIRECT → d.addrs k = 0) : d.refAt blk x = 0 := by
  cases x with
  | direct k => exact h k k.isLt.le
  | indirect => exact h NDIRECT le_rfl
  | entry j => exact if_pos (h NDIRECT le_rfl)

end Dinode

namespace Volume

/-- A data block. -/
def Data (v : Volume) (b : Nat) : Prop := v.datastart ≤ b ∧ b < v.size

/-- Block `b` is marked used in the bitmap. -/
def used (v : Volume) (blk : Blocks) (b : Nat) : Bool := testBit (blk (v.bblock b)) (b % BPB)

theorem bblock_lt (h : b < v.size) : v.bblock b < v.datastart := by
  have := v.bmap_fits
  simp only [BPB] at this
  unfold bblock
  simp only [BPB]
  omega

theorem Data.pos (h : v.Data b) : 0 < b := by
  have := v.bmap_pos
  have := Nat.le_of_add_right_le v.bmap_fits
  have := h.1
  omega

theorem Data.lt (h : v.Data b) : b < 2 ^ 32 := by
  have := v.small
  have := h.2
  omega

/-- A data block is not a block of the bitmap. -/
theorem Data.ne_bblock (h : v.Data b) (hc : c < v.size) : b ≠ v.bblock c := by
  have := bblock_lt (v := v) hc
  have := h.1
  omega

theorem used_update (h : v.Data b) (hc : c < v.size) (f : Nat → BitVec 8) :
    v.used (Function.update blk b f) c = v.used blk c := by
  unfold used
  rw [Function.update_of_ne (h.ne_bblock hc).symm]

theorem used_setBit :
    v.used (Function.update blk (v.bblock b) (setBit (blk (v.bblock b)) (b % BPB))) c =
      (v.used blk c || decide (c = b)) := by
  unfold used
  by_cases h : v.bblock c = v.bblock b
  · rw [h, Function.update_self, testBit_setBit]
    congr 1
    refine decide_eq_decide.2 ⟨fun hm => ?_, fun hm => by rw [hm]⟩
    unfold bblock at h
    simp only [BPB] at h hm
    omega
  · rw [Function.update_of_ne h, decide_eq_false fun e => h (by rw [e]), Bool.or_false]

theorem used_clearBit :
    v.used (Function.update blk (v.bblock b) (clearBit (blk (v.bblock b)) (b % BPB))) c =
      (v.used blk c && !decide (c = b)) := by
  unfold used
  by_cases h : v.bblock c = v.bblock b
  · rw [h, Function.update_self, testBit_clearBit]
    congr 2
    refine decide_eq_decide.2 ⟨fun hm => ?_, fun hm => by rw [hm]⟩
    unfold bblock at h
    simp only [BPB] at h hm
    omega
  · rw [Function.update_of_ne h, decide_eq_false fun e => h (by rw [e]), Bool.not_false,
      Bool.and_true]

end Volume

/-- The bitmap, the inodes `T` and the blocks `l` that are held and in no inode. -/
structure Alloc (v : Volume) (blk : Blocks) (T : Nat → Dinode) (l : List Nat) : Prop where
  metadata : ∀ b, b < v.datastart → b < v.size → v.used blk b = true
  data : ∀ i x, (T i).Live → (T i).refAt blk x ≠ 0 → v.Data ((T i).refAt blk x)
  unique : ∀ i x j y, (T i).Live → (T j).Live → (T i).refAt blk x ≠ 0 →
    (T i).refAt blk x = (T j).refAt blk y → i = j ∧ x = y
  used : ∀ b, v.Data b →
    (v.used blk b = true ↔ b ∈ l ∨ ∃ i x, (T i).Live ∧ (T i).refAt blk x = b)
  held : ∀ b ∈ l, v.Data b ∧ ∀ i x, (T i).Live → (T i).refAt blk x ≠ b
  nodup : l.Nodup

namespace Alloc

/-- What the invariant reads. -/
theorem congr (h : Alloc v blk T l) (hlive : ∀ i, (T' i).Live ↔ (T i).Live)
    (href : ∀ i x, (T i).Live → (T' i).refAt blk' x = (T i).refAt blk x)
    (hused : ∀ b, b < v.size → v.used blk' b = v.used blk b) : Alloc v blk' T' l := by
  refine ⟨fun b h1 h2 => ?_, fun i x hi hx => ?_, fun i x j y hi hj hx he => ?_, fun b hb => ?_,
    fun b hb => ?_, h.nodup⟩
  · rw [hused b h2]
    exact h.metadata b h1 h2
  · rw [href i x ((hlive i).1 hi)] at hx ⊢
    exact h.data i x ((hlive i).1 hi) hx
  · rw [href i x ((hlive i).1 hi)] at hx he
    rw [href j y ((hlive j).1 hj)] at he
    exact h.unique i x j y ((hlive i).1 hi) ((hlive j).1 hj) hx he
  · rw [hused b hb.2, h.used b hb]
    refine or_congr_right (exists_congr fun i => exists_congr fun x => ?_)
    rw [hlive i]
    exact and_congr_right fun hi => by rw [href i x hi]
  · refine ⟨(h.held b hb).1, fun i x hi => ?_⟩
    rw [href i x ((hlive i).1 hi)]
    exact (h.held b hb).2 i x ((hlive i).1 hi)

theorem ref_used (h : Alloc v blk T l) (hi : (T i).Live) (hx : (T i).refAt blk x ≠ 0) :
    v.used blk ((T i).refAt blk x) = true :=
  (h.used _ (h.data i x hi hx)).2 (.inr ⟨i, x, hi, rfl⟩)

/-- No live inode has `b` as its indirect block. -/
def NotIndirect (T : Nat → Dinode) (b : Nat) : Prop := ∀ i, (T i).Live → (T i).addrs NDIRECT ≠ b

/-- A change of the contents of a data block that is nobody's indirect block. -/
theorem write (h : Alloc v blk T l) (hb : v.Data b) (hn : NotIndirect T b) (f : Nat → BitVec 8) :
    Alloc v (Function.update blk b f) T l := by
  refine h.congr (fun _ => Iff.rfl) (fun i x hi => ?_) fun c hc => Volume.used_update hb hc f
  exact Dinode.refAt_congr fun _ => Function.update_of_ne (hn i hi) _ _

theorem held_notIndirect (h : Alloc v blk T l) (hb : b ∈ l) : NotIndirect T b := fun i hi =>
  (h.held b hb).2 i .indirect hi

/-- A free block is marked used and held. -/
theorem take (h : Alloc v blk T l) (hb : b < v.size) (hfree : v.used blk b = false) :
    v.Data b ∧ Alloc v
      (Function.update blk (v.bblock b) (setBit (blk (v.bblock b)) (b % BPB))) T (b :: l) := by
  have hdata : v.Data b := by
    refine ⟨not_lt.1 fun hlt => ?_, hb⟩
    rw [h.metadata b hlt hb] at hfree
    cases hfree
  have hnew : ∀ i x, (T i).Live → (T i).refAt blk x ≠ b := by
    rintro i x hi rfl
    rw [h.ref_used hi hdata.pos.ne'] at hfree
    cases hfree
  have href : ∀ i x, (T i).Live → (T i).refAt
      (Function.update blk (v.bblock b) (setBit (blk (v.bblock b)) (b % BPB))) x =
      (T i).refAt blk x := by
    intro i x hi
    refine Dinode.refAt_congr fun h0 => Function.update_of_ne ?_ _ _
    exact (h.data i .indirect hi h0).ne_bblock hb
  refine ⟨hdata, fun c h1 h2 => ?_, fun i x hi hx => ?_, fun i x j y hi hj hx he => ?_,
    fun c hc => ?_, fun c hc => ?_, ?_⟩
  · rw [Volume.used_setBit, h.metadata c h1 h2, Bool.true_or]
  · rw [href i x hi] at hx ⊢
    exact h.data i x hi hx
  · rw [href i x hi] at hx he
    rw [href j y hj] at he
    exact h.unique i x j y hi hj hx he
  · rw [Volume.used_setBit, Bool.or_eq_true, h.used c hc, decide_eq_true_iff, List.mem_cons,
      or_comm (a := c = b), or_assoc, or_assoc, or_comm (b := c = b)]
    refine or_congr_right (or_congr_right (exists_congr fun i => exists_congr fun x => ?_))
    exact and_congr_right fun hi => by rw [href i x hi]
  · rcases List.mem_cons.1 hc with rfl | hc
    · exact ⟨hdata, fun i x hi => by rw [href i x hi]; exact hnew i x hi⟩
    · exact ⟨(h.held c hc).1, fun i x hi => by rw [href i x hi]; exact (h.held c hc).2 i x hi⟩
  · refine List.nodup_cons.2 ⟨fun hm => ?_, h.nodup⟩
    rw [(h.used b hdata).2 (.inl hm)] at hfree
    cases hfree

/-- A held block is marked free. -/
theorem give (h : Alloc v blk T (b :: l)) :
    v.used blk b = true ∧ Alloc v
      (Function.update blk (v.bblock b) (clearBit (blk (v.bblock b)) (b % BPB))) T l := by
  obtain ⟨hdata, hnew⟩ := h.held b List.mem_cons_self
  have href : ∀ i x, (T i).Live → (T i).refAt
      (Function.update blk (v.bblock b) (clearBit (blk (v.bblock b)) (b % BPB))) x =
      (T i).refAt blk x := by
    intro i x hi
    refine Dinode.refAt_congr fun h0 => Function.update_of_ne ?_ _ _
    exact (h.data i .indirect hi h0).ne_bblock hdata.2
  obtain ⟨hnot, hnodup⟩ := List.nodup_cons.1 h.nodup
  refine ⟨(h.used b hdata).2 (.inl List.mem_cons_self), fun c h1 h2 => ?_, fun i x hi hx => ?_,
    fun i x j y hi hj hx he => ?_, fun c hc => ?_, fun c hc => ?_, hnodup⟩
  · have hne : c ≠ b := by
      have := hdata.1
      omega
    rw [Volume.used_clearBit, h.metadata c h1 h2, decide_eq_false hne]
    rfl
  · rw [href i x hi] at hx ⊢
    exact h.data i x hi hx
  · rw [href i x hi] at hx he
    rw [href j y hj] at he
    exact h.unique i x j y hi hj hx he
  · have hex : (∃ i x, (T i).Live ∧ (T i).refAt
        (Function.update blk (v.bblock b) (clearBit (blk (v.bblock b)) (b % BPB))) x = c) ↔
        ∃ i x, (T i).Live ∧ (T i).refAt blk x = c :=
      exists_congr fun i => exists_congr fun x => and_congr_right fun hi => by rw [href i x hi]
    rw [Volume.used_clearBit, Bool.and_eq_true, h.used c hc, Bool.not_eq_true', decide_eq_false_iff_not,
      hex, List.mem_cons]
    constructor
    · rintro ⟨(rfl | hm) | hr, hne⟩
      · exact absurd rfl hne
      · exact .inl hm
      · exact .inr hr
    · rintro (hm | ⟨i, x, hi, hr⟩)
      · exact ⟨.inl (.inr hm), fun he => hnot (he ▸ hm)⟩
      · exact ⟨.inr ⟨i, x, hi, hr⟩, fun he => hnew i x hi (hr.trans he)⟩
  · obtain ⟨hd, hr⟩ := h.held c (List.mem_cons_of_mem _ hc)
    exact ⟨hd, fun i x hi => by rw [href i x hi]; exact hr i x hi⟩

/-- A held block is stored at a place that was empty. -/
theorem assign (h : Alloc v blk T (b :: l)) (hi : (T i).Live) (hx : (T i).refAt blk x = 0)
    (hlive : ∀ j, (T' j).Live ↔ (T j).Live)
    (href : ∀ j y, (T j).Live →
      (T' j).refAt blk' y = if j = i ∧ y = x then b else (T j).refAt blk y)
    (hused : ∀ c, c < v.size → v.used blk' c = v.used blk c) : Alloc v blk' T' l := by
  obtain ⟨hdata, hnew⟩ := h.held b List.mem_cons_self
  obtain ⟨hnot, hnodup⟩ := List.nodup_cons.1 h.nodup
  refine ⟨fun c h1 h2 => ?_, fun j y hj hy => ?_, fun j y k z hj hk hy he => ?_,
    fun c hc => ?_, fun c hc => ?_, hnodup⟩
  · rw [hused c h2]
    exact h.metadata c h1 h2
  · rw [href j y ((hlive j).1 hj)] at hy ⊢
    split
    · exact hdata
    · rename_i hne
      rw [if_neg hne] at hy
      exact h.data j y ((hlive j).1 hj) hy
  · rw [href j y ((hlive j).1 hj)] at hy he
    rw [href k z ((hlive k).1 hk)] at he
    split at he
    · rename_i hjy
      split at he
      · rename_i hkz
        exact ⟨hjy.1.trans hkz.1.symm, hjy.2.trans hkz.2.symm⟩
      · exact absurd he.symm (hnew k z ((hlive k).1 hk))
    · rename_i hjy
      rw [if_neg hjy] at hy
      split at he
      · exact absurd he (hnew j y ((hlive j).1 hj))
      · exact h.unique j y k z ((hlive j).1 hj) ((hlive k).1 hk) hy he
  · rw [hused c hc.2, h.used c hc, List.mem_cons]
    constructor
    · rintro ((rfl | hm) | ⟨j, y, hj, hr⟩)
      · exact .inr ⟨i, x, (hlive i).2 hi, by rw [href i x hi, if_pos ⟨rfl, rfl⟩]⟩
      · exact .inl hm
      · refine .inr ⟨j, y, (hlive j).2 hj, ?_⟩
        rw [href j y hj, if_neg, hr]
        rintro ⟨rfl, rfl⟩
        exact hc.pos.ne (hx.symm.trans hr)
    · rintro (hm | ⟨j, y, hj, hr⟩)
      · exact .inl (.inr hm)
      · have hj' := (hlive j).1 hj
        rw [href j y hj'] at hr
        split at hr
        · exact .inl (.inl hr.symm)
        · exact .inr ⟨j, y, hj', hr⟩
  · obtain ⟨hd, hr⟩ := h.held c (List.mem_cons_of_mem _ hc)
    refine ⟨hd, fun j y hj => ?_⟩
    rw [href j y ((hlive j).1 hj)]
    split
    · rintro rfl
      exact hnot hc
    · exact hr j y ((hlive j).1 hj)

end Alloc

/-- The places of an inode in the order in which `itrunc` frees them. -/
def sites : List Site :=
  (List.finRange NDIRECT).map .direct ++ ((List.finRange NINDIRECT).map .entry ++ [.indirect])

theorem mem_sites (x : Site) : x ∈ sites := by
  unfold sites
  cases x with
  | direct k => exact List.mem_append_left _ (List.mem_map_of_mem (List.mem_finRange k))
  | indirect => simp
  | entry j =>
    exact List.mem_append_right _ (List.mem_append_left _ (List.mem_map_of_mem (List.mem_finRange j)))

theorem nodup_sites : sites.Nodup := by
  unfold sites
  refine List.nodup_append.2 ⟨?_, List.nodup_append.2 ⟨?_, List.nodup_singleton _, ?_⟩, ?_⟩
  · exact (List.nodup_finRange _).map fun a b h => Site.direct.inj h
  · exact (List.nodup_finRange _).map fun a b h => Site.entry.inj h
  · intro x hx y hy
    obtain ⟨j, _, rfl⟩ := List.mem_map.1 hx
    rw [List.mem_singleton.1 hy]
    nofun
  · intro x hx y hy
    obtain ⟨k, _, rfl⟩ := List.mem_map.1 hx
    rintro rfl
    simp at hy

/-- The blocks at the places `xs`. -/
def Dinode.blocksAt (blk : Blocks) (d : Dinode) (xs : List Site) : List Nat :=
  (xs.filter fun x => d.refAt blk x ≠ 0).map (d.refAt blk)

theorem Dinode.blocksAt_cons (x : Site) (xs : List Site) : d.blocksAt blk (x :: xs) =
    if d.refAt blk x = 0 then d.blocksAt blk xs else d.refAt blk x :: d.blocksAt blk xs := by
  unfold blocksAt
  by_cases h : d.refAt blk x = 0
  · rw [if_pos h, List.filter_cons_of_neg (by simpa using h)]
  · rw [if_neg h, List.filter_cons_of_pos (by simpa using h), List.map_cons]

theorem Dinode.blocksAt_append (xs ys : List Site) :
    d.blocksAt blk (xs ++ ys) = d.blocksAt blk xs ++ d.blocksAt blk ys := by
  unfold blocksAt
  rw [List.filter_append, List.map_append]

theorem Dinode.blocksAt_eq_nil {xs : List Site} (h : ∀ x ∈ xs, d.refAt blk x = 0) :
    d.blocksAt blk xs = [] := by
  unfold blocksAt
  rw [List.filter_eq_nil_iff.2 fun x hx => by simpa using h x hx]
  rfl

theorem Dinode.mem_blocksAt {xs : List Site} :
    b ∈ d.blocksAt blk xs ↔ b ≠ 0 ∧ ∃ x ∈ xs, d.refAt blk x = b := by
  unfold blocksAt
  constructor
  · intro h
    obtain ⟨x, hx, rfl⟩ := List.mem_map.1 h
    obtain ⟨hm, hne⟩ := List.mem_filter.1 hx
    exact ⟨by simpa using hne, x, hm, rfl⟩
  · rintro ⟨hb, x, hx, rfl⟩
    exact List.mem_map_of_mem (List.mem_filter.2 ⟨hx, by simpa using hb⟩)

/-- All blocks of inode `i` are taken out of it and held. -/
theorem Alloc.release (h : Alloc v blk T []) (hi : (T i).Live)
    (he : ∀ k, k ≤ NDIRECT → e.addrs k = 0) :
    Alloc v blk (Function.update T i e) ((T i).blocksAt blk sites) := by
  have hzero : ∀ x, e.refAt blk x = 0 := fun x => Dinode.refAt_of_empty he
  have hother : ∀ {j x}, (Function.update T i e j).refAt blk x ≠ 0 →
      j ≠ i ∧ Function.update T i e j = T j := by
    intro j x hx
    have hji : j ≠ i := by
      rintro rfl
      rw [Function.update_self] at hx
      exact hx (hzero x)
    exact ⟨hji, Function.update_of_ne hji _ _⟩
  refine ⟨h.metadata, fun j x hj hx => ?_, fun j x k y hj hk hx hxy => ?_, fun b hb => ?_,
    fun b hb => ?_, ?_⟩
  · obtain ⟨_, hT⟩ := hother hx
    rw [hT] at hj hx ⊢
    exact h.data j x hj hx
  · obtain ⟨_, hTj⟩ := hother hx
    obtain ⟨_, hTk⟩ := hother (x := y) (by rw [← hxy]; exact hx)
    rw [hTj] at hj hx hxy
    rw [hTk] at hk hxy
    exact h.unique j x k y hj hk hx hxy
  · rw [h.used b hb, Dinode.mem_blocksAt]
    constructor
    · rintro (hm | ⟨j, x, hj, hr⟩)
      · cases hm
      · by_cases hji : j = i
        · subst hji
          exact .inl ⟨hb.pos.ne', x, mem_sites x, hr⟩
        · refine .inr ⟨j, x, ?_⟩
          rw [Function.update_of_ne hji]
          exact ⟨hj, hr⟩
    · rintro (⟨_, x, _, hr⟩ | ⟨j, x, hj, hr⟩)
      · exact .inr ⟨i, x, hi, hr⟩
      · obtain ⟨_, hT⟩ := hother (j := j) (x := x) (by rw [hr]; exact hb.pos.ne')
        rw [hT] at hj hr
        exact .inr ⟨j, x, hj, hr⟩
  · obtain ⟨hb0, x, _, rfl⟩ := Dinode.mem_blocksAt.1 hb
    refine ⟨h.data i x hi hb0, fun j y hj hr => ?_⟩
    obtain ⟨hji, hT⟩ := hother (j := j) (x := y) (by rw [hr]; exact hb0)
    rw [hT] at hj hr
    exact hji (h.unique i x j y hi hj hb0 hr.symm).1.symm
  · unfold Dinode.blocksAt
    refine List.Nodup.map_on (fun x hx y _ hxy => ?_) (nodup_sites.filter _)
    have hx0 : (T i).refAt blk x ≠ 0 := by simpa using (List.mem_filter.1 hx).2
    exact (h.unique i x i y hi hi hx0 hxy).2

/-- An inode without blocks comes into use, or goes out of use. -/
theorem Alloc.retype (h : Alloc v blk T l) (he : ∀ k, k ≤ NDIRECT → e.addrs k = 0)
    (hi : (T i).Live → ∀ k, k ≤ NDIRECT → (T i).addrs k = 0) :
    Alloc v blk (Function.update T i e) l := by
  have hback : ∀ {j x}, (Function.update T i e j).Live → (Function.update T i e j).refAt blk x ≠ 0 →
      (T j).Live ∧ Function.update T i e j = T j := by
    intro j x hj hx
    have hji : j ≠ i := by
      rintro rfl
      rw [Function.update_self] at hx
      exact hx (Dinode.refAt_of_empty he)
    rw [Function.update_of_ne hji] at hj ⊢
    exact ⟨hj, rfl⟩
  have hforth : ∀ {j x}, (T j).Live → (T j).refAt blk x ≠ 0 → Function.update T i e j = T j := by
    intro j x hj hx
    refine Function.update_of_ne ?_ _ _
    rintro rfl
    exact hx (Dinode.refAt_of_empty (hi hj))
  refine ⟨h.metadata, fun j x hj hx => ?_, fun j x k y hj hk hx hxy => ?_, fun b hb => ?_,
    fun b hb => ⟨(h.held b hb).1, fun j x hj hr => ?_⟩, h.nodup⟩
  · obtain ⟨hj', hT⟩ := hback hj hx
    rw [hT] at hx ⊢
    exact h.data j x hj' hx
  · obtain ⟨hj', hTj⟩ := hback hj hx
    obtain ⟨hk', hTk⟩ := hback (x := y) hk (by rw [← hxy]; exact hx)
    rw [hTj] at hx hxy
    rw [hTk] at hxy
    exact h.unique j x k y hj' hk' hx hxy
  · rw [h.used b hb]
    refine or_congr_right ⟨?_, ?_⟩
    · rintro ⟨j, x, hj, hr⟩
      have hT := hforth hj (by rw [hr]; exact hb.pos.ne')
      exact ⟨j, x, by rw [hT]; exact hj, by rw [hT]; exact hr⟩
    · rintro ⟨j, x, hj, hr⟩
      obtain ⟨hj', hT⟩ := hback hj (by rw [hr]; exact hb.pos.ne')
      exact ⟨j, x, hj', by rw [← hT]; exact hr⟩
  · obtain ⟨hj', hT⟩ := hback hj (by rw [hr]; exact (h.held b hb).1.pos.ne')
    rw [hT] at hr
    exact (h.held b hb).2 j x hj' hr

/-! ### How many blocks an inode has -/

/-- The number of blocks that must be there for the place to be used. -/
def Site.rank : Site → Nat
  | .direct k => k
  | .indirect => NDIRECT
  | .entry j => NDIRECT + j

/-- The place of the `bn`-th block. -/
def siteOf (bn : Nat) : Site :=
  if h : bn < NDIRECT then .direct ⟨bn, h⟩
  else .entry ⟨(bn - NDIRECT) % NINDIRECT, Nat.mod_lt _ (by decide)⟩

theorem siteOf_ne_indirect (bn : Nat) : siteOf bn ≠ .indirect := by
  unfold siteOf
  split <;> nofun

/-- Exactly the first `n` blocks are there. -/
def Dinode.Shape (blk : Blocks) (d : Dinode) (n : Nat) : Prop :=
  ∀ x, x ≠ .indirect → (d.refAt blk x ≠ 0 ↔ x.rank < n)

/-- The number of blocks of `size` bytes. -/
def nblocks (size : Nat) : Nat := (size + BSIZE - 1) / BSIZE

theorem siteOf_rank {bn : Nat} (h : bn < MAXFILE) : (siteOf bn).rank = bn := by
  unfold siteOf
  simp only [MAXFILE, NDIRECT, NINDIRECT] at *
  split
  · rfl
  · simp only [Site.rank, NDIRECT]
    omega

theorem Dinode.shape_empty (he : ∀ k, k ≤ NDIRECT → d.addrs k = 0) : d.Shape blk 0 := fun _ _ =>
  iff_of_false (fun h => h (refAt_of_empty he)) (Nat.not_lt_zero _)

end Xv6
