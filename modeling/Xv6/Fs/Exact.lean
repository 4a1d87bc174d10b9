import Xv6.Fs.Calls
import Xv6.Lib.Run

/-!
# The free bitmap is exact after every sequence of calls

`BlocksExact` says what a file system must satisfy: a data block is marked used exactly when one
place of one inode refers to it, and an inode has the blocks that its size asks for and no others.
-/

namespace Xv6

open Lib

variable {v : Volume} {s s' : Fs}

/-- The `bn`-th block of an inode, 0 if there is none. -/
def Dinode.blockAt (blk : Blocks) (d : Dinode) (bn : Nat) : Nat :=
  if bn < MAXFILE then d.refAt blk (siteOf bn) else 0

structure BlocksExact (v : Volume) (s : Fs) : Prop where
  /-- Inodes refer to data blocks only. -/
  data : ∀ i x, (s.dinode i).Live → (s.dinode i).refAt s.block x ≠ 0 →
    v.Data ((s.dinode i).refAt s.block x)
  /-- A block is marked used when some place of an inode refers to it, and only then. -/
  used : ∀ b, v.Data b →
    (v.used s.block b = true ↔ ∃ i x, (s.dinode i).Live ∧ (s.dinode i).refAt s.block x = b)
  /-- No two places refer to one block. -/
  once : ∀ b i x j y, v.Data b → (s.dinode i).Live → (s.dinode j).Live →
    (s.dinode i).refAt s.block x = b → (s.dinode j).refAt s.block y = b → i = j ∧ x = y
  /-- An inode has its first `ceil(size / BSIZE)` blocks. -/
  filled : ∀ i bn, (s.dinode i).Live →
    ((s.dinode i).blockAt s.block bn ≠ 0 ↔ bn < nblocks (s.dinode i).size)

theorem rank_lt (x : Site) : x.rank < MAXFILE := by
  cases x with
  | direct k => exact lt_trans k.isLt (by decide)
  | indirect => decide
  | entry j =>
    have := j.isLt
    simp only [Site.rank, MAXFILE, NDIRECT, NINDIRECT] at *
    omega

theorem siteOf_of_rank {x : Site} (hx : x ≠ .indirect) : siteOf x.rank = x := by
  cases x with
  | direct k => exact dif_pos k.isLt
  | indirect => exact absurd rfl hx
  | entry j =>
    have hlt := j.isLt
    have hge : ¬ (Site.entry j).rank < NDIRECT := Nat.not_lt.2 (Nat.le_add_right _ _)
    unfold siteOf
    rw [dif_neg hge]
    refine congrArg Site.entry (Fin.ext ?_)
    simp only [Site.rank, Nat.add_sub_cancel_left]
    exact Nat.mod_eq_of_lt hlt

/-- No inode has a block, and no data block is marked used. -/
theorem BlocksExact.of_empty (haddr : ∀ i k, k ≤ NDIRECT → (s.dinode i).addrs k = 0)
    (hsize : ∀ i, (s.dinode i).size = 0) (hused : ∀ b, v.Data b → v.used s.block b = false) :
    BlocksExact v s := by
  have href : ∀ i x, (s.dinode i).refAt s.block x = 0 := fun i _ => Dinode.refAt_of_empty (haddr i)
  refine ⟨fun i x _ hx => absurd (href i x) hx, fun b hb => ?_, fun b i x j y hb _ _ hx => ?_,
    fun i bn _ => ?_⟩
  · rw [hused b hb]
    refine iff_of_false Bool.false_ne_true ?_
    rintro ⟨i, x, _, hx⟩
    exact hb.pos.ne ((href i x).symm.trans hx)
  · exact absurd ((href i x).symm.trans hx) hb.pos.ne
  · rw [hsize i, show nblocks 0 = 0 by decide]
    refine iff_of_false (fun hne => hne ?_) (Nat.not_lt_zero bn)
    unfold Dinode.blockAt
    split
    · exact href i _
    · rfl

/-- A file system that is exact is good while no inode is in use. -/
theorem BlocksExact.ok (h : BlocksExact v s)
    (hmeta : ∀ b, b < v.datastart → b < v.size → v.used s.block b = true)
    (hcold : ∀ k, (s.icache k).ref = 0) : FsOk v s := by
  refine ⟨⟨hmeta, h.data, fun i x j y hi hj hx he => ?_, fun b hb => ?_, nofun, List.nodup_nil⟩,
    fun i hi x hx => ?_, fun i hi => ?_, fun j _ hj => ?_, fun k hk => ?_, fun k hk => ?_⟩
  · exact h.once _ i x j y (h.data i x hi hx) hi hj rfl he.symm
  · rw [h.used b hb]
    exact (or_iff_right List.not_mem_nil).symm
  · rw [← h.filled i x.rank hi, Dinode.blockAt, if_pos (rank_lt x), siteOf_of_rank hx]
  · by_contra hbig
    have hlt : MAXFILE < nblocks (s.dinode i).size := by
      unfold nblocks
      simp only [MAXFILE, BSIZE] at *
      omega
    exact (h.filled i MAXFILE hi).2 hlt (if_neg (lt_irrefl _))
  · exact absurd (hcold j) hj.ne'
  · exact absurd (hcold k) hk.ne'
  · exact absurd (hcold k) hk.ne'

theorem FsOk.exact (h : FsOk v s) : BlocksExact v s := by
  refine ⟨h.alloc.data, fun b hb => ?_, fun b i x j y hb hi hj hx hy => ?_, fun i bn hi => ?_⟩
  · rw [h.alloc.used b hb]
    exact or_iff_right List.not_mem_nil
  · exact h.alloc.unique i x j y hi hj (by rw [hx]; exact hb.pos.ne') (hx.trans hy.symm)
  · unfold Dinode.blockAt
    split
    · rename_i hlt
      rw [h.shape i hi _ (siteOf_ne_indirect bn), siteOf_rank hlt]
    · refine iff_of_false (fun hne => hne rfl) ?_
      have := h.size i hi
      unfold nblocks
      simp only [MAXFILE, BSIZE] at *
      omega

/-- The calls. `cwd`, `dp` and `ip` are cache entries to which the caller has a reference. -/
inductive FsCall where
  | create (cwd : Nat) (path : List (BitVec 8)) (type : FileType) (major minor : BitVec 16)
  | link (cwd : Nat) (old new : List (BitVec 8))
  | unlink (cwd : Nat) (path : List (BitVec 8))
  | namei (cwd : Nat) (path : List (BitVec 8))
  | dirlink (dp : Nat) (name : List (BitVec 8)) (inum : Nat)
  | writei (ip off : Nat) (src : List (BitVec 8))
  | readi (ip off n : Nat)
  | itrunc (ip : Nat)
  | idup (ip : Nat)
  | iput (ip : Nat)

namespace FsCall

/-- The caller has the reference that the call uses. A path from the root needs none. -/
def Ready (s : Fs) : FsCall → Prop
  | create cwd _ _ _ _ | link cwd _ _ | unlink cwd _ => 0 < (s.icache cwd).ref
  | namei cwd path => path.headD 0 = slash ∨ 0 < (s.icache cwd).ref
  | dirlink ip _ _ | writei ip _ _ | readi ip _ _ | itrunc ip | idup ip | iput ip =>
    0 < (s.icache ip).ref

instance (s : Fs) (c : FsCall) : Decidable (c.Ready s) := by
  cases c <;> unfold Ready <;> infer_instance

/-- The functions that work on a locked inode are called with the lock. -/
def run (v : Volume) : FsCall → F Unit
  | create cwd path type major minor => do let _ ← Xv6.create v cwd path type major minor
  | link cwd old new => do let _ ← Xv6.link v cwd old new
  | unlink cwd path => do let _ ← Xv6.unlink v cwd path
  | namei cwd path => do let _ ← Xv6.namei v cwd path
  | dirlink dp name inum => do ilock dp; let _ ← Xv6.dirlink v dp name inum
  | writei ip off src => do ilock ip; let _ ← Xv6.writei v ip off src
  | readi ip off n => do ilock ip; let _ ← Xv6.readi v ip off n
  | itrunc ip => do ilock ip; Xv6.itrunc v ip
  | idup ip => do let _ ← Xv6.idup ip
  | iput ip => Xv6.iput v ip

/-- Every call keeps the file system good. -/
theorem run_wp (h : FsOk v s) {c : FsCall} (hc : c.Ready s) :
    wp (c.run v) FsStops (fun _ s' => FsOk v s') s := by
  have hown : ∀ {ip}, 0 < (s.icache ip).ref → Held v s [ip] [] := fun hr => Held.start_one h hr
  cases c with
  | create cwd path type major minor =>
    exact wp_seq (wp_post (create_wp (hown hc) List.mem_cons_self path type major minor)
      fun _ _ h1 => h1.ok)
  | link cwd old new =>
    exact wp_seq (wp_post (link_wp (hown hc) List.mem_cons_self old new) fun _ _ h1 => h1.ok)
  | unlink cwd path =>
    exact wp_seq (wp_post (unlink_wp (hown hc) List.mem_cons_self path) fun _ _ h1 => h1.ok)
  | namei cwd path =>
    rcases hc with hroot | hr
    · exact wp_seq (wp_post (namei_wp (Held.start h) (.inl hroot)) fun _ _ h1 => h1.ok)
    · exact wp_seq (wp_post (namei_wp (hown hr) (.inr List.mem_cons_self)) fun _ _ h1 => h1.ok)
  | dirlink dp name inum =>
    refine wp_seq (wp_post (ilock_wp (hown hc) List.mem_cons_self) fun _ s1 h1 => ?_)
    exact wp_seq (wp_post (dirlink_wp h1 List.mem_cons_self name inum) fun _ _ h2 => h2.ok)
  | writei ip off src =>
    refine wp_seq (wp_post (ilock_wp (hown hc) List.mem_cons_self) fun _ s1 h1 => ?_)
    exact wp_seq (wp_post (h1.writei List.mem_cons_self src) fun _ _ h2 => h2.ok)
  | readi ip off n =>
    refine wp_seq (wp_post (ilock_wp (hown hc) List.mem_cons_self) fun _ s1 h1 => ?_)
    refine wp_seq (wp_post (h1.readi List.mem_cons_self n) ?_)
    rintro _ _ rfl
    exact h1.ok
  | itrunc ip =>
    refine wp_seq (wp_post (ilock_wp (hown hc) List.mem_cons_self) fun _ s1 h1 => ?_)
    obtain ⟨hsame, hlive⟩ := h1.ok.cache.agree ip (h1.pos List.mem_cons_self) (h1.valid List.mem_cons_self)
    refine wp_post (itrunc_wp h1.ok.alloc hlive hsame.addrs.symm) fun _ s2 ht => ?_
    refine ht.ok h1.ok (h1.pos List.mem_cons_self) ?_
    unfold Dinode.Live
    rw [hsame.type]
    exact hlive
  | idup ip => exact wp_seq (wp_post (idup_wp (hown hc) hc) fun _ _ h1 => h1.ok)
  | iput ip =>
    exact wp_post (iput_wp (M := []) (hown hc) nofun) fun _ _ h1 => h1.ok

end FsCall

/-- A call that returns. One that stops the machine, for want of blocks, inodes or directory space,
is not a step. -/
def FsStep (v : Volume) (s : Fs) (c : FsCall) (s' : Fs) : Prop :=
  c.Ready s ∧ c.run v s = .ok ((), s')

theorem Run.fsOk {t : List FsCall} (hrun : Run (FsStep v) s t s') (h : FsOk v s) : FsOk v s' :=
  hrun.invariant (I := FsOk v) (C := fun _ => True)
    (fun _ hi hs => of_wp (FsCall.run_wp hi hs.1) hs.2) (fun _ _ => trivial) h

/-- From a file system that is exact, every sequence of calls leads to one that is exact, and in
which `readi` on a locked inode returns without any change. -/
theorem blocks_exact {t : List FsCall} (h0 : BlocksExact v s)
    (hmeta : ∀ b, b < v.datastart → b < v.size → v.used s.block b = true)
    (hcold : ∀ k, (s.icache k).ref = 0) (hrun : Run (FsStep v) s t s') :
    BlocksExact v s' ∧ ∀ ip off n, 0 < (s'.icache ip).ref → (s'.icache ip).valid = true →
      ∃ r, readi v ip off n s' = .ok (r, s') := by
  have hok : FsOk v s' := Run.fsOk hrun (h0.ok hmeta hcold)
  refine ⟨hok.exact, fun ip off n hr hv => ?_⟩
  obtain ⟨r, s1, hread, hs, _⟩ := exists_of_wp (readi_wp hok hr hv n)
  rw [hs] at hread
  exact ⟨r, hread⟩

/-- What `c` does from `s`. -/
def FsCall.act (v : Volume) (s : Fs) (c : FsCall) : Option (FsCall × Fs) :=
  if c.Ready s then
    match c.run v s with
    | .ok (_, s') => some (c, s')
    | .error _ => none
  else none

theorem step_of_callAct {c c' : FsCall} (h : c.act v s = some (c', s')) : FsStep v s c' s' := by
  unfold FsCall.act at h
  split at h
  · rename_i hready
    split at h
    · rename_i u s1 hrun
      obtain ⟨rfl, rfl⟩ := Prod.mk.inj (Option.some.inj h)
      exact ⟨hready, hrun⟩
    · cases h
  · cases h

theorem run_of_calls {cs t : List FsCall} (h : follow (FsCall.act v) s cs = some (t, s')) :
    Run (FsStep v) s t s' := by
  refine Run.of_follow (fun hc => ?_) h
  exact step_of_callAct hc

namespace Tiny

/-- A volume of 58 data blocks. -/
def vol : Volume where
  size := 64
  ninodes := 16
  inodestart := 2
  bmapstart := 4
  datastart := 6
  devRead := fun _ => none
  devWrite := fun _ => none
  bmap_pos := by decide
  bmap_fits := by decide
  small := by decide

/-- It holds an empty root directory. -/
def start : Fs where
  block := fun b i => if b = 4 ∧ i = 0 then 0x3f else 0
  dinode := fun i => ⟨if i = ROOTINO then .dir else .free, 0, 0, 1, 0, fun _ => 0⟩
  icache := fun _ => ⟨0, 0, false, ⟨.free, 0, 0, 0, 0, fun _ => 0⟩⟩
  logged := []

/-- `/f` -/
def path : List (BitVec 8) := [47, 102]

/-- Create a file, write to it, remove its name and close it. -/
def calls : List FsCall :=
  [.namei 0 [47], .create 0 path .file 0 0, .writei 1 0 [1, 2, 3], .unlink 0 path, .iput 1]

theorem start_used (b : Nat) (hb : b < vol.size) : vol.used start.block b = decide (b < 6) := by
  have hall : ∀ b : Fin 64, vol.used start.block b = decide (b.val < 6) := by decide +kernel
  exact hall ⟨b, hb⟩

theorem start_exact : BlocksExact vol start := by
  refine .of_empty (fun _ _ _ => rfl) (fun _ => rfl) fun b hb => ?_
  rw [start_used b hb.2]
  exact decide_eq_false (Nat.not_lt.2 hb.1)

theorem start_ok : FsOk vol start := by
  refine start_exact.ok (fun b hb hsize => ?_) fun _ => rfl
  rw [start_used b hsize]
  exact decide_eq_true hb

end Tiny

/-- After the run the directory still has its block, the removed file no longer has one. -/
theorem blocks_exact_tiny : ∃ t s', Run (FsStep Tiny.vol) Tiny.start t s' ∧
    BlocksExact Tiny.vol s' ∧ Tiny.vol.used s'.block 6 = true ∧ Tiny.vol.used s'.block 7 = false := by
  have hfollow : (follow (FsCall.act Tiny.vol) Tiny.start Tiny.calls).map (fun r =>
      (Tiny.vol.used r.2.block 6, Tiny.vol.used r.2.block 7)) = some (true, false) := by decide +kernel
  obtain ⟨⟨t, s'⟩, hs, he⟩ := Option.map_eq_some_iff.1 hfollow
  obtain ⟨h6, h7⟩ := Prod.mk.inj he
  have hrun : Run (FsStep Tiny.vol) Tiny.start t s' := run_of_calls hs
  have hmeta : ∀ b, b < Tiny.vol.datastart → b < Tiny.vol.size →
      Tiny.vol.used Tiny.start.block b = true := fun b hb hsize => by
    rw [Tiny.start_used b hsize]
    exact decide_eq_true hb
  exact ⟨t, s', hrun, (blocks_exact Tiny.start_exact hmeta (fun _ => rfl) hrun).1, h6, h7⟩

end Xv6
