import Xv6.Log.Commit

/-!
# A crash leaves all of a transaction or nothing

`Before` holds of the disks of `commit` up to the first `write_head`, `Logged` from there to
the second one, `Installed` after it. Recovery keeps `Before`, and takes `Logged` to
`Installed`, at whatever writes it is cut off and restarted.
-/

namespace Xv6

open Lib

/-- The blocks outside the log are those of `d0` and the log is empty. -/
structure Before (l : LogArea) (d0 d : Nat → Block) : Prop where
  head : d l.start 0 = 0
  home : ∀ b, l.Outside b → d b = d0 b

/-- What a transaction does: the header `h` and the new contents `v` of its blocks. -/
structure Transaction (l : LogArea) where
  h : LogHeader
  v : Nat → Block
  pos : 0 < h.n
  size : h.n < l.size
  home : ∀ i < h.n.toNat, l.Outside (h.block i).toNat

/-- Block `b` is in the transaction. -/
def Transaction.Mem {l : LogArea} (T : Transaction l) (b : Nat) : Prop :=
  ∃ i < T.h.n.toNat, (T.h.block i).toNat = b

/-- The log holds the transaction; blocks outside it are those of `d0`. -/
structure Logged {l : LogArea} (T : Transaction l) (d0 d : Nat → Block) : Prop where
  n : (d l.start 0).toInt = T.h.n
  block : ∀ i < T.h.n.toNat, d l.start (i + 1) = T.h.block i
  log : ∀ i < T.h.n.toNat, d (l.start + i + 1) = T.v (T.h.block i).toNat
  other : ∀ b, l.Outside b → ¬ T.Mem b → d b = d0 b

/-- The transaction is in place and the log is empty. -/
structure Installed {l : LogArea} (T : Transaction l) (d0 d : Nat → Block) : Prop where
  head : d l.start 0 = 0
  home : ∀ b, T.Mem b → d b = T.v b
  other : ∀ b, l.Outside b → ¬ T.Mem b → d b = d0 b

/-- Block `b` was written through the cache. -/
def LogState.written (s : LogState) (b : Nat) (v : Block) : LogState :=
  ⟨Function.update s.disk b v, Function.update s.cache b v, s.lh⟩

namespace LogState

variable (s : LogState) (v : Block) {b c : Nat}

theorem written_disk (b : Nat) : (s.written b v).disk b = v := Function.update_self _ _ _

theorem written_disk_ne (h : c ≠ b) : (s.written b v).disk c = s.disk c :=
  Function.update_of_ne h _ _

theorem written_cache (b : Nat) : (s.written b v).cache b = v := Function.update_self _ _ _

theorem written_cache_ne (h : c ≠ b) : (s.written b v).cache c = s.cache c :=
  Function.update_of_ne h _ _

end LogState

section

variable {l : LogArea} {T : Transaction l} {d0 d : Nat → Block} {I : (Nat → Block) → Prop}
  {s : LogState} {Q : Unit → LogState → Prop}

theorem copyBlock_chl {dst src : Nat} (hI : I s.disk) (h : Q () (s.written dst (s.cache src))) :
    chl (copyBlock dst src) (fun t => I t.disk) Q s := by
  refine chl_seq (chl_get (chl_seq (chl_modify (chl_step hI ?_))))
  dsimp only
  rw [Function.update_self]
  exact h

theorem writeHead_chl (hI : I s.disk)
    (h : Q () (s.written l.start (headBlock s.lh (s.cache l.start)))) :
    chl (writeHead l) (fun t => I t.disk) Q s := by
  refine chl_seq (chl_get (chl_seq (chl_modify (chl_step hI ?_))))
  dsimp only
  rw [Function.update_self]
  exact h

theorem LogArea.Outside.ne_start {b : Nat} (h : l.Outside b) (hl : 0 < l.size) : b ≠ l.start := by
  unfold Outside at h
  omega

theorem LogArea.Outside.ne_log {b i : Nat} (h : l.Outside b) (hi : i + 1 < l.size) :
    b ≠ l.start + i + 1 := by
  unfold Outside at h
  omega

/-! ## Writing the log -/

/-- The first `tail` blocks are in the log. -/
structure Writing (T : Transaction l) (d0 : Nat → Block) (tail : Nat) (s : LogState) : Prop where
  lh : s.lh = T.h
  cache : ∀ b, l.Outside b → s.cache b = T.v b
  log : ∀ i < tail, s.disk (l.start + i + 1) = T.v (T.h.block i).toNat ∧
    s.cache (l.start + i + 1) = T.v (T.h.block i).toNat
  before : Before l d0 s.disk

theorem Transaction.lt_size {i : Nat} (T : Transaction l) (hi : i < T.h.n.toNat) :
    i + 1 < l.size := by
  have := T.size
  omega

theorem Writing.next {tail : Nat} (h : Writing T d0 tail s) (ht : tail < T.h.n.toNat) :
    Writing T d0 (tail + 1)
      (s.written (l.start + tail + 1) (s.cache (T.h.block tail).toNat)) := by
  have hsize := T.lt_size ht
  have hv := h.cache _ (T.home tail ht)
  refine ⟨h.lh, fun b hb => ?_, fun i hi => ?_, ?_, fun b hb => ?_⟩
  · rw [LogState.written_cache_ne _ _ (hb.ne_log hsize)]
    exact h.cache b hb
  · by_cases e : i = tail
    · rw [e, LogState.written_disk, LogState.written_cache]
      exact ⟨hv, hv⟩
    · have hne : l.start + i + 1 ≠ l.start + tail + 1 := by omega
      rw [LogState.written_disk_ne _ _ hne, LogState.written_cache_ne _ _ hne]
      exact h.log i (by omega)
  · have hne : l.start ≠ l.start + tail + 1 := by omega
    rw [LogState.written_disk_ne _ _ hne]
    exact h.before.head
  · rw [LogState.written_disk_ne _ _ (hb.ne_log hsize)]
    exact h.before.home b hb

theorem writeLogLoop_chl (k : Nat) : ∀ (tail : Nat) (s : LogState), Writing T d0 tail s →
    tail + k = T.h.n.toNat → chl (writeLogLoop l k tail) (fun t => Before l d0 t.disk)
      (fun _ t => Writing T d0 T.h.n.toNat t) s := by
  induction k with
  | zero =>
    intro tail s h hk
    obtain rfl : tail = T.h.n.toNat := by omega
    exact chl_pure h
  | succ k ih =>
    intro tail s h hk
    refine chl_seq (chl_get (chl_seq (copyBlock_chl h.before ?_)))
    rw [h.lh]
    exact ih (tail + 1) _ (h.next (by omega)) (by omega)

theorem writeLogLoop_length (k : Nat) : ∀ (tail : Nat) (s : LogState),
    (writeLogLoop l k tail s).1.length = k := by
  induction k with
  | zero => intro _ _; rfl
  | succ k ih =>
    intro tail s
    have hone : (copyBlock (l.start + tail + 1) (s.lh.block tail).toNat s).1.length = 1 := rfl
    have hrest := ih (tail + 1) (copyBlock (l.start + tail + 1) (s.lh.block tail).toNat s).2.2
    calc (writeLogLoop l (k + 1) tail s).1.length
        = ((copyBlock (l.start + tail + 1) (s.lh.block tail).toNat s).1 ++
            (writeLogLoop l k (tail + 1)
              (copyBlock (l.start + tail + 1) (s.lh.block tail).toNat s).2.2).1).length := rfl
      _ = k + 1 := by rw [List.length_append, hone, hrest, Nat.add_comm]

/-! ## Installing -/

/-- The first `tail` blocks are in place. -/
structure Installing (T : Transaction l) (d0 : Nat → Block) (tail : Nat) (s : LogState) : Prop where
  n : s.lh.n = T.h.n
  block : ∀ i < T.h.n.toNat, s.lh.block i = T.h.block i
  cache : ∀ i < T.h.n.toNat, s.cache (l.start + i + 1) = T.v (T.h.block i).toNat
  logged : Logged T d0 s.disk
  done : ∀ i < tail, s.disk (T.h.block i).toNat = T.v (T.h.block i).toNat

theorem Installing.next {tail : Nat} (h : Installing T d0 tail s) (ht : tail < T.h.n.toNat) :
    Installing T d0 (tail + 1)
      (s.written (T.h.block tail).toNat (s.cache (l.start + tail + 1))) := by
  have hout := T.home tail ht
  have hpos : 0 < l.size := by have := T.lt_size ht; omega
  have hlog : ∀ i < T.h.n.toNat, l.start + i + 1 ≠ (T.h.block tail).toNat := fun i hi =>
    (hout.ne_log (T.lt_size hi)).symm
  have hstart : l.start ≠ (T.h.block tail).toNat := (hout.ne_start hpos).symm
  refine ⟨h.n, h.block, fun i hi => ?_, ⟨?_, fun i hi => ?_, fun i hi => ?_, fun b hb hm => ?_⟩,
    fun i hi => ?_⟩
  · rw [LogState.written_cache_ne _ _ (hlog i hi)]
    exact h.cache i hi
  · rw [LogState.written_disk_ne _ _ hstart]
    exact h.logged.n
  · rw [LogState.written_disk_ne _ _ hstart]
    exact h.logged.block i hi
  · rw [LogState.written_disk_ne _ _ (hlog i hi)]
    exact h.logged.log i hi
  · rw [LogState.written_disk_ne _ _ fun e => hm ⟨tail, ht, e.symm⟩]
    exact h.logged.other b hb hm
  · by_cases e : (T.h.block i).toNat = (T.h.block tail).toNat
    · rw [e, LogState.written_disk]
      exact h.cache tail ht
    · have hne : i ≠ tail := fun hc => e (by rw [hc])
      rw [LogState.written_disk_ne _ _ e]
      exact h.done i (by omega)

theorem installTransLoop_chl (k : Nat) : ∀ (tail : Nat) (s : LogState), Installing T d0 tail s →
    tail + k = T.h.n.toNat → chl (installTransLoop l k tail) (fun t => Logged T d0 t.disk)
      (fun _ t => Installing T d0 T.h.n.toNat t) s := by
  induction k with
  | zero =>
    intro tail s h hk
    obtain rfl : tail = T.h.n.toNat := by omega
    exact chl_pure h
  | succ k ih =>
    intro tail s h hk
    refine chl_seq (chl_get (chl_seq (copyBlock_chl h.logged ?_)))
    rw [h.block tail (by omega)]
    exact ih (tail + 1) _ (h.next (by omega)) (by omega)

/-- `log.lh.n = 0; write_head()` after all blocks are in place. -/
theorem Installing.clear (h : Installing T d0 T.h.n.toNat s) :
    Installed T d0 (s.written l.start (headBlock { s.lh with n := 0 } (s.cache l.start))).disk := by
  have hpos : 0 < l.size := by have := T.pos; have := T.size; omega
  refine ⟨?_, fun b hb => ?_, fun b hb hm => ?_⟩
  · rw [LogState.written_disk]
    rfl
  · obtain ⟨i, hi, rfl⟩ := hb
    rw [LogState.written_disk_ne _ _ ((T.home i hi).ne_start hpos)]
    exact h.done i hi
  · rw [LogState.written_disk_ne _ _ (hb.ne_start hpos)]
    exact h.logged.other b hb hm

/-- From the log to the home blocks: the common end of `commit` and `recover_from_log`. -/
theorem install_chl (h : Installing T d0 0 s) :
    chl (do installTrans l; clearHead; writeHead l) (fun t => Logged T d0 t.disk)
      (fun _ t => Installed T d0 t.disk) s := by
  refine chl_seq (chl_seq (chl_get ?_))
  rw [h.n]
  refine chl_post (installTransLoop_chl _ 0 s h (Nat.zero_add _)) fun _ t ht => ?_
  exact chl_seq (chl_modify (writeHead_chl ht.logged ht.clear))

/-! ## Recovery -/

theorem recover_empty (h : d l.start 0 = 0) :
    chl (recoverFromLog l) (fun t => t.disk = d)
      (fun _ t => ∃ b : Block, b 0 = 0 ∧ t.disk = Function.update d l.start b) (restart d) := by
  refine chl_seq (chl_modify (chl_seq (chl_seq (chl_get ?_))))
  have hn : (headOf (d l.start) ⟨0, fun _ => 0⟩).n.toNat = 0 := by
    unfold headOf
    rw [h]
    rfl
  dsimp only [restart]
  rw [hn]
  exact chl_pure (chl_seq (chl_modify (writeHead_chl (I := fun x => x = d) rfl ⟨_, rfl, rfl⟩)))

theorem recover_logged (h : Logged T d0 d) :
    chl (recoverFromLog l) (fun t => Logged T d0 t.disk) (fun _ t => Installed T d0 t.disk)
      (restart d) := by
  refine chl_seq (chl_modify (install_chl ⟨h.n, fun i hi => ?_, h.log, h, fun _ hi => ?_⟩))
  · have hlt : (i : Int) < (d l.start 0).toInt := by
      rw [h.n]
      omega
    exact (if_pos hlt).trans (h.block i hi)
  · omega

theorem Before.recover (h : Before l d0 d) (hpos : 0 < l.size) :
    chl (recoverFromLog l) (fun t => Before l d0 t.disk) (fun _ t => Before l d0 t.disk)
      (restart d) := by
  refine chl_mono (recover_empty h.head) (fun t ht => ?_) ?_
  · rw [ht]
    exact h
  · rintro _ t ⟨v, hv, ht⟩
    rw [ht]
    refine ⟨by rw [Function.update_self, hv], fun b hb => ?_⟩
    rw [Function.update_of_ne (hb.ne_start hpos)]
    exact h.home b hb

theorem Installed.recover (h : Installed T d0 d) :
    chl (recoverFromLog l) (fun t => Installed T d0 t.disk) (fun _ t => Installed T d0 t.disk)
      (restart d) := by
  have hpos : 0 < l.size := by have := T.pos; have := T.size; omega
  refine chl_mono (recover_empty h.head) (fun t ht => ?_) ?_
  · rw [ht]
    exact h
  · rintro _ t ⟨v, hv, ht⟩
    rw [ht]
    refine ⟨by rw [Function.update_self, hv], fun b hb => ?_, fun b hb hm => ?_⟩
    · obtain ⟨i, hi, rfl⟩ := hb
      rw [Function.update_of_ne ((T.home i hi).ne_start hpos)]
      exact h.home _ ⟨i, hi, rfl⟩
    · rw [Function.update_of_ne (hb.ne_start hpos)]
      exact h.other b hb hm

theorem Recovered.before {d' : Nat → Block} (hr : Recovered l d d') (h : Before l d0 d)
    (hpos : 0 < l.size) : Before l d0 d' :=
  hr.invariant (I := Before l d0) (fun _ h => h.recover hpos) h

theorem Recovered.installed {d' : Nat → Block} (hr : Recovered l d d')
    (h : Logged T d0 d ∨ Installed T d0 d) : Installed T d0 d' := by
  refine hr.invariant (I := fun d => Logged T d0 d ∨ Installed T d0 d) (fun d h => ?_) h
  obtain h | h := h
  · exact chl_mono (recover_logged h) (fun _ ht => .inl ht) fun _ _ ht => ht
  · exact chl_mono h.recover (fun _ ht => .inr ht) fun _ _ ht => ht

/-! ## Commit -/

/-- The header block is written: the transaction is in the log. -/
theorem Writing.head (h : Writing T d0 T.h.n.toNat s) :
    Installing T d0 0 (s.written l.start (headBlock s.lh (s.cache l.start))) := by
  have hpos : 0 < l.size := by have := T.pos; have := T.size; omega
  have hint : (BitVec.ofInt 32 T.h.n).toInt = T.h.n := by
    have := T.pos
    have := T.size
    have := l.fits
    rw [BitVec.toInt_ofInt, Int.bmod_eq_of_le (by omega) (by omega)]
  rw [h.lh]
  refine ⟨congrArg LogHeader.n h.lh, fun i _ => by rw [← h.lh]; rfl, fun i hi => ?_,
    ⟨?_, fun i hi => ?_, fun i hi => ?_, fun b hb _ => ?_⟩, fun _ hi => absurd hi (Nat.not_lt_zero _)⟩
  · rw [LogState.written_cache_ne _ _ (by omega)]
    exact (h.log i hi).2
  · rw [LogState.written_disk]
    exact hint
  · rw [LogState.written_disk]
    exact if_pos hi
  · rw [LogState.written_disk_ne _ _ (by omega)]
    exact (h.log i hi).1
  · rw [LogState.written_disk_ne _ _ (hb.ne_start hpos)]
    exact h.before.home b hb

/-- The disks `commit` can leave behind, by the number of writes done. -/
theorem commit_points {k : Nat} {t : LogState} (h : Writing T d0 0 s)
    (hk : ((commitBlocks l).points s)[k]? = some t) :
    (k ≤ T.h.n.toNat → Before l d0 t.disk) ∧
    (T.h.n.toNat < k → Logged T d0 t.disk ∨ Installed T d0 t.disk) := by
  have hn : s.lh.n = T.h.n := by rw [h.lh]
  have hwrite : chl (writeLog l) (fun t => Before l d0 t.disk)
      (fun _ t => Writing T d0 T.h.n.toNat t) s := by
    refine chl_seq (chl_get ?_)
    rw [hn]
    exact writeLogLoop_chl _ 0 s h (Nat.zero_add _)
  have hlen : (writeLog l s).1.length = T.h.n.toNat := by
    rw [← hn]
    exact writeLogLoop_length _ 0 s
  have hw := hwrite.2
  rw [commitBlocks, points_seq] at hk
  obtain hlt | hge := Nat.lt_or_ge k T.h.n.toNat
  · rw [List.getElem?_append_left (by omega)] at hk
    exact ⟨fun _ => hwrite.1 t (List.mem_of_getElem? hk), fun hc => absurd hc (by omega)⟩
  rw [List.getElem?_append_right (by omega), hlen, points_seq] at hk
  have hhead : chl (writeHead l) (fun t => Before l d0 t.disk) (fun _ t => Installing T d0 0 t)
      (writeLog l s).2.2 := writeHead_chl hw.before hw.head
  have hcut : (writeHead l (writeLog l s).2.2).1.length = 1 := rfl
  obtain heq | hgt := Nat.eq_or_lt_of_le hge
  · rw [List.getElem?_append_left (by omega)] at hk
    exact ⟨fun _ => hhead.1 t (List.mem_of_getElem? hk), fun hc => absurd hc (by omega)⟩
  · rw [List.getElem?_append_right (by omega)] at hk
    refine ⟨fun hc => absurd hc (by omega), fun _ => ?_⟩
    exact chl_points (C := fun t => Logged T d0 t.disk ∨ Installed T d0 t.disk)
      (chl_mono (install_chl hhead.2) (fun _ => .inl) fun _ _ => .inr) t (List.mem_of_getElem? hk)

theorem commit_points_empty (h : s.lh.n = 0) : (commit l).points s = [s] := by
  rw [commit, points_seq, if_neg (by rw [show (Durable.get s).2.1 = s from rfl, h]; omega)]
  rfl

theorem commit_points_blocks (h : 0 < s.lh.n) :
    (commit l).points s = (commitBlocks l).points s := by
  rw [commit, points_seq, if_pos (show 0 < (Durable.get s).2.1.lh.n from h)]
  rfl

/-- `commit` is cut off after `k` writes and recovery is restarted after every crash. The log
ends up empty. Up to the first `write_head` no block outside the log has changed; from then on
the logged blocks have their new contents and the others are as before. -/
theorem commit_crash_atomic {k : Nat} {t : LogState} {d' : Nat → Block}
    (hhead : s.disk l.start 0 = 0) (hn : 0 ≤ s.lh.n) (hsize : s.lh.n < l.size)
    (hhome : ∀ i < s.lh.n.toNat, l.Outside (s.lh.block i).toNat)
    (hk : ((commit l).points s)[k]? = some t) (hr : Recovered l t.disk d') :
    d' l.start 0 = 0 ∧
    (k ≤ s.lh.n.toNat → ∀ b, l.Outside b → d' b = s.disk b) ∧
    (s.lh.n.toNat < k →
      (∀ i < s.lh.n.toNat, d' (s.lh.block i).toNat = s.cache (s.lh.block i).toNat) ∧
      ∀ b, l.Outside b → (∀ i < s.lh.n.toNat, (s.lh.block i).toNat ≠ b) → d' b = s.disk b) := by
  have hb : Before l s.disk s.disk := ⟨hhead, fun _ _ => rfl⟩
  obtain hz | hpos := hn.eq_or_lt
  · rw [commit_points_empty hz.symm] at hk
    obtain rfl : s = t := List.mem_singleton.1 (List.mem_of_getElem? hk) |>.symm
    have hk0 : k < 1 := (List.getElem?_eq_some_iff.1 hk).1
    have hd := hr.before hb (by omega)
    exact ⟨hd.head, fun _ => hd.home, fun hc => absurd hc (by omega)⟩
  · let T : Transaction l := ⟨s.lh, s.cache, hpos, hsize, hhome⟩
    have hw : Writing T s.disk 0 s :=
      ⟨rfl, fun _ _ => rfl, fun _ hi => absurd hi (Nat.not_lt_zero _), hb⟩
    rw [commit_points_blocks hpos] at hk
    obtain ⟨hbefore, hafter⟩ := commit_points hw hk
    obtain hle | hlt := le_or_gt k s.lh.n.toNat
    · have hd := hr.before (hbefore hle) (by omega)
      exact ⟨hd.head, fun _ => hd.home, fun hc => absurd hc (by omega)⟩
    · have hd := hr.installed (hafter hlt)
      refine ⟨hd.head, fun hc => absurd hc (by omega), fun _ => ⟨fun i hi => ?_, fun b hb hm => ?_⟩⟩
      · exact hd.home _ ⟨i, hi, rfl⟩
      · exact hd.other b hb fun ⟨i, hi, e⟩ => hm i hi e

/-- Block 40 is logged; its new contents are ones. -/
def oneLogged : LogState :=
  ⟨fun _ _ => 0, fun b _ => if b = 40 then 1 else 0, ⟨1, fun _ => 40⟩⟩

/-- The machine stops right after the first `write_head`: recovery installs block 40. -/
theorem commit_crash_atomic_logged : ∃ t d', ((commit mkfsLog).points oneLogged)[2]? = some t ∧
    Recovered mkfsLog t.disk d' ∧ d' mkfsLog.start 0 = 0 ∧ d' 40 = oneLogged.cache 40 := by
  have hhome : ∀ i < oneLogged.lh.n.toNat, mkfsLog.Outside (oneLogged.lh.block i).toNat :=
    fun _ _ => .inr (show 2 + 30 ≤ (40 : Word).toNat by decide)
  obtain ⟨t, ht⟩ : ∃ t, ((commit mkfsLog).points oneLogged)[2]? = some t := ⟨_, rfl⟩
  have hr : Recovered mkfsLog t.disk _ := .done _
  obtain ⟨hhead, -, hnew⟩ := commit_crash_atomic rfl (by decide) (by decide) hhome ht hr
  exact ⟨t, _, ht, hr, hhead, (hnew (by decide)).1 0 (by decide)⟩

end

end Xv6
