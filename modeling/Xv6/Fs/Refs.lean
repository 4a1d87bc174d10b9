import Xv6.Fs.Contents

/-!
# References to inodes

`Held v s l L`: the file system is good, the running code owns the references in `l` to cache
entries, and the entries of `L`, all of them in `l`, have been locked, so their copies are valid.
Each function of the inode layer takes such a state to such a state.
-/

namespace Xv6

open Lib

variable {v : Volume} {s s' : Fs} {l l' L M : List Nat} {ip i : Nat}

structure Held (v : Volume) (s : Fs) (l L : List Nat) : Prop where
  ok : FsOk v s
  refs : ∀ k, l.count k ≤ (s.icache k).ref
  locked : ∀ k ∈ L, k ∈ l ∧ (s.icache k).valid = true

namespace Held

theorem ref (h : Held v s l L) (hk : ip ∈ l) : 0 < (s.icache ip).ref :=
  lt_of_lt_of_le (List.count_pos_iff.2 hk) (h.refs ip)

theorem valid (h : Held v s l L) (hk : ip ∈ L) : (s.icache ip).valid = true := (h.locked ip hk).2

theorem pos (h : Held v s l L) (hk : ip ∈ L) : 0 < (s.icache ip).ref := h.ref (h.locked ip hk).1

theorem perm (h : Held v s l L) (hp : l.Perm l') : Held v s l' L :=
  ⟨h.ok, fun k => hp.count_eq k ▸ h.refs k,
    fun k hk => ⟨hp.mem_iff.1 (h.locked k hk).1, (h.locked k hk).2⟩⟩

theorem unlock (h : Held v s l L) (hL : ∀ k ∈ M, k ∈ L) : Held v s l M :=
  ⟨h.ok, h.refs, fun k hk => h.locked k (hL k hk)⟩

/-- No entry has changed but for its copy. -/
theorem of_same (h : Held v s l L) (hok : FsOk v s') (hs : SameSlots s s') : Held v s' l L :=
  ⟨hok, fun k => (hs k).1 ▸ h.refs k, fun k hk => ⟨(h.locked k hk).1, (hs k).2.2 ▸ (h.locked k hk).2⟩⟩

theorem start (h : FsOk v s) : Held v s [] [] := ⟨h, fun _ => Nat.zero_le _, nofun⟩

theorem start_one (h : FsOk v s) (hr : 0 < (s.icache ip).ref) : Held v s [ip] [] := by
  refine ⟨h, fun k => ?_, nofun⟩
  by_cases hk : k = ip
  · subst hk
    rw [List.count_singleton_self]
    exact hr
  · rw [List.count_eq_zero_of_not_mem fun hm => hk (List.mem_singleton.1 hm)]
    exact Nat.zero_le _

end Held

@[simp] theorem Fs.setSlot_self (s : Fs) (ip : Nat) (x : Inode) : (s.setSlot ip x).icache ip = x :=
  Function.update_self ..

theorem Fs.setSlot_of_ne (s : Fs) {ip k : Nat} (x : Inode) (h : k ≠ ip) :
    (s.setSlot ip x).icache k = s.icache k := Function.update_of_ne h ..

/-- Entry `ip` changes to `x`, which is unused or holds an inode that is in no other entry, as it
is on the disk if it is valid. -/
theorem FsOk.setSlot (h : FsOk v s) (x : Inode)
    (hx : 0 < x.ref → ip < NINODE ∧
      (∀ k, k ≠ ip → 0 < (s.icache k).ref → (s.icache k).inum ≠ x.inum) ∧
      (x.valid = true → x.node.Same (s.dinode x.inum) ∧ (s.dinode x.inum).Live)) :
    FsOk v (s.setSlot ip x) := by
  refine ⟨h.alloc, h.shape, h.size, fun j k hj hk he => ?_, fun k hk => ?_, fun k hk hv => ?_⟩
  · by_cases hji : j = ip
    · by_cases hki : k = ip
      · rw [hji, hki]
      · subst hji
        rw [Fs.setSlot_self] at hj he
        rw [s.setSlot_of_ne _ hki] at hk he
        exact absurd he.symm ((hx hj).2.1 k hki hk)
    · rw [s.setSlot_of_ne _ hji] at hj he
      by_cases hki : k = ip
      · subst hki
        rw [Fs.setSlot_self] at hk he
        exact absurd he ((hx hk).2.1 j hji hj)
      · rw [s.setSlot_of_ne _ hki] at hk he
        exact h.cache.single j k hj hk he
  · by_cases hki : k = ip
    · subst hki
      rw [Fs.setSlot_self] at hk
      exact (hx hk).1
    · rw [s.setSlot_of_ne _ hki] at hk
      exact h.cache.bound k hk
  · unfold Fs.node
    by_cases hki : k = ip
    · subst hki
      rw [Fs.setSlot_self] at hk hv ⊢
      exact (hx hk).2.2 hv
    · rw [s.setSlot_of_ne _ hki] at hk hv ⊢
      exact h.cache.agree k hk hv

/-- The number of references to an entry changes, but it does not come into use. -/
theorem FsOk.setRef (h : FsOk v s) {r : Nat} (hr : 0 < (s.icache ip).ref) :
    FsOk v (s.setSlot ip { s.icache ip with ref := r }) :=
  h.setSlot _ fun _ => ⟨h.cache.bound ip hr,
    fun k hk hpos he => hk (h.cache.single k ip hpos hr he), fun hv => h.cache.agree ip hr hv⟩

/-- One more reference. -/
theorem Held.addRef (h : Held v s l L) (hr : 0 < (s.icache ip).ref) :
    Held v (s.setSlot ip { s.icache ip with ref := (s.icache ip).ref + 1 }) (ip :: l) L := by
  refine ⟨h.ok.setRef hr, fun k => ?_, fun k hk => ⟨List.mem_cons_of_mem _ (h.locked k hk).1, ?_⟩⟩
  · by_cases hki : k = ip
    · subst hki
      rw [List.count_cons_self, Fs.setSlot_self]
      exact Nat.succ_le_succ (h.refs k)
    · rw [List.count_cons_of_ne (Ne.symm hki), s.setSlot_of_ne _ hki]
      exact h.refs k
  · by_cases hki : k = ip
    · subst hki
      rw [Fs.setSlot_self]
      exact (h.locked k hk).2
    · rw [s.setSlot_of_ne _ hki]
      exact (h.locked k hk).2

theorem idup_wp (h : Held v s l L) (hr : 0 < (s.icache ip).ref) :
    wp (idup ip) FsStops (fun r s' => Held v s' (r :: l) L) s :=
  wp_seq (modify_wp (h.addRef hr))

/-- `iget` finds the inode in an entry, or takes an entry that is free, or there is none. -/
theorem iget_cases {E : String → Prop} {Q : Nat → Fs → Prop}
    (hit : ∀ ip, ip < NINODE → 0 < (s.icache ip).ref → (s.icache ip).inum = i →
      Q ip (s.setSlot ip { s.icache ip with ref := (s.icache ip).ref + 1 }))
    (miss : ∀ ip, ip < NINODE → (s.icache ip).ref = 0 →
      (∀ k < NINODE, 0 < (s.icache k).ref → (s.icache k).inum ≠ i) →
      Q ip (s.setSlot ip { s.icache ip with inum := i, ref := 1, valid := false }))
    (full : (∀ k < NINODE, 0 < (s.icache k).ref ∧ (s.icache k).inum ≠ i) → E "iget: no inodes") :
    wp (iget i) E Q s := by
  unfold iget
  refine wp_seq (get_wp ?_)
  split
  · rename_i ip hfind
    have hip := of_decide_eq_true (List.find?_some
      (p := fun k => decide (0 < (s.icache k).ref ∧ (s.icache k).inum = i)) hfind)
    exact wp_seq (set_wp (hit ip (List.mem_range.1 (List.mem_of_find?_eq_some hfind)) hip.1 hip.2))
  · rename_i hnone
    have hout : ∀ k < NINODE, 0 < (s.icache k).ref → (s.icache k).inum ≠ i := fun k hlt hk he =>
      List.find?_eq_none.1 hnone k (List.mem_range.2 hlt) (decide_eq_true ⟨hk, he⟩)
    split
    · rename_i ip hfind
      have hip : (s.icache ip).ref = 0 := of_decide_eq_true
        (List.find?_some (p := fun k => decide ((s.icache k).ref = 0)) hfind)
      exact wp_seq (set_wp (miss ip (List.mem_range.1 (List.mem_of_find?_eq_some hfind)) hip hout))
    · rename_i hused
      refine full fun k hk => ?_
      have hpos : 0 < (s.icache k).ref := Nat.pos_of_ne_zero fun hz =>
        List.find?_eq_none.1 hused k (List.mem_range.2 hk) (decide_eq_true hz)
      exact ⟨hpos, hout k hk hpos⟩

/-- `iget` has returned entry `ip` for inode `i`; the entries in use are as they were. -/
structure Fetched (i ip : Nat) (s s' : Fs) : Prop where
  block : s'.block = s.block
  dinode : s'.dinode = s.dinode
  inum : (s'.icache ip).inum = i
  kept : ∀ k, 0 < (s.icache k).ref → (s'.icache k).inum = (s.icache k).inum ∧
    (s'.icache k).valid = (s.icache k).valid ∧ (s'.icache k).node = (s.icache k).node

/-- `iget` stops only when the inode is in no entry and none is free. -/
theorem iget_disk_wp {E : String → Prop} (h : Held v s l L)
    (hE : (∀ k, 0 < (s.icache k).ref → (s.icache k).inum ≠ i) → E "iget: no inodes") :
    wp (iget i) E (fun ip s' => Held v s' (ip :: l) L ∧ Fetched i ip s s') s := by
  refine iget_cases (fun ip _ hr hin => ⟨h.addRef hr, rfl, rfl, ?_, fun k _ => ?_⟩)
    (fun ip hlt hr hout => ?_) fun hfull => hE fun k hk => (hfull k (h.ok.cache.bound k hk)).2
  · rw [Fs.setSlot_self]
    exact hin
  · by_cases hki : k = ip
    · subst hki
      rw [Fs.setSlot_self]
      exact ⟨rfl, rfl, rfl⟩
    · rw [s.setSlot_of_ne _ hki]
      exact ⟨rfl, rfl, rfl⟩
  · have hne : ∀ k, 0 < (s.icache k).ref → k ≠ ip := by
      rintro k hk rfl
      omega
    refine ⟨⟨h.ok.setSlot _ fun _ => ⟨hlt, fun k _ hk => hout k (h.ok.cache.bound k hk) hk, nofun⟩,
      fun k => ?_, fun k hk => ⟨List.mem_cons_of_mem _ (h.locked k hk).1, ?_⟩⟩, rfl, rfl, ?_,
      fun k hk => ?_⟩
    · by_cases hki : k = ip
      · subst hki
        have hzero := h.refs k
        rw [List.count_cons_self, Fs.setSlot_self]
        dsimp only
        omega
      · rw [List.count_cons_of_ne (Ne.symm hki), s.setSlot_of_ne _ hki]
        exact h.refs k
    · rw [s.setSlot_of_ne _ (hne k (h.pos hk))]
      exact (h.locked k hk).2
    · rw [Fs.setSlot_self]
    · rw [s.setSlot_of_ne _ (hne k hk)]
      exact ⟨rfl, rfl, rfl⟩

theorem iget_wp (h : Held v s l L) : wp (iget i) FsStops (fun ip s' => Held v s' (ip :: l) L) s :=
  wp_post (iget_disk_wp h fun _ => ⟨by decide, by decide⟩) fun _ _ hg => hg.1

/-- Only the cache has changed, and each entry is for the same inode. -/
structure SameDisk (s s' : Fs) : Prop where
  block : s'.block = s.block
  dinode : s'.dinode = s.dinode
  inum : ∀ k, (s'.icache k).inum = (s.icache k).inum

/-- `ilock` stops only on an inode that is free. -/
theorem ilock_disk_wp {E : String → Prop} (h : Held v s l L) (hip : ip ∈ l)
    (hE : ¬ (s.dinode (s.icache ip).inum).Live → E "ilock: no type") :
    wp (ilock ip) E (fun _ s' => Held v s' l (ip :: L) ∧ SameDisk s s') s := by
  have hr := h.ref hip
  unfold ilock
  refine wp_seq (get_wp ?_)
  rw [if_neg (by omega)]
  refine wp_ite.2 ⟨fun hv => ⟨⟨h.ok, h.refs, ?_⟩, rfl, rfl, fun _ => rfl⟩, fun hv =>
    wp_seq (set_wp (wp_ite.2 ⟨fun ht => hE (not_not.2 ht), fun ht => ?_⟩))⟩
  · intro k hk
    rcases List.mem_cons.1 hk with rfl | hk
    · exact ⟨hip, hv⟩
    · exact h.locked k hk
  · refine ⟨⟨h.ok.setSlot _ fun _ => ⟨h.ok.cache.bound ip hr,
      fun k hk hpos he => hk (h.ok.cache.single k ip hpos hr he), fun _ => ⟨⟨rfl, rfl, rfl⟩, ht⟩⟩,
      fun k => ?_, fun k hk => ?_⟩, rfl, rfl, fun k => ?_⟩
    · by_cases hki : k = ip
      · subst hki
        rw [Fs.setSlot_self]
        exact h.refs k
      · rw [s.setSlot_of_ne _ hki]
        exact h.refs k
    · by_cases hki : k = ip
      · subst hki
        rw [Fs.setSlot_self]
        exact ⟨hip, rfl⟩
      · rw [s.setSlot_of_ne _ hki]
        exact h.locked k ((List.mem_cons.1 hk).resolve_left hki)
    · by_cases hki : k = ip
      · subst hki
        rw [Fs.setSlot_self]
      · rw [s.setSlot_of_ne _ hki]

theorem ilock_wp (h : Held v s l L) (hip : ip ∈ l) :
    wp (ilock ip) FsStops (fun _ s' => Held v s' l (ip :: L)) s :=
  wp_post (ilock_disk_wp h hip fun _ => ⟨by decide, by decide⟩) fun _ _ hl => hl.1

/-- A change of the copy in memory that leaves type, size and blocks. -/
theorem Held.setNode_wp {f : Dinode → Dinode} (h : Held v s l L) (hip : ip ∈ L)
    (hf : ∀ d, (f d).Same d) : wp (setNode ip f) FsStops (fun _ s' => Held v s' l L) s := by
  have hr := h.pos hip
  refine modify_wp (h.of_same (h.ok.setSlot _ fun _ => ⟨h.ok.cache.bound ip hr,
    fun k hk hpos he => hk (h.ok.cache.single k ip hpos hr he), fun hv => ?_⟩) fun k => ?_)
  · obtain ⟨hsame, hlive⟩ := h.ok.cache.agree ip hr hv
    have := hf (s.icache ip).node
    exact ⟨⟨this.type.trans hsame.type, this.size.trans hsame.size, this.addrs.trans hsame.addrs⟩,
      hlive⟩
  · have hstored : NodeStored ip (f (s.node ip)) s (s.setNode ip (f (s.node ip))) := ⟨rfl, rfl⟩
    exact hstored.slot k

theorem iupdate_wp (h : Held v s l L) (hip : ip ∈ L) :
    wp (iupdate v ip) FsStops (fun _ s' => Held v s' l L) s := by
  obtain ⟨hsame, _⟩ := h.ok.cache.agree ip (h.pos hip) (h.valid hip)
  unfold iupdate
  refine wp_seq (get_wp (modify_wp (h.of_same ?_ fun _ => ⟨rfl, rfl, rfl⟩)))
  refine .of_table (T := s.dinode) (fun j => ?_) h.ok.alloc
    ⟨h.ok.cache.single, h.ok.cache.bound, h.ok.cache.agree⟩ h.ok.shape h.ok.size
  by_cases hj : j = (s.icache ip).inum
  · rw [hj]
    change (s.dinode _).Same (Function.update s.dinode _ _ _)
    rw [Function.update_self]
    exact ⟨hsame.type.symm, hsame.size.symm, hsame.addrs.symm⟩
  · change (s.dinode _).Same (Function.update s.dinode _ _ _)
    rw [Function.update_of_ne hj]
    exact ⟨rfl, rfl, rfl⟩

/-- An inode without blocks comes into use, or goes out of use; no valid entry holds it. -/
theorem FsOk.retype (h : FsOk v s) {e : Dinode} (he : ∀ k, k ≤ NDIRECT → e.addrs k = 0)
    (hz : e.size = 0) (hi : (s.dinode i).Live → ∀ k, k ≤ NDIRECT → (s.dinode i).addrs k = 0)
    (hc : ∀ k, 0 < (s.icache k).ref → (s.icache k).valid = true → (s.icache k).inum ≠ i)
    {m : List Nat} : FsOk v { s with dinode := Function.update s.dinode i e, logged := m } := by
  refine ⟨h.alloc.retype he hi, fun j hl => ?_, fun j hl => ?_, h.cache.single, h.cache.bound,
    fun k hk hv => ?_⟩
  · dsimp only at hl ⊢
    by_cases hj : j = i
    · subst hj
      rw [Function.update_self, hz]
      exact Dinode.shape_empty he
    · rw [Function.update_of_ne hj] at hl ⊢
      exact h.shape j hl
  · dsimp only at hl ⊢
    by_cases hj : j = i
    · subst hj
      rw [Function.update_self, hz]
      exact Nat.zero_le _
    · rw [Function.update_of_ne hj] at hl ⊢
      exact h.size j hl
  · dsimp only at hk hv ⊢
    rw [Function.update_of_ne (hc k hk hv)]
    exact h.cache.agree k hk hv

theorem ialloc_wp {t : FileType} (h : Held v s l L) :
    wp (ialloc v t) FsStops (fun ip s' => Held v s' (ip :: l) L) s := by
  unfold ialloc
  refine wp_seq (get_wp ?_)
  split
  · rename_i i hfind
    have hfree := List.find?_some
      (p := fun i => decide (1 ≤ i ∧ (s.dinode i).type = .free)) hfind
    have hdead : ¬ (s.dinode i).Live := not_not.2 (of_decide_eq_true hfree).2
    refine wp_seq (modify_wp (iget_wp ⟨?_, h.refs, h.locked⟩))
    refine h.ok.retype (fun _ _ => rfl) rfl (fun hl => absurd hl hdead) fun k hk hv he => hdead ?_
    rw [← he]
    exact (h.ok.cache.agree k hk hv).2
  · exact ⟨by decide, by decide⟩

/-- One reference less. -/
theorem Held.dropRef (h : Held v s (ip :: l) L) (hL : ∀ k ∈ M, k ∈ L ∧ k ∈ l) :
    Held v (s.setSlot ip { s.icache ip with ref := (s.icache ip).ref - 1 }) l M := by
  refine ⟨h.ok.setRef (h.ref List.mem_cons_self), fun k => ?_, fun k hk => ⟨(hL k hk).2, ?_⟩⟩
  · have hk := h.refs k
    by_cases hki : k = ip
    · subst hki
      rw [List.count_cons_self] at hk
      rw [Fs.setSlot_self]
      dsimp only
      omega
    · rw [List.count_cons_of_ne (Ne.symm hki)] at hk
      rw [s.setSlot_of_ne _ hki]
      exact hk
  · have hv := h.valid (hL k hk).1
    by_cases hki : k = ip
    · subst hki
      rw [Fs.setSlot_self]
      exact hv
    · rw [s.setSlot_of_ne _ hki]
      exact hv

/-- After `itrunc` the file system is good again. -/
theorem Truncated.ok {e : Dinode} (h : FsOk v s) (hr : 0 < (s.icache ip).ref)
    (hlive : (s.node ip).Live) (ht : Truncated v ip (s.icache ip).inum e s s') : FsOk v s' := by
  have hstored : NodeStored ip e s (s.setNode ip e) := ⟨rfl, rfl⟩
  have hslot : SameSlots s s' := fun k => by
    rw [ht.icache]
    exact hstored.slot k
  have hother : ∀ j, j ≠ (s.icache ip).inum → s'.dinode j = s.dinode j := fun j hj => by
    rw [ht.dinode, Function.update_of_ne hj]
  have hself : s'.dinode (s.icache ip).inum = e := by
    rw [ht.dinode, Function.update_self]
  refine ⟨ht.alloc, fun j hl => ?_, fun j hl => ?_, fun j k hj hk he => ?_, fun k hk => ?_,
    fun k hk hv => ?_⟩
  · by_cases hj : j = (s.icache ip).inum
    · rw [hj, hself, ht.size]
      exact Dinode.shape_empty ht.empty
    · rw [hother j hj] at hl ⊢
      intro x hx
      have hkept : (s.dinode j).refAt s'.block x = (s.dinode j).refAt s.block x :=
        Dinode.refAt_congr fun h0 => ht.kept _ (h.alloc.data j .indirect hl h0)
      rw [hkept]
      exact h.shape j hl x hx
  · by_cases hj : j = (s.icache ip).inum
    · rw [hj, hself, ht.size]
      exact Nat.zero_le _
    · rw [hother j hj] at hl ⊢
      exact h.size j hl
  · rw [(hslot j).1] at hj
    rw [(hslot k).1] at hk
    rw [(hslot j).2.1, (hslot k).2.1] at he
    exact h.cache.single j k hj hk he
  · rw [(hslot k).1] at hk
    exact h.cache.bound k hk
  · rw [(hslot k).1] at hk
    rw [(hslot k).2.2] at hv
    rw [(hslot k).2.1]
    unfold Fs.node
    by_cases hki : k = ip
    · subst hki
      rw [hself, ht.icache]
      refine ⟨?_, ?_⟩
      · rw [show ((s.setNode k e).icache k).node = e from s.setNode_node k e]
        exact ⟨rfl, rfl, rfl⟩
      · unfold Dinode.Live
        rw [ht.type]
        exact hlive
    · have hne : (s.icache k).inum ≠ (s.icache ip).inum := fun he =>
        hki (h.cache.single k ip hk hr he)
      have hnode : (s'.icache k).node = (s.icache k).node := by
        rw [ht.icache]
        exact hstored.node_of_ne hki
      rw [hother _ hne, hnode]
      exact h.cache.agree k hk hv

/-- The entry `x` with a free inode in it, no longer valid. -/
def Inode.freed (x : Inode) : Inode :=
  { x with valid := false, node := { emptied x.node with type := .free } }

/-- The last reference to an inode without links goes: after its blocks, the inode is freed. -/
theorem Held.freed (h : Held v s (ip :: l) L) (hL : ∀ k ∈ M, k ∈ L ∧ k ∈ l)
    (hv : (s.icache ip).valid = true) (href : (s.icache ip).ref = 1) {m : List Nat}
    (ht : Truncated v ip (s.icache ip).inum (emptied (s.node ip)) s s') :
    Held v { s' with
      dinode := Function.update s'.dinode (s.icache ip).inum (s.icache ip).freed.node
      icache := Function.update s'.icache ip (s.icache ip).freed
      logged := m } (ip :: l) M := by
  have hpos := h.ref List.mem_cons_self
  obtain ⟨hsame, hlive⟩ := h.ok.cache.agree ip hpos hv
  have hnode : (s.node ip).Live := by
    unfold Dinode.Live
    rw [hsame.type]
    exact hlive
  have hok := ht.ok h.ok hpos hnode
  have hstored : NodeStored ip (emptied (s.node ip)) s (s.setNode ip (emptied (s.node ip))) :=
    ⟨rfl, rfl⟩
  have hslot : SameSlots s s' := fun k => by
    rw [ht.icache]
    exact hstored.slot k
  have hcleared : FsOk v (s'.setSlot ip (s.icache ip).freed) := by
    refine hok.setSlot _ fun hr => ⟨h.ok.cache.bound ip hr, fun k hk hkr he => hk ?_, nofun⟩
    rw [(hslot k).1] at hkr
    rw [(hslot k).2.1] at he
    exact h.ok.cache.single k ip hkr hr he
  have hempty : ∀ k, k ≤ NDIRECT → (s.icache ip).freed.node.addrs k = 0 := ht.empty
  refine ⟨hcleared.retype hempty rfl (fun _ k hk => ?_) fun k hk hkv he => ?_, fun k => ?_,
    fun k hk => ⟨List.mem_cons_of_mem _ (hL k hk).2, ?_⟩⟩
  · change (s'.dinode (s.icache ip).inum).addrs k = 0
    rw [ht.dinode, Function.update_self]
    exact ht.empty k hk
  · by_cases hki : k = ip
    · subst hki
      rw [Fs.setSlot_self] at hkv
      exact absurd hkv nofun
    · rw [s'.setSlot_of_ne _ hki, (hslot k).1] at hk
      rw [s'.setSlot_of_ne _ hki, (hslot k).2.1] at he
      exact hki (h.ok.cache.single k ip hk hpos he)
  · dsimp only
    by_cases hki : k = ip
    · subst hki
      rw [Function.update_self]
      exact h.refs k
    · rw [Function.update_of_ne hki, (hslot k).1]
      exact h.refs k
  · -- No other reference to the entry is owned.
    have hki : k ≠ ip := by
      rintro rfl
      have hcount := h.refs k
      rw [List.count_cons_self] at hcount
      have := List.count_pos_iff.2 (hL k hk).2
      omega
    dsimp only
    rw [Function.update_of_ne hki, (hslot k).2.2]
    exact h.valid (hL k hk).1

/-- `iput` has dropped a reference to entry `ip`: of the disk only the inode in it can have changed. -/
structure Dropped (v : Volume) (ip : Nat) (s s' : Fs) : Prop where
  kept : ∀ c, v.Data c → s'.block c = s.block c
  dinode : ∀ j, j ≠ (s.icache ip).inum → s'.dinode j = s.dinode j
  icache : ∀ k, k ≠ ip → s'.icache k = s.icache k

/-- `iput` never stops. -/
theorem iput_disk_wp {E : String → Prop} (h : Held v s (ip :: l) L) (hL : ∀ k ∈ M, k ∈ L ∧ k ∈ l) :
    wp (iput v ip) E (fun _ s' => Held v s' l M ∧ Dropped v ip s s') s := by
  unfold iput
  refine wp_seq (get_wp (wp_ite.2 ⟨?_, fun _ => modify_wp ⟨h.dropRef hL, fun _ _ => rfl, fun _ _ => rfl,
    fun k hk => s.setSlot_of_ne _ hk⟩⟩))
  rintro ⟨hv, _, href⟩
  obtain ⟨hsame, hlive⟩ := h.ok.cache.agree ip (h.ref List.mem_cons_self) hv
  refine wp_seq (wp_post (itrunc_wp h.ok.alloc hlive hsame.addrs.symm) fun _ s1 ht => ?_)
  have hs1 : s1.icache ip = { s.icache ip with node := emptied (s.node ip) } := by
    rw [ht.icache, Fs.setNode_icache, Function.update_self]
  refine wp_seq (setNode_wp (wp_seq (wp_seq (get_wp (modify_wp (wp_seq (modify_wp (modify_wp ?_))))))))
  have hfreed := (h.freed hL hv href ht (m := s1.logged ++ [v.iblock (s.icache ip).inum])).dropRef
    fun k hk => ⟨hk, (hL k hk).2⟩
  simp only [Fs.setNode, Fs.setSlot, Fs.node, Function.update_self, Function.update_idem, hs1] at hfreed ⊢
  refine ⟨hfreed, ht.kept, fun j hj => ?_, fun k hk => ?_⟩
  · dsimp only
    rw [Function.update_of_ne hj, ht.dinode, Function.update_of_ne hj]
  · dsimp only
    rw [Function.update_of_ne hk, ht.icache, Fs.setNode_icache, Function.update_of_ne hk]

theorem iput_wp (h : Held v s (ip :: l) L) (hL : ∀ k ∈ M, k ∈ L ∧ k ∈ l) :
    wp (iput v ip) FsStops (fun _ s' => Held v s' l M) s :=
  wp_post (iput_disk_wp h hL) fun _ _ hd => hd.1

/-- What a live inode holds, when data blocks and the inode stay. -/
theorem FsOk.contents_eq (h : FsOk v s) (hl : (s.dinode i).Live) (hd : s'.dinode i = s.dinode i)
    (hb : ∀ c, v.Data c → s'.block c = s.block c) : s'.contents i = s.contents i := by
  have href : ∀ x, (s.dinode i).refAt s'.block x = (s.dinode i).refAt s.block x := fun x =>
    Dinode.refAt_congr fun h0 => hb _ (h.alloc.data i .indirect hl h0)
  unfold Fs.contents
  rw [hd]
  refine List.map_congr_left fun k hk => ?_
  have hlt := List.mem_range.1 hk
  have hmax := h.size i hl
  have hbn : k / BSIZE < nblocks (s.dinode i).size ∧ k / BSIZE < MAXFILE := by
    unfold nblocks
    simp only [BSIZE, MAXFILE] at *
    omega
  unfold Fs.byte
  rw [hd, href]
  refine congrFun (hb _ (h.alloc.data i _ hl ?_)) _
  rw [h.shape i hl _ (siteOf_ne_indirect _), siteOf_rank hbn.2]
  exact hbn.1

end Xv6
