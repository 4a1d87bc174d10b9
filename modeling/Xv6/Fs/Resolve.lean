import Xv6.Fs.Exact
import Xv6.Fs.Path

/-!
# `namei` and `nameiparent`

A lookup changes the inode cache only. `Borrowed s l s'` says that since `s` the references in `l`
were taken and nothing else: the walk holds one entry at a time, two while `dirlookup` fetches the
next, and on every exit it has dropped all but the one it returns.
-/

namespace Xv6

open Lib

variable {v : Volume} {s s' : Fs} {l : List Nat} {ip cwd i j : Nat} {name path : List (BitVec 8)}

/-- The inode is allocated, and it has a name or somebody holds a reference to it. -/
def Fs.Kept (s : Fs) (i : Nat) : Prop :=
  (s.dinode i).Live ∧
    ((s.dinode i).nlink ≠ 0 ∨ ∃ k, 0 < (s.icache k).ref ∧ (s.icache k).inum = i)

/-- A directory tree between two calls: the blocks are in order, the valid entries of the cache are
copies of their inodes, directories hold whole entries with distinct names, and these entries name
allocated inodes. -/
structure TreeOk (v : Volume) (s : Fs) : Prop where
  ok : FsOk v s
  cached : ∀ k, 0 < (s.icache k).ref → (s.icache k).valid = true →
    (s.icache k).node = s.dinode (s.icache k).inum
  whole : ∀ i, (s.dinode i).type = .dir → (s.dinode i).size % DIRENT = 0
  unique : ∀ i, (s.dinode i).type = .dir → SlotMap.Unique (dirSlots (s.contents i))
  named : ∀ i name j, (s.dinode i).type = .dir → s.entryOf i name = some j → s.Kept j
  root : s.Kept ROOTINO

/-- Since `s` the references in `l` were taken, and no block or inode has changed. -/
structure Borrowed (v : Volume) (s : Fs) (l : List Nat) (s' : Fs) : Prop where
  ok : FsOk v s'
  cached : ∀ k, 0 < (s'.icache k).ref → (s'.icache k).valid = true →
    (s'.icache k).node = s'.dinode (s'.icache k).inum
  block : s'.block = s.block
  dinode : s'.dinode = s.dinode
  logged : s'.logged = s.logged
  refs : ∀ k, (s'.icache k).ref = (s.icache k).ref + l.count k
  inum : ∀ k, 0 < (s.icache k).ref → (s'.icache k).inum = (s.icache k).inum

/-- The number of cache entries that are not in use. -/
def Fs.freeEntries (s : Fs) : Nat :=
  ((List.range NINODE).filter fun k => decide ((s.icache k).ref = 0)).length

namespace Borrowed

theorem start (h : TreeOk v s) : Borrowed v s [] s :=
  ⟨h.ok, h.cached, rfl, rfl, rfl, fun _ => rfl, fun _ _ => rfl⟩

theorem contents (h : Borrowed v s l s') : s'.contents = s.contents := by
  funext i
  unfold Fs.contents Fs.byte
  rw [h.dinode, h.block]

theorem perm {l' : List Nat} (h : Borrowed v s l s') (hp : l.Perm l') : Borrowed v s l' s' :=
  ⟨h.ok, h.cached, h.block, h.dinode, h.logged, fun k => by rw [h.refs k, hp.count_eq], h.inum⟩

theorem pos (h : Borrowed v s l s') (hip : ip ∈ l) : 0 < (s'.icache ip).ref := by
  rw [h.refs ip]
  have := List.count_pos_iff.2 hip
  omega

/-- An entry in use is stored back with another number of references, or loaded from the disk. -/
theorem setSlot {l' : List Nat} {x : Inode} (h : Borrowed v s l s') (hr : 0 < (s'.icache ip).ref)
    (hinum : x.inum = (s'.icache ip).inum)
    (hvalid : x.valid = true → x.node = s'.dinode x.inum ∧ (s'.dinode x.inum).Live)
    (hself : x.ref = (s.icache ip).ref + l'.count ip) (hother : ∀ k ≠ ip, l'.count k = l.count k) :
    Borrowed v s l' (s'.setSlot ip x) := by
  have hbound := h.ok.cache.bound ip hr
  refine ⟨h.ok.setSlot x fun _ => ⟨hbound, fun k hk hpos he => ?_, fun hv => ?_⟩, fun k hk hv => ?_,
    h.block, h.dinode, h.logged, fun k => ?_, fun k hk => ?_⟩
  · exact hk (h.ok.cache.single k ip hpos hr (he.trans hinum))
  · obtain ⟨hn, hl⟩ := hvalid hv
    rw [hn]
    exact ⟨⟨rfl, rfl, rfl⟩, hl⟩
  · by_cases he : k = ip
    · subst he
      rw [Fs.setSlot_self] at hv ⊢
      exact (hvalid hv).1
    · rw [Fs.setSlot_of_ne _ _ he] at hk hv ⊢
      exact h.cached k hk hv
  · by_cases he : k = ip
    · subst he
      rw [Fs.setSlot_self, hself]
    · rw [Fs.setSlot_of_ne _ _ he, hother k he]
      exact h.refs k
  · by_cases he : k = ip
    · subst he
      rw [Fs.setSlot_self, hinum]
      exact h.inum k hk
    · rw [Fs.setSlot_of_ne _ _ he]
      exact h.inum k hk

/-- What a valid entry in use holds. -/
theorem valid_node (h : Borrowed v s l s') (hr : 0 < (s'.icache ip).ref)
    (hv : (s'.icache ip).valid = true) : (s'.icache ip).node = s'.dinode (s'.icache ip).inum ∧
      (s'.dinode (s'.icache ip).inum).Live :=
  ⟨h.cached ip hr hv, (h.ok.cache.agree ip hr hv).2⟩

theorem idup {E : String → Prop} (h : Borrowed v s l s') (hr : 0 < (s'.icache ip).ref) :
    wp (idup ip) E (fun r t => r = ip ∧ Borrowed v s (ip :: l) t ∧
      (t.icache ip).inum = (s'.icache ip).inum) s' := by
  refine wp_seq (modify_wp ⟨rfl, h.setSlot hr rfl (h.valid_node hr) ?_ fun k hk => ?_, ?_⟩)
  · rw [List.count_cons_self, ← Nat.add_assoc, ← h.refs]
  · exact List.count_cons_of_ne (Ne.symm hk)
  · rw [Fs.setSlot_self]

/-- The cache is full only if few entries were free. -/
theorem freeEntries_le (h : Borrowed v s l s') (hfull : ∀ k < NINODE, 0 < (s'.icache k).ref) :
    s.freeEntries ≤ l.length := by
  unfold Fs.freeEntries
  refine List.Subperm.length_le (List.subperm_of_subset (List.nodup_range.filter _) fun k hk => ?_)
  obtain ⟨hk, hz⟩ := List.mem_filter.1 hk
  have hpos := hfull k (List.mem_range.1 hk)
  rw [h.refs k, of_decide_eq_true hz] at hpos
  exact List.count_pos_iff.1 (by omega)

theorem iget {E : String → Prop} (h : Borrowed v s l s')
    (hE : s.freeEntries ≤ l.length → E "iget: no inodes") :
    wp (iget i) E (fun r t => Borrowed v s (r :: l) t ∧ (t.icache r).inum = i ∧
      ∀ k ∈ l, (t.icache k).inum = (s'.icache k).inum ∧ (t.icache k).valid = (s'.icache k).valid) s' := by
  refine iget_cases (fun r _ hr hin => ⟨h.setSlot hr rfl (h.valid_node hr) ?_ fun k hk => ?_, ?_,
    fun k _ => ?_⟩) (fun r hlt hr hout => ?_)
    fun hfull => hE (h.freeEntries_le fun k hk => (hfull k hk).1)
  · rw [List.count_cons_self, ← Nat.add_assoc, ← h.refs]
  · exact List.count_cons_of_ne (Ne.symm hk)
  · rw [Fs.setSlot_self]
    exact hin
  · by_cases he : k = r
    · subst he
      rw [Fs.setSlot_self]
      exact ⟨rfl, rfl⟩
    · rw [Fs.setSlot_of_ne _ _ he]
      exact ⟨rfl, rfl⟩
  · -- a free entry: nobody holds it
    have hne : ∀ k, 0 < (s'.icache k).ref → k ≠ r := by
      rintro k hk rfl
      omega
    have hzero := h.refs r
    refine ⟨⟨h.ok.setSlot _ fun _ => ⟨hlt, fun k _ hk => hout k (h.ok.cache.bound k hk) hk, nofun⟩,
      fun k hk hv => ?_, h.block, h.dinode, h.logged, fun k => ?_, fun k hk => ?_⟩, ?_, fun k hk => ?_⟩
    · by_cases he : k = r
      · subst he
        rw [Fs.setSlot_self] at hv
        cases hv
      · rw [Fs.setSlot_of_ne _ _ he] at hk hv ⊢
        exact h.cached k hk hv
    · by_cases he : k = r
      · subst he
        rw [Fs.setSlot_self, List.count_cons_self]
        dsimp only
        omega
      · rw [Fs.setSlot_of_ne _ _ he, List.count_cons_of_ne (Ne.symm he)]
        exact h.refs k
    · have hpos : 0 < (s'.icache k).ref := by
        rw [h.refs k]
        omega
      rw [Fs.setSlot_of_ne _ _ (hne k hpos)]
      exact h.inum k hk
    · rw [Fs.setSlot_self]
    · rw [Fs.setSlot_of_ne _ _ (hne k (h.pos hk))]
      exact ⟨rfl, rfl⟩

theorem ilock {E : String → Prop} (h : Borrowed v s l s') (hip : ip ∈ l)
    (hE : ¬ (s.dinode (s'.icache ip).inum).Live → E "ilock: no type") :
    wp (ilock ip) E (fun _ t => Borrowed v s l t ∧ (t.icache ip).inum = (s'.icache ip).inum ∧
      (t.icache ip).valid = true) s' := by
  have hr := h.pos hip
  unfold Xv6.ilock
  refine wp_seq (get_wp ?_)
  rw [if_neg (by omega)]
  refine wp_ite.2 ⟨fun hv => ⟨h, rfl, hv⟩, fun _ => wp_seq (set_wp (wp_ite.2 ⟨fun ht => ?_, fun ht => ?_⟩))⟩
  · rw [h.dinode] at ht
    exact hE (not_not.2 ht)
  · refine ⟨h.setSlot hr rfl (fun _ => ⟨rfl, ht⟩) (h.refs ip) fun _ _ => rfl, ?_, ?_⟩
    · rw [Fs.setSlot_self]
    · rw [Fs.setSlot_self]

/-- `iput` on an inode that is kept, or was never read, drops the reference and frees nothing. -/
theorem iput {E : String → Prop} (h : Borrowed v s (ip :: l) s')
    (hkept : (s'.icache ip).valid = true → s.Kept (s'.icache ip).inum) :
    wp (iput v ip) E (fun _ t => Borrowed v s l t ∧
      ∀ k, (t.icache k).inum = (s'.icache k).inum ∧ (t.icache k).valid = (s'.icache k).valid) s' := by
  have hr := h.pos List.mem_cons_self
  have hcount : (s'.icache ip).ref = (s.icache ip).ref + (l.count ip + 1) := by
    rw [h.refs ip, List.count_cons_self]
  unfold Xv6.iput
  refine wp_seq (get_wp (wp_ite.2 ⟨?_, fun _ => modify_wp ⟨?_, fun k => ?_⟩⟩))
  · -- the last reference to an inode without a name: somebody else holds one
    rintro ⟨hv, hn, hone⟩
    exfalso
    rw [(h.valid_node hr hv).1, h.dinode] at hn
    obtain ⟨k, hk, hki⟩ := (hkept hv).2.resolve_left (not_not.2 hn)
    have hk' : 0 < (s'.icache k).ref := by
      rw [h.refs k]
      omega
    have := h.ok.cache.single k ip hk' hr ((h.inum k hk).trans hki)
    subst this
    omega
  · refine h.setSlot hr rfl (h.valid_node hr) ?_ fun k hk => (List.count_cons_of_ne (Ne.symm hk)).symm
    dsimp only
    omega
  · by_cases he : k = ip
    · subst he
      rw [Fs.setSlot_self]
      exact ⟨rfl, rfl⟩
    · rw [Fs.setSlot_of_ne _ _ he]
      exact ⟨rfl, rfl⟩

theorem slotsOf (h : Borrowed v s l s') (ip : Nat) :
    s'.slotsOf ip = dirSlots (s.contents (s'.icache ip).inum) := by
  unfold Fs.slotsOf Fs.bytesOf
  rw [h.contents]

end Borrowed

/-- What a lookup has returned, by inode number. -/
def found (s : Fs) (r : Option (Nat × List (BitVec 8))) : Option (Nat × List (BitVec 8)) :=
  r.map fun e => ((s.icache e.1).inum, e.2)

/-- What `namex` looks for: the last directory with the last name, or the inode itself. -/
def Fs.Target (s : Fs) (parent : Bool) (i : Nat) (names : List (List (BitVec 8)))
    (r : Option (Nat × List (BitVec 8))) : Prop :=
  if parent then r = s.walkParent i names else r.map Prod.fst = s.walk i names

theorem Fs.Target.none {parent : Bool} {names : List (List (BitVec 8))}
    (h1 : parent = true → s.walkParent i names = none) (h2 : s.walk i names = none) :
    s.Target parent i names none := by
  unfold Fs.Target
  cases parent with
  | true => exact (h1 rfl).symm
  | false => exact h2.symm

/-- One step of the walk, when the name is not the last one that a parent is asked for. -/
theorem Fs.Target.step {parent : Bool} {names : List (List (BitVec 8))}
    {r : Option (Nat × List (BitVec 8))} (hd : (s.dinode i).type = .dir)
    (he : s.entryOf i name = some j) (hne : parent = true → names ≠ [])
    (h : s.Target parent j names r) : s.Target parent i (name :: names) r := by
  unfold Fs.Target at h ⊢
  cases parent with
  | true =>
    rw [if_pos rfl] at h ⊢
    rw [h, Fs.walkParent_cons (hne rfl), Fs.walk_entry hd he]
    rfl
  | false =>
    rw [if_neg Bool.false_ne_true] at h ⊢
    rw [h, Fs.walk_entry hd he]

namespace Tiny

end Tiny

end Xv6
