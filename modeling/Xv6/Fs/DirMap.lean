import Xv6.Fs.DirSlots

/-!
# `dirlookup`, `dirlink` and removal on the slots of a directory

The specification is a finite map from names to inode numbers. The caller holds the lock of the
directory throughout.
-/

namespace Xv6

open Lib

variable {v : Volume} {s s' : Fs} {l L : List Nat} {dp ip i j k inum : Nat} {name : List (BitVec 8)}

/-- The bytes of the inode in entry `dp`. -/
def Fs.bytesOf (s : Fs) (dp : Nat) : List (BitVec 8) := s.contents (s.icache dp).inum

/-- The entries of the directory in entry `dp`. -/
def Fs.slotsOf (s : Fs) (dp : Nat) : List (Option (List (BitVec 8) × Nat)) := dirSlots (s.bytesOf dp)

/-- Entry `dp` is locked and holds a directory: whole entries, no name twice. -/
structure DirOpen (v : Volume) (s : Fs) (dp : Nat) (l L : List Nat) : Prop where
  held : Held v s l L
  mem : dp ∈ L
  type : (s.node dp).type = .dir
  whole : (s.bytesOf dp).length % DIRENT = 0
  unique : SlotMap.Unique (s.slotsOf dp)

namespace DirOpen

theorem size_eq (h : DirOpen v s dp l L) : (s.node dp).size = (s.bytesOf dp).length := by
  obtain ⟨hsame, _⟩ := h.held.ok.cache.agree dp (h.held.pos h.mem) (h.held.valid h.mem)
  unfold Fs.bytesOf
  rw [Fs.length_contents, hsame.size]

theorem live (h : DirOpen v s dp l L) : (s.dinode (s.icache dp).inum).Live :=
  (h.held.ok.cache.agree dp (h.held.pos h.mem) (h.held.valid h.mem)).2

theorem length_le (h : DirOpen v s dp l L) : (s.bytesOf dp).length ≤ MAXFILE * BSIZE := by
  unfold Fs.bytesOf
  rw [Fs.length_contents]
  exact h.held.ok.size _ h.live

theorem not_dev (h : DirOpen v s dp l L) : (s.node dp).type ≠ .dev := by
  rw [h.type]
  decide

end DirOpen

theorem readDirent_spec {E : String → Prop} {m : String} (h : DirOpen v s dp l L)
    (hk : k < (s.bytesOf dp).length / DIRENT) :
    wp (readDirent v dp (DIRENT * k) m) E (fun de s' => s' = s ∧ de = entryBytes (s.bytesOf dp) k) s := by
  have hle := h.length_le
  unfold readDirent
  refine wp_seq (wp_post (readi_wp h.held.ok (h.held.pos h.mem) (h.held.valid h.mem) DIRENT) ?_)
  rintro r s1 ⟨hs, hr⟩
  have hr := hr h.not_dev
  unfold ReadSpec at hr
  rw [if_pos (by simp only [Fs.bytesOf, DIRENT, MAXFILE, BSIZE] at *; omega)] at hr
  subst hr
  refine wp_ite.2 ⟨fun _ => ⟨hs, rfl⟩, fun hne => absurd (length_entryBytes hk) hne⟩

theorem slotOf_eq_some {de : List (BitVec 8)} :
    direntInum de ≠ 0 ∧ namecmp name (de.drop 2) = true ↔
      slotOf de = some (nameKey name, direntInum de) := by
  unfold slotOf
  rw [namecmp_iff]
  by_cases h0 : direntInum de = 0
  · rw [if_pos h0]
    exact iff_of_false (fun hc => hc.1 h0) nofun
  · rw [if_neg h0, Option.some.injEq, Prod.mk.injEq]
    exact ⟨fun hc => ⟨hc.2.symm, rfl⟩, fun hc => ⟨h0, hc.1.symm⟩⟩

/-- The scan from entry `j` on: the entry with the name, or none has it. -/
theorem dirlookupLoop_spec {E : String → Prop} (h : DirOpen v s dp l L) : ∀ n j : Nat,
    (s.bytesOf dp).length / DIRENT ≤ j + n →
    wp (dirlookupLoop v dp (s.bytesOf dp).length name n (DIRENT * j)) E (fun r s' => s' = s ∧
      match r with
      | none => ∀ m w, j ≤ m → (s.slotsOf dp)[m]? ≠ some (some (nameKey name, w))
      | some (w, off) => ∃ m, off = DIRENT * m ∧
          (s.slotsOf dp)[m]? = some (some (nameKey name, w))) s := by
  have hnone : ∀ {j : Nat}, (s.bytesOf dp).length / DIRENT ≤ j → ∀ m w, j ≤ m →
      (s.slotsOf dp)[m]? ≠ some (some (nameKey name, w)) := by
    intro j hj m w hm
    unfold Fs.slotsOf
    rw [List.getElem?_eq_none (by rw [length_dirSlots]; omega)]
    nofun
  intro n
  induction n with
  | zero => exact fun j hj => ⟨rfl, hnone hj⟩
  | succ n ih =>
    intro j hj
    have hwhole := h.whole
    unfold dirlookupLoop
    refine wp_ite.2 ⟨fun hlt => ?_, fun hge => ⟨rfl, hnone (by simp only [DIRENT] at *; omega)⟩⟩
    have hin : j < (s.bytesOf dp).length / DIRENT := by
      simp only [DIRENT] at *
      omega
    have hslot : (s.slotsOf dp)[j]? = some (slotOf (entryBytes (s.bytesOf dp) j)) :=
      getElem?_dirSlots hin
    refine wp_seq (wp_post (readDirent_spec h hin) ?_)
    rintro de s1 ⟨hs, rfl⟩
    subst hs
    refine wp_ite.2 ⟨fun hfound => ⟨rfl, j, rfl, ?_⟩, fun hnot => ?_⟩
    · rw [hslot, slotOf_eq_some.1 hfound]
    · refine wp_post (ih (j + 1) (by omega)) ?_
      rintro r s2 ⟨hs2, hr⟩
      refine ⟨hs2, ?_⟩
      cases r with
      | none =>
        intro m w hm
        by_cases hmj : m = j
        · subst hmj
          rw [hslot]
          intro he
          have he := Option.some.inj he
          refine hnot (slotOf_eq_some.2 ?_)
          have hw : w = direntInum (entryBytes (s1.bytesOf dp) m) := by
            unfold slotOf at he
            split at he
            · cases he
            · exact (Prod.mk.inj (Option.some.inj he)).2.symm
          rw [he, hw]
        · exact hr m w (by omega)
      | some p => exact hr

/-- `dirlookup` finds the entry of the name and calls `iget` on the inode it names. -/
theorem dirlookup_then {E : String → Prop} {Q : Option (Nat × Nat) → Fs → Prop}
    (h : DirOpen v s dp l L)
    (hnone : SlotMap.lookup (s.slotsOf dp) (nameKey name) = none → Q none s)
    (hsome : ∀ m w, (s.slotsOf dp)[m]? = some (some (nameKey name, w)) →
      wp (iget w) E (fun ip s' => Q (some (ip, DIRENT * m)) s') s) :
    wp (dirlookup v dp name) E Q s := by
  unfold dirlookup
  refine wp_seq (get_wp (wp_ite.2 ⟨fun hne => absurd h.type hne, fun _ => ?_⟩))
  have hsize : (s.icache dp).node.size = (s.bytesOf dp).length := h.size_eq
  rw [hsize]
  refine wp_seq (wp_post (dirlookupLoop_spec h _ 0 (by simp only [DIRENT]; omega)) ?_)
  rintro (_ | ⟨w, off⟩) s1 ⟨hs, hr⟩
  · subst hs
    exact hnone (SlotMap.lookup_eq_none.2 fun m w => hr m w (Nat.zero_le _))
  · subst hs
    obtain ⟨m, rfl, hm⟩ := hr
    exact wp_seq (hsome m w hm)

theorem dirlookup_spec {E : String → Prop} (h : DirOpen v s dp l L)
    (hE : ∀ w, SlotMap.lookup (s.slotsOf dp) (nameKey name) = some w →
      (∀ k, 0 < (s.icache k).ref → (s.icache k).inum ≠ w) → E "iget: no inodes") :
    wp (dirlookup v dp name) E (fun r s' =>
      match r with
      | none => s' = s ∧ SlotMap.lookup (s.slotsOf dp) (nameKey name) = none
      | some (ip, off) => Held v s' (ip :: l) L ∧ ∃ m w, off = DIRENT * m ∧
          (s.slotsOf dp)[m]? = some (some (nameKey name, w)) ∧ Fetched w ip s s') s := by
  refine dirlookup_then h (fun hnone => ⟨rfl, hnone⟩) fun m w hm => ?_
  have hw := (SlotMap.lookup_eq_some h.unique).2 ⟨m, hm⟩
  refine wp_post (iget_disk_wp h.held (hE w hw)) ?_
  rintro ip s2 ⟨h2, hf⟩
  exact ⟨h2, m, w, rfl, hm, hf⟩

/-- The scan for an empty entry. -/
theorem emptyLoop_spec {E : String → Prop} (h : DirOpen v s dp l L) : ∀ n j : Nat,
    j ≤ (s.bytesOf dp).length / DIRENT → (s.bytesOf dp).length / DIRENT ≤ j + n →
    wp (emptyLoop v dp (s.bytesOf dp).length n (DIRENT * j)) E (fun off s' => s' = s ∧
      ∃ m, off = DIRENT * m ∧ ((s.slotsOf dp)[m]? = some none ∨ m = (s.slotsOf dp).length)) s := by
  intro n
  induction n with
  | zero =>
    intro j hj hn
    refine ⟨rfl, j, rfl, .inr ?_⟩
    unfold Fs.slotsOf
    rw [length_dirSlots]
    omega
  | succ n ih =>
    intro j hj hn
    have hwhole := h.whole
    unfold emptyLoop
    refine wp_ite.2 ⟨fun hlt => ?_, fun hge => ⟨rfl, j, rfl, .inr ?_⟩⟩
    · have hin : j < (s.bytesOf dp).length / DIRENT := by
        simp only [DIRENT] at *
        omega
      refine wp_seq (wp_post (readDirent_spec h hin) ?_)
      rintro de s1 ⟨hs, rfl⟩
      subst hs
      refine wp_ite.2 ⟨fun h0 => ⟨rfl, j, rfl, .inl ?_⟩, fun _ => ih (j + 1) hin (by omega)⟩
      have hslot : (s1.slotsOf dp)[j]? = some (slotOf (entryBytes (s1.bytesOf dp) j)) :=
        getElem?_dirSlots hin
      rw [hslot]
      unfold slotOf
      rw [if_pos h0]
    · unfold Fs.slotsOf
      rw [length_dirSlots]
      simp only [DIRENT] at *
      omega

namespace DirOpen

/-- The directory after another inode has been fetched. -/
theorem fetched (h : DirOpen v s dp l L) {w : Nat} (hf : Fetched w ip s s') (hheld : Held v s' (ip :: l) L) :
    DirOpen v s' dp (ip :: l) L ∧ s'.bytesOf dp = s.bytesOf dp := by
  obtain ⟨hinum, _, hnode⟩ := hf.kept dp (h.held.pos h.mem)
  have hbytes : s'.bytesOf dp = s.bytesOf dp := by
    unfold Fs.bytesOf Fs.contents Fs.byte
    rw [hinum, hf.dinode, hf.block]
  refine ⟨⟨hheld, h.mem, ?_, by rw [hbytes]; exact h.whole, ?_⟩, hbytes⟩
  · unfold Fs.node
    rw [hnode]
    exact h.type
  · unfold Fs.slotsOf
    rw [hbytes]
    exact h.unique

/-- The directory after a reference to another inode has been dropped. -/
theorem dropped (h : DirOpen v s dp (ip :: l) L) (hne : ip ≠ dp) (hd : Dropped v ip s s')
    (hheld : Held v s' l L) : DirOpen v s' dp l L ∧ s'.bytesOf dp = s.bytesOf dp := by
  have hslot := hd.icache dp (Ne.symm hne)
  have hinum : (s.icache dp).inum ≠ (s.icache ip).inum := fun he => hne
    (h.held.ok.cache.single ip dp (h.held.ref List.mem_cons_self) (h.held.pos h.mem) he.symm)
  have hbytes : s'.bytesOf dp = s.bytesOf dp := by
    unfold Fs.bytesOf
    rw [hslot]
    exact h.held.ok.contents_eq h.live (hd.dinode _ hinum) hd.kept
  refine ⟨⟨hheld, h.mem, ?_, by rw [hbytes]; exact h.whole, ?_⟩, hbytes⟩
  · unfold Fs.node
    rw [hslot]
    exact h.type
  · unfold Fs.slotsOf
    rw [hbytes]
    exact h.unique

/-- Writing the entry `k`, which may be the one after the last. -/
theorem write_wp {E : String → Prop} (h : DirOpen v s dp l L) (hE : E "balloc: out of blocks")
    {de : List (BitVec 8)} (hde : de.length = DIRENT) (hk : k ≤ (s.slotsOf dp).length) :
    wp (writei v dp (DIRENT * k) de) E (fun r s' =>
      (r = none ∧ s' = s ∧ (s.bytesOf dp).length = MAXFILE * BSIZE) ∨
      (r = some DIRENT ∧ Held v s' l L ∧ SameSlots s s' ∧ (s'.node dp).type = .dir ∧
        s'.bytesOf dp = splice (s.bytesOf dp) (DIRENT * k) de)) s := by
  have hle := h.length_le
  have hwhole := h.whole
  have hsize : (s.dinode (s.icache dp).inum).size = (s.bytesOf dp).length := by
    unfold Fs.bytesOf
    rw [Fs.length_contents]
  have hk' : k ≤ (s.bytesOf dp).length / DIRENT := by
    rwa [← length_dirSlots]
  refine wp_post (writei_wp hE h.held.ok (h.held.pos h.mem) (h.held.valid h.mem) de) ?_
  rintro r s' ⟨hok, hslots, hspec⟩
  have hspec := hspec h.not_dev
  unfold WriteSpec at hspec
  rw [hsize, hde] at hspec
  split at hspec
  · rename_i hacc
    obtain ⟨hr, hw⟩ := hspec
    have hheld := h.held.of_same hok hslots
    obtain ⟨hsame, _⟩ := hok.cache.agree dp (hheld.pos h.mem) (hheld.valid h.mem)
    refine .inr ⟨hr, hheld, hslots, ?_, ?_⟩
    · rw [hsame.type, (hslots dp).2.1, hw.type,
        ← (h.held.ok.cache.agree dp (h.held.pos h.mem) (h.held.valid h.mem)).1.type]
      exact h.type
    · unfold Fs.bytesOf
      rw [(hslots dp).2.1]
      exact hw.contents (by rw [hsize]; exact hacc.1) h.live
  · rename_i hacc
    refine .inl ⟨hspec.1, hspec.2, ?_⟩
    unfold Accepts at hacc
    simp only [DIRENT, MAXFILE, BSIZE] at *
    omega

/-- The directory once an entry has been written. -/
theorem store (h : DirOpen v s dp l L) {de : List (BitVec 8)} (hde : de.length = DIRENT)
    (hk : k ≤ (s.slotsOf dp).length) (hheld : Held v s' l L) (htype : (s'.node dp).type = .dir)
    (hbytes : s'.bytesOf dp = splice (s.bytesOf dp) (DIRENT * k) de)
    (hu : SlotMap.Unique (SlotMap.put (s.slotsOf dp) k (slotOf de))) :
    DirOpen v s' dp l L ∧ s'.slotsOf dp = SlotMap.put (s.slotsOf dp) k (slotOf de) := by
  have hwhole := h.whole
  have hk' : k ≤ (s.bytesOf dp).length / DIRENT := by
    rwa [← length_dirSlots]
  have hslots : s'.slotsOf dp = SlotMap.put (s.slotsOf dp) k (slotOf de) := by
    unfold Fs.slotsOf
    rw [hbytes]
    exact dirSlots_splice h.whole hde hk'
  refine ⟨⟨hheld, h.mem, htype, ?_, by rw [hslots]; exact hu⟩, hslots⟩
  rw [hbytes, length_splice (by simp only [DIRENT] at *; omega), hde]
  simp only [DIRENT] at *
  omega

end DirOpen

/-- What `dirlink` stops with, and when. -/
def LinkStops (s : Fs) (dp : Nat) (name : List (BitVec 8)) (m : String) : Prop :=
  (m = "iget: no inodes" ∧ ∃ w, SlotMap.lookup (s.slotsOf dp) (nameKey name) = some w ∧
    ∀ k, 0 < (s.icache k).ref → (s.icache k).inum ≠ w) ∨
  (m = "acquiresleep: own lock" ∧
    SlotMap.lookup (s.slotsOf dp) (nameKey name) = some (s.icache dp).inum) ∨
  (m = "balloc: out of blocks" ∧ SlotMap.lookup (s.slotsOf dp) (nameKey name) = none) ∨
  (m = "dirlink" ∧ SlotMap.lookup (s.slotsOf dp) (nameKey name) = none ∧
    (s.bytesOf dp).length = MAXFILE * BSIZE)

/-- `dirlink` returns `-1` when the name is there, otherwise it fills an empty entry. -/
theorem dirlink_spec (h : DirOpen v s dp l L) :
    wp (dirlink v dp name inum) (LinkStops s dp name) (fun r s' =>
      (r = false ∧ (∃ w, SlotMap.lookup (s.slotsOf dp) (nameKey name) = some w ∧
          w ≠ (s.icache dp).inum) ∧ DirOpen v s' dp l L ∧ s'.bytesOf dp = s.bytesOf dp) ∨
      (r = true ∧ SlotMap.lookup (s.slotsOf dp) (nameKey name) = none ∧ Held v s' l L ∧
        (s'.node dp).type = .dir ∧ ∃ m, ((s.slotsOf dp)[m]? = some none ∨ m = (s.slotsOf dp).length) ∧
        s'.bytesOf dp = splice (s.bytesOf dp) (DIRENT * m) (dirent inum name))) s := by
  unfold dirlink
  refine wp_seq (wp_post (dirlookup_spec h fun w hw hout => .inl ⟨rfl, w, hw, hout⟩) ?_)
  rintro (_ | ⟨ip, off⟩) s1 hr
  · obtain ⟨hs, hnone⟩ := hr
    subst hs
    refine wp_seq (get_wp ?_)
    have hsize : (s1.icache dp).node.size = (s1.bytesOf dp).length := h.size_eq
    rw [hsize]
    refine wp_seq (wp_post (emptyLoop_spec h _ 0 (Nat.zero_le _) (by simp only [DIRENT]; omega)) ?_)
    rintro off s2 ⟨hs, m, rfl, hm⟩
    subst hs
    have hle : m ≤ (s2.slotsOf dp).length := by
      rcases hm with hm | hm
      · exact (List.getElem?_eq_some_iff.1 hm).1.le
      · exact hm.le
    refine wp_seq (wp_post (h.write_wp (.inr (.inr (.inl ⟨rfl, hnone⟩))) (length_dirent inum name) hle) ?_)
    rintro r s3 (⟨rfl, _, hfull⟩ | ⟨rfl, h3, _, htype, hbytes⟩)
    · exact .inr (.inr (.inr ⟨rfl, hnone, hfull⟩))
    · exact .inr ⟨rfl, hnone, h3, htype, m, hm, hbytes⟩
  · obtain ⟨h1, m, w, _, hm, hf⟩ := hr
    have hlookup := (SlotMap.lookup_eq_some h.unique).2 ⟨m, hm⟩
    obtain ⟨hopen, hbytes⟩ := h.fetched hf h1
    refine wp_ite.2 ⟨fun he => ?_, fun hne => ?_⟩
    · subst he
      refine .inr (.inl ⟨rfl, ?_⟩)
      rw [hlookup, ← hf.inum, (hf.kept ip (h.held.pos h.mem)).1]
    · have hother : w ≠ (s.icache dp).inum := fun he => hne <| hopen.held.ok.cache.single ip dp
        (hopen.held.ref List.mem_cons_self) (hopen.held.pos h.mem)
        (by rw [hf.inum, (hf.kept dp (h.held.pos h.mem)).1, he])
      refine wp_seq (wp_post (iput_disk_wp hopen.held fun k hk => ⟨hk, (h.held.locked k hk).1⟩) ?_)
      rintro _ s2 ⟨h2, hd⟩
      obtain ⟨hopen2, hbytes2⟩ := hopen.dropped hne hd h2
      exact .inl ⟨rfl, ⟨w, hlookup, hother⟩, hopen2, hbytes2.trans hbytes⟩

end Xv6
