import Xv6.Mkfs.Mount

/-!
# The kernel reads what `mkfs` wrote

With at most `NINODES - 2` files, the kernel finds each of them in the root directory and reads the
bytes it was made from. The root may end in a hole, so it is not a directory that the kernel would
have left: the search stops at the entry of the file, before that block.
-/

namespace Xv6

open Lib

variable {v : Volume} {m img : Mkfs} {s t : Fs} {i j k n off ip dp : Nat} {f de name : List (BitVec 8)}
  {files : List (List (BitVec 8) × List (BitVec 8))}

/-- What `readsb` reads, and the data blocks that it counts. -/
structure Volume.Reads (v : Volume) (b : Nat → BitVec 8) : Prop where
  size : v.size = (getWord b 0).toNat
  nblocks : v.datastart = (getWord b 0).toNat - (getWord b 1).toNat
  ninodes : v.ninodes = (getWord b 2).toNat
  inodestart : v.inodestart = (getWord b 5).toNat
  bmapstart : v.bmapstart = (getWord b 6).toNat

theorem Volume.Reads.layout (h : v.Reads (Mkfs.outer 1)) : Mkfs.Layout v := by
  have hword : ∀ j, getWord (Mkfs.outer 1) j = BitVec.ofNat 32 (Mkfs.superblock.getD j 0) := by
    intro j
    unfold Mkfs.outer
    rw [if_pos rfl, getWord_ofWords]
  constructor
  · rw [h.size, hword]
    decide
  · rw [h.ninodes, hword]
    decide
  · rw [h.inodestart, hword]
    decide
  · rw [h.bmapstart, hword]
    decide
  · rw [h.nblocks, hword, hword]
    decide

/-- The kernel on a file of the root directory: the number and the size of the inode found, and what
`readi` returns. -/
def readNamed (v : Volume) (name : List (BitVec 8)) (off n : Nat) :
    F (Option (Nat × Nat × Option (List (BitVec 8)))) := do
  let dp ← iget ROOTINO
  ilock dp
  match ← dirlookup v dp name with
  | none => pure none
  | some (ip, _) => do
    ilock ip
    let s ← get
    let r ← readi v ip off n
    pure (some ((s.icache ip).inum, (s.icache ip).node.size, r))

/-- The names that the files get: C strings other than `.` and `..` that differ in the part that an
entry holds. -/
structure NamesApart (files : List (List (BitVec 8) × List (BitVec 8))) : Prop where
  nul : ∀ f ∈ files, 0 ∉ Mkfs.fileName f.1
  dots : ∀ f ∈ files, Mkfs.fileName f.1 ≠ dot ∧ Mkfs.fileName f.1 ≠ dotdot
  distinct : (files.map fun f => (Mkfs.fileName f.1).take DIRSIZ).Nodup

/-! ## The entries of the root -/

theorem entryBytes_zero (hde : de.length = DIRENT) : entryBytes (de ++ f) 0 = de := by
  unfold entryBytes
  rw [Nat.mul_zero, List.drop_zero, ← hde, List.take_left]

theorem entryBytes_succ (hde : de.length = DIRENT) : entryBytes (de ++ f) (k + 1) = entryBytes f k := by
  unfold entryBytes
  rw [Nat.mul_succ, Nat.add_comm, ← List.drop_drop, ← hde, List.drop_left]

/-- Only the bytes of the entry are read. -/
theorem entryBytes_take (hk : DIRENT * k + DIRENT ≤ n) : entryBytes (f.take n) k = entryBytes f k := by
  unfold entryBytes
  rw [List.drop_take, List.take_take, Nat.min_eq_left (Nat.le_sub_of_add_le' hk)]

theorem entryBytes_entriesOf {g : List (BitVec 8) × List (BitVec 8)} (hg : files[k]? = some g) :
    entryBytes (entriesOf i files) k = dirent (i + k) (Mkfs.fileName g.1) := by
  induction files generalizing i k with
  | nil => exact absurd hg (by simp)
  | cons g0 files ih =>
    rw [entriesOf]
    cases k with
    | zero =>
      obtain rfl : g0 = g := Option.some.inj hg
      exact entryBytes_zero (length_dirent ..)
    | succ k =>
      rw [entryBytes_succ (length_dirent ..), ih hg, Nat.add_right_comm, Nat.add_assoc]

/-- The number and the name in entry `k` of the root. -/
def rootEntry (files : List (List (BitVec 8) × List (BitVec 8))) : Nat → Option (Nat × List (BitVec 8))
  | 0 => some (ROOTINO, dot)
  | 1 => some (ROOTINO, dotdot)
  | k + 2 => files[k]?.map fun g => (k + 2, Mkfs.fileName g.1)

theorem rootEntry_file {g : List (BitVec 8) × List (BitVec 8)} (hg : files[j]? = some g) :
    rootEntry files (j + 2) = some (j + 2, Mkfs.fileName g.1) := by
  change files[j]?.map _ = _
  rw [hg]
  rfl

theorem rootEntry_exists (hk : k < files.length + 2) :
    ∃ i p, rootEntry files k = some (i, p) ∧ 0 < i ∧ i < files.length + 2 := by
  match k with
  | 0 => exact ⟨_, _, rfl, by decide, Nat.succ_lt_succ (Nat.succ_pos _)⟩
  | 1 => exact ⟨_, _, rfl, by decide, Nat.succ_lt_succ (Nat.succ_pos _)⟩
  | k + 2 =>
    exact ⟨_, _, rootEntry_file (List.getElem?_eq_getElem (Nat.lt_of_add_lt_add_right hk)), Nat.succ_pos _, hk⟩

theorem entryBytes_rootBytes (h : rootEntry files k = some (i, name)) :
    entryBytes (rootBytes files) k = dirent i name := by
  unfold rootBytes
  rw [List.append_assoc]
  match k with
  | 0 =>
    obtain ⟨rfl, rfl⟩ := Prod.mk.inj (Option.some.inj h)
    exact entryBytes_zero (length_dirent ..)
  | 1 =>
    obtain ⟨rfl, rfl⟩ := Prod.mk.inj (Option.some.inj h)
    rw [entryBytes_succ (length_dirent ..), entryBytes_zero (length_dirent ..)]
  | k + 2 =>
    obtain ⟨g, hg, he⟩ := Option.map_eq_some_iff.1 h
    obtain ⟨rfl, rfl⟩ := Prod.mk.inj he
    rw [entryBytes_succ (length_dirent ..), entryBytes_succ (length_dirent ..), entryBytes_entriesOf hg,
      Nat.add_comm]

/-- An entry is found by its name. -/
theorem found_dirent (hi : 0 < i) (hlt : i < 2 ^ 16) (p : List (BitVec 8)) :
    (direntInum (dirent i p) ≠ 0 ∧ namecmp name ((dirent i p).drop 2) = true) ↔ nameKey name = nameKey p := by
  rw [direntInum_dirent, Nat.mod_eq_of_lt hlt, namecmp_iff]
  have hkey : nameKey ((dirent i p).drop 2) = nameKey p := nameKey_idem p
  rw [hkey]
  exact and_iff_right (Nat.ne_of_gt hi)

theorem eq_of_take_short {p q : List (BitVec 8)} (h : p.take DIRSIZ = q) (hq : q.length < DIRSIZ) : p = q := by
  rw [← h, List.length_take] at hq
  rw [← h, List.take_of_length_le (by omega)]

/-- The entries before that of a file have other names. -/
theorem NamesApart.skip (h : NamesApart files) {g : List (BitVec 8) × List (BitVec 8)}
    (hg : files[j]? = some g) (hk : k < j + 2) {p : List (BitVec 8)} (he : rootEntry files k = some (i, p)) :
    nameKey (Mkfs.fileName g.1) ≠ nameKey p := by
  have hmem := List.mem_of_getElem? hg
  intro hkey
  match k with
  | 0 =>
    obtain ⟨-, rfl⟩ := Prod.mk.inj (Option.some.inj he)
    have := take_of_strncpy _ _ _ (h.nul g hmem) (by decide) hkey
    exact (h.dots g hmem).1 (eq_of_take_short this (by decide))
  | 1 =>
    obtain ⟨-, rfl⟩ := Prod.mk.inj (Option.some.inj he)
    have := take_of_strncpy _ _ _ (h.nul g hmem) (by decide) hkey
    exact (h.dots g hmem).2 (eq_of_take_short this (by decide))
  | k + 2 =>
    obtain ⟨g', hg', he'⟩ := Option.map_eq_some_iff.1 he
    obtain ⟨-, rfl⟩ := Prod.mk.inj he'
    have htake := take_of_strncpy _ _ _ (h.nul g hmem) (h.nul g' (List.mem_of_getElem? hg')) hkey
    have hlt : ∀ {a : Nat} {x : List (BitVec 8) × List (BitVec 8)}, files[a]? = some x → a < files.length :=
      fun ha => (List.getElem?_eq_some_iff.1 ha).1
    have hinj := (List.nodup_iff_getElem?_ne_getElem?.1 h.distinct) k j (by omega)
      (by rw [List.length_map]; exact hlt hg)
    rw [List.getElem?_map, List.getElem?_map, hg, hg'] at hinj
    exact hinj (congrArg some htake.symm)

/-! ## The search -/

/-- The loop stops at the first entry that matches. -/
theorem dirlookupLoop_finds {E : String → Prop} {size : Nat} (hsize : DIRENT * n < size)
    (hread : ∀ k, k ≤ n → wp (readDirent v dp (DIRENT * k) "dirlookup read") E
      (fun de s' => s' = s ∧ de = entryBytes f k) s)
    (hskip : ∀ k, k < n → ¬ (direntInum (entryBytes f k) ≠ 0 ∧ namecmp name ((entryBytes f k).drop 2) = true))
    (hhit : direntInum (entryBytes f n) ≠ 0 ∧ namecmp name ((entryBytes f n).drop 2) = true) :
    ∀ d k : Nat, k ≤ n → n < k + d →
    wp (dirlookupLoop v dp size name d (DIRENT * k)) E
      (fun r s' => s' = s ∧ r = some (direntInum (entryBytes f n), DIRENT * n)) s := by
  intro d
  induction d with
  | zero => exact fun k hk hlt => absurd hk (Nat.not_le.2 hlt)
  | succ d ih =>
    intro k hk hlt
    unfold dirlookupLoop
    rw [if_pos (Nat.lt_of_le_of_lt (Nat.mul_le_mul_left _ hk) hsize)]
    refine wp_seq (wp_post (hread k hk) ?_)
    rintro de s1 ⟨hs, rfl⟩
    subst hs
    rcases Nat.eq_or_lt_of_le hk with heq | hlt'
    · subst heq
      rw [if_pos hhit]
      exact ⟨rfl, rfl⟩
    · rw [if_neg (hskip k hlt'), ← Nat.mul_succ]
      exact ih (k + 1) hlt' (by omega)

/-- `iget` of an inode that is not in the cache, with a free entry. -/
theorem iget_free {E : String → Prop} {Q : Nat → Fs → Prop}
    (hmiss : ∀ k, k < NINODE → 0 < (s.icache k).ref → (s.icache k).inum ≠ i)
    (hroom : ∃ k, k < NINODE ∧ (s.icache k).ref = 0)
    (h : ∀ ip, (s.icache ip).ref = 0 →
      Q ip (s.setSlot ip { s.icache ip with inum := i, ref := 1, valid := false })) : wp (iget i) E Q s := by
  refine iget_cases (fun ip hlt hr hin => absurd hin (hmiss ip hlt hr)) (fun ip _ h0 _ => h ip h0)
    fun hfull => ?_
  obtain ⟨k, hk, h0⟩ := hroom
  have := (hfull k hk).1
  omega

/-- `ilock` reads the inode. -/
theorem ilock_reads {E : String → Prop} {Q : Unit → Fs → Prop} {x : Inode} (hslot : s.icache ip = x)
    (href : 0 < x.ref) (hvalid : x.valid = false) (hlive : (s.dinode x.inum).Live)
    (h : Q () (s.setSlot ip { x with valid := true, node := s.dinode x.inum })) : wp (ilock ip) E Q s := by
  subst hslot
  unfold ilock
  refine wp_seq (get_wp ?_)
  rw [if_neg (by omega), hvalid]
  exact wp_seq (set_wp (wp_ite.2 ⟨fun hfree => absurd hfree hlive, fun _ => h⟩))

namespace Built

/-- A byte of the image that was built. -/
theorem mount_byte (hv : Mkfs.Layout v) (h : Built v files m s) (hl : (s.dinode i).Live)
    (hk : k < (s.dinode i).size) : m.finish.mount.byte i k = s.byte i k := by
  have hsize := h.sim.ok.size i hl
  have hne : (s.dinode i).refAt s.block (siteOf (k / BSIZE)) ≠ 0 := by
    rw [h.sim.ok.shape i hl _ (siteOf_ne_indirect _), siteOf_rank (by
      simp only [MAXFILE, BSIZE] at *
      omega)]
    unfold nblocks
    simp only [BSIZE]
    omega
  have hlow : nmeta ≤ (s.dinode i).refAt s.block (siteOf (k / BSIZE)) :=
    hv.datastart ▸ (h.sim.ok.alloc.data i _ hl hne).1
  unfold Fs.byte
  rw [h.mount_refAt hv hl]
  exact congrFun ((Mkfs.finish_sect hlow).trans (h.sim.blocks.data _ hlow).symm) _

/-- The file of the image, up to the size it had. -/
theorem take_mount_contents (hv : Mkfs.Layout v) (h : Built v files m s) (hl : (s.dinode i).Live)
    (hle : (s.dinode i).size ≤ (m.finish.mount.dinode i).size) :
    (m.finish.mount.contents i).take (s.dinode i).size = s.contents i := by
  unfold Fs.contents
  rw [← List.map_take, List.take_range, Nat.min_eq_left hle]
  exact List.map_congr_left fun k hk => h.mount_byte hv hl (List.mem_range.1 hk)

/-- `readi` on an inode of the image, up to its last block. -/
theorem readi_mount {E : String → Prop} (hv : Mkfs.Layout v) (h : Built v files m s) (hl : (s.dinode i).Live)
    (hdev : (s.dinode i).type ≠ .dev) (hblk : t.block = m.finish.mount.block) {r : Nat}
    (hslot : t.icache ip = ⟨i, r, true, m.finish.mount.dinode i⟩)
    (hin : min (off + n) (m.finish.mount.dinode i).size ≤ nblocks (s.dinode i).size * BSIZE) :
    wp (readi v ip off n) E (fun r t' => t' = t ∧ r = ReadSpec (m.finish.mount.contents i) off n) t := by
  have hsize := h.sim.ok.size i hl
  have hnode : t.node ip = m.finish.mount.dinode i := by
    unfold Fs.node
    rw [hslot]
  have hinum : (t.icache ip).inum = i := by rw [hslot]
  have htype : (m.finish.mount.dinode i).type = (s.dinode i).type := by rw [h.mount_dinode (h.lt_slots hl)]
  refine wp_post (readi_here (n := nblocks (s.dinode i).size) ?_ ?_ ?_ n ?_) ?_
  · rw [hnode, hblk]
    exact h.mount_shape hv hl
  · unfold nblocks
    simp only [MAXFILE, BSIZE] at *
    omega
  · rwa [hnode, htype]
  · rwa [hnode]
  · rintro r t' ⟨ht, hr⟩
    refine ⟨ht, ?_⟩
    rw [hr, hnode]
    congr 2
    funext k
    unfold Fs.byteAt Fs.byte
    rw [Fs.table_self, hnode, hblk]

theorem mount_size_root (h : Built v files m s) :
    (m.finish.mount.dinode ROOTINO).size = (DIRENT * (files.length + 2) / BSIZE + 1) * BSIZE := by
  rw [h.mount_dinode (by decide), ← h.size_root, ← h.sim.nodes ROOTINO (by decide)]
  rfl

/-- The root of the image has the entries. -/
theorem entry_mount (hv : Mkfs.Layout v) (h : Built v files m s) (hk : k < files.length + 2) :
    entryBytes (m.finish.mount.contents ROOTINO) k = entryBytes (rootBytes files) k := by
  have hsize : (s.dinode ROOTINO).size = DIRENT * (files.length + 2) := by
    rw [h.sim.nodes ROOTINO (by decide), h.size_root]
  rw [← h.entries, ← h.take_mount_contents hv h.live_root, entryBytes_take]
  · rw [hsize]
    simp only [DIRENT]
    omega
  · rw [hsize, h.mount_size_root]
    simp only [DIRENT, BSIZE]
    omega

theorem readDirent_mount {E : String → Prop} {err : String} (hv : Mkfs.Layout v) (h : Built v files m s)
    (hblk : t.block = m.finish.mount.block) {r : Nat}
    (hslot : t.icache dp = ⟨ROOTINO, r, true, m.finish.mount.dinode ROOTINO⟩) (hk : k < files.length + 2) :
    wp (readDirent v dp (DIRENT * k) err) E
      (fun de s' => s' = t ∧ de = entryBytes (m.finish.mount.contents ROOTINO) k) t := by
  have hle := h.size_root_le
  have hsize := h.size_root
  unfold readDirent
  refine wp_seq (wp_post (h.readi_mount hv h.live_root (by rw [h.root]; nofun) hblk hslot ?_) ?_)
  · rw [h.sim.nodes ROOTINO (by decide), hsize]
    unfold nblocks
    simp only [DIRENT, BSIZE]
    omega
  · rintro r t' ⟨rfl, rfl⟩
    unfold ReadSpec
    rw [Fs.length_contents, h.mount_size_root, if_pos]
    · refine wp_ite.2 ⟨fun _ => ⟨rfl, rfl⟩, fun hne => absurd ?_ hne⟩
      rw [List.length_take, List.length_drop, Fs.length_contents, h.mount_size_root]
      simp only [DIRENT, BSIZE]
      omega
    · rw [hsize] at hle
      simp only [DIRENT, BSIZE, MAXFILE] at *
      omega

/-- The search for a file in the root of the image. -/
theorem dirlookup_mount {E : String → Prop} {Q : Option (Nat × Nat) → Fs → Prop} (hv : Mkfs.Layout v)
    (h : Built v files m s) (hnames : NamesApart files) {g : List (BitVec 8) × List (BitVec 8)}
    (hg : files[j]? = some g) (hblk : t.block = m.finish.mount.block) {r : Nat}
    (hslot : t.icache dp = ⟨ROOTINO, r, true, m.finish.mount.dinode ROOTINO⟩)
    (hQ : wp (do let ip ← iget (j + 2); pure (some (ip, DIRENT * (j + 2)))) E Q t) :
    wp (dirlookup v dp (Mkfs.fileName g.1)) E Q t := by
  have hj : j + 2 < files.length + 2 := Nat.add_lt_add_right (List.getElem?_eq_some_iff.1 hg).1 2
  have hmany : files.length + 2 < 2 ^ 16 := by
    have hle := h.size_root_le
    rw [h.size_root] at hle
    simp only [DIRENT, BSIZE, MAXFILE] at hle
    omega
  have htype : (m.finish.mount.dinode ROOTINO).type = .dir := by
    rw [h.mount_dinode (by decide)]
    exact h.root
  have hnode : (t.icache dp).node = m.finish.mount.dinode ROOTINO := by rw [hslot]
  have hhit : entryBytes (m.finish.mount.contents ROOTINO) (j + 2) = dirent (j + 2) (Mkfs.fileName g.1) := by
    rw [h.entry_mount hv hj, entryBytes_rootBytes (rootEntry_file hg)]
  unfold dirlookup
  refine wp_seq (get_wp ?_)
  rw [hnode, if_neg fun hne => hne htype]
  refine wp_seq (wp_post (dirlookupLoop_finds (n := j + 2) ?_
    (fun k hk => h.readDirent_mount hv hblk hslot (hk.trans_lt hj)) (fun k hk => ?_) ?_ _ 0 (Nat.zero_le _) ?_) ?_)
  · rw [h.mount_size_root]
    simp only [DIRENT, BSIZE]
    omega
  · -- An entry before that of the file.
    obtain ⟨i, p, he, hpos, hlt⟩ := rootEntry_exists (hk.trans hj)
    rw [h.entry_mount hv (hk.trans hj), entryBytes_rootBytes he, found_dirent hpos (hlt.trans hmany)]
    exact hnames.skip hg hk he
  · rw [hhit, found_dirent (Nat.succ_pos _) (hj.trans hmany)]
  · rw [h.mount_size_root, Nat.zero_add]
    simp only [DIRENT, BSIZE]
    omega
  · rintro r t' ⟨rfl, rfl⟩
    rw [hhit, direntInum_dirent, Nat.mod_eq_of_lt (hj.trans hmany)]
    exact hQ

/-- A file of the image, by its name. -/
theorem readNamed_mount {E : String → Prop} (hv : Mkfs.Layout v) (h : Built v files m s)
    (hnames : NamesApart files) {g : List (BitVec 8) × List (BitVec 8)} (hg : files[j]? = some g) :
    wp (readNamed v (Mkfs.fileName g.1) off n) E
      (fun r _ => r = some (j + 2, g.2.length, ReadSpec g.2 off n)) m.finish.mount := by
  have hcold : ∀ k, (m.finish.mount.icache k).ref = 0 := fun _ => rfl
  have hl := h.live_file hg
  have hdin : m.finish.mount.dinode (j + 2) = s.dinode (j + 2) := by
    rw [h.mount_dinode (h.lt_slots hl)]
    rfl
  have hbytes : m.finish.mount.contents (j + 2) = g.2 := by
    rw [← (h.file j g hg).2, ← h.take_mount_contents hv hl (by rw [hdin]), ← hdin, List.take_of_length_le]
    rw [Fs.length_contents]
  have hsize : (m.finish.mount.dinode (j + 2)).size = g.2.length := by rw [← hbytes, Fs.length_contents]
  unfold readNamed
  refine wp_seq (iget_free (fun k _ hk => absurd (hcold k) (Nat.ne_of_gt hk)) ⟨0, by decide, rfl⟩ fun dp _ => ?_)
  refine wp_seq (ilock_reads (Fs.setSlot_self ..) Nat.one_pos rfl ((h.mount_type _).2 h.live_root) ?_)
  refine wp_seq (h.dirlookup_mount hv hnames hg rfl (Fs.setSlot_self ..) (wp_seq (iget_free ?_ ?_ fun ip _ => ?_)))
  · -- Only the root is in the cache.
    intro k _ hk
    by_cases hdp : k = dp
    · subst hdp
      rw [Fs.setSlot_self]
      intro hin
      have hroot : 1 = j + 2 := hin
      omega
    · rw [Fs.setSlot_of_ne _ _ hdp, Fs.setSlot_of_ne _ _ hdp] at hk
      exact absurd hk (Nat.lt_irrefl 0)
  · have hother : ∃ k, k < NINODE ∧ k ≠ dp := by
      by_cases hdp : dp = 0
      · exact ⟨1, by decide, by omega⟩
      · exact ⟨0, by decide, fun h0 => hdp h0.symm⟩
    obtain ⟨k, hk, hdp⟩ := hother
    refine ⟨k, hk, ?_⟩
    rw [Fs.setSlot_of_ne _ _ hdp, Fs.setSlot_of_ne _ _ hdp]
    exact hcold k
  · refine wp_seq (ilock_reads (Fs.setSlot_self ..) Nat.one_pos rfl ((h.mount_type _).2 hl) ?_)
    refine wp_seq (get_wp (wp_seq (wp_post (h.readi_mount hv hl ?_ rfl (Fs.setSlot_self ..) ?_) ?_)))
    · rw [(h.file j g hg).1]
      nofun
    · rw [hdin]
      unfold nblocks
      simp only [BSIZE]
      omega
    · rintro r t' ⟨-, rfl⟩
      rw [Fs.setSlot_self, hbytes]
      exact congrArg (fun k => some (j + 2, k, ReadSpec g.2 off n)) hsize

theorem mount_super (h : Built v files m s) : m.finish.mount.block 1 = Mkfs.outer 1 := by
  change m.finish.sect 1 = _
  unfold Mkfs.finish
  dsimp only
  rw [Function.update_of_ne (by decide), Mkfs.storeInode_sect (by decide) (.inl (by decide))]
  exact h.sim.outer 1 (.inl (by decide))

end Built

/-- The kernel finds each file by its name and reads its bytes, no block has two places, and the
bitmap marks the metadata and the blocks in use. -/
theorem mkfs_kernel_agree (hcount : files.length ≤ NINODES - 2) (hnames : NamesApart files)
    (h : Mkfs.main files Mkfs.blank = .ok ((), img)) (hv : v.Reads (img.sect 1)) :
    (∀ (j : Nat) (g : List (BitVec 8) × List (BitVec 8)), files[j]? = some g → ∀ off n, ∃ s',
      readNamed v (Mkfs.fileName g.1) off n img.mount =
        .ok (some (j + 2, g.2.length, ReadSpec g.2 off n), s')) ∧
    (∀ i x j y, (img.mount.dinode i).Live → (img.mount.dinode j).Live →
      (img.mount.dinode i).refAt img.mount.block x ≠ 0 →
      (img.mount.dinode i).refAt img.mount.block x = (img.mount.dinode j).refAt img.mount.block y →
      i = j ∧ x = y) ∧
    ∀ b, b < FSSIZE → (v.used img.mount.block b = true ↔
      b < nmeta ∨ ∃ i x, (img.mount.dinode i).Live ∧ (img.mount.dinode i).refAt img.mount.block x = b) := by
  have hroom : files.length + 2 ≤ inodeSlots := by
    simp only [NINODES, inodeSlots, ninodeblocks, IPB] at *
    omega
  obtain ⟨m0, s0, h0, -, rfl⟩ := of_wp (main_built Mkfs.layout_volume hroom) h
  have hlay : Mkfs.Layout v := Volume.Reads.layout (by rwa [← h0.mount_super])
  obtain ⟨m, s, hb, hf, he⟩ := of_wp (main_built hlay hroom) h
  rw [he]
  have halloc := hb.mount_alloc hlay hf
  refine ⟨fun j g hg off n => ?_, halloc.unique, fun b hlt => ?_⟩
  · obtain ⟨r, s', hr, rfl⟩ := exists_of_wp (hb.readNamed_mount hlay hnames hg)
    exact ⟨s', hr⟩
  · by_cases hmeta : b < nmeta
    · refine iff_of_true (halloc.metadata b (hlay.datastart ▸ hmeta) (hlay.size ▸ hlt)) (.inl hmeta)
    · have hdata : v.Data b := ⟨hlay.datastart ▸ Nat.le_of_not_lt hmeta, hlay.size ▸ hlt⟩
      rw [halloc.used b hdata, or_iff_right List.not_mem_nil, or_iff_right hmeta]

/-- A file `_a` of two bytes is read as `a`. -/
theorem mkfs_kernel_agree_one : ∃ img s', Mkfs.main [([95, 97], [1, 2])] Mkfs.blank = .ok ((), img) ∧
    readNamed Mkfs.volume [97] 0 10 img.mount = .ok (some (2, 2, some [1, 2]), s') := by
  have hok : returns (Mkfs.main [([95, 97], [1, 2])] Mkfs.blank) (fun _ img =>
      decide (Mkfs.volume.size = (getWord (img.sect 1) 0).toNat ∧
        Mkfs.volume.datastart = (getWord (img.sect 1) 0).toNat - (getWord (img.sect 1) 1).toNat ∧
        Mkfs.volume.ninodes = (getWord (img.sect 1) 2).toNat ∧
        Mkfs.volume.inodestart = (getWord (img.sect 1) 5).toNat ∧
        Mkfs.volume.bmapstart = (getWord (img.sect 1) 6).toNat)) = true := by decide +kernel
  obtain ⟨⟨⟩, img, himg, htest⟩ := of_returns hok
  obtain ⟨h0, h1, h2, h5, h6⟩ := of_decide_eq_true htest
  have hnames : NamesApart [([95, 97], [1, 2])] := ⟨by decide, by decide, by decide⟩
  obtain ⟨s', hs⟩ := (mkfs_kernel_agree (by decide) hnames himg ⟨h0, h1, h2, h5, h6⟩).1 0 _ rfl 0 10
  exact ⟨img, s', himg, hs⟩

end Xv6
