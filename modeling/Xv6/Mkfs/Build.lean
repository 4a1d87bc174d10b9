import Xv6.Fs.DirSlots
import Xv6.Mkfs.Append

/-!
# What `mkfs` builds

The root directory holds `.`, `..` and an entry for each file, and each file its bytes. This is
kept by every step of `mkfs` as long as the blocks of inodes have room: there is no check that they
do.
-/

namespace Xv6

open Lib

variable {v : Volume} {m m' : Mkfs} {s s' : Fs} {i off : Nat} {p bytes : List (BitVec 8)}
  {fs files : List (List (BitVec 8) × List (BitVec 8))}

/-- The entries of the files from number `i` on. -/
def entriesOf : Nat → List (List (BitVec 8) × List (BitVec 8)) → List (BitVec 8)
  | _, [] => []
  | i, f :: fs => dirent i (Mkfs.fileName f.1) ++ entriesOf (i + 1) fs

theorem entriesOf_append (i : Nat) (fs gs : List (List (BitVec 8) × List (BitVec 8))) :
    entriesOf i (fs ++ gs) = entriesOf i fs ++ entriesOf (i + fs.length) gs := by
  induction fs generalizing i with
  | nil => rfl
  | cons f fs ih =>
    rw [List.cons_append, entriesOf, entriesOf, ih, List.append_assoc, List.length_cons,
      Nat.add_right_comm, Nat.add_assoc]

/-- The bytes of the root directory. -/
def rootBytes (fs : List (List (BitVec 8) × List (BitVec 8))) : List (BitVec 8) :=
  dirent ROOTINO dot ++ dirent ROOTINO dotdot ++ entriesOf 2 fs

theorem length_entriesOf (i : Nat) : (entriesOf i fs).length = DIRENT * fs.length := by
  induction fs generalizing i with
  | nil => rfl
  | cons f fs ih =>
    rw [entriesOf, List.length_append, length_dirent, ih, List.length_cons, Nat.mul_succ, Nat.add_comm]

theorem length_rootBytes : (rootBytes fs).length = DIRENT * (fs.length + 2) := by
  unfold rootBytes
  rw [List.length_append, List.length_append, length_dirent, length_dirent, length_entriesOf, Nat.mul_add,
    Nat.mul_two, Nat.add_comm]

/-- An append, seen as contents. -/
theorem Written.append (h : Written i (s.dinode i).size p s s') (hl : (s.dinode i).Live) :
    s'.contents i = s.contents i ++ p := by
  rw [h.contents (Nat.le_refl _) hl]
  unfold splice
  rw [List.take_of_length_le (by rw [Fs.length_contents]), List.drop_eq_nil_of_le (by
    rw [Fs.length_contents]
    omega), List.append_nil]

theorem Fs.contents_congr (hd : s'.dinode i = s.dinode i) (hb : s'.block = s.block) :
    s'.contents i = s.contents i := by
  unfold Fs.contents Fs.byte
  rw [hd, hb]

theorem Dinode.live_of_type {d : Dinode} {t : FileType} (h : d.type = t) (ht : t ≠ .free) : d.Live := by
  unfold Dinode.Live
  rwa [h]

/-- The files `fs` have been added. -/
structure Built (v : Volume) (fs : List (List (BitVec 8) × List (BitVec 8))) (m : Mkfs) (s : Fs) :
    Prop where
  sim : Draft v m s
  freeinode : m.freeinode = fs.length + 2
  root : (s.dinode ROOTINO).type = .dir
  entries : s.contents ROOTINO = rootBytes fs
  file : ∀ (j : Nat) (f : List (BitVec 8) × List (BitVec 8)), fs[j]? = some f →
    (s.dinode (j + 2)).type = .file ∧ s.contents (j + 2) = f.2
  free : ∀ i, i = 0 ∨ fs.length + 2 ≤ i → ¬ (s.dinode i).Live

/-- The copy of a file: what was there, and the bytes. -/
theorem copyLoop_sim (hv : Mkfs.Layout v) (hi : i < inodeSlots) : ∀ (k : Nat) (bytes : List (BitVec 8))
    (m : Mkfs) (s : Fs), bytes.length ≤ k → Draft v m s → (s.dinode i).type = .file →
    wp (Mkfs.copyLoop i k bytes) Anyway (fun _ m' => m'.freeinode = m.freeinode ∧
      m.freeblock ≤ m'.freeblock ∧ ∃ s', Draft v m' s' ∧ s'.contents i = s.contents i ++ bytes ∧
        (∀ j, (s'.dinode j).type = (s.dinode j).type) ∧
        ∀ j, j ≠ i → (s.dinode j).Live → s'.contents j = s.contents j) m := by
  intro k
  induction k with
  | zero =>
    intro bytes m s hk h ht
    rw [List.length_eq_zero_iff.1 (Nat.le_zero.1 hk)]
    exact ⟨rfl, Nat.le_refl _, s, h, (List.append_nil _).symm, fun _ => rfl, fun _ _ _ => rfl⟩
  | succ k ih =>
    intro bytes m s hk h ht
    have hlive : (s.dinode i).Live := Dinode.live_of_type ht (by decide)
    unfold Mkfs.copyLoop
    refine wp_ite.2 ⟨fun hb => ?_, fun hb => ?_⟩
    · subst hb
      exact ⟨rfl, Nat.le_refl _, s, h, (List.append_nil _).symm, fun _ => rfl, fun _ _ _ => rfl⟩
    have hpos : 0 < bytes.length := List.length_pos_iff.2 hb
    refine wp_seq (wp_post (h.iappend hv hi hlive (by rw [ht]; decide) (bytes.take BSIZE)) ?_)
    rintro ⟨⟩ m1 ⟨hfi, hfb, s1, h1, hw⟩
    have hlen : (bytes.drop BSIZE).length ≤ k := by
      rw [List.length_drop]
      simp only [BSIZE]
      omega
    refine wp_post (ih (bytes.drop BSIZE) m1 s1 hlen h1 (by rw [hw.type, ht])) ?_
    rintro ⟨⟩ m2 ⟨hfi2, hfb2, s2, h2, hcont, htype, hother⟩
    refine ⟨hfi2.trans hfi, hfb.trans hfb2, s2, h2, ?_, fun j => (htype j).trans (hw.type j), fun j hj hl => ?_⟩
    · rw [hcont, hw.append hlive, List.append_assoc, List.take_append_drop]
    · rw [hother j hj (Dinode.live_of_type (hw.type j) hl), hw.contents_of_ne hj hl]

namespace Built

theorem live_root (h : Built v fs m s) : (s.dinode ROOTINO).Live := Dinode.live_of_type h.root (by decide)

theorem live_file (h : Built v fs m s) {j : Nat} {f : List (BitVec 8) × List (BitVec 8)}
    (hf : fs[j]? = some f) : (s.dinode (j + 2)).Live :=
  Dinode.live_of_type (h.file j f hf).1 (by decide)

/-- One more file. -/
theorem addFile (hv : Mkfs.Layout v) (h : Built v fs m s) (hroom : fs.length + 2 < inodeSlots)
    (arg bytes : List (BitVec 8)) :
    wp (do
      let inum ← Mkfs.ialloc .file
      Mkfs.iappend ROOTINO (dirent inum (Mkfs.fileName arg))
      Mkfs.copyLoop inum bytes.length bytes) Anyway
      (fun _ m' => m.freeblock ≤ m'.freeblock ∧ ∃ s', Built v (fs ++ [(arg, bytes)]) m' s') m := by
  have hfi := h.freeinode
  have hnew : ¬ (s.dinode m.freeinode).Live := h.free _ (.inr (Nat.le_of_eq hfi.symm))
  refine wp_seq (wp_post (h.sim.ialloc (by omega) hnew .file) ?_)
  rintro _ m1 ⟨rfl, hfi1, hfb1, s1, h1, hblk1, hdin1⟩
  rw [hfi] at hdin1 hfi1 ⊢
  -- The other inodes are as they were.
  have hold : ∀ j, j ≠ fs.length + 2 → s1.dinode j = s.dinode j ∧ s1.contents j = s.contents j := by
    intro j hj
    have hd : s1.dinode j = s.dinode j := by rw [hdin1, Function.update_of_ne hj]
    exact ⟨hd, Fs.contents_congr hd hblk1⟩
  have hself : s1.dinode (fs.length + 2) = ⟨.file, 0, 0, 1, 0, fun _ => 0⟩ := by
    rw [hdin1, Function.update_self]
  have hempty : s1.contents (fs.length + 2) = [] := by
    rw [← List.length_eq_zero_iff, Fs.length_contents, hself]
  have hne : ROOTINO ≠ fs.length + 2 := by
    have : ROOTINO = 1 := rfl
    omega
  obtain ⟨hrd, hrc⟩ := hold ROOTINO hne
  have hlive1 : (s1.dinode ROOTINO).Live := by
    rw [hrd]
    exact h.live_root
  have hdev1 : (s1.dinode ROOTINO).type ≠ .dev := by
    rw [hrd, h.root]
    decide
  refine wp_seq (wp_post (h1.iappend hv (by decide) hlive1 hdev1 _) ?_)
  rintro ⟨⟩ m2 ⟨hfi2, hfb2, s2, h2, hw⟩
  have htype2 : (s2.dinode (fs.length + 2)).type = .file := by rw [hw.type, hself]
  refine wp_post (copyLoop_sim hv hroom bytes.length bytes m2 s2 (Nat.le_refl _) h2 htype2) ?_
  rintro ⟨⟩ m3 ⟨hfi3, hfb3, s3, h3, hcont, htype3, hother⟩
  have htype : ∀ j, (s3.dinode j).type = (s1.dinode j).type := fun j => (htype3 j).trans (hw.type j)
  have hlen : (fs ++ [(arg, bytes)]).length = fs.length + 1 := List.length_append
  refine ⟨by omega, s3, h3, by omega, ?_, ?_, fun j f hf => ?_, fun i hi => ?_⟩
  · rw [htype, hrd, h.root]
  · rw [hother ROOTINO hne (Dinode.live_of_type (hw.type _) hlive1), hw.append hlive1, hrc, h.entries]
    have hlast : entriesOf (2 + fs.length) [(arg, bytes)] = dirent (fs.length + 2) (Mkfs.fileName arg) := by
      rw [entriesOf, entriesOf, List.append_nil, Nat.add_comm 2]
    unfold rootBytes
    rw [entriesOf_append, hlast, ← List.append_assoc _ (entriesOf 2 fs)]
  · rcases Nat.lt_trichotomy j fs.length with hj | hj | hj
    · rw [List.getElem?_append_left hj] at hf
      obtain ⟨ht, hc⟩ := h.file j f hf
      obtain ⟨hd, hc1⟩ := hold (j + 2) (by omega)
      have hl1 : (s1.dinode (j + 2)).Live := by
        rw [hd]
        exact h.live_file hf
      refine ⟨by rw [htype, hd, ht], ?_⟩
      rw [hother _ (by omega) (Dinode.live_of_type (hw.type _) hl1), hw.contents_of_ne (by
        have : ROOTINO = 1 := rfl
        omega) hl1, hc1, hc]
    · subst hj
      rw [List.getElem?_append_right (Nat.le_refl _), Nat.sub_self] at hf
      obtain rfl : (arg, bytes) = f := Option.some.inj hf
      refine ⟨by rw [htype, hself], ?_⟩
      have hl1 : (s1.dinode (fs.length + 2)).Live := by
        rw [hself]
        exact nofun
      rw [hcont, hw.contents_of_ne hne.symm hl1, hempty, List.nil_append]
    · rw [List.getElem?_eq_none (by omega)] at hf
      cases hf
  · unfold Dinode.Live
    rw [htype, (hold i (by omega)).1]
    exact h.free i (by omega)

/-- All of the files. -/
theorem addFiles (hv : Mkfs.Layout v) : ∀ (files fs : List (List (BitVec 8) × List (BitVec 8)))
    (m : Mkfs) (s : Fs), Built v fs m s → fs.length + files.length + 2 ≤ inodeSlots →
    wp (Mkfs.addFiles ROOTINO files) Anyway (fun _ m' => m.freeblock ≤ m'.freeblock ∧
      ∃ s', Built v (fs ++ files) m' s') m := by
  intro files
  induction files with
  | nil =>
    intro fs m s h _
    exact ⟨Nat.le_refl _, s, by rwa [List.append_nil]⟩
  | cons f files ih =>
    intro fs m s h hroom
    obtain ⟨arg, bytes⟩ := f
    rw [List.length_cons] at hroom
    unfold Mkfs.addFiles
    refine wp_ite.2 ⟨fun _ => trivial, fun _ => ?_⟩
    have hone := h.addFile hv (by omega) arg bytes
    rw [wp_bind] at hone
    refine wp_seq (wp_post hone fun inum m1 h1 => ?_)
    rw [wp_bind] at h1
    refine wp_seq (wp_post h1 fun _ m2 h2 => wp_seq (wp_post h2 ?_))
    rintro ⟨⟩ m3 ⟨hfb, s3, h3⟩
    have hlen : (fs ++ [(arg, bytes)]).length = fs.length + 1 := List.length_append
    refine wp_post (ih _ m3 s3 h3 (by omega)) ?_
    rintro ⟨⟩ m4 ⟨hfb4, s4, h4⟩
    refine ⟨hfb.trans hfb4, s4, ?_⟩
    rwa [List.append_assoc, List.singleton_append] at h4

end Built

/-! ## The start -/

/-- No inode. -/
def noInode : Dinode := ⟨.free, 0, 0, 0, 0, fun _ => 0⟩

theorem getDinode_zero (m : Nat) : getDinode (fun _ => 0) m = noInode := by
  unfold getDinode noInode
  simp only [getWord_zero]
  congr 1
  funext j
  exact ite_self _

/-- The file system that the blank image stands for: no block of data is used. -/
def blankFs : Fs where
  block := fun b => if b = mkBmapstart then firstBits nmeta else fun _ => 0
  dinode := fun _ => noInode
  icache := fun _ => ⟨0, 0, false, noInode⟩
  logged := []

theorem blankFs_used (hv : Mkfs.Layout v) {b : Nat} (hb : b < FSSIZE) :
    v.used blankFs.block b = decide (b < nmeta) := by
  have hn : nmeta = 60 := by decide
  have hs : mkBmapstart = 58 := by decide
  unfold Volume.used Volume.bblock blankFs
  rw [hv.bmapstart]
  simp only [BPB, FSSIZE] at *
  by_cases h0 : b / 4096 = 0
  · rw [h0, Nat.zero_add, if_pos rfl, testBit_firstBits]
    exact decide_eq_decide.2 (by omega)
  · rw [if_neg (by omega), decide_eq_false (by omega)]
    unfold testBit
    simp

theorem blank_sim (hv : Mkfs.Layout v) :
    Draft v { Mkfs.blank with sect := Function.update Mkfs.blank.sect 1 (Mkfs.outer 1) } blankFs := by
  have hn : nmeta = 60 := by decide
  have hs : mkBmapstart = 58 := by decide
  have hexact : BlocksExact v blankFs := by
    refine .of_empty (fun _ _ _ => rfl) (fun _ => rfl) fun b hb => ?_
    rw [blankFs_used hv (hv.size ▸ hb.2)]
    exact decide_eq_false (Nat.not_lt.2 (hv.datastart ▸ hb.1))
  have hok : FsOk v blankFs := hexact.ok (fun b hb hsize => by
    rw [blankFs_used hv (hv.size ▸ hsize)]
    exact decide_eq_true (hv.datastart ▸ hb)) fun _ => rfl
  refine ⟨⟨fun b hb => ?_, fun b hb => blankFs_used hv hb, fun b hb => ?_, Nat.le_refl _⟩, fun i hi => ?_,
    fun b _ => ?_, fun _ _ hl => hl rfl, hok, fun _ => rfl⟩
  · dsimp only
    rw [Function.update_of_ne (by omega)]
    exact if_neg (by omega)
  · have hb : nmeta ≤ b := hb
    dsimp only
    rw [Function.update_of_ne (by omega)]
    rfl
  · unfold Mkfs.inode
    dsimp only
    rw [Function.update_of_ne (Nat.ne_of_gt (Nat.lt_of_lt_of_le (by decide) (Nat.le_add_left mkInodestart _)))]
    exact (getDinode_zero _).symm
  · dsimp only
    by_cases h1 : b = 1
    · rw [h1, Function.update_self]
    · rw [Function.update_of_ne h1]
      exact (if_neg h1).symm

/-- `mkfs` once the root directory has its first two entries. -/
theorem main_wp (hv : Mkfs.Layout v) {Q : Unit → Mkfs → Prop}
    (h : ∀ m s, Built v [] m s → wp (do
      Mkfs.addFiles ROOTINO files
      let din ← Mkfs.rinode ROOTINO
      Mkfs.winode ROOTINO { din with size := (din.size / BSIZE + 1) * BSIZE }
      let s ← get
      Mkfs.balloc s.freeblock) Anyway Q m) : wp (Mkfs.main files) Anyway Q Mkfs.blank := by
  refine wp_seq (modify_wp ?_)
  have h0 := blank_sim hv
  refine wp_seq (wp_post (h0.ialloc (show 1 < inodeSlots by decide) (fun hl => hl rfl) .dir) ?_)
  rintro _ m1 ⟨rfl, hfi1, -, s1, h1, hblk1, hdin1⟩
  have hroot1 : s1.dinode ROOTINO = ⟨.dir, 0, 0, 1, 0, fun _ => 0⟩ := by
    rw [hdin1]
    exact Function.update_self ..
  have hother1 : ∀ i, i ≠ ROOTINO → ¬ (s1.dinode i).Live := by
    intro i hi hl
    rw [hdin1] at hl
    rw [show Mkfs.blank.freeinode = ROOTINO from rfl, Function.update_of_ne hi] at hl
    exact hl rfl
  have hempty : s1.contents ROOTINO = [] := by
    rw [← List.length_eq_zero_iff, Fs.length_contents, hroot1]
  have hlive1 : (s1.dinode ROOTINO).Live := by
    rw [hroot1]
    exact nofun
  have hdev1 : (s1.dinode ROOTINO).type ≠ .dev := by
    rw [hroot1]
    exact nofun
  refine wp_ite.2 ⟨fun _ => ?_, fun _ => trivial⟩
  refine wp_seq (wp_post (h1.iappend hv (by decide) hlive1 hdev1 _) ?_)
  rintro ⟨⟩ m2 ⟨hfi2, -, s2, h2, hw2⟩
  have hlive2 : (s2.dinode ROOTINO).Live := Dinode.live_of_type (hw2.type _) hlive1
  refine wp_seq (wp_post (h2.iappend hv (by decide) hlive2 (by rw [hw2.type]; exact hdev1) _) ?_)
  rintro ⟨⟩ m3 ⟨hfi3, -, s3, h3, hw3⟩
  refine h m3 s3 ⟨h3, by rw [hfi3, hfi2, hfi1]; rfl, ?_, ?_, fun j f hf => absurd hf (by simp), fun i hi => ?_⟩
  · rw [hw3.type, hw2.type, hroot1]
  · rw [hw3.append hlive2, hw2.append hlive1, hempty, List.nil_append]
    unfold rootBytes
    rw [entriesOf, List.append_nil]
    rfl
  · unfold Dinode.Live
    rw [hw3.type, hw2.type]
    refine hother1 i ?_
    have : ROOTINO = 1 := rfl
    simp only [List.length_nil] at hi
    omega

/-- The size of the root is rounded up, and the bitmap written. -/
def Mkfs.finish (m : Mkfs) : Mkfs :=
  { m.storeInode ROOTINO { m.inode ROOTINO with size := ((m.inode ROOTINO).size / BSIZE + 1) * BSIZE } with
    sect := Function.update
      (m.storeInode ROOTINO
        { m.inode ROOTINO with size := ((m.inode ROOTINO).size / BSIZE + 1) * BSIZE }).sect
      mkBmapstart (firstBits m.freeblock) }

/-- The end of `mkfs`. -/
theorem finish_wp {Q : Unit → Mkfs → Prop} (h : m.freeblock < BSIZE * 8 → Q () m.finish) :
    wp (do
      let din ← Mkfs.rinode ROOTINO
      Mkfs.winode ROOTINO { din with size := (din.size / BSIZE + 1) * BSIZE }
      let s ← get
      Mkfs.balloc s.freeblock) Anyway Q m := by
  refine wp_seq (rinode_wp (by decide) (wp_seq (winode_wp (by decide) (wp_seq (get_wp ?_)))))
  exact wp_ite.2 ⟨fun hlt => modify_wp (h hlt), fun _ => trivial⟩

/-- With room for the inodes, the image is that of the files. -/
theorem main_built (hv : Mkfs.Layout v) (hroom : files.length + 2 ≤ inodeSlots) :
    wp (Mkfs.main files) Anyway (fun _ m' => ∃ m s, Built v files m s ∧ m.freeblock < BSIZE * 8 ∧
      m' = m.finish) Mkfs.blank := by
  refine main_wp hv fun m s h => wp_seq (wp_post (h.addFiles hv files [] m s ?_) ?_)
  · simpa using hroom
  · rintro ⟨⟩ m1 ⟨-, s1, h1⟩
    exact finish_wp fun hlt => ⟨m1, s1, h1, hlt, rfl⟩

/-! ## The counter of blocks -/

/-- The counter never goes back. -/
def Grows {α : Type} (x : Mkfs.M α) : Prop :=
  ∀ m, wp x Anyway (fun _ m' => m.freeblock ≤ m'.freeblock) m

namespace Grows

theorem bind {α β : Type} {x : Mkfs.M α} {f : α → Mkfs.M β} (hx : Grows x) (hf : ∀ a, Grows (f a)) :
    Grows (x >>= f) := fun m =>
  wp_seq (wp_post (hx m) fun a m1 h1 => wp_post (hf a m1) fun _ _ h2 => h1.trans h2)

theorem pure {α : Type} (a : α) : Grows (Pure.pure a : Mkfs.M α) := fun _ => Nat.le_refl _

theorem stop {α : Type} (e : String) : Grows (throw e : Mkfs.M α) := fun _ => trivial

theorem rsect (sec : Nat) : Grows (Mkfs.rsect sec) := fun _ => rsect_wp trivial fun _ => Nat.le_refl _

theorem wsect (sec : Nat) (buf : Nat → BitVec 8) : Grows (Mkfs.wsect sec buf) := fun _ =>
  modify_wp (Nat.le_refl _)

theorem nextBlock : Grows Mkfs.nextBlock := fun _ => nextBlock_wp (Nat.le_succ _)

theorem winode (i : Nat) (d : Dinode) : Grows (Mkfs.winode i d) := (rsect _).bind fun _ => wsect _ _

theorem rinode (i : Nat) : Grows (Mkfs.rinode i) := (rsect _).bind fun _ => pure _

theorem ite {α : Type} {c : Prop} [Decidable c] {x y : Mkfs.M α} (hx : Grows x) (hy : Grows y) :
    Grows (if c then x else y) := fun m => wp_ite.2 ⟨fun _ => hx m, fun _ => hy m⟩

theorem ialloc (t : FileType) : Grows (Mkfs.ialloc t) := fun _ =>
  wp_seq (get_wp (wp_seq (set_wp (wp_seq (winode _ _ _)))))

theorem blockFor (d : Dinode) (fbn : Nat) : Grows (Mkfs.blockFor d fbn) := by
  have hentry : ∀ d : Dinode, Grows (do
      let indirect ← Mkfs.rsect (d.addrs NDIRECT)
      if (getWord indirect (fbn - NDIRECT)).toNat = 0 then do
        let b ← Mkfs.nextBlock
        Mkfs.wsect (d.addrs NDIRECT) (setWord indirect (fbn - NDIRECT) (BitVec.ofNat 32 b))
        Pure.pure (d, b)
      else Pure.pure (d, (getWord indirect (fbn - NDIRECT)).toNat)) := fun d =>
    (rsect _).bind fun _ => ite (nextBlock.bind fun _ => (wsect _ _).bind fun _ => pure _) (pure _)
  refine ite (ite (nextBlock.bind fun _ => pure _) (pure _)) ?_
  exact ite (nextBlock.bind fun b => hentry _) (hentry d)

theorem appendLoop : ∀ (k : Nat) (d : Dinode) (off : Nat) (p : List (BitVec 8)),
    Grows (Mkfs.appendLoop k d off p) := by
  intro k
  induction k with
  | zero => exact fun d off p => pure _
  | succ k ih =>
    intro d off p
    unfold Mkfs.appendLoop
    refine ite (pure _) (ite ((blockFor d _).bind ?_) (stop _))
    rintro ⟨d1, x⟩
    exact (rsect x).bind fun _ => (wsect x _).bind fun _ => ih _ _ _

theorem iappend (i : Nat) (p : List (BitVec 8)) : Grows (Mkfs.iappend i p) :=
  (rinode i).bind fun d => (appendLoop _ d _ p).bind fun _ => winode i _

theorem copyLoop (i : Nat) : ∀ (k : Nat) (bytes : List (BitVec 8)), Grows (Mkfs.copyLoop i k bytes) := by
  intro k
  induction k with
  | zero => exact fun _ => pure _
  | succ k ih => exact fun bytes => ite (pure _) ((iappend i _).bind fun _ => ih _)

theorem addFiles (r : Nat) : ∀ files, Grows (Mkfs.addFiles r files) := by
  intro files
  induction files with
  | nil => exact pure _
  | cons f files ih =>
    obtain ⟨arg, bytes⟩ := f
    exact ite (stop _) ((ialloc .file).bind fun i => (iappend r _).bind fun _ =>
      (copyLoop i _ bytes).bind fun _ => ih)

end Grows

theorem addFiles_append (r : Nat) (fs gs : List (List (BitVec 8) × List (BitVec 8))) :
    Mkfs.addFiles r (fs ++ gs) = (do Mkfs.addFiles r fs; Mkfs.addFiles r gs) := by
  induction fs with
  | nil => rfl
  | cons f fs ih =>
    obtain ⟨arg, bytes⟩ := f
    rw [List.cons_append, Mkfs.addFiles, Mkfs.addFiles]
    split
    · rfl
    · rw [ih]
      simp only [bind_assoc]

end Xv6
