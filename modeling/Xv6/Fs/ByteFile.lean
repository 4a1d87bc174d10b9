import Xv6.Fs.Exact

/-!
# A file is a byte array

The specification knows one list of bytes for each file. A write replaces the bytes it covers, a
read takes a part of the list. Every sequence of `readi` and `writei` on files is a run of the
specification with the same results.
-/

namespace Xv6

open Lib

variable {v : Volume} {s s' : Fs} {i ip off n : Nat} {src f : List (BitVec 8)}

/-- The bytes `src` put into `f` at `off`. -/
def splice (f : List (BitVec 8)) (off : Nat) (src : List (BitVec 8)) : List (BitVec 8) :=
  f.take off ++ src ++ f.drop (off + src.length)

theorem length_splice (h : off ≤ f.length) :
    (splice f off src).length = max f.length (off + src.length) := by
  unfold splice
  rw [List.length_append, List.length_append, List.length_take, List.length_drop]
  omega

theorem getD_splice (hoff : off ≤ f.length) (k : Nat) :
    (splice f off src).getD k 0 = if off ≤ k ∧ k < off + src.length then src.getD (k - off) 0
      else f.getD k 0 := by
  have htake : (f.take off).length = off := by
    rw [List.length_take]
    omega
  have hfront : (f.take off ++ src).length = off + src.length := by
    rw [List.length_append, htake]
  unfold splice
  by_cases h1 : k < off
  · rw [if_neg (by omega), List.getD_append _ _ _ _ (by omega), List.getD_append _ _ _ _ (by omega),
      List.getD_eq_getElem?_getD, List.getElem?_take_of_lt h1, List.getD_eq_getElem?_getD]
  · by_cases h2 : k < off + src.length
    · rw [if_pos (by omega), List.getD_append _ _ _ _ (by omega),
        List.getD_append_right _ _ _ _ (by omega), htake]
    · rw [if_neg (by omega), List.getD_append_right _ _ _ _ (by omega), hfront,
        List.getD_eq_getElem?_getD, List.getElem?_drop, List.getD_eq_getElem?_getD]
      congr 2
      omega

theorem Fs.getD_contents {k : Nat} (hk : k < (s.dinode i).size) :
    (s.contents i).getD k 0 = s.byte i k := by
  unfold contents
  rw [List.getD_eq_getElem _ _ (by rwa [List.length_map, List.length_range]), List.getElem_map,
    List.getElem_range]

/-- A call on file `i` and what it returned. -/
inductive FileOp where
  | write (i off : Nat) (src : List (BitVec 8)) (r : Option Nat)
  | read (i off n : Nat) (r : Option (List (BitVec 8)))
  deriving DecidableEq

/-- The specification: an accepted write replaces bytes of one file, a read returns bytes. -/
inductive ByteStep : (Nat → List (BitVec 8)) → FileOp → (Nat → List (BitVec 8)) → Prop
  | write {F : Nat → List (BitVec 8)} {i off : Nat} {src : List (BitVec 8)} :
      Accepts (F i).length off src.length →
      ByteStep F (.write i off src (some src.length)) (Function.update F i (splice (F i) off src))
  | reject {F : Nat → List (BitVec 8)} {i off : Nat} {src : List (BitVec 8)} :
      ¬ Accepts (F i).length off src.length → ByteStep F (.write i off src none) F
  | read {F : Nat → List (BitVec 8)} {i off n : Nat} :
      ByteStep F (.read i off n (ReadSpec (F i) off n)) F

/-- The files of the file system. -/
def Fs.files (s : Fs) (i : Nat) : List (BitVec 8) :=
  if (s.dinode i).type = .file then s.contents i else []

/-- Entry `ip` is for the file `i`. -/
def Fs.IsFile (s : Fs) (ip i : Nat) : Prop :=
  0 < (s.icache ip).ref ∧ (s.icache ip).inum = i ∧ (s.dinode i).type = .file

instance (s : Fs) (ip i : Nat) : Decidable (s.IsFile ip i) := by
  unfold Fs.IsFile
  infer_instance

def writeFile (v : Volume) (ip off : Nat) (src : List (BitVec 8)) : F (Option Nat) := do
  ilock ip
  writei v ip off src

def readFile (v : Volume) (ip off n : Nat) : F (Option (List (BitVec 8))) := do
  ilock ip
  readi v ip off n

/-- A call on a file, with 32-bit arguments, that returns. -/
inductive FileStep (v : Volume) (s : Fs) : FileOp → Fs → Prop
  | write {ip i off : Nat} {src : List (BitVec 8)} {r : Option Nat} {s' : Fs} : s.IsFile ip i →
      off < 2 ^ 32 → src.length < 2 ^ 32 → writeFile v ip off src s = .ok (r, s') →
      FileStep v s (.write i off src r) s'
  | read {ip i off n : Nat} {r : Option (List (BitVec 8))} {s' : Fs} : s.IsFile ip i →
      off < 2 ^ 32 → n < 2 ^ 32 → readFile v ip off n s = .ok (r, s') →
      FileStep v s (.read i off n r) s'

theorem SameDisk.contents (h : SameDisk s s') : s'.contents = s.contents := by
  funext i
  unfold Fs.contents Fs.byte
  rw [h.dinode, h.block]

theorem SameDisk.files (h : SameDisk s s') : s'.files = s.files := by
  funext i
  unfold Fs.files
  rw [h.dinode, h.contents]

/-- What was written, as lists. -/
theorem Written.contents (h : Written i off src s s') (hoff : off ≤ (s.dinode i).size)
    (hl : (s.dinode i).Live) : s'.contents i = splice (s.contents i) off src := by
  refine List.ext_getElem ?_ fun k hk hk' => ?_
  · rw [Fs.length_contents, h.size, length_splice (by rw [Fs.length_contents]; exact hoff),
      Fs.length_contents]
  · have hlt := hk
    rw [Fs.length_contents, h.size] at hlt
    rw [← List.getD_eq_getElem _ 0 hk, ← List.getD_eq_getElem _ 0 hk',
      getD_splice (by rw [Fs.length_contents]; exact hoff),
      Fs.getD_contents (by rw [h.size]; exact hlt)]
    split
    · rename_i hin
      exact h.here k hin.1 hin.2
    · rename_i hout
      have hsize : k < (s.dinode i).size := by omega
      rw [Fs.getD_contents hsize]
      exact h.kept i k hl hsize fun hc => hout hc.2

theorem Written.contents_of_ne (h : Written i off src s s') {j : Nat} (hj : j ≠ i)
    (hl : (s.dinode j).Live) : s'.contents j = s.contents j := by
  unfold Fs.contents
  rw [h.others j hj]
  exact List.map_congr_left fun k hk => h.kept j k hl (List.mem_range.1 hk) fun hc => hj hc.1

theorem Written.files (h : Written i off src s s') (hoff : off ≤ (s.dinode i).size)
    (hfile : (s.dinode i).type = .file) :
    s'.files = Function.update s.files i (splice (s.files i) off src) := by
  have hlive : ∀ {j}, (s.dinode j).type = .file → (s.dinode j).Live := fun ht => by
    unfold Dinode.Live
    rw [ht]
    decide
  funext j
  by_cases hj : j = i
  · subst hj
    rw [Function.update_self]
    unfold Fs.files
    rw [h.type j, if_pos hfile, if_pos hfile, h.contents hoff (hlive hfile)]
  · rw [Function.update_of_ne hj]
    unfold Fs.files
    rw [h.type j]
    split
    · rename_i ht
      exact h.contents_of_ne hj (hlive ht)
    · rfl

theorem Fs.IsFile.live (h : s.IsFile ip i) : (s.dinode (s.icache ip).inum).Live := by
  unfold Dinode.Live
  rw [h.2.1, h.2.2]
  decide

/-- With the lock, the copy of a file is not that of a device. -/
theorem Fs.IsFile.not_dev (h : s.IsFile ip i) (hd : SameDisk s s') {l L : List Nat}
    (hheld : Held v s' l L) (hip : ip ∈ L) : (s'.node ip).type ≠ .dev := by
  obtain ⟨hsame, _⟩ := hheld.ok.cache.agree ip (hheld.pos hip) (hheld.valid hip)
  rw [hsame.type, hd.inum, hd.dinode, h.2.1, h.2.2]
  decide

theorem writeFile_wp (h : FsOk v s) (hf : s.IsFile ip i) (src : List (BitVec 8)) :
    wp (writeFile v ip off src) (· = "balloc: out of blocks") (fun r s' => FsOk v s' ∧
      ByteStep s.files (.write i off src r) s'.files) s := by
  have hheld : Held v s [ip] [] := Held.start_one h hf.1
  refine wp_seq (wp_post (ilock_disk_wp hheld List.mem_cons_self fun hn => absurd hf.live hn) ?_)
  rintro _ s1 ⟨h1, hd⟩
  refine wp_post (writei_wp (E := (· = "balloc: out of blocks")) rfl h1.ok
    (h1.pos List.mem_cons_self) (h1.valid List.mem_cons_self) src) ?_
  rintro r s2 ⟨h2, _, hspec⟩
  refine ⟨h2, ?_⟩
  have hw := hspec (hf.not_dev hd h1 List.mem_cons_self)
  rw [hd.inum, hf.2.1] at hw
  have hfile : (s1.dinode i).type = .file := by
    rw [hd.dinode]
    exact hf.2.2
  have hlen : (s.files i).length = (s1.dinode i).size := by
    rw [← hd.files]
    unfold Fs.files
    rw [if_pos hfile, Fs.length_contents]
  unfold WriteSpec at hw
  split at hw
  · rename_i hacc
    obtain ⟨rfl, hwritten⟩ := hw
    rw [hwritten.files hacc.1 hfile, hd.files]
    exact .write (by rw [hlen]; exact hacc)
  · rename_i hacc
    obtain ⟨rfl, rfl⟩ := hw
    rw [hd.files]
    exact .reject (by rw [hlen]; exact hacc)

theorem readFile_wp {E : String → Prop} (h : FsOk v s) (hf : s.IsFile ip i) (n : Nat) :
    wp (readFile v ip off n) E (fun r s' => FsOk v s' ∧
      ByteStep s.files (.read i off n r) s'.files) s := by
  have hheld : Held v s [ip] [] := Held.start_one h hf.1
  refine wp_seq (wp_post (ilock_disk_wp hheld List.mem_cons_self fun hn => absurd hf.live hn) ?_)
  rintro _ s1 ⟨h1, hd⟩
  refine wp_post (readi_wp h1.ok (h1.pos List.mem_cons_self) (h1.valid List.mem_cons_self) n) ?_
  rintro r _ ⟨rfl, hspec⟩
  refine ⟨h1.ok, ?_⟩
  have hr := hspec (hf.not_dev hd h1 List.mem_cons_self)
  rw [hd.inum, hf.2.1, hd.contents] at hr
  have hfiles : s.files i = s.contents i := if_pos hf.2.2
  rw [hr, hd.files, ← hfiles]
  exact .read

/-- Every sequence of `readi` and `writei` on files is one of reads and writes of byte arrays.
In the state it leads to, a read returns, and a write stops only when the disk is full. -/
theorem files_are_byte_arrays {t : List FileOp} (h : FsOk v s) (hrun : Run (FileStep v) s t s') :
    Run ByteStep s.files t s'.files ∧
      ∀ ip i, s'.IsFile ip i → ∀ off,
        (∀ n, ∃ r s'', readFile v ip off n s' = .ok (r, s'')) ∧
        ∀ src m, writeFile v ip off src s' = .error m → m = "balloc: out of blocks" := by
  have hstep : ∀ {s l s' F}, FsOk v s ∧ s.files = F → FileStep v s l s' →
      ∃ F', ByteStep F l F' ∧ FsOk v s' ∧ s'.files = F' := by
    rintro s l s' _ ⟨hok, rfl⟩ hl
    cases hl with
    | write hf _ _ hcall =>
      obtain ⟨hok', hbyte⟩ := of_wp (writeFile_wp hok hf _) hcall
      exact ⟨_, hbyte, hok', rfl⟩
    | read hf _ _ hcall =>
      obtain ⟨hok', hbyte⟩ := of_wp (readFile_wp (E := fun _ => False) hok hf _) hcall
      exact ⟨_, hbyte, hok', rfl⟩
  have hsim : ∃ F', Run ByteStep s.files t F' ∧ FsOk v s' ∧ s'.files = F' := by
    refine hrun.simulation (R := fun s F => FsOk v s ∧ s.files = F) (fun hr hl => ?_) ⟨h, rfl⟩
    exact hstep hr hl
  obtain ⟨_, hbytes, hok, rfl⟩ := hsim
  refine ⟨hbytes, fun ip i hf off => ⟨fun n => ?_, fun src m hm => ?_⟩⟩
  · obtain ⟨r, s1, hread, _⟩ := exists_of_wp (readFile_wp hok hf n)
    exact ⟨r, s1, hread⟩
  · exact stop_of_wp (writeFile_wp hok hf src) hm

/-- A call on the file in entry `ip`. -/
inductive FileCall where
  | write (ip off : Nat) (src : List (BitVec 8))
  | read (ip off n : Nat)

/-- What a call does from `s`. -/
def FileCall.act (v : Volume) (s : Fs) : FileCall → Option (FileOp × Fs)
  | write ip off src =>
    if s.IsFile ip (s.icache ip).inum ∧ off < 2 ^ 32 ∧ src.length < 2 ^ 32 then
      match writeFile v ip off src s with
      | .ok (r, s') => some (.write (s.icache ip).inum off src r, s')
      | .error _ => none
    else none
  | read ip off n =>
    if s.IsFile ip (s.icache ip).inum ∧ off < 2 ^ 32 ∧ n < 2 ^ 32 then
      match readFile v ip off n s with
      | .ok (r, s') => some (.read (s.icache ip).inum off n r, s')
      | .error _ => none
    else none

theorem step_of_fileAct {c : FileCall} {l : FileOp} (h : c.act v s = some (l, s')) :
    FileStep v s l s' := by
  cases c with
  | write ip off src =>
    simp only [FileCall.act] at h
    split at h
    · rename_i hc
      split at h
      · rename_i r s1 hrun
        obtain ⟨rfl, rfl⟩ := Prod.mk.inj (Option.some.inj h)
        exact .write hc.1 hc.2.1 hc.2.2 hrun
      · cases h
    · cases h
  | read ip off n =>
    simp only [FileCall.act] at h
    split at h
    · rename_i hc
      split at h
      · rename_i r s1 hrun
        obtain ⟨rfl, rfl⟩ := Prod.mk.inj (Option.some.inj h)
        exact .read hc.1 hc.2.1 hc.2.2 hrun
      · cases h
    · cases h

theorem run_of_fileCalls {cs : List FileCall} {t : List FileOp}
    (h : follow (FileCall.act v) s cs = some (t, s')) : Run (FileStep v) s t s' := by
  refine Run.of_follow (fun hc => ?_) h
  exact step_of_fileAct hc

/-- Writes to a new file, one of them rejected, and a read. -/
theorem files_are_byte_arrays_tiny : ∃ s s' : Fs, FsOk Tiny.vol s ∧
    Run ByteStep s.files [.write 2 0 [1, 2, 3] (some 3), .write 2 2 [9, 9] (some 2),
      .write 2 100 [1] none, .read 2 1 10 (some [2, 9, 9])] s'.files := by
  have hfollow : ((follow (FsCall.act Tiny.vol) Tiny.start
      [.namei 0 [47], .create 0 Tiny.path .file 0 0]).bind fun r =>
        (follow (FileCall.act Tiny.vol) r.2 [.write 1 0 [1, 2, 3], .write 1 2 [9, 9],
          .write 1 100 [1], .read 1 1 10])).map (·.1) =
      some [.write 2 0 [1, 2, 3] (some 3), .write 2 2 [9, 9] (some 2),
        .write 2 100 [1] none, .read 2 1 10 (some [2, 9, 9])] := by decide +kernel
  obtain ⟨⟨t, s'⟩, hbind, ht⟩ := Option.map_eq_some_iff.1 hfollow
  obtain ⟨⟨t1, s⟩, hcalls, hfiles⟩ := Option.bind_eq_some_iff.1 hbind
  have hok : FsOk Tiny.vol s := Run.fsOk (run_of_calls hcalls) Tiny.start_ok
  have hbytes := (files_are_byte_arrays hok (run_of_fileCalls hfiles)).1
  dsimp only at ht
  rw [ht] at hbytes
  exact ⟨s, s', hok, hbytes⟩

end Xv6
