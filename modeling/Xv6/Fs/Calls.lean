import Xv6.Fs.Dir
import Xv6.Fs.Refs

/-!
# The calls on directories and the block invariant

Every function of the directory layer gives back the references it takes, and keeps the file
system good. So does every sequence of calls.
-/

namespace Xv6

open Lib

variable {v : Volume} {s s' : Fs} {l L : List Nat} {ip dp cwd off : Nat}

namespace Held

theorem readi (h : Held v s l L) (hip : ip ∈ L) {E : String → Prop} (n : Nat) :
    wp (readi v ip off n) E (fun _ s' => s' = s) s :=
  wp_post (readi_wp h.ok (h.pos hip) (h.valid hip) n) fun _ _ hr => hr.1

theorem writei (h : Held v s l L) (hip : ip ∈ L) (src : List (BitVec 8)) :
    wp (writei v ip off src) FsStops (fun _ s' => Held v s' l L) s :=
  wp_post (writei_wp fsStops_balloc h.ok (h.pos hip) (h.valid hip) src) fun _ _ hw => h.of_same hw.1 hw.2.1

end Held

theorem readDirent_wp (h : Held v s l L) (hdp : dp ∈ L) {m : String} (hm : FsStops m) :
    wp (readDirent v dp off m) FsStops (fun _ s' => s' = s) s := by
  unfold readDirent
  refine wp_seq (wp_post (h.readi hdp DIRENT) ?_)
  rintro (_ | de) _ rfl
  · exact hm
  · exact wp_ite.2 ⟨fun _ => rfl, fun _ => hm⟩

theorem dirlookupLoop_wp (h : Held v s l L) (hdp : dp ∈ L) {size : Nat} {name : List (BitVec 8)} :
    ∀ k off : Nat, wp (dirlookupLoop v dp size name k off) FsStops (fun _ s' => s' = s) s := by
  intro k
  induction k with
  | zero => exact fun _ => rfl
  | succ k ih =>
    intro off
    unfold dirlookupLoop
    refine wp_ite.2 ⟨fun _ => ?_, fun _ => rfl⟩
    refine wp_seq (wp_post (readDirent_wp h hdp ⟨by decide, by decide⟩) ?_)
    rintro de _ rfl
    exact wp_ite.2 ⟨fun _ => rfl, fun _ => ih _⟩

/-- `dirlookup` adds a reference to what it finds. -/
theorem dirlookup_wp (h : Held v s l L) (hdp : dp ∈ L) (name : List (BitVec 8)) :
    wp (dirlookup v dp name) FsStops
      (fun r s' => Held v s' ((r.map Prod.fst).toList ++ l) L) s := by
  unfold dirlookup
  refine wp_seq (get_wp (wp_ite.2 ⟨fun _ => ⟨by decide, by decide⟩, fun _ => ?_⟩))
  refine wp_seq (wp_post (dirlookupLoop_wp h hdp _ _) ?_)
  rintro (_ | ⟨inum, off⟩) _ rfl
  · exact h
  · exact wp_seq (wp_post (iget_wp h) fun ip s1 h1 => h1)

theorem emptyLoop_wp (h : Held v s l L) (hdp : dp ∈ L) {size : Nat} :
    ∀ k off : Nat, wp (emptyLoop v dp size k off) FsStops (fun _ s' => s' = s) s := by
  intro k
  induction k with
  | zero => exact fun _ => rfl
  | succ k ih =>
    intro off
    unfold emptyLoop
    refine wp_ite.2 ⟨fun _ => ?_, fun _ => rfl⟩
    refine wp_seq (wp_post (readDirent_wp h hdp ⟨by decide, by decide⟩) ?_)
    rintro de _ rfl
    exact wp_ite.2 ⟨fun _ => rfl, fun _ => ih _⟩

theorem dirlink_wp (h : Held v s l L) (hdp : dp ∈ L) (name : List (BitVec 8)) (inum : Nat) :
    wp (dirlink v dp name inum) FsStops (fun _ s' => Held v s' l L) s := by
  unfold dirlink
  refine wp_seq (wp_post (dirlookup_wp h hdp name) ?_)
  rintro (_ | ⟨ip, off⟩) s1 h1
  · refine wp_seq (get_wp (wp_seq (wp_post (emptyLoop_wp h1 hdp _ _) ?_)))
    rintro off _ rfl
    refine wp_seq (wp_post (h1.writei hdp _) ?_)
    rintro (_ | _) s2 h2
    · exact ⟨by decide, by decide⟩
    · exact h2
  · refine wp_ite.2 ⟨fun _ => ⟨by decide, by decide⟩, fun _ => ?_⟩
    exact wp_seq (wp_post (iput_wp h1 fun k hk => ⟨hk, (h.locked k hk).1⟩) fun _ _ h2 => h2)

/-- The path from `ip` on: `namex` owns what it has reached. -/
theorem namexLoop_wp {parent : Bool} : ∀ (k ip : Nat) (path name : List (BitVec 8)) (s : Fs),
    Held v s (ip :: l) L → (∀ j ∈ L, j ∈ l) →
    wp (namexLoop v parent k ip path name) FsStops
      (fun r s' => Held v s' ((r.map Prod.fst).toList ++ l) L) s := by
  intro k
  induction k with
  | zero =>
    intro ip path name s h hL
    refine ⟨h.ok, fun j => le_trans ?_ (h.refs j), fun j hj => ⟨hL j hj, h.valid hj⟩⟩
    exact (List.sublist_cons_self ip l).count_le j
  | succ k ih =>
    intro ip path name s h hL
    have hput : ∀ {M s'}, Held v s' (ip :: l) M → (∀ j ∈ L, j ∈ M) →
        wp (do iput v ip; pure (none : Option (Nat × List (BitVec 8)))) FsStops
          (fun r s' => Held v s' ((r.map Prod.fst).toList ++ l) L) s' := fun h' hsub =>
      wp_seq (wp_post (iput_wp h' fun j hj => ⟨hsub j hj, hL j hj⟩) fun _ _ h2 => h2)
    unfold namexLoop
    split
    · exact wp_ite.2 ⟨fun _ => hput h fun _ hj => hj, fun _ => h⟩
    · rename_i name path _
      have hsub : ∀ j ∈ L, j ∈ ip :: L := fun j hj => List.mem_cons_of_mem _ hj
      refine wp_seq (wp_post (ilock_wp h List.mem_cons_self) fun _ s1 h1 => ?_)
      refine wp_seq (get_wp (wp_ite.2 ⟨fun _ => hput h1 hsub, fun _ => ?_⟩))
      refine wp_ite.2 ⟨fun _ => h1.unlock hsub, fun _ => ?_⟩
      refine wp_seq (wp_post (dirlookup_wp h1 List.mem_cons_self name) ?_)
      rintro (_ | ⟨next, off⟩) s2 h2
      · exact hput h2 hsub
      · refine wp_seq (wp_post (iput_wp (h2.perm (List.Perm.swap ip next l)) fun j hj =>
          ⟨hsub j hj, List.mem_cons_of_mem _ (hL j hj)⟩) fun _ s3 h3 => ?_)
        exact ih next path name s3 h3 hL

theorem namex_wp (h : Held v s l L) {path : List (BitVec 8)} (hcwd : path.headD 0 = slash ∨ cwd ∈ l)
    (parent : Bool) :
    wp (namex v cwd path parent) FsStops
      (fun r s' => Held v s' ((r.map Prod.fst).toList ++ l) L) s := by
  have hL : ∀ j ∈ L, j ∈ l := fun j hj => (h.locked j hj).1
  unfold namex
  refine wp_ite.2 ⟨fun _ => wp_seq (wp_post (iget_wp h) fun ip s1 h1 => ?_), fun hne =>
    wp_seq (wp_post (idup_wp h (h.ref (hcwd.resolve_left hne))) fun ip s1 h1 => ?_)⟩
  · exact namexLoop_wp _ ip path [] s1 h1 hL
  · exact namexLoop_wp _ ip path [] s1 h1 hL

theorem namei_wp (h : Held v s l L) {path : List (BitVec 8)}
    (hcwd : path.headD 0 = slash ∨ cwd ∈ l) :
    wp (namei v cwd path) FsStops (fun r s' => Held v s' (r.toList ++ l) L) s := by
  unfold namei
  refine wp_seq (wp_post (namex_wp h hcwd false) ?_)
  rintro (_ | ⟨ip, name⟩) s1 h1
  · exact h1
  · exact h1

theorem isdiremptyLoop_wp (h : Held v s l L) (hdp : dp ∈ L) {size : Nat} :
    ∀ k off : Nat, wp (isdiremptyLoop v dp size k off) FsStops (fun _ s' => s' = s) s := by
  intro k
  induction k with
  | zero => exact fun _ => rfl
  | succ k ih =>
    intro off
    unfold isdiremptyLoop
    refine wp_ite.2 ⟨fun _ => ?_, fun _ => rfl⟩
    refine wp_seq (wp_post (readDirent_wp h hdp ⟨by decide, by decide⟩) ?_)
    rintro de _ rfl
    exact wp_ite.2 ⟨fun _ => rfl, fun _ => ih _⟩

/-- A change of the copy in memory, flushed. -/
theorem Held.store_wp {f : Dinode → Dinode} {α : Type} {x : F α} {Q : α → Fs → Prop}
    (h : Held v s l L) (hip : ip ∈ L) (hf : ∀ d, (f d).Same d)
    (hx : ∀ s', Held v s' l L → wp x FsStops Q s') :
    wp (do setNode ip f; iupdate v ip; x) FsStops Q s :=
  wp_seq (wp_post (h.setNode_wp hip hf) fun _ _ h1 =>
    wp_seq (wp_post (iupdate_wp h1 hip) fun _ _ h2 => hx _ h2))

theorem create_wp (h : Held v s l L) (hcwd : cwd ∈ l) (path : List (BitVec 8)) (t : FileType)
    (major minor : BitVec 16) :
    wp (create v cwd path t major minor) FsStops (fun r s' => Held v s' (r.toList ++ l) L) s := by
  have hL : ∀ j ∈ L, j ∈ l := fun j hj => (h.locked j hj).1
  unfold create
  refine wp_seq (wp_post (namex_wp h (.inr hcwd) true) ?_)
  rintro (_ | ⟨dp, name⟩) s1 h1
  · exact h1
  refine wp_seq (wp_post (ilock_wp h1 List.mem_cons_self) fun _ s2 h2 => ?_)
  refine wp_seq (wp_post (dirlookup_wp h2 List.mem_cons_self name) ?_)
  rintro (_ | ⟨ip, off⟩) s3 h3
  · refine wp_seq (wp_post (ialloc_wp h3) fun ip s4 h4 => ?_)
    refine wp_seq (wp_post (ilock_wp h4 List.mem_cons_self) fun _ s5 h5 => ?_)
    refine h5.store_wp List.mem_cons_self (fun _ => ⟨rfl, rfl, rfl⟩) fun s6 h6 => ?_
    have hdp : dp ∈ ip :: dp :: L := List.mem_cons_of_mem _ List.mem_cons_self
    -- What is left once a new directory has its entries.
    have hend : ∀ s', Held v s' (ip :: dp :: l) (ip :: dp :: L) →
        wp (do
          if ← dirlink v dp name (s6.icache ip).inum then do
            iput v dp
            pure (some ip)
          else fpanic "create: dirlink") FsStops (fun r s' => Held v s' (r.toList ++ l) L) s' := by
      intro s' h'
      refine wp_seq (wp_post (dirlink_wp h' hdp name _) fun _ s7 h7 => ?_)
      refine wp_ite.2 ⟨fun _ => ?_, fun _ => ⟨by decide, by decide⟩⟩
      refine wp_seq (wp_post (iput_wp (h7.perm (List.Perm.swap dp ip l)) fun j hj =>
        ⟨List.mem_cons_of_mem _ (List.mem_cons_of_mem _ hj), List.mem_cons_of_mem _ (hL j hj)⟩)
        fun _ _ h8 => h8)
    refine wp_seq (get_wp (wp_ite.2 ⟨fun _ => ?_, fun _ => hend s6 h6⟩))
    refine h6.store_wp hdp (fun _ => ⟨rfl, rfl, rfl⟩) fun s7 h7 => ?_
    refine wp_seq (wp_post (dirlink_wp h7 List.mem_cons_self _ _) fun _ s8 h8 => ?_)
    refine wp_ite.2 ⟨fun _ => ?_, fun _ => ⟨by decide, by decide⟩⟩
    refine wp_seq (wp_post (dirlink_wp h8 List.mem_cons_self _ _) fun _ s9 h9 => ?_)
    exact wp_ite.2 ⟨fun _ => hend s9 h9, fun _ => ⟨by decide, by decide⟩⟩
  · refine wp_seq (wp_post (iput_wp (h3.perm (List.Perm.swap dp ip l)) fun j hj =>
      ⟨List.mem_cons_of_mem _ hj, List.mem_cons_of_mem _ (hL j hj)⟩) fun _ s4 h4 => ?_)
    refine wp_seq (wp_post (ilock_wp h4 List.mem_cons_self) fun _ s5 h5 => ?_)
    refine wp_seq (get_wp (wp_ite.2 ⟨fun _ => ?_, fun _ => ?_⟩))
    · exact h5.unlock fun j hj => List.mem_cons_of_mem _ hj
    · exact wp_seq (wp_post (iput_wp h5 fun j hj => ⟨List.mem_cons_of_mem _ hj, hL j hj⟩)
        fun _ _ h6 => h6)

/-- The end of `unlink`, for an inode `d` that is a directory with entries or not. -/
def unlinkFound (v : Volume) (dp ip off : Nat) (d : Dinode) (empty : Bool) : F Bool := do
  if empty then do
    match ← Xv6.writei v dp off (List.replicate DIRENT 0) with
    | none => fpanic "unlink: writei"
    | some _ => do
      if d.type = .dir then do
        setNode dp fun d => { d with nlink := d.nlink - 1 }
        iupdate v dp
      iput v dp
      setNode ip fun d => { d with nlink := d.nlink - 1 }
      iupdate v ip
      iput v ip
      pure true
  else do
    iput v ip
    iput v dp
    pure false

theorem unlink_wp (h : Held v s l L) (hcwd : cwd ∈ l) (path : List (BitVec 8)) :
    wp (unlink v cwd path) FsStops (fun _ s' => Held v s' l L) s := by
  have hL : ∀ j ∈ L, j ∈ l := fun j hj => (h.locked j hj).1
  unfold unlink
  refine wp_seq (wp_post (namex_wp h (.inr hcwd) true) ?_)
  rintro (_ | ⟨dp, name⟩) s1 h1
  · exact h1
  have hput : ∀ {s'}, Held v s' (dp :: l) (dp :: L) →
      wp (do iput v dp; pure false) FsStops (fun _ s' => Held v s' l L) s' := fun h' =>
    wp_seq (wp_post (iput_wp h' fun j hj => ⟨List.mem_cons_of_mem _ hj, hL j hj⟩) fun _ _ h2 => h2)
  refine wp_seq (wp_post (ilock_wp h1 List.mem_cons_self) fun _ s2 h2 => ?_)
  refine wp_ite.2 ⟨fun _ => hput h2, fun _ => ?_⟩
  refine wp_seq (wp_post (dirlookup_wp h2 List.mem_cons_self name) ?_)
  rintro (_ | ⟨ip, off⟩) s3 h3
  · exact hput h3
  have hdp : dp ∈ ip :: dp :: L := List.mem_cons_of_mem _ List.mem_cons_self
  refine wp_ite.2 ⟨fun _ => ⟨by decide, by decide⟩, fun _ => ?_⟩
  refine wp_seq (wp_post (ilock_wp h3 List.mem_cons_self) fun _ s4 h4 => ?_)
  refine wp_seq (get_wp (wp_ite.2 ⟨fun _ => ⟨by decide, by decide⟩, fun _ => ?_⟩))
  -- The inode loses its name, then its reference.
  have hdrop : ∀ s', Held v s' (ip :: dp :: l) (ip :: dp :: L) →
      wp (do
        iput v dp
        setNode ip fun d => { d with nlink := d.nlink - 1 }
        iupdate v ip
        iput v ip
        pure true) FsStops (fun _ s' => Held v s' l L) s' := by
    intro s' h'
    refine wp_seq (wp_post (iput_wp (M := ip :: L) (h'.perm (List.Perm.swap dp ip l)) ?_)
      fun _ s6 h6 => ?_)
    · intro j hj
      rcases List.mem_cons.1 hj with rfl | hj
      · exact ⟨List.mem_cons_self, List.mem_cons_self⟩
      · exact ⟨List.mem_cons_of_mem _ (List.mem_cons_of_mem _ hj), List.mem_cons_of_mem _ (hL j hj)⟩
    · refine h6.store_wp List.mem_cons_self (fun _ => ⟨rfl, rfl, rfl⟩) fun s7 h7 => ?_
      exact wp_seq (wp_post (iput_wp h7 fun j hj => ⟨List.mem_cons_of_mem _ hj, hL j hj⟩)
        fun _ _ h8 => h8)
  have hrest : ∀ empty : Bool, wp (unlinkFound v dp ip off (s4.icache ip).node empty) FsStops
      (fun _ s' => Held v s' l L) s4 := by
    intro empty
    unfold unlinkFound
    refine wp_ite.2 ⟨fun _ => ?_, fun _ => ?_⟩
    · refine wp_seq (wp_post (h4.writei hdp _) ?_)
      rintro (_ | _) s5 h5
      · exact ⟨by decide, by decide⟩
      · refine wp_ite.2 ⟨fun _ => ?_, fun _ => hdrop s5 h5⟩
        exact h5.store_wp hdp (fun _ => ⟨rfl, rfl, rfl⟩) hdrop
    · refine wp_seq (wp_post (iput_wp (M := dp :: L) h4 ?_) fun _ s5 h5 => hput h5)
      intro j hj
      refine ⟨List.mem_cons_of_mem _ hj, ?_⟩
      rcases List.mem_cons.1 hj with rfl | hj
      · exact List.mem_cons_self
      · exact List.mem_cons_of_mem _ (hL j hj)
  refine wp_ite.2 ⟨fun _ => ?_, fun _ => hrest true⟩
  refine wp_seq (wp_seq (get_wp (wp_post (isdiremptyLoop_wp h4 List.mem_cons_self _ _) ?_)))
  rintro empty _ rfl
  exact hrest empty

theorem linkBad_wp (h : Held v s (ip :: l) L) (hL : ∀ j ∈ L, j ∈ l) :
    wp (linkBad v ip) FsStops (fun _ s' => Held v s' l L) s := by
  unfold linkBad
  refine wp_seq (wp_post (ilock_wp h List.mem_cons_self) fun _ s1 h1 => ?_)
  refine h1.store_wp List.mem_cons_self (fun _ => ⟨rfl, rfl, rfl⟩) fun s2 h2 => ?_
  exact wp_seq (wp_post (iput_wp h2 fun j hj => ⟨List.mem_cons_of_mem _ hj, hL j hj⟩)
    fun _ _ h3 => h3)

theorem link_wp (h : Held v s l L) (hcwd : cwd ∈ l) (old new : List (BitVec 8)) :
    wp (link v cwd old new) FsStops (fun _ s' => Held v s' l L) s := by
  have hL : ∀ j ∈ L, j ∈ l := fun j hj => (h.locked j hj).1
  unfold link
  refine wp_seq (wp_post (namei_wp h (.inr hcwd)) ?_)
  rintro (_ | ip) s1 h1
  · exact h1
  have hsub : ∀ j ∈ L, j ∈ ip :: L := fun j hj => List.mem_cons_of_mem _ hj
  refine wp_seq (wp_post (ilock_wp h1 List.mem_cons_self) fun _ s2 h2 => ?_)
  refine wp_seq (get_wp (wp_ite.2 ⟨fun _ => ?_, fun _ => ?_⟩))
  · exact wp_seq (wp_post (iput_wp h2 fun j hj => ⟨hsub j hj, hL j hj⟩) fun _ _ h3 => h3)
  refine h2.store_wp List.mem_cons_self (fun _ => ⟨rfl, rfl, rfl⟩) fun s3 h3 => ?_
  refine wp_seq (wp_post (namex_wp (h3.unlock hsub) (.inr (List.mem_cons_of_mem _ hcwd)) true) ?_)
  rintro (_ | ⟨dp, name⟩) s4 h4
  · exact linkBad_wp h4 hL
  have hput : ∀ {s'}, Held v s' (dp :: ip :: l) (dp :: L) →
      wp (iput v dp) FsStops (fun _ s' => Held v s' (ip :: l) L) s' := fun h' =>
    iput_wp h' fun j hj => ⟨List.mem_cons_of_mem _ hj, List.mem_cons_of_mem _ (hL j hj)⟩
  refine wp_seq (wp_post (ilock_wp h4 List.mem_cons_self) fun _ s5 h5 => ?_)
  refine wp_seq (wp_post (dirlink_wp h5 List.mem_cons_self name _) fun _ s6 h6 => ?_)
  refine wp_ite.2 ⟨fun _ => ?_, fun _ => ?_⟩
  · refine wp_seq (wp_post (hput h6) fun _ s7 h7 => ?_)
    exact wp_seq (wp_post (iput_wp h7 fun j hj => ⟨hj, hL j hj⟩) fun _ _ h8 => h8)
  · exact wp_seq (wp_post (hput h6) fun _ s7 h7 => linkBad_wp h7 hL)

end Xv6
