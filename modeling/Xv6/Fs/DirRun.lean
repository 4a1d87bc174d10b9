import Xv6.Fs.DirMap

/-!
# A directory is a finite map

Sequences of `dirlink`, `dirlookup` and removals on a locked directory, against a map from names
to inode numbers. `dirlink` of a name whose entry names the directory itself, such as `.`, waits
for the lock that its caller holds.
-/

namespace Xv6

open Lib

variable {v : Volume} {s s' : Fs} {dp ip inum : Nat} {name : List (BitVec 8)}

/-- Clear the entry of a name, at the offset that `dirlookup` reports. -/
def dirRemove (v : Volume) (dp : Nat) (name : List (BitVec 8)) : F Bool := do
  match ← dirlookup v dp name with
  | none => pure false
  | some (_, off) => do
    match ← writei v dp off (List.replicate DIRENT 0) with
    | none => fpanic "unlink: writei"
    | some _ => pure true

/-- A call on the directory and what it returned; `put` drops a reference that a lookup took. -/
inductive DirOp where
  | link (name : List (BitVec 8)) (inum : Nat) (r : Bool)
  | lookup (name : List (BitVec 8)) (r : Option Nat)
  | remove (name : List (BitVec 8)) (r : Bool)
  | put
  deriving DecidableEq

/-- An inode number that fits the two bytes of an entry. -/
def DirOp.Fits : DirOp → Prop
  | link _ inum _ => 0 < inum ∧ inum < 2 ^ 16
  | _ => True

instance (o : DirOp) : Decidable o.Fits := by
  cases o <;> unfold DirOp.Fits <;> infer_instance

/-- A call on the directory in entry `dp`, locked by the caller, that returns. -/
inductive DirStep (v : Volume) (dp : Nat) (s : Fs) : DirOp → Fs → Prop
  | link {name : List (BitVec 8)} {inum : Nat} {r : Bool} {s' : Fs} :
      dirlink v dp name inum s = .ok (r, s') → DirStep v dp s (.link name inum r) s'
  | lookup {name : List (BitVec 8)} {r : Option (Nat × Nat)} {s' : Fs} :
      dirlookup v dp name s = .ok (r, s') →
      DirStep v dp s (.lookup name (r.map fun p => (s'.icache p.1).inum)) s'
  | remove {name : List (BitVec 8)} {r : Bool} {s' : Fs} :
      dirRemove v dp name s = .ok (r, s') → DirStep v dp s (.remove name r) s'
  | put {ip : Nat} {s' : Fs} : ip ≠ dp → 0 < (s.icache ip).ref →
      iput v ip s = .ok ((), s') → DirStep v dp s .put s'

/-- The specification. -/
inductive MapStep : (List (BitVec 8) → Option Nat) → DirOp → (List (BitVec 8) → Option Nat) → Prop
  | link {M : List (BitVec 8) → Option Nat} {name : List (BitVec 8)} {inum : Nat} :
      M (nameKey name) = none →
      MapStep M (.link name inum true) (Function.update M (nameKey name) (some inum))
  | present {M : List (BitVec 8) → Option Nat} {name : List (BitVec 8)} {inum : Nat} :
      M (nameKey name) ≠ none → MapStep M (.link name inum false) M
  | lookup {M : List (BitVec 8) → Option Nat} {name : List (BitVec 8)} :
      MapStep M (.lookup name (M (nameKey name))) M
  | remove {M : List (BitVec 8) → Option Nat} {name : List (BitVec 8)} :
      MapStep M (.remove name (M (nameKey name)).isSome) (Function.update M (nameKey name) none)
  | put {M : List (BitVec 8) → Option Nat} : MapStep M .put M

/-- The map that the directory in entry `dp` stands for. -/
def Fs.dirMap (s : Fs) (dp : Nat) : List (BitVec 8) → Option Nat := SlotMap.lookup (s.slotsOf dp)

theorem slotsOf_congr {s s' : Fs} (h : s'.bytesOf dp = s.bytesOf dp) : s'.slotsOf dp = s.slotsOf dp := by
  unfold Fs.slotsOf
  rw [h]

theorem dirMap_congr {s s' : Fs} (h : s'.bytesOf dp = s.bytesOf dp) : s'.dirMap dp = s.dirMap dp := by
  unfold Fs.dirMap
  rw [slotsOf_congr h]

namespace DirOpen

theorem forget (h : DirOpen v s dp [ip, dp] [dp]) : DirOpen v s dp [dp] [dp] := by
  refine ⟨⟨h.held.ok, fun k => le_trans ?_ (h.held.refs k), fun k hk => ⟨hk, h.held.valid hk⟩⟩,
    h.mem, h.type, h.whole, h.unique⟩
  exact (List.sublist_cons_self ip [dp]).count_le k

theorem link (h : DirOpen v s dp [dp] [dp]) (h0 : 0 < inum) (h16 : inum < 2 ^ 16) {r : Bool}
    (hcall : dirlink v dp name inum s = .ok (r, s')) :
    DirOpen v s' dp [dp] [dp] ∧ MapStep (s.dirMap dp) (.link name inum r) (s'.dirMap dp) := by
  rcases of_wp (dirlink_spec h) hcall with ⟨rfl, ⟨w, hw, _⟩, hopen, hbytes⟩ |
    ⟨rfl, hnone, hheld, htype, m, hm, hbytes⟩
  · refine ⟨hopen, ?_⟩
    rw [dirMap_congr hbytes]
    refine .present fun hnone => ?_
    cases hw.symm.trans hnone
  · have hle : m ≤ (s.slotsOf dp).length := by
      rcases hm with hm | hm
      · exact (List.getElem?_eq_some_iff.1 hm).1.le
      · exact hm.le
    have hslot := slotOf_dirent h0 h16 name
    have hu := h.unique.insert (v := inum) hm hnone
    obtain ⟨hopen, hslots⟩ := h.store (length_dirent inum name) hle hheld htype hbytes
      (by rw [hslot]; exact hu)
    refine ⟨hopen, ?_⟩
    have hmap : s'.dirMap dp = Function.update (s.dirMap dp) (nameKey name) (some inum) := by
      funext k
      unfold Fs.dirMap
      rw [hslots, hslot, SlotMap.lookup_insert h.unique hm hnone, Function.update_apply]
    rw [hmap]
    exact .link hnone

theorem lookup (h : DirOpen v s dp [dp] [dp]) {r : Option (Nat × Nat)}
    (hcall : dirlookup v dp name s = .ok (r, s')) :
    DirOpen v s' dp [dp] [dp] ∧
      MapStep (s.dirMap dp) (.lookup name (r.map fun p => (s'.icache p.1).inum)) (s'.dirMap dp) := by
  have hspec := of_wp (dirlookup_spec (E := fun _ => True) h fun _ _ _ => trivial) hcall
  cases r with
  | none =>
    obtain ⟨rfl, hnone⟩ := hspec
    have hmap : s'.dirMap dp (nameKey name) = none := hnone
    refine ⟨h, ?_⟩
    rw [Option.map_none, ← hmap]
    exact .lookup
  | some p =>
    obtain ⟨hheld, m, w, _, hm, hf⟩ := hspec
    obtain ⟨hopen, hbytes⟩ := h.fetched hf hheld
    have hmap : s.dirMap dp (nameKey name) = some w := (SlotMap.lookup_eq_some h.unique).2 ⟨m, hm⟩
    refine ⟨hopen.forget, ?_⟩
    rw [dirMap_congr hbytes, Option.map_some, hf.inum, ← hmap]
    exact .lookup

theorem remove (h : DirOpen v s dp [dp] [dp]) {r : Bool}
    (hcall : dirRemove v dp name s = .ok (r, s')) :
    DirOpen v s' dp [dp] [dp] ∧ MapStep (s.dirMap dp) (.remove name r) (s'.dirMap dp) := by
  have hwp : wp (dirRemove v dp name) (fun _ => True) (fun r s' => DirOpen v s' dp [dp] [dp] ∧
      MapStep (s.dirMap dp) (.remove name r) (s'.dirMap dp)) s := by
    unfold dirRemove
    refine wp_seq (wp_post (dirlookup_spec h fun _ _ _ => trivial) ?_)
    rintro (_ | ⟨ip, off⟩) s1 hr
    · obtain ⟨rfl, hnone⟩ := hr
      have hmap : s1.dirMap dp (nameKey name) = none := hnone
      refine ⟨h, ?_⟩
      have hsame : Function.update (s1.dirMap dp) (nameKey name) none = s1.dirMap dp := by
        rw [← hmap, Function.update_eq_self]
      have hstep : MapStep (s1.dirMap dp) (.remove name (s1.dirMap dp (nameKey name)).isSome)
          (Function.update (s1.dirMap dp) (nameKey name) none) := .remove
      rwa [hsame, hmap] at hstep
    · obtain ⟨h1, m, w, rfl, hm, hf⟩ := hr
      obtain ⟨hopen, hbytes⟩ := h.fetched hf h1
      have hm1 : (s1.slotsOf dp)[m]? = some (some (nameKey name, w)) := by
        rw [slotsOf_congr hbytes]
        exact hm
      have hle : m ≤ (s1.slotsOf dp).length := (List.getElem?_eq_some_iff.1 hm1).1.le
      refine wp_seq (wp_post (hopen.write_wp trivial (List.length_replicate ..) hle) ?_)
      rintro r s2 (⟨rfl, -, -⟩ | ⟨rfl, h2, _, htype, hbytes2⟩)
      · exact trivial
      · have hu := hopen.unique.clear hm1
        obtain ⟨hopen2, hslots⟩ := hopen.store (List.length_replicate ..) hle h2 htype hbytes2
          (by rw [slotOf_zero]; exact hu)
        refine ⟨hopen2.forget, ?_⟩
        have hthere : s.dirMap dp (nameKey name) = some w := (SlotMap.lookup_eq_some h.unique).2 ⟨m, hm⟩
        have hmap : s2.dirMap dp = Function.update (s.dirMap dp) (nameKey name) none := by
          funext k
          rw [← dirMap_congr hbytes]
          unfold Fs.dirMap
          rw [hslots, slotOf_zero, SlotMap.lookup_clear hopen.unique hm1, Function.update_apply]
        have hstep : MapStep (s.dirMap dp) (.remove name (s.dirMap dp (nameKey name)).isSome)
            (Function.update (s.dirMap dp) (nameKey name) none) := .remove
        rwa [hthere, ← hmap] at hstep
  exact of_wp hwp hcall

theorem put (h : DirOpen v s dp [dp] [dp]) (hne : ip ≠ dp) (hr : 0 < (s.icache ip).ref)
    (hcall : iput v ip s = .ok ((), s')) :
    DirOpen v s' dp [dp] [dp] ∧ MapStep (s.dirMap dp) .put (s'.dirMap dp) := by
  have hheld : Held v s [ip, dp] [dp] := by
    refine ⟨h.held.ok, fun k => ?_, fun k hk => ⟨List.mem_cons_of_mem _ hk, h.held.valid hk⟩⟩
    by_cases hk : k = ip
    · subst hk
      rw [List.count_cons_self, List.count_cons_of_ne (Ne.symm hne), List.count_nil]
      exact hr
    · rw [List.count_cons_of_ne (Ne.symm hk)]
      exact h.held.refs k
  have hopen : DirOpen v s dp [ip, dp] [dp] := ⟨hheld, h.mem, h.type, h.whole, h.unique⟩
  obtain ⟨h1, hd⟩ := of_wp (iput_disk_wp (E := fun _ => True) hheld fun k hk => ⟨hk, hk⟩) hcall
  obtain ⟨hopen1, hbytes⟩ := hopen.dropped hne hd h1
  refine ⟨hopen1, ?_⟩
  rw [dirMap_congr hbytes]
  exact .put

theorem step (h : DirOpen v s dp [dp] [dp]) {o : DirOp} (hfit : o.Fits)
    (hstep : DirStep v dp s o s') :
    DirOpen v s' dp [dp] [dp] ∧ MapStep (s.dirMap dp) o (s'.dirMap dp) := by
  cases hstep with
  | link hcall => exact h.link hfit.1 hfit.2 hcall
  | lookup hcall => exact h.lookup hcall
  | remove hcall => exact h.remove hcall
  | put hne hr hcall => exact h.put hne hr hcall

/-- `dirlink` waits for its caller's lock exactly when the entry of the name is for the directory
itself. -/
theorem link_waits (h : DirOpen v s dp [dp] [dp]) :
    dirlink v dp name inum s = .error "acquiresleep: own lock" ↔
      s.dirMap dp (nameKey name) = some (s.icache dp).inum := by
  have hspec : wp (dirlink v dp name inum) (LinkStops s dp name) _ s := dirlink_spec h
  constructor
  · intro herr
    rcases stop_of_wp hspec herr with ⟨hm, _⟩ | ⟨_, hself⟩ | ⟨hm, _⟩ | ⟨hm, _⟩
    · exact absurd hm (by decide)
    · exact hself
    · exact absurd hm (by decide)
    · exact absurd hm (by decide)
  · intro hself
    have hthere : SlotMap.lookup (s.slotsOf dp) (nameKey name) = some (s.icache dp).inum := hself
    cases hcall : dirlink v dp name inum s with
    | error m =>
      rcases stop_of_wp hspec hcall with ⟨_, w, hw, hout⟩ | ⟨rfl, _⟩ | ⟨_, hnone⟩ | ⟨_, hnone, _⟩
      · obtain rfl := Option.some.inj (hthere.symm.trans hw)
        exact absurd rfl (hout dp (h.held.pos h.mem))
      · rfl
      · cases hthere.symm.trans hnone
      · cases hthere.symm.trans hnone
    | ok p =>
      rcases of_wp hspec hcall with ⟨_, ⟨w, hw, hne⟩, _⟩ | ⟨_, hnone, _⟩
      · exact absurd (Option.some.inj (hthere.symm.trans hw)).symm hne
      · cases hthere.symm.trans hnone

end DirOpen

/-- While the inode numbers fit, every sequence of calls on a directory is one of a finite map; no
name is in two entries. `dirlink` returns `-1` exactly when the name is there, and then changes no
entry; it does not return when the entry is for the directory itself, or the disk, the inode cache
or the directory is full. -/
theorem directory_is_map {t : List DirOp} (h : DirOpen v s dp [dp] [dp])
    (hrun : Run (fun s o s' => o.Fits ∧ DirStep v dp s o s') s t s') :
    Run MapStep (s.dirMap dp) t (s'.dirMap dp) ∧ SlotMap.Unique (s'.slotsOf dp) ∧
      ∀ name inum,
        (∀ r s'', dirlink v dp name inum s' = .ok (r, s'') →
          (r = false ↔ s'.dirMap dp (nameKey name) ≠ none) ∧
          (r = false → s''.slotsOf dp = s'.slotsOf dp)) ∧
        (∀ m, dirlink v dp name inum s' = .error m → LinkStops s' dp name m) ∧
        (dirlink v dp name inum s' = .error "acquiresleep: own lock" ↔
          s'.dirMap dp (nameKey name) = some (s'.icache dp).inum) := by
  have hsim : ∃ M, Run MapStep (s.dirMap dp) t M ∧ DirOpen v s' dp [dp] [dp] ∧ s'.dirMap dp = M := by
    refine hrun.simulation (R := fun s M => DirOpen v s dp [dp] [dp] ∧ s.dirMap dp = M)
      (fun hr hl => ?_) ⟨h, rfl⟩
    obtain ⟨hopen, rfl⟩ := hr
    obtain ⟨hopen', hstep⟩ := hopen.step hl.1 hl.2
    exact ⟨_, hstep, hopen', rfl⟩
  obtain ⟨_, hmap, hopen, rfl⟩ := hsim
  refine ⟨hmap, hopen.unique, fun name inum => ⟨fun r s'' hcall => ?_,
    fun m herr => stop_of_wp (dirlink_spec hopen) herr, hopen.link_waits⟩⟩
  rcases of_wp (dirlink_spec hopen) hcall with ⟨rfl, ⟨w, hw, _⟩, _, hbytes⟩ | ⟨rfl, hnone, _⟩
  · have hthere : s'.dirMap dp (nameKey name) = some w := hw
    exact ⟨iff_of_true rfl (by rw [hthere]; nofun), fun _ => slotsOf_congr hbytes⟩
  · exact ⟨iff_of_false nofun (not_not.2 hnone), nofun⟩

/-- A call on a directory. -/
inductive DirCall where
  | link (name : List (BitVec 8)) (inum : Nat)
  | lookup (name : List (BitVec 8))
  | remove (name : List (BitVec 8))

/-- What a call does from `s`. -/
def DirCall.act (v : Volume) (dp : Nat) (s : Fs) : DirCall → Option (DirOp × Fs)
  | link name inum =>
    if 0 < inum ∧ inum < 2 ^ 16 then
      match dirlink v dp name inum s with
      | .ok (r, s') => some (.link name inum r, s')
      | .error _ => none
    else none
  | lookup name =>
    match dirlookup v dp name s with
    | .ok (r, s') => some (.lookup name (r.map fun p => (s'.icache p.1).inum), s')
    | .error _ => none
  | remove name =>
    match dirRemove v dp name s with
    | .ok (r, s') => some (.remove name r, s')
    | .error _ => none

theorem step_of_dirAct {c : DirCall} {o : DirOp} (h : c.act v dp s = some (o, s')) :
    o.Fits ∧ DirStep v dp s o s' := by
  cases c with
  | link name inum =>
    simp only [DirCall.act] at h
    split at h
    · rename_i hfit
      split at h
      · rename_i r s1 hcall
        obtain ⟨rfl, rfl⟩ := Prod.mk.inj (Option.some.inj h)
        exact ⟨hfit, .link hcall⟩
      · cases h
    · cases h
  | lookup name =>
    simp only [DirCall.act] at h
    split at h
    · rename_i r s1 hcall
      obtain ⟨rfl, rfl⟩ := Prod.mk.inj (Option.some.inj h)
      exact ⟨trivial, .lookup hcall⟩
    · cases h
  | remove name =>
    simp only [DirCall.act] at h
    split at h
    · rename_i r s1 hcall
      obtain ⟨rfl, rfl⟩ := Prod.mk.inj (Option.some.inj h)
      exact ⟨trivial, .remove hcall⟩
    · cases h

theorem run_of_dirCalls {cs : List DirCall} {t : List DirOp}
    (h : follow (DirCall.act v dp) s cs = some (t, s')) :
    Run (fun s o s' => o.Fits ∧ DirStep v dp s o s') s t s' := by
  refine Run.of_follow (fun hc => ?_) h
  exact step_of_dirAct hc

namespace Tiny

/-- The root directory, in use and locked. -/
def rootOpen : Fs := start.setSlot 0 ⟨ROOTINO, 1, true, ⟨.dir, 0, 0, 1, 0, fun _ => 0⟩⟩

theorem rootOpen_open : DirOpen vol rootOpen 0 [0] [0] := by
  have hlive : (start.dinode ROOTINO).Live := by
    unfold Dinode.Live
    decide
  have hok : FsOk vol rootOpen := start_ok.setSlot _ fun _ =>
    ⟨by decide, fun k _ hk => absurd hk (Nat.lt_irrefl 0), fun _ => ⟨⟨rfl, rfl, rfl⟩, hlive⟩⟩
  have hempty : rootOpen.bytesOf 0 = [] := by decide
  have hslots : rootOpen.slotsOf 0 = [] := by
    unfold Fs.slotsOf
    rw [hempty]
    rfl
  refine ⟨⟨hok, (Held.start_one hok (by decide)).refs, fun k hk => ⟨hk, ?_⟩⟩, List.mem_cons_self, rfl,
    by rw [hempty]; rfl, ?_⟩
  · obtain rfl := List.mem_singleton.1 hk
    rfl
  · rw [hslots]
    intro i j k v w hi
    cases hi

end Tiny

/-- Names `a` and `ab`, the first linked twice and removed. -/
theorem directory_is_map_tiny : ∃ s' : Fs, Run MapStep (Tiny.rootOpen.dirMap 0)
    [.link [97] 5 true, .link [97] 6 false, .link [97, 98] 7 true, .lookup [97] (some 5),
      .remove [97] true, .lookup [97] none, .lookup [97, 98] (some 7)] (s'.dirMap 0) := by
  have hfollow : (follow (DirCall.act Tiny.vol 0) Tiny.rootOpen [.link [97] 5, .link [97] 6,
      .link [97, 98] 7, .lookup [97], .remove [97], .lookup [97], .lookup [97, 98]]).map (·.1) =
    some [.link [97] 5 true, .link [97] 6 false, .link [97, 98] 7 true, .lookup [97] (some 5),
      .remove [97] true, .lookup [97] none, .lookup [97, 98] (some 7)] := by decide +kernel
  obtain ⟨⟨t, s'⟩, hs, ht⟩ := Option.map_eq_some_iff.1 hfollow
  have hmap := (directory_is_map Tiny.rootOpen_open (run_of_dirCalls hs)).1
  dsimp only at ht
  rw [ht] at hmap
  exact ⟨s', hmap⟩

/-- In a new directory `/d`, `dirlink` of `.` does not return although the name is there. -/
theorem dirlink_dot_waits : ∃ t s s1, Run (FsStep Tiny.vol) Tiny.start t s ∧
    ilock 1 s = .ok ((), s1) ∧ s1.dirMap 1 (nameKey dot) ≠ none ∧
    dirlink Tiny.vol 1 dot 5 s1 = .error "acquiresleep: own lock" := by
  have hfollow : (follow (FsCall.act Tiny.vol) Tiny.start
      [.namei 0 [47], .create 0 [47, 100] .dir 0 0]).map (fun r => returns (ilock 1 r.2) fun _ s1 =>
        stops (dirlink Tiny.vol 1 dot 5 s1) "acquiresleep: own lock" &&
          (s1.dirMap 1 (nameKey dot)).isSome) = some true := by decide +kernel
  obtain ⟨⟨t, s⟩, hcalls, hrest⟩ := Option.map_eq_some_iff.1 hfollow
  obtain ⟨⟨⟩, s1, hlock, htest⟩ := of_returns hrest
  obtain ⟨hlink, hdot⟩ := Bool.and_eq_true_iff.1 htest
  exact ⟨t, s, s1, run_of_calls hcalls, hlock, Option.isSome_iff_ne_none.1 hdot, of_stops hlink⟩

end Xv6
