import Xv6.Exec.Stack
import Xv6.Proc.User

/-!
# The new image takes the place of the old one

`commitImage` gives the caller the new directory and frees the old one. Every frame stays accounted
for, and what a user program reads through the new directory is what loading put there.
-/

namespace Xv6

open Lib

/-- The byte that a user program finds at `a` through directory `d`. -/
def userByte (s : Kernel) (d a : Nat) : Option Byte :=
  (userPte (s.dirs d) a).map fun w => s.mem (pageNo w) (a % PGSIZE)

/-- The caller `c` has directory `d` and size `sz`, and its old directory is gone. -/
structure Commits (c d sz : Nat) (s s' : Kernel) : Prop where
  proc : s'.proc = Function.update s.proc c { s.proc c with pgdir := d, sz := sz }
  cur : s'.cur = s.cur
  cr3 : s'.cr3 = d
  initproc : s'.initproc = s.initproc
  nextpid : s'.nextpid = s.nextpid
  files : s'.files = s.files
  cons : s'.cons = s.cons
  dirs : ∀ e ≠ (s.proc c).pgdir, s'.dirs e = s.dirs e
  mem : ∀ f, s'.mem f ≠ s.mem f → 0 < dirCount (s.proc c).pgdir (s.dirs (s.proc c).pgdir) f

section

variable [Build] {E : String → Prop} {s s' : Kernel} {P : Pend} {c d n m guard res sz : Nat} {L : List Nat}
  {img : Nat → Byte}

/-- A spare directory and the directory of a process change places. -/
theorem Own.exchange (h : Own s (P.withDir d)) (hc : c < NPROC) (hl : counted s P.skip c = true) (sz : Nat) :
    Own (s.setProc c { s.proc c with pgdir := d, sz := sz }) (P.withDir (s.proc c).pgdir) := fun f => by
  obtain ⟨t, ht⟩ : ∃ t, t = s.setProc c { s.proc c with pgdir := d, sz := sz } := ⟨_, rfl⟩
  have hself : t.proc c = { s.proc c with pgdir := d, sz := sz } := by
    rw [ht]
    exact Function.update_self _ _ _
  have hdirs : t.dirs = s.dirs := by rw [ht]; rfl
  have hother : ∀ p < NPROC, p ≠ c → procCount t P.skip p f = procCount s P.skip p f := by
    intro p _ hp
    have hp' : t.proc p = s.proc p := by
      rw [ht]
      exact Function.update_of_ne hp _ _
    unfold procCount counted
    rw [hp', hdirs]
  have hsum := sum_range_change hc hother
  have hold : procCount s P.skip c f =
      ind ((s.proc c).kstack = f) + dirCount (s.proc c).pgdir (s.dirs (s.proc c).pgdir) f := if_pos hl
  have hnew : procCount t P.skip c f = ind ((s.proc c).kstack = f) + dirCount d (s.dirs d) f := by
    unfold procCount
    rw [show counted t P.skip c = true by unfold counted at hl ⊢; rw [hself]; exact hl, hself, hdirs]
    rfl
  have hown := h f
  rw [← ht, owned_withDir]
  rw [owned_withDir] at hown
  unfold owned inUse at hown ⊢
  rw [hdirs, show t.freelist = s.freelist by rw [ht]; rfl,
    show extraCount t P.dirs f = extraCount s P.dirs f by unfold extraCount; rw [hdirs]]
  omega

theorem Image.commit (h : Image s c d m guard res L img) (hc : c < NPROC) (hl : (s.proc c).state.live = true)
    (hex : Exclusive (s.dirs (s.proc c).pgdir)) (sz : Nat) :
    wp (commitImage c d sz) E (fun _ s' => Own s' Pend.none ∧ Commits c d sz s s') s := by
  have hcounted : counted s Pend.none.skip c = true := (counted_none hc).trans hl
  have hown := h.own.exchange hc hcounted sz
  have hself : (s.setProc c { s.proc c with pgdir := d, sz := sz }).proc c =
      { s.proc c with pgdir := d, sz := sz } := Function.update_self _ _ _
  have hd : d ≠ 0 := (h.own.managed_spare (dirCount_self d _)).pos
  have hk : (s.proc c).kstack ≠ 0 := h.own.kstack_ne hc hcounted
  unfold commitImage switchuvm
  refine wp_seq (getProc_wp (wp_seq (setProc_wp (wp_seq (wp_seq (getProc_wp ?_))))))
  rw [hself, if_neg hk, if_neg hd]
  refine modify_wp ?_
  have hown' : Own { s.setProc c { s.proc c with pgdir := d, sz := sz } with cr3 := d }
      (Pend.none.withDir (s.proc c).pgdir) := hown
  refine wp_post (freevm_own hown' hex) ?_
  rintro _ s' ⟨h1, h2⟩
  exact ⟨h1, h2.proc, h2.cur, h2.cr3, h2.initproc, h2.nextpid, h2.files, h2.cons, h2.dirs, h2.mem⟩

/-- What is read through the directory of an image. -/
theorem Image.userByte {a : Nat} (h : Image s c d m guard res L img) (ha : a < m * PGSIZE) :
    userByte s d a = if Open m guard (a / PGSIZE) then some (img a) else none := by
  have hu : a / PGSIZE < m := Nat.div_lt_of_lt_mul (by rw [Nat.mul_comm]; exact ha)
  have hun := h.lt_user hu
  have hword : a < 2 ^ 32 := by
    have := page_lt hun
    have hmod := Nat.div_add_mod a PGSIZE
    rw [NUSER_eq] at hun
    simp only [PGSIZE] at *
    omega
  unfold Xv6.userByte
  by_cases ho : Open m guard (a / PGSIZE)
  · obtain ⟨g, -, hman, hpte⟩ := h.page ho.1 ho.2.1
    obtain ⟨hp, -, hg, -⟩ := pageEntry_flags guard (a / PGSIZE) g
    have hb := h.bytes _ ho.1 ho.2.1 (a % PGSIZE) (Nat.mod_lt _ (by decide))
    rw [Nat.div_add_mod'] at hb
    rw [if_pos ho, userPte_of_present h.dir hword hun (by rw [hpte, hp])
      (by rw [hpte, hg, decide_eq_true ho.2.2]), Option.map_some, hb]
  · rw [if_neg ho]
    cases hw : userPte (s.dirs d) a with
    | none => rfl
    | some w =>
      exfalso
      obtain ⟨-, -, rfl, hp, hg⟩ := userPte_some h.dir hword hw
      rw [h.present hun] at hp
      obtain ⟨h1, h2⟩ := of_decide_eq_true hp
      obtain ⟨g, -, -, hpte⟩ := h.page h1 h2
      rw [hpte, (pageEntry_flags guard _ g).2.2.1] at hg
      exact ho ⟨h1, h2, of_decide_eq_true hg⟩

/-- A frame of the new image is no frame of the old one. -/
theorem Commits.frame {u : Nat} (h : Commits c d sz s s') (hi : Image s c d m guard res L img) (hc : c < NPROC)
    (hl : (s.proc c).state.live = true) (hu : u < NUSER) (hp : has ((s.dirs d).pte u) PTE_P = true) :
    s'.mem (pageNo ((s.dirs d).pte u)) = s.mem (pageNo ((s.dirs d).pte u)) := by
  have hcounted : counted s Pend.none.skip c = true := (counted_none hc).trans hl
  by_contra hne
  have hfreed := h.mem _ hne
  have hone := hi.own.proc_le hc hcounted (pageNo ((s.dirs d).pte u))
  rw [show extraCount s (Pend.none.withDir d).dirs _ = _ from extraCount_withDir s Pend.none d _] at hone
  have hmine := dirCount_pte d hu hp
  omega

theorem Commits.dir (h : Commits c d sz s s') (hi : Image s c d m guard res L img) (hc : c < NPROC)
    (hl : (s.proc c).state.live = true) : s'.dirs d = s.dirs d :=
  h.dirs d (hi.own.spare_ne hc ((counted_none hc).trans hl)).symm

/-- The old directory goes, and the new image stays as it is. -/
theorem Commits.userByte {a : Nat} (h : Commits c d sz s s') (hi : Image s c d m guard res L img) (hc : c < NPROC)
    (hl : (s.proc c).state.live = true) (ha : a < 2 ^ 32) : userByte s' d a = userByte s d a := by
  unfold Xv6.userByte
  rw [h.dir hi hc hl]
  cases hw : userPte (s.dirs d) a with
  | none => rfl
  | some w =>
    obtain ⟨hun, -, rfl, hp, -⟩ := userPte_some hi.dir ha hw
    rw [Option.map_some, Option.map_some, h.frame hi hc hl hun hp]

/-- Tables and directory of slot `c` agree, and every linked page holds its part of `img`, in its frame
or in its slot. -/
structure Holds (s : Kernel) (c : Nat) (img : Nat → Byte) : Prop where
  agree : Agree (s.proc c) (s.dirs (s.proc c).pgdir).pte fun _ => 0
  frames : ∀ u < NUSER, has ((s.dirs (s.proc c).pgdir).pte u) PTE_P = true → ∀ o < PGSIZE,
    s.mem (pageNo ((s.dirs (s.proc c).pgdir).pte u)) o = img (u * PGSIZE + o)
  slots : ∀ i < MAX_SWAP_PAGES, has ((s.proc c).vpaSwap i) SWAP_P = true →
    ∃ f, s.files (s.proc c).pid = some f ∧
      ∀ o < PGSIZE, f.data (i * PGSIZE + o) = img (entryAddr ((s.proc c).vpaSwap i) + o)

theorem Commits.holds (h : Commits c d sz s s') (hi : Image s c d m guard res L img) (hc : c < NPROC)
    (hl : (s.proc c).state.live = true) : Holds s' c img := by
  have hself : s'.proc c = { s.proc c with pgdir := d, sz := sz } := by
    rw [h.proc]
    exact Function.update_self _ _ _
  have hdir : s'.dirs (s'.proc c).pgdir = s.dirs d := by
    rw [hself]
    exact h.dir hi hc hl
  refine ⟨?_, fun u hu hp o ho => ?_, fun i _ ht => ?_⟩
  · rw [hdir, hself]
    exact hi.agree.congr rfl rfl rfl rfl rfl
  · rw [hdir] at hp ⊢
    rw [h.frame hi hc hl hu hp]
    rw [hi.present hu] at hp
    obtain ⟨h1, h2⟩ := of_decide_eq_true hp
    exact hi.bytes u h1 h2 o ho
  · rw [hself, hi.slots, has_zero] at ht
    cases ht

end

end Xv6
