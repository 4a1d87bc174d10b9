import Mathlib.Algebra.BigOperators.Ring.Finset
import Xv6.Lib.Count
import Xv6.Vm.PageTable

/-!
# Who owns which frame

`owned s P f` counts the owners of frame `f`: its occurrences on the free list, the
kernel stacks, directories, page table pages and present user pages of the live
processes, and what the running kernel code holds itself. The last part is `P : Pend`:
single frames (`held`), directories no process points to yet or any more (`dirs`), and
a slot that is being torn down and whose frames are counted there instead (`skip`).

`Own s P` says that every frame `kfree` accepts has exactly one owner and other frames
have none.
-/

namespace Xv6

open Lib Finset

/-- The number of user pages, `KERNBASE / PGSIZE`. -/
def NUSER : Nat := 524288

theorem NUSER_eq : NUSER = 524288 := rfl

theorem page_lt {u : Nat} (h : u < NUSER) : u * PGSIZE < KERNBASE := by
  rw [NUSER_eq] at h
  simp only [PGSIZE, KERNBASE]
  omega

theorem page_lt_word {u : Nat} (h : u < NUSER) : u * PGSIZE < 2 ^ 32 := by
  have := page_lt h
  simp only [KERNBASE] at this
  omega

/-- An aligned user address is the address of a user page. -/
theorem exists_page {a : Nat} (hm : a % PGSIZE = 0) (hlt : a < KERNBASE) :
    ∃ u < NUSER, a = u * PGSIZE := by
  refine ⟨a / PGSIZE, ?_, ?_⟩
  · rw [NUSER_eq]
    simp only [PGSIZE, KERNBASE] at *
    omega
  · simp only [PGSIZE] at *
    omega

/-! ## Entries by page number -/

/-- The page table that holds the entry of page `u` exists. -/
def PageDir.hasTable (D : PageDir) (u : Nat) : Bool := has (D.pde (u / 1024)) PTE_P

/-- Store the entry of page `u`. -/
def PageDir.setPage (D : PageDir) (u : Nat) (w : Word) : PageDir := D.setPte (u / 1024) (u % 1024) w

theorem PageDir.pte_of_missing {D : PageDir} {u : Nat} (h : D.hasTable u = false) :
    D.pte u = 0 := by
  unfold pte hasTable at *
  rw [h]
  rfl

theorem PageDir.hasTable_of_has {D : PageDir} {u : Nat} {f : Word} (h : has (D.pte u) f = true) :
    D.hasTable u = true := by
  by_contra hc
  rw [D.pte_of_missing (by simpa using hc), has_zero] at h
  cases h

theorem PageDir.pte_eq_tab {D : PageDir} {u : Nat} (h : D.hasTable u = true) :
    D.tab (u / 1024) (u % 1024) = D.pte u := by
  unfold pte hasTable at *
  rw [if_pos h]

theorem PageDir.pte_setPage {D : PageDir} {u : Nat} (h : D.hasTable u = true) (w : Word) :
    (D.setPage u w).pte = Function.update D.pte u w := by
  funext v
  unfold hasTable at h
  unfold pte setPage setPte
  dsimp only
  by_cases e : v = u
  · subst e
    rw [Function.update_self, if_pos h, Function.update_self, Function.update_self]
  · rw [Function.update_of_ne e]
    by_cases hi : v / 1024 = u / 1024
    · rw [hi, Function.update_self, Function.update_of_ne (by omega)]
    · rw [Function.update_of_ne hi]

theorem PageDir.hasTable_setPage (D : PageDir) (u v : Nat) (w : Word) :
    (D.setPage u w).hasTable v = D.hasTable v := rfl

theorem PageDir.pde_setPage (D : PageDir) (u : Nat) (w : Word) : (D.setPage u w).pde = D.pde := rfl

/-- The entry `walkpgdir` writes for a new page table. -/
def tableEntry (f : Nat) : Word := pageWord f ||| PTE_P ||| PTE_W ||| PTE_U

theorem has_tableEntry (f : Nat) : has (tableEntry f) PTE_P = true := by
  unfold tableEntry
  rw [has_twoPow _ (by decide)]
  simp only [BitVec.getLsbD_or, getLsbD_pageWord f (show 0 < 12 by decide)]
  decide

theorem tableEntry_user (f : Nat) :
    has (tableEntry f) PTE_U = true ∧ has (tableEntry f) PTE_W = true := by
  unfold tableEntry
  rw [has_twoPow _ (by decide), has_twoPow _ (by decide)]
  simp only [BitVec.getLsbD_or, getLsbD_pageWord f (show 1 < 12 by decide),
    getLsbD_pageWord f (show 2 < 12 by decide)]
  decide

theorem pageNo_tableEntry {f : Nat} (h : f < 2 ^ 20) : pageNo (tableEntry f) = f := by
  unfold tableEntry
  rw [pageNo_or_flag _ (by decide), pageNo_or_flag _ (by decide), pageNo_or_flag _ (by decide),
    pageNo_pageWord h]

theorem PageDir.pde_addTable (D : PageDir) (i : Nat) (f : Nat) :
    (D.addTable i f).pde = Function.update D.pde i (tableEntry f) := rfl

theorem PageDir.hasTable_addTable {D : PageDir} {u : Nat} (f v : Nat) (h : D.hasTable v = true) :
    (D.addTable (u / 1024) f).hasTable v = true := by
  unfold hasTable at *
  rw [D.pde_addTable]
  by_cases e : v / 1024 = u / 1024
  · rw [e, Function.update_self]; exact has_tableEntry f
  · rw [Function.update_of_ne e]; exact h

theorem PageDir.hasTable_addTable_self (D : PageDir) (u f : Nat) :
    (D.addTable (u / 1024) f).hasTable u = true := by
  unfold hasTable
  rw [D.pde_addTable, Function.update_self]
  exact has_tableEntry f

theorem PageDir.pte_addTable {D : PageDir} {u : Nat} (f : Nat) (h : D.hasTable u = false) :
    (D.addTable (u / 1024) f).pte = D.pte := by
  funext v
  unfold hasTable at h
  unfold pte addTable
  by_cases hi : v / 1024 = u / 1024
  · simp [hi, h]
  · simp [hi]

/-! ## Counting -/

/-- `1` when `w` is a present entry for frame `f`. -/
def mapsTo (w : Word) (f : Nat) : Nat := if has w PTE_P && pageNo w == f then 1 else 0

theorem mapsTo_of_absent {w : Word} (f : Nat) (h : has w PTE_P = false) : mapsTo w f = 0 := by
  simp [mapsTo, h]

theorem mapsTo_of_present {w : Word} (f : Nat) (h : has w PTE_P = true) :
    mapsTo w f = ind (pageNo w = f) := by
  simp [mapsTo, ind, h]

theorem mapsTo_zero (f : Nat) : mapsTo 0 f = 0 := mapsTo_of_absent f (has_zero _)

/-- The owners of `f` in one address space: directory, tables, user pages. -/
def dirCount (d : Nat) (D : PageDir) (f : Nat) : Nat :=
  ind (d = f) + ∑ i ∈ range NPDENTRIES, mapsTo (D.pde i) f + ∑ u ∈ range NUSER, mapsTo (D.pte u) f

/-- What the running kernel code holds between two of its steps. -/
structure Pend where
  /-- A slot whose frames are not counted (`NPROC`: none). -/
  skip : Nat
  /-- Directories that belong to no process. -/
  dirs : List Nat
  held : Nat → Nat
  /-- Pages of the running process that are present but not linked. -/
  mapped : Nat → Nat
  /-- Pages of the running process may lie below this address although `sz` is lower. -/
  top : Nat

/-- Between operations nothing is pending. -/
def Pend.none : Pend := ⟨NPROC, [], fun _ => 0, fun _ => 0, 0⟩

def Pend.hold (P : Pend) (f : Nat) : Pend := { P with held := bump P.held f }

def Pend.withDir (P : Pend) (d : Nat) : Pend := { P with dirs := d :: P.dirs }

def Pend.withMapped (P : Pend) (u : Nat) : Pend := { P with mapped := bump P.mapped u }

theorem Pend.held_hold (P : Pend) (f g : Nat) : (P.hold f).held g = P.held g + ind (f = g) := rfl

theorem Pend.held_hold_self (P : Pend) (f : Nat) : 0 < (P.hold f).held f := by
  rw [held_hold, ind_true rfl]; omega

/-- The frames of slot `p` are counted. -/
def counted (s : Kernel) (skip p : Nat) : Bool := (s.proc p).state.live && p != skip

/-- Between operations every process is counted. -/
theorem counted_none {s : Kernel} {p : Nat} (hp : p < NPROC) :
    counted s Pend.none.skip p = (s.proc p).state.live := by
  unfold counted
  rw [show (p != Pend.none.skip) = true from bne_iff_ne.2 hp.ne, Bool.and_true]

theorem counted_of_hidden {s : Kernel} {skip k : Nat} (h : (s.proc k).state.live = false) :
    counted s skip k = false := by
  unfold counted
  rw [h, Bool.false_and]

def procCount (s : Kernel) (skip p : Nat) (f : Nat) : Nat :=
  if counted s skip p then
    ind ((s.proc p).kstack = f) + dirCount (s.proc p).pgdir (s.dirs (s.proc p).pgdir) f
  else 0

def extraCount (s : Kernel) (ds : List Nat) (f : Nat) : Nat :=
  (ds.map fun d => dirCount d (s.dirs d) f).sum

/-- The owners of `f` among processes and directories. -/
def inUse (s : Kernel) (P : Pend) (f : Nat) : Nat :=
  ∑ p ∈ range NPROC, procCount s P.skip p f + extraCount s P.dirs f

def owned (s : Kernel) (P : Pend) (f : Nat) : Nat :=
  s.freelist.count f + inUse s P f + P.held f

/-- Every managed frame has exactly one owner. -/
def Own [Build] (s : Kernel) (P : Pend) : Prop := ∀ f, owned s P f = ind (Managed f)

/-! ## Counts after a store -/

theorem dirCount_setPage {D : PageDir} {u : Nat} (d : Nat) (w : Word) (h : D.hasTable u = true)
    (hu : u < NUSER) (f : Nat) :
    dirCount d (D.setPage u w) f + mapsTo (D.pte u) f = dirCount d D f + mapsTo w f := by
  have hsum := sum_range_change (g := fun v => mapsTo (D.pte v) f)
    (q := fun v => mapsTo ((D.setPage u w).pte v) f) hu
    (fun k _ hk => by rw [D.pte_setPage h, Function.update_of_ne hk])
  rw [D.pte_setPage h, Function.update_self] at hsum
  unfold dirCount
  rw [D.pde_setPage, D.pte_setPage h]
  omega

theorem dirCount_setPage_kernel {D : PageDir} {u : Nat} (d : Nat) (w : Word)
    (h : D.hasTable u = true) (hu : NUSER ≤ u) (f : Nat) :
    dirCount d (D.setPage u w) f = dirCount d D f := by
  have hsum := sum_range_congr (n := NUSER) (g := fun v => mapsTo (D.pte v) f)
    (q := fun v => mapsTo ((D.setPage u w).pte v) f)
    (fun k hk => by rw [D.pte_setPage h, Function.update_of_ne (by omega)])
  unfold dirCount
  rw [hsum, D.pde_setPage]

theorem dirCount_addTable {D : PageDir} {u : Nat} (d g : Nat) (h : D.hasTable u = false)
    (hu : u < 2 ^ 20) (hg : g < 2 ^ 20) (f : Nat) :
    dirCount d (D.addTable (u / 1024) g) f = dirCount d D f + ind (g = f) := by
  have hi : u / 1024 < NPDENTRIES := by simp only [NPDENTRIES]; omega
  have hsum := sum_range_change (g := fun k => mapsTo (D.pde k) f)
    (q := fun k => mapsTo ((D.addTable (u / 1024) g).pde k) f) hi
    (fun k _ hk => by rw [D.pde_addTable, Function.update_of_ne hk])
  have hnew : mapsTo (tableEntry g) f = ind (g = f) := by
    rw [mapsTo_of_present f (has_tableEntry g), pageNo_tableEntry hg]
  rw [mapsTo_of_absent f h, D.pde_addTable, Function.update_self, hnew] at hsum
  unfold dirCount
  rw [D.pte_addTable g h, D.pde_addTable]
  omega

/-- An address space with nothing mapped. -/
theorem dirCount_zero (d f : Nat) : dirCount d ⟨fun _ => 0, fun _ _ => 0⟩ f = ind (d = f) := by
  have hpte : ∀ u < NUSER, mapsTo ((⟨fun _ => 0, fun _ _ => 0⟩ : PageDir).pte u) f = 0 := by
    intro u _
    unfold PageDir.pte
    dsimp only
    rw [has_zero]
    exact mapsTo_zero f
  unfold dirCount
  rw [sum_range_zero fun _ _ => mapsTo_zero f, sum_range_zero hpte]
  rfl

/-- A directory owns its own frame. -/
theorem dirCount_self (d : Nat) (D : PageDir) : 0 < dirCount d D d := by
  unfold dirCount
  rw [ind_true rfl]
  omega

theorem dirCount_pte (d : Nat) {D : PageDir} {u : Nat} (hu : u < NUSER)
    (h : has (D.pte u) PTE_P = true) : 0 < dirCount d D (pageNo (D.pte u)) := by
  have := term_le_sum (fun v => mapsTo (D.pte v) (pageNo (D.pte u))) hu
  rw [mapsTo_of_present _ h, ind_true rfl] at this
  unfold dirCount
  omega

theorem dirCount_pte_pair (d : Nat) {D : PageDir} {u v : Nat} (hu : u < NUSER) (hv : v < NUSER)
    (hne : u ≠ v) (h1 : has (D.pte u) PTE_P = true) (h2 : has (D.pte v) PTE_P = true)
    (he : pageNo (D.pte v) = pageNo (D.pte u)) : 2 ≤ dirCount d D (pageNo (D.pte u)) := by
  have := pair_le_sum (fun v => mapsTo (D.pte v) (pageNo (D.pte u))) hu hv hne
  rw [mapsTo_of_present _ h1, mapsTo_of_present _ h2, ind_true rfl, ind_true he] at this
  unfold dirCount
  omega

/-! ## Replacing a directory -/

/-- `1` when slot `p` is counted and has directory `d`. -/
def holds (s : Kernel) (skip p : Nat) (d : Nat) : Nat :=
  if counted s skip p && (s.proc p).pgdir == d then 1 else 0

/-- How many owners name `d` as their directory. -/
def holders (s : Kernel) (P : Pend) (d : Nat) : Nat :=
  ∑ p ∈ range NPROC, holds s P.skip p d + P.dirs.count d

theorem procCount_setDir (s : Kernel) (skip p : Nat) (d : Nat) (D : PageDir) (f : Nat) :
    procCount (s.setDir d D) skip p f + holds s skip p d * dirCount d (s.dirs d) f =
      procCount s skip p f + holds s skip p d * dirCount d D f := by
  have hproc : (s.setDir d D).proc = s.proc := rfl
  unfold procCount holds counted
  rw [hproc]
  by_cases hc : ((s.proc p).state.live && p != skip) = true
  · by_cases hd : (s.proc p).pgdir = d
    · subst hd
      simp only [hc, Kernel.setDir, Function.update_self, Bool.true_and, beq_self_eq_true,
        ↓reduceIte, Nat.one_mul]
      omega
    · have hdirs : (s.setDir d D).dirs (s.proc p).pgdir = s.dirs (s.proc p).pgdir :=
        Function.update_of_ne hd _ _
      simp only [hc, hdirs, Bool.true_and, beq_iff_eq, hd, ↓reduceIte, Nat.zero_mul]
  · simp [hc]

theorem extraCount_setDir (s : Kernel) (ds : List Nat) (d : Nat) (D : PageDir) (f : Nat) :
    extraCount (s.setDir d D) ds f + ds.count d * dirCount d (s.dirs d) f =
      extraCount s ds f + ds.count d * dirCount d D f := by
  unfold extraCount
  induction ds with
  | nil => simp
  | cons e ds ih =>
    simp only [List.map_cons, List.sum_cons]
    by_cases he : e = d
    · subst he
      rw [List.count_cons_self, Nat.add_mul, Nat.add_mul]
      simp only [Kernel.setDir, Function.update_self, Nat.one_mul] at ih ⊢
      omega
    · have hdirs : (s.setDir d D).dirs e = s.dirs e := Function.update_of_ne he _ _
      rw [List.count_cons_of_ne he, hdirs]
      omega

theorem owned_setDir (s : Kernel) (P : Pend) (d : Nat) (D : PageDir) (f : Nat) :
    owned (s.setDir d D) P f + holders s P d * dirCount d (s.dirs d) f =
      owned s P f + holders s P d * dirCount d D f := by
  have hsum : ∑ p ∈ range NPROC, procCount (s.setDir d D) P.skip p f +
      (∑ p ∈ range NPROC, holds s P.skip p d) * dirCount d (s.dirs d) f =
      ∑ p ∈ range NPROC, procCount s P.skip p f +
      (∑ p ∈ range NPROC, holds s P.skip p d) * dirCount d D f := by
    rw [sum_mul, sum_mul, ← sum_add_distrib, ← sum_add_distrib]
    exact sum_range_congr fun p _ => procCount_setDir s P.skip p d D f
  have hextra := extraCount_setDir s P.dirs d D f
  have hfree : (s.setDir d D).freelist = s.freelist := rfl
  unfold owned inUse holders
  rw [hfree, Nat.add_mul, Nat.add_mul]
  omega

theorem holders_le (s : Kernel) (P : Pend) (d : Nat) : holders s P d ≤ owned s P d := by
  have hproc : ∑ p ∈ range NPROC, holds s P.skip p d ≤
      ∑ p ∈ range NPROC, procCount s P.skip p d := by
    refine sum_le_sum fun p _ => ?_
    unfold holds procCount
    split
    · rename_i h
      simp only [Bool.and_eq_true, beq_iff_eq] at h
      rw [if_pos h.1, h.2]
      have := dirCount_self d (s.dirs d)
      omega
    · omega
  have hextra : P.dirs.count d ≤ extraCount s P.dirs d := by
    unfold extraCount
    induction P.dirs with
    | nil => simp
    | cons e ds ih =>
      simp only [List.map_cons, List.sum_cons]
      by_cases he : e = d
      · subst he
        have := dirCount_self e (s.dirs e)
        rw [List.count_cons_self]
        omega
      · rw [List.count_cons_of_ne he]
        omega
  unfold holders owned inUse
  omega

theorem holders_pos_of_proc {s : Kernel} {P : Pend} {p : Nat} (hp : p < NPROC)
    (hc : counted s P.skip p = true) : 0 < holders s P (s.proc p).pgdir := by
  have h1 : holds s P.skip p (s.proc p).pgdir = 1 := by simp [holds, hc]
  have h2 := term_le_sum (fun k => holds s P.skip k (s.proc p).pgdir) hp
  unfold holders
  omega

theorem holders_pos_of_mem {s : Kernel} {P : Pend} {d : Nat} (h : d ∈ P.dirs) :
    0 < holders s P d := by
  have := List.count_pos_iff.mpr h
  unfold holders
  omega

/-- `inUse` reads the process table and the directories. -/
theorem inUse_congr {s s' : Kernel} {P P' : Pend}
    (hproc : ∀ p, (s'.proc p).state.live = (s.proc p).state.live ∧
      (s'.proc p).kstack = (s.proc p).kstack ∧ (s'.proc p).pgdir = (s.proc p).pgdir)
    (hdirs : s'.dirs = s.dirs) (hskip : P'.skip = P.skip) (hds : P'.dirs = P.dirs) (f : Nat) :
    inUse s' P' f = inUse s P f := by
  have hcount : ∀ p, procCount s' P.skip p f = procCount s P.skip p f := by
    intro p
    obtain ⟨h1, h2, h3⟩ := hproc p
    unfold procCount counted
    rw [h1, h2, h3, hdirs]
  unfold inUse extraCount
  rw [hskip, hds, hdirs, sum_congr rfl fun p _ => hcount p]

theorem owned_hold (s : Kernel) (P : Pend) (f g : Nat) :
    owned s (P.hold f) g = owned s P g + ind (f = g) := by
  have hu : inUse s (P.hold f) g = inUse s P g := rfl
  unfold owned
  rw [hu, P.held_hold]
  omega

/-! ## Consequences of exclusive ownership -/

section Own

variable [Build] {s : Kernel} {P : Pend} {f : Nat}

theorem Own.le_one (h : Own s P) (f : Nat) : owned s P f ≤ 1 := by
  rw [h f]; exact ind_le_one _

theorem Own.managed (h : Own s P) (hf : 0 < owned s P f) : Managed f := by
  rw [h f] at hf; exact ind_pos.mp hf

theorem Managed.lt (h : Managed f) : f < 2 ^ 20 := by
  have := h.2
  simp only [PHYSTOP, PGSIZE] at this
  omega

theorem Managed.pos (h : Managed f) : f ≠ 0 := by
  have h1 := h.1
  have := Build.kend_lo
  rintro rfl
  simp only [EXTMEM] at this
  omega

theorem Own.managed_held (h : Own s (P.hold f)) : Managed f := by
  refine h.managed ?_
  rw [owned_hold, ind_true rfl]
  omega

theorem Own.take {l : List Nat} (h : Own s P) (hf : s.freelist = f :: l) :
    Own (s.taken l) (P.hold f) := fun g => by
  have hu : inUse (s.taken l) P g = inUse s P g :=
    inUse_congr (fun _ => ⟨rfl, rfl, rfl⟩) rfl rfl rfl g
  have h1 := h g
  rw [owned_hold]
  unfold owned at h1 ⊢
  rw [hf, count_cons_ind] at h1
  rw [hu, show (s.taken l).freelist = l from rfl]
  omega

theorem Own.give (h : Own s (P.hold f)) : Own (s.freed f) P := fun g => by
  have hu : inUse (s.freed f) P g = inUse s P g :=
    inUse_congr (fun _ => ⟨rfl, rfl, rfl⟩) rfl rfl rfl g
  have h1 := h g
  rw [owned_hold] at h1
  unfold owned at h1 ⊢
  rw [hu, show (s.freed f).freelist = f :: s.freelist from rfl, count_cons_ind]
  omega

/-- What storing a whole directory does to the count, for a directory with an owner. -/
theorem Own.setDir {d : Nat} (h : Own s P) (hd : 0 < holders s P d) (D : PageDir) (f : Nat) :
    owned (s.setDir d D) P f + dirCount d (s.dirs d) f = ind (Managed f) + dirCount d D f := by
  have h1 := owned_setDir s P d D f
  have h2 := holders_le s P d
  have h3 := h.le_one d
  have h4 : holders s P d = 1 := by omega
  rw [h4, Nat.one_mul, Nat.one_mul, h f] at h1
  exact h1

/-- Everything a counted process owns is owned once. -/
theorem Own.proc_le {p : Nat} (h : Own s P) (hp : p < NPROC) (hc : counted s P.skip p = true)
    (f : Nat) :
    s.freelist.count f + ind ((s.proc p).kstack = f) +
      dirCount (s.proc p).pgdir (s.dirs (s.proc p).pgdir) f + extraCount s P.dirs f + P.held f ≤
      1 := by
  have h1 := term_le_sum (fun k => procCount s P.skip k f) hp
  have h2 := h.le_one f
  simp only [procCount, hc, ↓reduceIte] at h1
  unfold owned inUse at h2
  simp only [procCount] at h2
  omega

/-- Two counted processes share no frame. -/
theorem Own.pair_le {p q : Nat} (h : Own s P) (hp : p < NPROC) (hq : q < NPROC) (hne : p ≠ q)
    (hcp : counted s P.skip p = true) (hcq : counted s P.skip q = true) (f : Nat) :
    dirCount (s.proc p).pgdir (s.dirs (s.proc p).pgdir) f +
      dirCount (s.proc q).pgdir (s.dirs (s.proc q).pgdir) f ≤ 1 := by
  have h1 := pair_le_sum (fun k => procCount s P.skip k f) hp hq hne
  have h2 := h.le_one f
  simp only [procCount, hcp, hcq, ↓reduceIte] at h1
  unfold owned inUse at h2
  simp only [procCount] at h2
  omega

theorem Own.pgdir_ne {p q : Nat} (h : Own s P) (hp : p < NPROC) (hq : q < NPROC) (hne : p ≠ q)
    (hcp : counted s P.skip p = true) (hcq : counted s P.skip q = true) :
    (s.proc p).pgdir ≠ (s.proc q).pgdir := by
  intro he
  have h1 := h.pair_le hp hq hne hcp hcq (s.proc p).pgdir
  have h2 := dirCount_self (s.proc p).pgdir (s.dirs (s.proc p).pgdir)
  rw [← he] at h1
  omega

theorem Own.managed_proc {p : Nat} (h : Own s P) (hp : p < NPROC) (hc : counted s P.skip p = true)
    (hf : 0 < ind ((s.proc p).kstack = f) + dirCount (s.proc p).pgdir (s.dirs (s.proc p).pgdir) f) :
    Managed f := by
  refine h.managed ?_
  have h1 := term_le_sum (fun k => procCount s P.skip k f) hp
  have h2 : procCount s P.skip p f = ind ((s.proc p).kstack = f) +
      dirCount (s.proc p).pgdir (s.dirs (s.proc p).pgdir) f := by rw [procCount, if_pos hc]
  unfold owned inUse
  omega

theorem Own.kstack_ne {p : Nat} (h : Own s P) (hp : p < NPROC) (hc : counted s P.skip p = true) :
    (s.proc p).kstack ≠ 0 :=
  (h.managed_proc hp hc (by rw [ind_true rfl]; omega)).pos

theorem Own.pgdir_pos {p : Nat} (h : Own s P) (hp : p < NPROC) (hc : counted s P.skip p = true) :
    (s.proc p).pgdir ≠ 0 := by
  refine (h.managed_proc (f := (s.proc p).pgdir) hp hc ?_).pos
  have := dirCount_self (s.proc p).pgdir (s.dirs (s.proc p).pgdir)
  omega

theorem Own.managed_pte {p u : Nat} (h : Own s P) (hp : p < NPROC) (hc : counted s P.skip p = true)
    (hu : u < NUSER) (hpte : has ((s.dirs (s.proc p).pgdir).pte u) PTE_P = true) :
    Managed (pageNo ((s.dirs (s.proc p).pgdir).pte u)) :=
  h.managed_proc hp hc (Nat.add_pos_right _ (dirCount_pte _ hu hpte))

/-- No two user pages of one address space share a frame. -/
theorem Own.pte_inj {p u v : Nat} (h : Own s P) (hp : p < NPROC) (hc : counted s P.skip p = true)
    (hu : u < NUSER) (hv : v < NUSER)
    (h1 : has ((s.dirs (s.proc p).pgdir).pte u) PTE_P = true)
    (h2 : has ((s.dirs (s.proc p).pgdir).pte v) PTE_P = true)
    (he : pageNo ((s.dirs (s.proc p).pgdir).pte v) = pageNo ((s.dirs (s.proc p).pgdir).pte u)) :
    u = v := by
  by_contra hne
  have := dirCount_pte_pair (s.proc p).pgdir hu hv hne h1 h2 he
  have := h.proc_le hp hc (pageNo ((s.dirs (s.proc p).pgdir).pte u))
  omega

/-! ## Storing entries -/

section Store

variable {d u : Nat} {w : Word}

theorem Own.addTable (h : Own s (P.hold f)) (hd : 0 < holders s P d)
    (ht : (s.dirs d).hasTable u = false) (hu : u < 2 ^ 20) :
    Own (s.setDir d ((s.dirs d).addTable (u / 1024) f)) P := fun g => by
  have h1 := h.setDir (show 0 < holders s (P.hold f) d from hd)
    ((s.dirs d).addTable (u / 1024) f) g
  rw [dirCount_addTable d f ht hu h.managed_held.lt, owned_hold] at h1
  omega

/-- A held frame becomes a present page. -/
theorem Own.mapPage (h : Own s (P.hold f)) (hd : 0 < holders s P d)
    (ht : (s.dirs d).hasTable u = true) (hu : u < NUSER)
    (ha : has ((s.dirs d).pte u) PTE_P = false) (hw : has w PTE_P = true)
    (hf : pageNo w = f) : Own (s.setDir d ((s.dirs d).setPage u w)) P := fun g => by
  have h1 := h.setDir (show 0 < holders s (P.hold f) d from hd) ((s.dirs d).setPage u w) g
  have h2 := dirCount_setPage d w ht hu g
  rw [mapsTo_of_absent g ha, mapsTo_of_present g hw, hf] at h2
  rw [owned_hold] at h1
  omega

/-- The frame of a present page becomes a held one. -/
theorem Own.unmapPage (h : Own s P) (hd : 0 < holders s P d) (hu : u < NUSER)
    (hp : has ((s.dirs d).pte u) PTE_P = true) (hw : has w PTE_P = false) :
    Own (s.setDir d ((s.dirs d).setPage u w)) (P.hold (pageNo ((s.dirs d).pte u))) := fun g => by
  have h1 := h.setDir hd ((s.dirs d).setPage u w) g
  have h2 := dirCount_setPage d w (PageDir.hasTable_of_has hp) hu g
  rw [mapsTo_of_present g hp, mapsTo_of_absent g hw] at h2
  rw [owned_hold]
  omega

/-- The entry changes but not the frame it maps. -/
theorem Own.keepPage (h : Own s P) (hd : 0 < holders s P d) (ht : (s.dirs d).hasTable u = true)
    (hu : u < NUSER) (hw : ∀ g, mapsTo w g = mapsTo ((s.dirs d).pte u) g) :
    Own (s.setDir d ((s.dirs d).setPage u w)) P := fun g => by
  have h1 := h.setDir hd ((s.dirs d).setPage u w) g
  have h2 := dirCount_setPage d w ht hu g
  rw [hw g] at h2
  omega

/-- Entries of the kernel half map no owned frame. -/
theorem Own.kernelPage (h : Own s P) (hd : 0 < holders s P d) (ht : (s.dirs d).hasTable u = true)
    (hu : NUSER ≤ u) : Own (s.setDir d ((s.dirs d).setPage u w)) P := fun g => by
  have h1 := h.setDir hd ((s.dirs d).setPage u w) g
  rw [dirCount_setPage_kernel d w ht hu g] at h1
  omega

end Store

end Own

end Xv6
