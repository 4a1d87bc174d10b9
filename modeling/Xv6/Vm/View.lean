import Xv6.Vm.Own

/-!
# An address space as its user sees it

A user page exists when it has a frame or a slot of the swap file; paging moves it between
the two and keeps what the user may do with it.
-/

namespace Xv6

open Lib

/-! ## Sizes in pages -/

/-- The number of pages that hold `n` bytes. -/
def pages (n : Nat) : Nat := (n + PGSIZE - 1) / PGSIZE

theorem lt_pages {u n : Nat} : u < pages n ↔ u * PGSIZE < n := by
  unfold pages
  simp only [PGSIZE]
  omega

theorem pages_mono {n n' : Nat} (h : n ≤ n') : pages n ≤ pages n' :=
  Nat.div_le_div_right (by omega)

theorem pages_mul (k : Nat) : pages (k * PGSIZE) = k := by
  unfold pages
  simp only [PGSIZE]
  omega

/-- The pages from the end of `sz` to `m`. -/
theorem pages_add {sz m : Nat} (h : sz ≤ m) : pages sz + (m - pages sz * PGSIZE + PGSIZE - 1) / PGSIZE = pages m := by
  unfold pages
  simp only [PGSIZE]
  omega

theorem pages_le {n : Nat} (h : n ≤ KERNBASE) : pages n ≤ NUSER := by
  rw [NUSER_eq]
  unfold pages
  simp only [PGSIZE, KERNBASE] at *
  omega

theorem pgroundup_eq {n : Nat} (h : n ≤ KERNBASE) : pgroundup n = pages n * PGSIZE := by
  unfold pgroundup pages
  simp only [PGSIZE, KERNBASE] at *
  omega

/-! ## Views -/

/-- What a user may do with a page. -/
structure Perm where
  user : Bool
  write : Bool
deriving DecidableEq, Repr

/-- What an entry says about its page. -/
def entryView (w : Word) : Option Perm :=
  if has w PTE_P || has w PTE_PG then some ⟨has w PTE_U, has w PTE_W⟩ else none

theorem entryView_zero : entryView 0 = none := by decide

theorem entryView_present {w : Word} (h : has w PTE_P = true) :
    entryView w = some ⟨has w PTE_U, has w PTE_W⟩ := by
  rw [entryView, h, Bool.true_or, if_pos rfl]

theorem entryView_paged {w : Word} (h : has w PTE_PG = true) :
    entryView w = some ⟨has w PTE_U, has w PTE_W⟩ := by
  rw [entryView, h, Bool.or_true, if_pos rfl]

theorem entryView_none {w : Word} (hp : has w PTE_P = false) (hg : has w PTE_PG = false) :
    entryView w = none := by
  rw [entryView, hp, hg]
  rfl

theorem entryView_eq_none {w : Word} :
    entryView w = none ↔ has w PTE_P = false ∧ has w PTE_PG = false := by
  unfold entryView
  cases has w PTE_P <;> cases has w PTE_PG <;> simp

theorem entryView_ne_none {w : Word} :
    entryView w ≠ none ↔ has w PTE_P = true ∨ has w PTE_PG = true := by
  unfold entryView
  cases has w PTE_P <;> cases has w PTE_PG <;> simp

theorem entryView_congr {w w' : Word} (hp : has w PTE_P = has w' PTE_P)
    (hg : has w PTE_PG = has w' PTE_PG) (hu : has w PTE_U = has w' PTE_U)
    (hw : has w PTE_W = has w' PTE_W) : entryView w = entryView w' := by
  rw [entryView, entryView, hp, hg, hu, hw]

/-- The user page `u` of an address space. -/
def PageDir.view (D : PageDir) (u : Nat) : Option Perm := entryView (D.pte u)

theorem PageDir.view_setPage {D : PageDir} {u : Nat} (ht : D.hasTable u = true) (w : Word) :
    (D.setPage u w).view = Function.update D.view u (entryView w) := by
  funext v
  rw [view, pte_setPage ht]
  by_cases e : v = u
  · rw [e, Function.update_self, Function.update_self]
  · rw [Function.update_of_ne e, Function.update_of_ne e, view]

theorem PageDir.view_of_missing {D : PageDir} {u : Nat} (h : D.hasTable u = false) :
    D.view u = none := by
  rw [view, pte_of_missing h, entryView_zero]

/-- The same user pages exist and users may do the same with them. -/
def SamePages (D D' : PageDir) : Prop :=
  ∀ u < NUSER, D'.view u = D.view u

theorem SamePages.refl (D : PageDir) : SamePages D D := fun _ _ => rfl

theorem SamePages.trans {D D' D'' : PageDir} (h1 : SamePages D D') (h2 : SamePages D' D'') :
    SamePages D D'' := fun u hu => (h2 u hu).trans (h1 u hu)

/-- Storing one entry that keeps existence and permissions. -/
theorem SamePages.setPage {D : PageDir} {u : Nat} {w : Word} (ht : D.hasTable u = true)
    (h : entryView w = D.view u) : SamePages D (D.setPage u w) := by
  intro v _
  rw [PageDir.view_setPage ht, h, Function.update_eq_self]

/-- The pages in `[lo, hi)` become `x`, the others are as before. -/
def Filled (x : Option Perm) (lo hi : Nat) (D D' : PageDir) : Prop :=
  ∀ u < NUSER, D'.view u = if lo ≤ u ∧ u < hi then x else D.view u

namespace Filled

variable {x : Option Perm} {lo mid hi u : Nat} {D D' D'' : PageDir}

theorem refl (h : hi ≤ lo) : Filled x lo hi D D := fun u _ => by
  rw [if_neg (by omega)]

theorem same (h1 : Filled x lo hi D D') (h2 : SamePages D' D'') : Filled x lo hi D D'' :=
  fun u hu => (h2 u hu).trans (h1 u hu)

theorem of_same (h1 : SamePages D D') (h2 : Filled x lo hi D' D'') : Filled x lo hi D D'' :=
  fun u hu => by rw [h2 u hu, h1 u hu]

theorem trans (h1 : Filled x lo mid D D') (h2 : Filled x mid hi D' D'') (hlm : lo ≤ mid)
    (hmh : mid ≤ hi) : Filled x lo hi D D'' := by
  intro u hu
  rw [h2 u hu, h1 u hu]
  grind

theorem skip (h : ∀ u < NUSER, lo ≤ u → u < hi → D.view u = x) : Filled x lo hi D D := by
  intro u hu
  split
  · exact h u hu (by omega) (by omega)
  · rfl

theorem page {w : Word} (ht : D.hasTable u = true) (hD : D' = D.setPage u w)
    (hw : entryView w = x) : Filled x u (u + 1) D D' := by
  intro v _
  rw [hD, PageDir.view_setPage ht, hw]
  by_cases e : v = u
  · rw [e, Function.update_self, if_pos ⟨le_rfl, by omega⟩]
  · rw [Function.update_of_ne e, if_neg (by omega)]

/-- What is filled over leaves no trace. -/
theorem cover {y : Option Perm} {lo' hi' : Nat} (h1 : Filled x lo hi D D')
    (h2 : Filled y lo' hi' D' D'') (hlo : lo' ≤ lo) (hhi : hi ≤ hi') : Filled y lo' hi' D D'' := by
  intro u hu
  rw [h2 u hu, h1 u hu]
  split
  · rfl
  · rw [if_neg (by omega)]

theorem samePages (h : Filled x lo hi D D')
    (hx : ∀ u < NUSER, lo ≤ u → u < hi → D.view u = x) : SamePages D D' := by
  intro u hu
  rw [h u hu]
  split
  · exact (hx u hu (by omega) (by omega)).symm
  · rfl

end Filled

end Xv6
