import Xv6.Vm.Own

/-!
# Rules for page table entries

`walkpgdir`, loads and stores as rules of the weakest precondition: each says in which state
the rest of the program continues.
-/

namespace Xv6

open Lib

/-! ## Entries by page number -/

/-- The pointer to the entry of page `u`. -/
def pteAt (d u : Nat) : PtePtr := ⟨d, u / 1024, u % 1024⟩

theorem pdx_eq {va : Nat} (h : va < 2 ^ 32) : pdx va = va / PGSIZE / 1024 := by
  unfold pdx
  simp only [PGSIZE]
  omega

theorem ptx_eq (va : Nat) : ptx va = va / PGSIZE % 1024 := rfl

theorem pteAt_eq (d : Nat) {va : Nat} (h : va < 2 ^ 32) :
    (⟨d, pdx va, ptx va⟩ : PtePtr) = pteAt d (va / PGSIZE) := by
  rw [pdx_eq h, ptx_eq]; rfl

/-! ## Rules -/

section

variable {E : String → Prop} {s : Kernel} {d va u : Nat}

theorem walkpgdir_found {b : Bool} {Q : Option PtePtr → Kernel → Prop} (hva : va < 2 ^ 32)
    (ht : (s.dirs d).hasTable (va / PGSIZE) = true) (h : Q (some (pteAt d (va / PGSIZE))) s) :
    wp (walkpgdir d va b) E Q s := by
  unfold PageDir.hasTable at ht
  unfold walkpgdir
  simp only [wp_bind, wp_get, pdx_eq hva, ptx_eq]
  rw [if_pos ht]
  exact h

theorem walkpgdir_missing {Q : Option PtePtr → Kernel → Prop} (hva : va < 2 ^ 32)
    (ht : (s.dirs d).hasTable (va / PGSIZE) = false) (h : Q none s) :
    wp (walkpgdir d va false) E Q s := by
  unfold PageDir.hasTable at ht
  unfold walkpgdir
  simp only [wp_bind, wp_get, pdx_eq hva]
  rw [if_neg (by rw [ht]; decide), if_neg (by decide)]
  exact h

/-- The states in which `walkpgdir(d, va, 1)` returns the entry of page `u`. -/
inductive Walked (s : Kernel) (d u : Nat) : Kernel → Prop
  | found (ht : (s.dirs d).hasTable u = true) : Walked s d u s
  | made {f : Nat} {l : List Nat} (ht : (s.dirs d).hasTable u = false)
      (hf : s.freelist = f :: l) :
      Walked s d u ((s.taken l).setDir d ((s.dirs d).addTable (u / 1024) f))

theorem Walked.hasTable {s1 : Kernel} (h : Walked s d u s1) :
    (s1.dirs d).hasTable u = true := by
  cases h with
  | found ht => exact ht
  | made ht hf =>
    simp only [Kernel.setDir, Function.update_self]
    exact PageDir.hasTable_addTable_self ..

theorem Walked.pte {s1 : Kernel} (h : Walked s d u s1) : (s1.dirs d).pte = (s.dirs d).pte := by
  cases h with
  | found ht => rfl
  | made ht hf =>
    simp only [Kernel.setDir, Function.update_self]
    exact PageDir.pte_addTable _ ht

theorem Walked.frame {s1 : Kernel} (h : Walked s d u s1) :
    s1.proc = s.proc ∧ s1.cur = s.cur ∧ s1.cr3 = s.cr3 ∧ s1.mem = s.mem ∧ s1.files = s.files ∧
      s1.cons = s.cons ∧ s1.initproc = s.initproc ∧ s1.nextpid = s.nextpid ∧
      ∀ e ≠ d, s1.dirs e = s.dirs e := by
  cases h with
  | found ht => exact ⟨rfl, rfl, rfl, rfl, rfl, rfl, rfl, rfl, fun _ _ => rfl⟩
  | made ht hf =>
    exact ⟨rfl, rfl, rfl, rfl, rfl, rfl, rfl, rfl, fun e he => Function.update_of_ne he _ _⟩

theorem walkpgdir_create {Q : Option PtePtr → Kernel → Prop} (hva : va < 2 ^ 32)
    (hn : (s.dirs d).hasTable (va / PGSIZE) = false → s.freelist = [] → Q none (s.taken []))
    (hs : ∀ s1, Walked s d (va / PGSIZE) s1 → Q (some (pteAt d (va / PGSIZE))) s1) :
    wp (walkpgdir d va true) E Q s := by
  cases ht : (s.dirs d).hasTable (va / PGSIZE) with
  | true => exact walkpgdir_found hva ht (hs s (.found ht))
  | false =>
    have hmade := fun f l hf => hs _ (Walked.made (f := f) (l := l) ht hf)
    unfold PageDir.hasTable at ht hn
    unfold walkpgdir
    simp only [wp_bind, wp_get, pdx_eq hva, ptx_eq]
    rw [if_neg (by rw [ht]; decide), if_pos trivial, wp_bind]
    exact kalloc_wp (hn ht) hmade

theorem loadPte_wp {Q : Word → Kernel → Prop} (ht : (s.dirs d).hasTable u = true)
    (h : Q ((s.dirs d).pte u) s) : wp (loadPte (pteAt d u)) E Q s := by
  unfold loadPte
  simp only [wp_bind, wp_get, wp_pure, pteAt, PageDir.pte_eq_tab ht]
  exact h

theorem storePte_wp {Q : Unit → Kernel → Prop} {w : Word}
    (h : Q () (s.setDir d ((s.dirs d).setPage u w))) : wp (storePte (pteAt d u) w) E Q s := h

theorem cprintf_wp {m : String} {Q : Unit → Kernel → Prop}
    (h : Q () (s.printed m)) : wp (cprintf m) E Q s := h

theorem assertPanic_wp {c : Prop} [Decidable c] {m : String} {Q : Unit → Kernel → Prop} (hc : c)
    (h : Q () s) : wp (assertPanic c m) E Q s := by
  unfold assertPanic
  rw [if_pos hc]
  exact h

theorem mapEntry_wp {Q : Int → Kernel → Prop} {perm : Word} {pa : Nat} {rest : K Int}
    (hva : va < 2 ^ 32) (hp : has ((s.dirs d).pte (va / PGSIZE)) PTE_P = false)
    (hn : (s.dirs d).hasTable (va / PGSIZE) = false → s.freelist = [] → Q (-1) (s.taken []))
    (hs : ∀ s1, Walked s d (va / PGSIZE) s1 → wp rest E Q
      (s1.setDir d ((s1.dirs d).setPage (va / PGSIZE) (BitVec.ofNat 32 pa ||| perm ||| PTE_P)))) :
    wp (mapEntry d perm va pa rest) E Q s := by
  unfold mapEntry
  refine wp_seq (walkpgdir_create hva hn fun s1 h1 => wp_seq (loadPte_wp h1.hasTable ?_))
  rw [h1.pte, if_neg (by rw [hp]; decide)]
  exact wp_seq (storePte_wp (hs s1 h1))

/-- `mappages` for one page below `KERNBASE`. -/
theorem mappages_page {Q : Int → Kernel → Prop} {perm : Word} {f : Nat} (hu : u < NUSER)
    (hp : has ((s.dirs d).pte u) PTE_P = false)
    (hn : (s.dirs d).hasTable u = false → s.freelist = [] → Q (-1) (s.taken []))
    (hs : ∀ s1, Walked s d u s1 →
      Q 0 (s1.setDir d ((s1.dirs d).setPage u (pageWord f ||| perm ||| PTE_P)))) :
    wp (mappages d (u * PGSIZE) PGSIZE (f * PGSIZE) perm) E Q s := by
  have hdiv : u * PGSIZE / PGSIZE = u := by simp
  have hlast : (pgrounddown ((u * PGSIZE + PGSIZE + 2 ^ 32 - 1) % 2 ^ 32) + 2 ^ 32 -
      pgrounddown (u * PGSIZE)) % 2 ^ 32 / PGSIZE = 0 := by
    rw [NUSER_eq] at hu
    unfold pgrounddown
    simp only [PGSIZE]
    omega
  have hs' : ∀ s1, Walked s d (u * PGSIZE / PGSIZE) s1 → wp (pure 0 : K Int) E Q
      (s1.setDir d ((s1.dirs d).setPage (u * PGSIZE / PGSIZE)
        (BitVec.ofNat 32 (f * PGSIZE) ||| perm ||| PTE_P))) := fun s1 h1 => by
    rw [hdiv] at h1 ⊢
    exact hs s1 h1
  unfold mappages
  dsimp only
  rw [if_neg (by decide), hlast, pgrounddown, hdiv]
  exact mapEntry_wp (page_lt_word hu) (by rwa [hdiv]) (by rwa [hdiv]) hs'

end

end Xv6
