import Xv6.Vm.Own

/-!
# How many frames are free

Exclusive ownership balances the free list against what address spaces and the kernel hold: when
one of them takes a frame, the free list is one shorter.
-/

namespace Xv6

open Lib Finset

/-- The number of present user pages. -/
def presentPages (D : PageDir) : Nat := ∑ u ∈ range NUSER, (has (D.pte u) PTE_P).toNat

/-- The number of page-table pages. -/
def tablePages (D : PageDir) : Nat := ∑ i ∈ range NPDENTRIES, (has (D.pde i) PTE_P).toNat

theorem presentPages_zero {D : PageDir} (h : ∀ u < NUSER, has (D.pte u) PTE_P = false) :
    presentPages D = 0 := by
  unfold presentPages
  rw [sum_range_congr fun u hu => by rw [h u hu, Bool.toNat_false], sum_const_zero]

theorem tablePages_zero {D : PageDir} (h : ∀ i < NPDENTRIES, has (D.pde i) PTE_P = false) :
    tablePages D = 0 := by
  unfold tablePages
  rw [sum_range_congr fun i hi => by rw [h i hi, Bool.toNat_false], sum_const_zero]

theorem sum_mapsTo {w : Word} {n : Nat} (h : pageNo w < n) :
    ∑ f ∈ range n, mapsTo w f = (has w PTE_P).toNat := by
  rw [sum_eq_single (pageNo w) (fun f _ hne => ?_) fun hc => absurd (mem_range.2 h) hc]
  · cases hp : has w PTE_P with
    | true => rw [mapsTo_of_present _ hp, ind_true rfl]; rfl
    | false => rw [mapsTo_of_absent _ hp]; rfl
  · unfold mapsTo
    rw [if_neg]
    simp [Ne.symm hne]

theorem sum_ind {d n : Nat} (h : d < n) : ∑ f ∈ range n, ind (d = f) = 1 := by
  rw [sum_eq_single d (fun f _ hne => ind_false (Ne.symm hne)) fun hc =>
    absurd (mem_range.2 h) hc, ind_true rfl]

theorem sum_count {l : List Nat} {n : Nat} (h : ∀ a ∈ l, a < n) :
    ∑ f ∈ range n, l.count f = l.length := by
  simpa using Multiset.sum_count_eq_card (s := range n) (m := (l : Multiset Nat))
    fun a ha => mem_range.2 (h a ha)

/-- The owners in one address space, over all frames. -/
theorem sum_dirCount {D : PageDir} {d : Nat} (hd : d < 2 ^ 20) :
    ∑ f ∈ range (2 ^ 20), dirCount d D f = 1 + tablePages D + presentPages D := by
  unfold dirCount
  rw [sum_add_distrib, sum_add_distrib, sum_ind hd,
    sum_comm (s := range (2 ^ 20)) (t := range NPDENTRIES),
    sum_comm (s := range (2 ^ 20)) (t := range NUSER),
    sum_congr rfl fun i _ => sum_mapsTo (pageNo_lt (D.pde i)),
    sum_congr rfl fun u _ => sum_mapsTo (pageNo_lt (D.pte u))]
  rfl

/-! ## Page tables as a set -/

/-- The page tables of `D` are among `S`. -/
def TablesIn (S : Finset Nat) (D : PageDir) : Prop :=
  ∀ i < NPDENTRIES, has (D.pde i) PTE_P = true → i ∈ S

section

variable {S : Finset Nat} {D : PageDir} {u : Nat}

theorem tablePages_eq_card (D : PageDir) :
    tablePages D = ((range NPDENTRIES).filter fun i => has (D.pde i) PTE_P = true).card := by
  rw [card_filter]
  refine sum_congr rfl fun i _ => ?_
  cases has (D.pde i) PTE_P <;> rfl

theorem TablesIn.addTable (h : TablesIn S D) (hu : u / 1024 ∈ S) (f : Nat) :
    TablesIn S (D.addTable (u / 1024) f) := fun i hi hp => by
  rw [D.pde_addTable] at hp
  by_cases e : i = u / 1024
  · rwa [e]
  · rw [Function.update_of_ne e] at hp
    exact h i hi hp

theorem TablesIn.le (h : TablesIn S D) : tablePages D ≤ S.card := by
  rw [tablePages_eq_card]
  refine card_le_card fun i hi => ?_
  obtain ⟨hlt, hp⟩ := mem_filter.1 hi
  exact h i (mem_range.1 hlt) hp

/-- A table that is missing counts. -/
theorem TablesIn.missing_le (h : TablesIn S D) (hu : u / 1024 ∈ S) :
    tablePages D + (!D.hasTable u).toNat ≤ S.card := by
  cases ht : D.hasTable u with
  | true =>
    rw [Bool.not_true, Bool.toNat_false, Nat.add_zero]
    exact h.le
  | false =>
    have herase : TablesIn (S.erase (u / 1024)) D := fun i hi hp => by
      refine mem_erase.2 ⟨?_, h i hi hp⟩
      rintro rfl
      rw [PageDir.hasTable, hp] at ht
      cases ht
    have := herase.le
    rw [card_erase_of_mem hu] at this
    have := card_pos.2 ⟨_, hu⟩
    simp only [Bool.not_false, Bool.toNat_true]
    omega

theorem TablesIn.card_eq (h : TablesIn S D)
    (hall : ∀ i ∈ S, i < NPDENTRIES ∧ has (D.pde i) PTE_P = true) : tablePages D = S.card := by
  refine Nat.le_antisymm h.le ?_
  rw [tablePages_eq_card]
  exact card_le_card fun i hi => mem_filter.2 ⟨mem_range.2 (hall i hi).1, (hall i hi).2⟩

end

/-! ## The balance -/

variable [Build] {s s' : Kernel} {P P' : Pend} {a b : Nat → Nat}

/-- What others own more, the free list has less. -/
theorem Own.balance (h : Own s P) (h' : Own s' P')
    (hab : ∀ f, inUse s' P' f + P'.held f + a f = inUse s P f + P.held f + b f) :
    s'.freelist.length + ∑ f ∈ range (2 ^ 20), b f =
      s.freelist.length + ∑ f ∈ range (2 ^ 20), a f := by
  have hcount : ∀ {s : Kernel} {P : Pend}, Own s P →
      ∑ f ∈ range (2 ^ 20), s.freelist.count f = s.freelist.length := fun {s P} h => by
    refine sum_count fun f hf => (h.managed ?_).lt
    have := List.count_pos_iff.2 hf
    unfold owned
    omega
  rw [← hcount h, ← hcount h', ← sum_add_distrib, ← sum_add_distrib]
  refine sum_congr rfl fun f _ => ?_
  have h1 := h f
  have h2 := h' f
  have h3 := hab f
  unfold owned at h1 h2
  omega

end Xv6
