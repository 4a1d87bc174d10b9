import Xv6.Proc.Flat
import Xv6.Proc.Start

/-!
# Frames have one owner

The counts of `Own` read as a statement about owners: every frame that `kfree` accepts is on
the free list once or has exactly one owner among the kernel stacks, directories, page tables
and present user pages of the processes (`frames_exclusive`).
-/

namespace Xv6

open Lib Finset

/-- What a process may use a frame for. -/
inductive Role where
  | kstack
  | pgdir
  /-- The page table of directory entry `i`. -/
  | table (i : Nat)
  /-- The user page `u`. -/
  | user (u : Nat)
  deriving DecidableEq

/-- A process and what it uses a frame for. -/
structure Owner where
  slot : Nat
  role : Role
  deriving DecidableEq

/-- The process `q` with directory `D` uses frame `f` in this role. -/
def Role.Holds (q : Proc) (D : PageDir) (f : Nat) : Role → Prop
  | .kstack => q.kstack = f
  | .pgdir => q.pgdir = f
  | .table i => i < NPDENTRIES ∧ has (D.pde i) PTE_P = true ∧ pageNo (D.pde i) = f
  | .user u => u < NUSER ∧ has (D.pte u) PTE_P = true ∧ pageNo (D.pte u) = f

/-- Slot `p` holds a process or a zombie. -/
def Live (s : Kernel) (p : Nat) : Prop := p < NPROC ∧ (s.proc p).state.live = true

/-- `o` uses frame `f`. -/
def Owns (s : Kernel) (o : Owner) (f : Nat) : Prop :=
  Live s o.slot ∧ o.role.Holds (s.proc o.slot) (s.dirs (s.proc o.slot).pgdir) f

/-! ## Counting owners -/

section

variable {s : Kernel} {q : Proc} {D : PageDir} {f p : Nat} {r r' : Role} {o o' : Owner}

theorem mapsTo_pos {w : Word} : 0 < mapsTo w f ↔ has w PTE_P = true ∧ pageNo w = f := by
  unfold mapsTo
  split <;> simp_all

theorem Role.exists_of_pos (h : 0 < ind (q.kstack = f) + dirCount q.pgdir D f) :
    ∃ r : Role, r.Holds q D f := by
  unfold dirCount at h
  have hcase : 0 < ind (q.kstack = f) ∨ 0 < ind (q.pgdir = f) ∨
      0 < ∑ i ∈ range NPDENTRIES, mapsTo (D.pde i) f ∨
      0 < ∑ u ∈ range NUSER, mapsTo (D.pte u) f := by omega
  obtain hk | hd | ht | hu := hcase
  · exact ⟨.kstack, (ind_pos (c := q.kstack = f)).1 hk⟩
  · exact ⟨.pgdir, (ind_pos (c := q.pgdir = f)).1 hd⟩
  · obtain ⟨i, hi, hpos⟩ := exists_pos_of_sum_pos ht
    exact ⟨.table i, hi, mapsTo_pos.1 hpos⟩
  · obtain ⟨u, hu, hpos⟩ := exists_pos_of_sum_pos hu
    exact ⟨.user u, hu, mapsTo_pos.1 hpos⟩

/-- The part of the count of one process that a role belongs to. -/
def Role.part (q : Proc) (D : PageDir) (f : Nat) : Role → Nat
  | .kstack => ind (q.kstack = f)
  | .pgdir => ind (q.pgdir = f)
  | .table _ => ∑ i ∈ range NPDENTRIES, mapsTo (D.pde i) f
  | .user _ => ∑ u ∈ range NUSER, mapsTo (D.pte u) f

theorem Role.part_pos (h : r.Holds q D f) : 0 < r.part q D f := by
  cases r with
  | kstack => exact (ind_pos (c := q.kstack = f)).2 h
  | pgdir => exact (ind_pos (c := q.pgdir = f)).2 h
  | table i => exact (mapsTo_pos.2 h.2).trans_le (term_le_sum (fun i => mapsTo (D.pde i) f) h.1)
  | user u => exact (mapsTo_pos.2 h.2).trans_le (term_le_sum (fun u => mapsTo (D.pte u) f) h.1)

theorem Role.part_le (r : Role) : r.part q D f ≤ ind (q.kstack = f) + dirCount q.pgdir D f := by
  unfold dirCount
  cases r <;> dsimp only [part] <;> omega

/-- Two roles of one process count twice. -/
theorem Role.pair_le (hne : r ≠ r') (h : r.Holds q D f) (h' : r'.Holds q D f) :
    2 ≤ ind (q.kstack = f) + dirCount q.pgdir D f := by
  have h1 := part_pos h
  have h2 := part_pos h'
  unfold dirCount
  cases r with
  | kstack =>
    cases r' with
    | kstack => exact absurd rfl hne
    | _ => dsimp only [part] at h1 h2; omega
  | pgdir =>
    cases r' with
    | pgdir => exact absurd rfl hne
    | _ => dsimp only [part] at h1 h2; omega
  | table i =>
    cases r' with
    | table j =>
      have h3 := pair_le_sum (fun i => mapsTo (D.pde i) f) h.1 h'.1 fun e => hne (by rw [e])
      have h4 := mapsTo_pos.2 h.2
      have h5 := mapsTo_pos.2 h'.2
      omega
    | _ => dsimp only [part] at h1 h2; omega
  | user u =>
    cases r' with
    | user v =>
      have h3 := pair_le_sum (fun u => mapsTo (D.pte u) f) h.1 h'.1 fun e => hne (by rw [e])
      have h4 := mapsTo_pos.2 h.2
      have h5 := mapsTo_pos.2 h'.2
      omega
    | _ => dsimp only [part] at h1 h2; omega

theorem procCount_live (h : Live s p) : procCount s Pend.none.skip p f =
    ind ((s.proc p).kstack = f) + dirCount (s.proc p).pgdir (s.dirs (s.proc p).pgdir) f := by
  unfold procCount
  rw [counted_none h.1, h.2, if_pos rfl]

theorem Owns.count_pos (h : Owns s o f) : 0 < procCount s Pend.none.skip o.slot f := by
  rw [procCount_live h.1]
  exact (Role.part_pos h.2).trans_le (Role.part_le _)

theorem Owns.inUse_pos (h : Owns s o f) : 0 < inUse s Pend.none f := by
  have := term_le_sum (fun p => procCount s Pend.none.skip p f) h.1.1
  have := h.count_pos
  unfold inUse
  omega

/-- Two owners count twice. -/
theorem Owns.pair_le (h : Owns s o f) (h' : Owns s o' f) (hne : o ≠ o') :
    2 ≤ inUse s Pend.none f := by
  unfold inUse
  by_cases e : o.slot = o'.slot
  · have hr : o.role ≠ o'.role := fun hr => hne (by cases o; cases o'; simp_all)
    have h2 := h'.2
    rw [← e] at h2
    have h3 := Role.pair_le hr h.2 h2
    rw [← procCount_live h.1] at h3
    have h4 := term_le_sum (fun p => procCount s Pend.none.skip p f) h.1.1
    omega
  · have h3 := pair_le_sum (fun p => procCount s Pend.none.skip p f) h.1.1 h'.1.1 e
    have h4 := h.count_pos
    have h5 := h'.count_pos
    omega

theorem exists_owner (h : 0 < inUse s Pend.none f) : ∃ o, Owns s o f := by
  unfold inUse at h
  rw [show extraCount s Pend.none.dirs f = 0 from rfl, Nat.add_zero] at h
  obtain ⟨p, hp, hpos⟩ := exists_pos_of_sum_pos h
  have hlive : Live s p := by
    refine ⟨hp, ?_⟩
    by_contra hc
    rw [procCount, counted_of_hidden (by simpa using hc), if_neg (by decide)] at hpos
    omega
  rw [procCount_live hlive] at hpos
  obtain ⟨r, hr⟩ := Role.exists_of_pos hpos
  exact ⟨⟨p, r⟩, hlive, hr⟩

end

section

variable [Build] {s s' : Kernel} {F : Nat → Nat → Nat → Byte} {t : List Label}

/-- Who uses which frame. -/
structure FramesOk (s : Kernel) : Prop where
  /-- A managed frame is free once or has exactly one owner. -/
  managed : ∀ f, Managed f → s.freelist.count f = 1 ∧ (∀ o, ¬ Owns s o f) ∨
    f ∉ s.freelist ∧ ∃! o, Owns s o f
  other : ∀ f, ¬ Managed f → f ∉ s.freelist ∧ ∀ o, ¬ Owns s o f
  /-- A frame is open to the user of one process, at one page. -/
  user : ∀ p q, Live s p → Live s q → ∀ va va' w w',
    userPte (s.dirs (s.proc p).pgdir) (BitVec.toNat (w := 32) va) = some w →
    userPte (s.dirs (s.proc q).pgdir) (BitVec.toNat (w := 32) va') = some w' →
    pageNo w = pageNo w' → p = q ∧ page va = page va'
  /-- Users have no access to the kernel half. -/
  kernel : ∀ p, Live s p →
    (∀ i, 512 ≤ i → i < NPDENTRIES → has ((s.dirs (s.proc p).pgdir).pde i) PTE_U = false) ∧
    ∀ u, NUSER ≤ u → u < 2 ^ 20 → has ((s.dirs (s.proc p).pgdir).pte u) PTE_U = false

theorem Own.framesOne (h : Own s Pend.none) (f : Nat) :
    s.freelist.count f + inUse s Pend.none f = ind (Managed f) := by
  have h1 := h f
  unfold owned at h1
  rw [show Pend.none.held f = 0 from rfl, Nat.add_zero] at h1
  exact h1

theorem Inv.framesOk (h : Inv s Pend.none F) : FramesOk s where
  managed f hf := by
    have hone := h.own.framesOne f
    rw [ind_true hf] at hone
    obtain hfree | hfree := Nat.eq_zero_or_pos (s.freelist.count f)
    · obtain ⟨o, ho⟩ := exists_owner (s := s) (f := f) (by omega)
      refine .inr ⟨List.count_eq_zero.1 hfree, o, ho, fun o' ho' => ?_⟩
      by_contra hne
      have := ho'.pair_le ho hne
      omega
    · refine .inl ⟨by omega, fun o ho => ?_⟩
      have := ho.inUse_pos
      omega
  other f hf := by
    have hone := h.own.framesOne f
    rw [ind_false hf] at hone
    refine ⟨List.count_eq_zero.1 (by omega), fun o ho => ?_⟩
    have := ho.inUse_pos
    omega
  user p q hp hq va va' w w' hw hw' he := by
    have hdir := h.dirs p hp.1 (by rw [counted_none hp.1, hp.2])
    have hdir' := h.dirs q hq.1 (by rw [counted_none hq.1, hq.2])
    obtain ⟨hu, -, rfl, hP, -⟩ := userPte_some hdir va.isLt hw
    obtain ⟨hu', -, rfl, hP', -⟩ := userPte_some hdir' va'.isLt hw'
    have ho : Owns s ⟨p, .user (page va)⟩ (pageNo ((s.dirs (s.proc p).pgdir).pte (page va))) :=
      ⟨hp, hu, hP, rfl⟩
    have ho' : Owns s ⟨q, .user (page va')⟩ (pageNo ((s.dirs (s.proc p).pgdir).pte (page va))) :=
      ⟨hq, hu', hP', he.symm⟩
    have heq : (⟨p, .user (page va)⟩ : Owner) = ⟨q, .user (page va')⟩ := by
      by_contra hne
      have h1 := ho.pair_le ho' hne
      have h2 := h.own.framesOne (pageNo ((s.dirs (s.proc p).pgdir).pte (page va)))
      have h3 := ind_le_one (Managed (pageNo ((s.dirs (s.proc p).pgdir).pte (page va))))
      omega
    rw [Owner.mk.injEq, Role.user.injEq] at heq
    exact heq
  kernel p hp := by
    have hdir := h.dirs p hp.1 (by rw [counted_none hp.1, hp.2])
    exact ⟨hdir.kernelPde, fun u hu hlt => (hdir.kernelPte u hu hlt).1⟩

/-- In every state the machine reaches, frames have one owner. -/
theorem frames_exclusive (h : Inv s Pend.none F) (hrun : Run Step s t s') : FramesOk s' := by
  obtain ⟨F', h'⟩ := reachable_inv h hrun
  exact h'.framesOk

end

/-- On the small machine, a process writes a byte and grows by a page. -/
theorem frames_exclusive_small :
    let _ := smallBuild .nfu
    ∃ s', Run Step (smallKernel .nfu)
      [⟨0, .write 0x1000#32 7#8, .done⟩, ⟨0, .growproc 0x1000#32, .ret 0⟩] s' ∧ FramesOk s' := by
  let _ := smallBuild .nfu
  have hrun : ∃ s', Run Step (smallKernel .nfu)
      [⟨0, .write 0x1000#32 7#8, .done⟩, ⟨0, .growproc 0x1000#32, .ret 0⟩] s' :=
    ⟨_, .step ⟨by decide, rfl⟩ (.step ⟨by decide, rfl⟩ (.refl _))⟩
  obtain ⟨s', hrun⟩ := hrun
  exact ⟨s', hrun, frames_exclusive (small_start .nfu).inv hrun⟩

end Xv6
