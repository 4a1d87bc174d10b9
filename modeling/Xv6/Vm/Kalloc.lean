import Xv6.Vm.State

/-!
# `kalloc.c`: the page frame allocator

The free list is threaded through the free pages themselves; here it is the list
of frames in list order, and `freePage` is what `kfree` leaves in a page: the link
to the next free page followed by junk.
-/

namespace Xv6

open Lib

/-- A page on the free list: a 4-byte link, then the fill byte. -/
def freePage (next : Nat) (off : Nat) : Byte :=
  if off < 4 then BitVec.ofNat 8 ((if next = 0 then 0 else KERNBASE + next * PGSIZE) / 256 ^ off)
  else 1

def kalloc : K (Option Nat) := do
  modify fun s => { s with totalFreePages := s.totalFreePages - 1 }
  let s ← get
  match s.freelist with
  | [] => pure none
  | f :: l => do
    set { s with freelist := l }
    pure (some f)

/-- The frames `kfree` accepts. -/
def Managed [Build] (f : Nat) : Prop := Build.kend ≤ f * PGSIZE ∧ f * PGSIZE < PHYSTOP

instance [Build] (f : Nat) : Decidable (Managed f) := by unfold Managed; infer_instance

def kfree [Build] (f : Nat) : K Unit := do
  modify fun s => { s with totalFreePages := s.totalFreePages + 1 }
  if Managed f then
    modify fun s => { s.setMem f (freePage (s.freelist.headD 0)) with freelist := f :: s.freelist }
  else kpanic "kfree"

/-- The state after `kalloc` left the free list `l`. -/
def Kernel.taken (s : Kernel) (l : List Nat) : Kernel :=
  { s with totalFreePages := s.totalFreePages - 1, freelist := l }

/-- The state after `kfree` of frame `f`. -/
def Kernel.freed (s : Kernel) (f : Nat) : Kernel :=
  { s.setMem f (freePage (s.freelist.headD 0)) with
    totalFreePages := s.totalFreePages + 1
    freelist := f :: s.freelist }

section

variable {E : String → Prop} {s : Kernel}

theorem kalloc_wp {Q : Option Nat → Kernel → Prop} (hn : s.freelist = [] → Q none (s.taken []))
    (hs : ∀ f l, s.freelist = f :: l → Q (some f) (s.taken l)) : wp kalloc E Q s := by
  unfold kalloc
  simp only [wp_bind, wp_modify, wp_get]
  cases hf : s.freelist with
  | nil => exact hn hf
  | cons f l => exact hs f l hf

theorem kfree_wp [Build] {Q : Unit → Kernel → Prop} {f : Nat} (hm : Managed f)
    (h : Q () (s.freed f)) : wp (kfree f) E Q s := by
  unfold kfree
  simp only [wp_bind, wp_modify]
  rw [if_pos hm]
  exact h

end

end Xv6
