import Xv6.Swap.Move

/-!
# `vm.c`: building and tearing down address spaces

`deallocuvm` walks upward from `PGROUNDUP(newsz)`; where a page table is missing it
jumps to the next directory entry. The loop takes fuel, and `deallocuvm` gives it
one unit for each page below `oldsz` and one more.
-/

namespace Xv6

open Lib

variable [Build]

/-- The body of the loop of `deallocuvm` at `a`, where the page table exists. -/
def deallocPage (oldsz a : Nat) (pte : PtePtr) : K Unit := do
  let w ← loadPte pte
  let s ← get
  if has w PTE_PG then
    if oldsz ≠ KERNBASE then do
      storePte pte 0
      let r ← unlinkPage s.cur a
      assertPanic (r = 0) "unlinkPage(myproc(), a)==0"
    else pure ()
  else if has w PTE_P then
    if pageNo w = 0 then kpanic "kfree"
    else do
      if oldsz ≠ KERNBASE then do
        let r ← unlinkPage s.cur a
        assertPanic (r = 0) "unlinkPage(myproc(),(uint)a) == 0"
      kfree (pageNo w)
      storePte pte 0
  else pure ()

def deallocLoop (d : Nat) (oldsz : Nat) : Nat → Nat → K Unit
  | 0, _ => kpanic "deallocuvm: out of fuel"
  | fuel + 1, a =>
    if a < oldsz then do
      match ← walkpgdir d a false with
      | none => deallocLoop d oldsz fuel ((pgaddr (pdx a + 1) 0 0 + 2 ^ 32 - PGSIZE + PGSIZE) % 2 ^ 32)
      | some pte => do
        deallocPage oldsz a pte
        deallocLoop d oldsz fuel ((a + PGSIZE) % 2 ^ 32)
    else pure ()

def deallocuvm (d : Nat) (oldsz newsz : Nat) : K Nat :=
  if oldsz ≤ newsz then pure oldsz
  else do
    deallocLoop d oldsz (oldsz / PGSIZE + 2) (pgroundup newsz)
    pure newsz

/-- Free the page table pages of entries `i`, `i + 1`, .. (`n` of them). -/
def freeTables (d : Nat) : Nat → Nat → K Unit
  | 0, _ => pure ()
  | n + 1, i => do
    let s ← get
    if has ((s.dirs d).pde i) PTE_P then kfree (pageNo ((s.dirs d).pde i))
    freeTables d n (i + 1)

def freevm (d : Nat) : K Unit := do
  if d = 0 then kpanic "freevm: no pgdir"
  else do
    let _ ← deallocuvm d KERNBASE 0
    freeTables d NPDENTRIES 0
    kfree d

/-- One row of `kmap`. -/
structure Kmap where
  virt : Nat
  physStart : Nat
  physEnd : Nat
  perm : Word

def kmap : List Kmap :=
  [⟨KERNBASE, 0, EXTMEM, PTE_W⟩,
   ⟨KERNLINK, EXTMEM, Build.data - KERNBASE, 0⟩,
   ⟨Build.data, Build.data - KERNBASE, PHYSTOP, PTE_W⟩,
   ⟨DEVSPACE, DEVSPACE, 0, PTE_W⟩]

/-- The loop over `kmap`. -/
def mapKernel (d : Nat) : List Kmap → K Int
  | [] => pure 0
  | k :: ks => do
    let r ← mappages d k.virt ((k.physEnd + 2 ^ 32 - k.physStart) % 2 ^ 32) k.physStart k.perm
    if r < 0 then pure (-1) else mapKernel d ks

/-- `pgdir[i] &= ~PTE_U` for the kernel half. -/
def PageDir.hideKernel (D : PageDir) : PageDir :=
  { D with pde := fun i => if 512 ≤ i ∧ i < 1024 then D.pde i &&& ~~~PTE_U else D.pde i }

def setupkvm : K (Option Nat) := do
  match ← kalloc with
  | none => pure none
  | some d => do
    modify fun s => s.setDir d ⟨fun _ => 0, fun _ _ => 0⟩
    if KERNBASE + PHYSTOP > DEVSPACE then kpanic "PHYSTOP too high"
    else do
      let r ← mapKernel d kmap
      if r < 0 then do
        freevm d
        pure none
      else do
        modify fun s => s.setDir d (s.dirs d).hideKernel
        pure (some d)

/-- The body of the loop of `allocuvm` at `a`; `false` when `allocuvm` returns 0. -/
def allocPage (d : Nat) (oldsz newsz a : Nat) : K Bool := do
  match ← kalloc with
  | none => do
    cprintf "allocuvm out of memory\n"
    let _ ← deallocuvm d newsz oldsz
    pure false
  | some mem => do
    modify fun s => s.setMem mem fun _ => 0
    let r ← mappages d a PGSIZE (mem * PGSIZE) (PTE_W ||| PTE_U)
    if r < 0 then do
      cprintf "allocuvm out of memory (2)\n"
      let _ ← deallocuvm d newsz oldsz
      kfree mem
      pure false
    else do
      let s ← get
      let l ← linkNewPage s.cur a
      if l ≠ 0 then do
        cprintf (errorStr "deallocuvm: linkNewPage failed\n")
        match ← walkpgdir d a false with
        | none => kpanic "pte != 0"
        | some pte => do
          storePte pte 0
          kfree mem
          let _ ← deallocuvm d newsz oldsz
          pure false
      else pure true

/-- The loop of `allocuvm` at `a`, with `n` pages below `newsz` left. -/
def allocLoop (d : Nat) (oldsz newsz : Nat) : Nat → Nat → K Nat
  | 0, _ => pure newsz
  | n + 1, a => do
    if ← allocPage d oldsz newsz a then allocLoop d oldsz newsz n (a + PGSIZE) else pure 0

def allocuvm (d : Nat) (oldsz newsz : Nat) : K Nat :=
  if KERNBASE ≤ newsz then pure 0
  else if newsz < oldsz then pure oldsz
  else allocLoop d oldsz newsz ((newsz - pgroundup oldsz + PGSIZE - 1) / PGSIZE) (pgroundup oldsz)

/-- The body of the loop of `copyuvm` at `i`; `false` after `bad`. -/
def copyPage (pgdir d i : Nat) : K Bool := do
  match ← walkpgdir pgdir i false with
  | none => kpanic "copyuvm: pte should exist"
  | some pte => do
    let w ← loadPte pte
    if has w PTE_PG then do
      match ← walkpgdir d i true with
      | none => kpanic "newPte != 0"
      | some newPte => do
        storePte newPte (pteFlags w)
        let s ← get
        assertPanic (d ≠ s.cr3) "V2P(d)!=rcr3()"
        assertPanic (pgdir = s.cr3) "V2P(pgdir)==rcr3()"
        pure true
    else if has w PTE_P then do
      match ← kalloc with
      | none => do
        freevm d
        pure false
      | some mem => do
        modify fun s => s.setMem mem (s.mem (pageNo w))
        let r ← mappages d i PGSIZE (mem * PGSIZE) (pteFlags w)
        if r < 0 then do
          kfree mem
          freevm d
          pure false
        else pure true
    else kpanic "copyuvm: page not present"

/-- The loop of `copyuvm` at `i`, with `n` pages below `sz` left. -/
def copyLoop (pgdir d : Nat) : Nat → Nat → K (Option Nat)
  | 0, _ => pure (some d)
  | n + 1, i => do
    if ← copyPage pgdir d i then copyLoop pgdir d n (i + PGSIZE) else pure none

def copyuvm (pgdir : Nat) (sz : Nat) : K (Option Nat) := do
  match ← setupkvm with
  | none => pure none
  | some d => copyLoop pgdir d ((sz - PGSIZE + PGSIZE - 1) / PGSIZE) PGSIZE

end Xv6
