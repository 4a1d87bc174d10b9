import Xv6.Vm.Kalloc

/-!
# Two-level page tables: `walkpgdir` and `mappages`

`walkpgdir` returns a pointer to a page table entry; `loadPte` and `storePte`
dereference it.
-/

namespace Xv6

open Lib

/-- `pte_t *`: the directory, the table index and the index in the table. -/
structure PtePtr where
  dir : Nat
  i : Nat
  j : Nat

def loadPte (q : PtePtr) : K Word := do
  let s ← get
  pure ((s.dirs q.dir).tab q.i q.j)

def storePte (q : PtePtr) (w : Word) : K Unit :=
  modify fun s => s.setDir q.dir ((s.dirs q.dir).setPte q.i q.j w)

/-- `*pde = V2P(pgtab) | PTE_P | PTE_W | PTE_U` after clearing the new table. -/
def PageDir.addTable (D : PageDir) (i : Nat) (f : Nat) : PageDir where
  pde := Function.update D.pde i (pageWord f ||| PTE_P ||| PTE_W ||| PTE_U)
  tab := Function.update D.tab i fun _ => 0

def walkpgdir (d : Nat) (va : Nat) (alloc : Bool) : K (Option PtePtr) := do
  let s ← get
  if has ((s.dirs d).pde (pdx va)) PTE_P then pure (some ⟨d, pdx va, ptx va⟩)
  else if alloc then do
    match ← kalloc with
    | none => pure none
    | some pgtab => do
      modify fun s => s.setDir d ((s.dirs d).addTable (pdx va) pgtab)
      pure (some ⟨d, pdx va, ptx va⟩)
  else pure none

/-- The body of the loop of `mappages` at `a`, followed by the rest of the loop. -/
def mapEntry (d : Nat) (perm : Word) (a pa : Nat) (rest : K Int) : K Int := do
  match ← walkpgdir d a true with
  | none => pure (-1)
  | some q => do
    let w ← loadPte q
    if has w PTE_P then kpanic "remap"
    else do
      storePte q (BitVec.ofNat 32 pa ||| perm ||| PTE_P)
      rest

/-- The loop of `mappages`: `n` is how often `a` still advances before it is `last`. -/
def mappagesLoop (d : Nat) (perm : Word) : Nat → Nat → Nat → K Int
  | 0, a, pa => mapEntry d perm a pa (pure 0)
  | n + 1, a, pa =>
    mapEntry d perm a pa (mappagesLoop d perm n ((a + PGSIZE) % 2 ^ 32) ((pa + PGSIZE) % 2 ^ 32))

def mappages (d : Nat) (va size pa : Nat) (perm : Word) : K Int :=
  let a := pgrounddown va
  let last := pgrounddown ((va + size + 2 ^ 32 - 1) % 2 ^ 32)
  if size % PGSIZE ≠ 0 then kpanic "mappages: size not multiple of PGSIZE"
  else mappagesLoop d perm ((last + 2 ^ 32 - a) % 2 ^ 32 / PGSIZE) a pa

end Xv6
