import Xv6.Vm.State

/-!
# `VPA_Memory` and `VPA_Swap`

The per-process tables of resident and swapped-out pages. Under `NFU_SWAP` the
first `size_mem` entries of `VPA_Memory` are live and carry a use counter; under
`FIFO_SWAP` they form a ring from `q_head`.
-/

namespace Xv6

open Lib

/-- `getFreeSwapPageIndex`, `none` for `-1`. -/
def getFreeSwapPageIndex (p : Proc) : Option Nat :=
  (List.range MAX_SWAP_PAGES).find? fun i => !has (p.vpaSwap i) SWAP_P

/-- The first slot holding page `vpa`. -/
def swapSlot (p : Proc) (vpa : Nat) : Option Nat :=
  (List.range MAX_SWAP_PAGES).find? fun i =>
    has (p.vpaSwap i) SWAP_P && entryAddr (p.vpaSwap i) == vpa

/-- One round of the NFU scan: a counter not above the best so far wins. -/
def nfuBest (mem : Nat → Word) (best : Word × Option Nat) (i : Nat) : Word × Option Nat :=
  if nfuMemCounter (mem i) ≤ best.1 then (nfuMemCounter (mem i), some i) else best

/-- The entry `linkNewPage` evicts under `NFU_SWAP`. -/
def nfuVictim (mem : Nat → Word) : Option Nat :=
  ((List.range MAX_PSYC_PAGES).foldl (nfuBest mem) (0xffffffff#32, none)).2

/-- `CIRCLE_NEXT(x, MAX_PSYC_PAGES)`. -/
def circleNext (x : Nat) : Nat := if x + 1 = MAX_PSYC_PAGES then 0 else x + 1

/-- The inner loop of `unlinkPage` under `FIFO_SWAP`: close the gap at `idx`. -/
def fifoShift : Nat → (Nat → Word) → Nat → (Nat → Word) × Nat
  | 0, mem, idx => (mem, idx)
  | n + 1, mem, idx =>
    fifoShift n (Function.update mem idx (mem (circleNext idx))) (circleNext idx)

/-- The outer loop: `n` entries from `idx` on are still to be searched. -/
def fifoSearch (mem : Nat → Word) (vpa : Nat) : Nat → Nat → Option ((Nat → Word) × Nat)
  | 0, _ => none
  | n + 1, idx =>
    if entryAddr (mem idx) = vpa then some (fifoShift n mem idx)
    else fifoSearch mem vpa n (circleNext idx)

/-- The assertions of `unlinkPage` after removing an entry of the ring. -/
def fifoAssert (p : Proc) : Except String Unit :=
  if p.sizeMem = 0 then
    if p.qHead = p.qTail then .ok () else .error "p->q_head == p->q_tail"
  else if p.qHead < p.qTail then
    if p.qTail - p.qHead = p.sizeMem then .ok () else .error "p->q_tail-p->q_head == p->size_mem"
  else if MAX_PSYC_PAGES - p.qHead + p.qTail = p.sizeMem then .ok ()
  else .error "MAX_PSYC_PAGES - p->q_head + p->q_tail == p->size_mem"

/-- The index of `vpa` among the first `size_mem` entries. -/
def nfuSearch (p : Proc) (vpa : Nat) : Option Nat :=
  (List.range p.sizeMem).find? fun i => entryAddr (p.vpaMemory i) == vpa

/-- The part of `unlinkPage` that searches `VPA_Memory`. -/
def unlinkMemory [Build] (p : Proc) (vpa : Nat) : Except String (Option Proc) :=
  match Build.policy with
  | .fifo =>
    match fifoSearch p.vpaMemory vpa p.sizeMem p.qHead with
    | none => .ok none
    | some (mem, idx) =>
      let q := { p with vpaMemory := mem, qTail := idx, sizeMem := p.sizeMem - 1 }
      (fifoAssert q).map fun _ => some q
  | .nfu =>
    if MAX_PSYC_PAGES < p.sizeMem then .error "p->size_mem <= MAX_PSYC_PAGES"
    else match nfuSearch p vpa with
    | none => .ok none
    | some i =>
      let n := p.sizeMem - 1
      .ok (some { p with
        sizeMem := n
        vpaMemory := Function.update (Function.update p.vpaMemory i (p.vpaMemory n)) n 0 })

/-- `unlinkPage` on the tables; the return value and the new tables. -/
def unlinkTables [Build] (p : Proc) (vpa : Nat) : Except String (Int × Proc) :=
  if vpa % PGSIZE ≠ 0 then .error "PTE_FLAGS(vpa) == 0"
  else match unlinkMemory p vpa with
  | .error m => .error m
  | .ok (some q) => .ok (0, q)
  | .ok none =>
    match swapSlot p vpa with
    | some i => .ok (0, { p with vpaSwap := Function.update p.vpaSwap i 0 })
    | none => .ok (-1, p)

/-- Enter `vpa` in `VPA_Memory` when it is not full. -/
def pushMemory [Build] (p : Proc) (vpa : Nat) : Proc :=
  match Build.policy with
  | .fifo =>
    { p with
      vpaMemory := Function.update p.vpaMemory p.qTail (BitVec.ofNat 32 vpa)
      qTail := (p.qTail + 1) % MAX_PSYC_PAGES
      sizeMem := p.sizeMem + 1 }
  | .nfu =>
    { p with
      vpaMemory := Function.update p.vpaMemory p.sizeMem (BitVec.ofNat 32 vpa)
      sizeMem := p.sizeMem + 1 }

end Xv6
