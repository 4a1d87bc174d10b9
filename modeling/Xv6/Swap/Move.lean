import Xv6.Vm.PageTable
import Xv6.Swap.File
import Xv6.Swap.Table

/-!
# `swap.c`: moving pages between memory and swap

`linkNewPage` evicts a page through `moveToSwap` when `VPA_Memory` is full;
`recoverPageFault` brings a page back and links it again.
-/

namespace Xv6

open Lib

def getProc (p : Nat) : K Proc := do
  let s ← get
  pure (s.proc p)

def setProc (p : Nat) (q : Proc) : K Unit := modify fun s => s.setProc p q

theorem getProc_wp {E : String → Prop} {Q : Proc → Kernel → Prop} {p : Nat} {s : Kernel}
    (h : Q (s.proc p) s) : wp (getProc p) E Q s := h

theorem setProc_wp {E : String → Prop} {Q : Unit → Kernel → Prop} {p : Nat} {q : Proc}
    {s : Kernel} (h : Q () (s.setProc p q)) : wp (setProc p q) E Q s := h

variable [Build]

def moveToSwap (p idxMem idxSwap : Nat) : K Int := do
  assertPanic (idxMem < MAX_PSYC_PAGES) "idx_mem < MAX_PSYC_PAGES"
  assertPanic (idxSwap < MAX_SWAP_PAGES) "idx_swap < MAX_SWAP_PAGES"
  let q ← getProc p
  let vpa := entryAddr (q.vpaMemory idxMem)
  assertPanic (vpa % PGSIZE = 0) "PTE_FLAGS(vpa)==0"
  match ← walkpgdir q.pgdir vpa false with
  | none => do
    cprintf (errorStr "moveToSwap: walkpgdir failed VPA_Memory is dirty\n")
    pure (-1)
  | some pte => do
    let w ← loadPte pte
    let mem := pageNo w
    -- `P2V` of this page is the null pointer
    if mem * PGSIZE = KERNBASE then do
      cprintf (errorStr "moveToSwap: memory not found in PTE Entry\n")
      pure (-1)
    else do
      let r ← writeToSwapFile p mem (idxSwap * PGSIZE) PGSIZE
      if r ≠ (PGSIZE : Int) then do
        cprintf (errorStr "moveToSwap: writeToSwapFile failed\n")
        pure (-1)
      else do
        let q ← getProc p
        setProc p { q with
          vpaSwap := Function.update q.vpaSwap idxSwap (SWAP_P ||| BitVec.ofNat 32 vpa) }
        let s ← get
        assertPanic (s.cur = p) "myproc() == p"
        assertPanic (q.pgdir = s.cr3) "V2P(p->pgdir) == rcr3()"
        storePte pte ((w &&& ~~~PTE_P) ||| PTE_PG)
        kfree mem
        pure 0

def moveFromSwap (p vpa : Nat) (mem : Nat) : K Int := do
  assertPanic (vpa % PGSIZE = 0) "PTE_FLAGS(vpa) == 0"
  let q ← getProc p
  match swapSlot q vpa with
  | none => pure (-1)
  | some i => do
    let r ← readFromSwapFile p mem (i * PGSIZE) PGSIZE
    if r ≠ (PGSIZE : Int) then do
      cprintf (errorStr "moveFromSwap: readFromSwapFile failed\n")
      pure (-1)
    else do
      let q ← getProc p
      setProc p { q with vpaSwap := Function.update q.vpaSwap i 0 }
      pure 0

/-- `linkNewPage` with `VPA_Memory` full, under `FIFO_SWAP`. -/
def linkFullFifo (p vpa : Nat) : K Int := do
  let q ← getProc p
  assertPanic (q.qHead = q.qTail) "p->q_head == p->q_tail"
  match getFreeSwapPageIndex q with
  | none => do
    cprintf (errorStr "linkNewPage: getFreeSwapPageIndex failed | max number of pages reached\n")
    pure (-1)
  | some idxSwap => do
    -- the result is not tested
    let _ ← moveToSwap p q.qHead idxSwap
    let q ← getProc p
    setProc p { q with
      vpaMemory := Function.update q.vpaMemory q.qTail (BitVec.ofNat 32 vpa)
      qTail := (q.qTail + 1) % MAX_PSYC_PAGES
      qHead := (q.qHead + 1) % MAX_PSYC_PAGES }
    pure 0

/-- `linkNewPage` with `VPA_Memory` full, under `NFU_SWAP`. -/
def linkFullNfu (p vpa : Nat) : K Int := do
  let q ← getProc p
  match getFreeSwapPageIndex q with
  | none => do
    cprintf (errorStr "linkNewPage: getFreeSwapPageIndex failed | max number of pages reached\n")
    pure (-1)
  | some idxSwap =>
    match nfuVictim q.vpaMemory with
    | none => kpanic "idx_mem != -1"
    | some idxMem => do
      let r ← moveToSwap p idxMem idxSwap
      if r ≠ 0 then do
        cprintf (errorStr "linkNewPage: moveToSwap failed\n")
        pure (-1)
      else do
        let q ← getProc p
        setProc p { q with vpaMemory := Function.update q.vpaMemory idxMem (BitVec.ofNat 32 vpa) }
        pure 0

def linkNewPage (p vpa : Nat) : K Int := do
  assertPanic (vpa % PGSIZE = 0) "PTE_FLAGS(vpa) ==0"
  let q ← getProc p
  if q.sizeMem = MAX_PSYC_PAGES then
    match Build.policy with
    | .fifo => linkFullFifo p vpa
    | .nfu => linkFullNfu p vpa
  else do
    setProc p (pushMemory q vpa)
    pure 0

def unlinkPage (p vpa : Nat) : K Int := do
  let q ← getProc p
  match unlinkTables q vpa with
  | .error m => kpanic m
  | .ok (r, q') => do
    setProc p q'
    pure r

def recoverPageFault (va : Nat) : K Int := do
  let vpa := pgrounddown va
  let s ← get
  let p := s.cur
  let d := (s.proc p).pgdir
  match ← walkpgdir d va false with
  | none => pure (-1)
  | some pte => do
    let w ← loadPte pte
    if !has w PTE_PG then pure (-1)
    else do
      match ← kalloc with
      | none => do
        cprintf (errorStr "recoverPageFault: kalloc failed\n")
        pure (-1)
      | some mem => do
        let r ← moveFromSwap p vpa mem
        if r < 0 then do
          cprintf (errorStr "recoverPageFault: moveFromSwap failed | swap file dirty\n")
          kfree mem
          pure (-1)
        else do
          assertPanic (has w PTE_PG) "flags & PTE_PG"
          assertPanic (!has w PTE_P) "!(flags & PTE_P)"
          let flags := (pteFlags w &&& ~~~PTE_PG) ||| PTE_P
          let s ← get
          assertPanic (s.cr3 = d) "rcr3() == V2P(p->pgdir)"
          storePte pte (pageWord mem ||| flags)
          let _ ← linkNewPage p vpa
          let s ← get
          assertPanic (s.cr3 = d) "rcr3() == V2P(p->pgdir)"
          pure 0

/-- The loop of `nfu_Increment_Counter` from entry `i` on, `n` entries left. -/
def nfuIncrementLoop (p : Nat) : Nat → Nat → K Unit
  | 0, _ => pure ()
  | n + 1, i => do
    let q ← getProc p
    let vpa := entryAddr (q.vpaMemory i)
    match ← walkpgdir q.pgdir vpa false with
    | none => kpanic "pte != 0"
    | some pte => do
      let w ← loadPte pte
      if has w PTE_A then do
        let cnt := nfuMemCounter (q.vpaMemory i) + 1
        setProc p { q with
          vpaMemory := Function.update q.vpaMemory i (BitVec.ofNat 32 vpa ||| nfuMemCounter cnt) }
        storePte pte (w &&& ~~~PTE_A)
      nfuIncrementLoop p n (i + 1)

def nfuIncrementCounter (p : Nat) : K Unit := do
  let q ← getProc p
  nfuIncrementLoop p q.sizeMem 0

end Xv6
