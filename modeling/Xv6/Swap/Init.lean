import Xv6.Swap.Move

/-!
# `swap.c`: setting up and tearing down a process's swap state

`initSwap` gives a forked child a copy of its parent's tables and of the occupied
slots of the parent's swap file, packed towards the front of the new file.
-/

namespace Xv6

open Lib

/-- `if(j != i){ VPA_Swap[j] = VPA_Swap[i]; VPA_Swap[i] = 0; }` -/
def Proc.moveSlot (q : Proc) (i j : Nat) : Proc :=
  if j ≠ i then
    { q with vpaSwap := Function.update (Function.update q.vpaSwap j (q.vpaSwap i)) i 0 }
  else q

/-- `q` with the tables of `r`. -/
def Proc.copyTables (q r : Proc) : Proc :=
  { q with
    vpaSwap := r.vpaSwap
    vpaMemory := r.vpaMemory
    sizeMem := r.sizeMem
    qHead := r.qHead
    qTail := r.qTail }

/-- `q` with empty tables. -/
def Proc.freshTables (q : Proc) : Proc :=
  { q with
    vpaSwap := fun _ => 0
    vpaMemory := fun _ => 0
    sizeMem := 0
    qHead := 0
    qTail := 0 }

variable [Build]

/-- The loop of `initSwap` at slot `i`, with `n` slots left and `j` copied. -/
def initSwapLoop (p parent : Nat) (buff : Nat) : Nat → Nat → Nat → K Int
  | 0, _, _ => do
    kfree buff
    pure 0
  | n + 1, i, j => do
    let q ← getProc p
    if !has (q.vpaSwap i) SWAP_P then initSwapLoop p parent buff n (i + 1) j
    else do
      let r ← readFromSwapFile parent buff (i * PGSIZE) PGSIZE
      if r < 0 then do
        cprintf (errorStr "initSwap: readFromParentSwapFile failed\n")
        let _ ← removeSwapFile p
        pure (-1)
      else do
        setProc p (q.moveSlot i j)
        let r ← writeToSwapFile p buff (j * PGSIZE) PGSIZE
        if r < 0 then do
          cprintf (errorStr "initSwap: writeToSwapFile failed\n")
          let _ ← removeSwapFile p
          pure (-1)
        else initSwapLoop p parent buff n (i + 1) (j + 1)

def initSwap (p : Nat) : K Int := do
  let q ← getProc p
  match q.parent with
  | none => kpanic "p->parent!=0"
  | some parent => do
    let r ← getProc parent
    setProc p (q.copyTables r)
    let c ← createSwapFile p
    if c < 0 then do
      cprintf (errorStr "initSwap: createSwapFile failed\n")
      pure (-1)
    else do
      match ← kalloc with
      | none => kpanic "(buff = kalloc()) != 0"
      | some buff => initSwapLoop p parent buff MAX_SWAP_PAGES 0 0

def initFreshSwap (p : Nat) : K Int := do
  let q ← getProc p
  setProc p q.freshTables
  createSwapFile p

def destroySwap (p : Nat) : K Int := removeSwapFile p

/-- What `restoreSwap` prints for each slot. -/
def restoreMsg (vpa pid : Nat) : String :=
  debugStr ("restoreSwap: read from swap file vpa " ++ String.ofList (Nat.toDigits 16 vpa) ++
    " pid: " ++ toString pid ++ "\n")

/-- The loop of `restoreSwap` at slot `i`, with `n` slots left. -/
def restoreSwapLoop (p : Nat) : Nat → Nat → K Int
  | 0, _ => pure 0
  | n + 1, i => do
    let q ← getProc p
    if !has (q.vpaSwap i) SWAP_P then restoreSwapLoop p n (i + 1)
    else do
      match ← walkpgdir q.pgdir (entryAddr (q.vpaSwap i)) false with
      | none => kpanic "pte!=0"
      | some pte => do
        let w ← loadPte pte
        assertPanic (has w PTE_PG) "(*pte & PTE_PG)"
        assertPanic (!has w PTE_P) "!(*pte & PTE_P)"
        let flags := (pteFlags w &&& ~~~PTE_PG) ||| PTE_P
        let mem ← kalloc
        cprintf (restoreMsg (entryAddr (q.vpaSwap i)) q.pid)
        match mem with
        | none => do
          cprintf (errorStr "restoreSwap: kalloc failed\n")
          pure (-1)
        | some mem => do
          let s ← get
          assertPanic (q.pgdir = s.cr3) "V2P(p->pgdir) == rcr3()"
          -- the slot is not read back
          storePte pte (pageWord mem ||| flags)
          restoreSwapLoop p n (i + 1)

def restoreSwap (p : Nat) : K Int := restoreSwapLoop p MAX_SWAP_PAGES 0

end Xv6
