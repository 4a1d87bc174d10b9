import Xv6.Vm.Uvm
import Xv6.Swap.Init

/-!
# `proc.c`: the operations of a process on its memory and its children

Each operation runs to its end on behalf of `myproc()`. `wait` is one pass of the
scan in its loop: `none` means that the caller goes to sleep.
-/

namespace Xv6

open Lib

variable [Build]

def switchuvm (p : Nat) : K Unit := do
  let q ← getProc p
  if q.kstack = 0 then kpanic "switchuvm: no kstack"
  else if q.pgdir = 0 then kpanic "switchuvm: no pgdir"
  else modify fun s => { s with cr3 := q.pgdir }

/-- `growproc(n)`; `sz + n` is computed on 32-bit unsigned values. -/
def growproc (n : Int) : K Int := do
  let s ← get
  let q := s.proc s.cur
  if 0 < n then do
    let sz ← allocuvm q.pgdir q.sz ((q.sz + n) % 2 ^ 32).toNat
    if sz = 0 then pure (-1)
    else do
      let q ← getProc s.cur
      setProc s.cur { q with sz := sz }
      switchuvm s.cur
      pure 0
  else if n < 0 then do
    let sz ← deallocuvm q.pgdir q.sz ((q.sz + n) % 2 ^ 32).toNat
    if sz = 0 then pure (-1)
    else do
      let q ← getProc s.cur
      setProc s.cur { q with sz := sz }
      switchuvm s.cur
      pure 0
  else do
    switchuvm s.cur
    pure 0

/-- The slot `allocproc` takes. -/
def unusedSlot (s : Kernel) : Option Nat :=
  (List.range NPROC).find? fun p => (s.proc p).state == .unused

/-- `p->state = EMBRYO; p->pid = nextpid++`. -/
def Kernel.born (s : Kernel) (p : Nat) : Kernel :=
  { s.setProc p { s.proc p with state := .embryo, pid := s.nextpid } with nextpid := s.nextpid + 1 }

def allocproc : K (Option Nat) := do
  let s ← get
  match unusedSlot s with
  | none => pure none
  | some p => do
    set (s.born p)
    match ← kalloc with
    | none => do
      let q ← getProc p
      setProc p { q with kstack := 0, state := .unused }
      pure none
    | some f => do
      let q ← getProc p
      setProc p { q with kstack := f }
      pure (some p)

/-- Give the child's slot back: `kfree(np->kstack)` and `UNUSED`. -/
def dropChild (np : Nat) : K Int := do
  let q ← getProc np
  kfree q.kstack
  let q ← getProc np
  setProc np { q with kstack := 0, state := .unused }
  pure (-1)

def fork : K Int := do
  let s ← get
  match ← allocproc with
  | none => pure (-1)
  | some np => do
    let c := s.proc s.cur
    match ← copyuvm c.pgdir c.sz with
    | none => do
      let q ← getProc np
      setProc np { q with pgdir := 0 }
      dropChild np
    | some d => do
      let q ← getProc np
      setProc np { q with pgdir := d, sz := c.sz, parent := some s.cur }
      let r ← initSwap np
      if r < 0 then dropChild np
      else do
        let q ← getProc np
        setProc np { q with state := .runnable }
        pure q.pid

/-- `p->parent = initproc` for the children of `c`. -/
def reparent (s : Kernel) (c : Nat) : Kernel :=
  { s with proc := fun p =>
      if p < NPROC ∧ (s.proc p).parent = some c then { s.proc p with parent := some s.initproc }
      else s.proc p }

def exit : K Unit := do
  let s ← get
  let c := s.cur
  if c = s.initproc then kpanic "init exiting"
  else do
    let r ← destroySwap c
    assertPanic (r = 0) "destroySwap(curproc)==0"
    modify fun s => reparent s c
    let q ← getProc c
    setProc c { q with state := .zombie }

/-- The first zombie child of `c`. -/
def zombieChild (s : Kernel) (c : Nat) : Option Nat :=
  (List.range NPROC).find? fun p => (s.proc p).parent == some c && (s.proc p).state == .zombie

def wait : K (Option Int) := do
  let s ← get
  match zombieChild s s.cur with
  | some p => do
    kfree (s.proc p).kstack
    let q ← getProc p
    setProc p { q with kstack := 0 }
    freevm q.pgdir
    let q ← getProc p
    setProc p { q with pid := 0, parent := none, killed := false, state := .unused }
    pure (some (s.proc p).pid)
  | none =>
    if (∀ p < NPROC, (s.proc p).parent ≠ some s.cur) ∨ (s.proc s.cur).killed then pure (some (-1))
    else pure none

/-! ## User accesses and timer ticks -/

/-- The user-mode translation of `va`: both levels present and `PTE_U`. -/
def userPte (D : PageDir) (va : Nat) : Option Word :=
  if has (D.pde (pdx va)) PTE_P && has (D.pde (pdx va)) PTE_U &&
      has (D.tab (pdx va) (ptx va)) PTE_P && has (D.tab (pdx va) (ptx va)) PTE_U
  then some (D.tab (pdx va) (ptx va)) else none

/-- A user load; `none` is a page fault. The processor sets `PTE_A`. -/
def userRead (va : Nat) : K (Option Byte) := do
  let s ← get
  match userPte (s.dirs s.cr3) va with
  | none => pure none
  | some w => do
    storePte ⟨s.cr3, pdx va, ptx va⟩ (w ||| PTE_A)
    pure (some (s.mem (pageNo w) (va % PGSIZE)))

/-- A user store; `false` is a page fault. The processor sets `PTE_A` and `PTE_D`. -/
def userWrite (va : Nat) (b : Byte) : K Bool := do
  let s ← get
  match userPte (s.dirs s.cr3) va with
  | none => pure false
  | some w =>
    if has (( s.dirs s.cr3).pde (pdx va)) PTE_W && has w PTE_W then do
      storePte ⟨s.cr3, pdx va, ptx va⟩ (w ||| PTE_A ||| PTE_D)
      modify fun s => s.setMem (pageNo w) (Function.update (s.mem (pageNo w)) (va % PGSIZE) b)
      pure true
    else pure false

/-- The timer interrupt's work on the running process. -/
def timerTick : K Unit := do
  let s ← get
  match Build.policy with
  | .nfu => nfuIncrementCounter s.cur
  | .fifo => pure ()

end Xv6
