import Xv6.Vm.State

/-!
# Parts of small machines

A build with few frames, an empty directory and an empty process slot, from which concrete states
are made.
-/

namespace Xv6

/-- A kernel that leaves 204 frames to `kalloc`. -/
@[reducible] def smallBuild (policy : Policy) : Build where
  policy := policy
  data := KERNLINK + PGSIZE
  kend := PHYSTOP - 204 * PGSIZE
  data_lo := by decide
  data_hi := by decide
  data_page := by decide
  kend_lo := by decide
  kend_hi := by decide

/-- A directory with nothing in it. -/
abbrev zeroDir : PageDir := ⟨fun _ => 0, fun _ _ => 0⟩

/-- An empty slot of the process table. -/
def emptyProc : Proc where
  sz := 0
  pgdir := 0
  kstack := 0
  state := .unused
  pid := 0
  parent := none
  killed := false
  swapFile := false
  vpaSwap := fun _ => 0
  vpaMemory := fun _ => 0
  sizeMem := 0
  qHead := 0
  qTail := 0

end Xv6
