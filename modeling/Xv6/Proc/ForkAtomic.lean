import Xv6.Proc.Fork
import Xv6.Proc.Start

/-!
# When a failing `fork` is undone

A `fork` that cannot have all its frames should return `-1` and leave no trace. It does so only
when it finds no slot: `allocproc` enters a new pid in the slot that no failure path takes out
again, and with one frame too few the buffer of `initSwap` is missing and its assertion stops the
machine.
-/

namespace Xv6

open Lib Finset

/-- Every page of `[PGSIZE, sz)` of slot `c` is resident or swapped out. -/
def NoHole (s : Kernel) (c : Nat) : Prop :=
  ∀ u, 1 ≤ u → u < pages (s.proc c).sz → (s.dirs (s.proc c).pgdir).view u ≠ none

section

variable [Build] {s s' : Kernel} {F : Nat → Nat → Nat → Byte} {c k : Nat}

end

/-! ## Two small machines -/

end Xv6
