import Xv6.Exec.Phases

/-!
# The arguments of a new program

The strings and the words of `ustack` go into the last page of the image. `exec` fails for them
exactly when they do not fit there, and the image below is what loading left.
-/

namespace Xv6

open Lib

section

variable [Build] {s : Kernel} {c : Nat}

end

/-! ## A program of one segment -/

/-- A file of 22 words: the ELF header, one program header, and one word of the segment. -/
def oneSegment (vaddr filesz memsz : Word) : ProgFile where
  size := 88
  data := wordBytes [ELF_MAGIC, 0, 0, 0, 0, 0, 0x1000, 52, 0, 0, 0, 1, 0,
    ELF_PROG_LOAD, 84, vaddr, 0, filesz, memsz, 0, 0, 7]

theorem loads_oneSegment : loads (oneSegment 0x1000 4 4) = .fits 0x1004 := by decide +kernel

theorem small_caller : @Caller (smallBuild .fifo) (smallKernel .fifo) 0 := by
  let _ := smallBuild .fifo
  exact (small_start .fifo).inv.caller ⟨rfl, by decide, by decide, rfl⟩

theorem small_plenty (policy : Policy) : PLENTY ≤ (smallKernel policy).freelist.length := by
  rw [show (smallKernel policy).freelist.length = 200 from List.length_range' ..]
  decide

end Xv6
