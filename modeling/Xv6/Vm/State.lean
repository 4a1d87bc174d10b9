import Xv6.Lib.Wp
import Xv6.Lib.Word

/-!
# The state of the paging kernel

Physical memory is a family of page frames, numbered by `pa / PGSIZE`. A page
directory is a heap object named by the frame that holds it; the page table
pages it points to are kept with it (`PageDir.tab`), and the frame of table `i`
is the page number of the directory entry `pde i`. User data lives in `mem`, which
all processes share.

`proc` is `ptable.proc`, indexed by slot. A pointer to a frame is the frame
number with `0` for the null pointer: frame `0` lies below the kernel image and is
never handed out. `files n` is the file `/.swap<n>`, with the reads and writes of
`readi` and `writei` on its bytes. `cons` collects what `cprintf` prints.
-/

namespace Xv6

open Lib

abbrev Byte : Type := BitVec 8

/-! ## Constants of `mmu.h`, `memlayout.h`, `param.h` and `swap.h` -/

abbrev PGSIZE : Nat := 4096
abbrev KERNBASE : Nat := 0x80000000
abbrev EXTMEM : Nat := 0x100000
abbrev PHYSTOP : Nat := 0xE000000
abbrev DEVSPACE : Nat := 0xFE000000
abbrev KERNLINK : Nat := KERNBASE + EXTMEM
abbrev NPDENTRIES : Nat := 1024
abbrev NPROC : Nat := 64
abbrev MAX_PSYC_PAGES : Nat := 15
abbrev MAX_TOTAL_PAGES : Nat := 30
/-- `MAX_TOTAL_PAGES - MAX_PSYC_PAGES`. -/
abbrev MAX_SWAP_PAGES : Nat := 15

/-- `PTE_P`, bit 0. -/
abbrev PTE_P : Word := BitVec.twoPow 32 0
/-- `PTE_W`, bit 1. -/
abbrev PTE_W : Word := BitVec.twoPow 32 1
/-- `PTE_U`, bit 2. -/
abbrev PTE_U : Word := BitVec.twoPow 32 2
/-- `PTE_A`, bit 5. -/
abbrev PTE_A : Word := BitVec.twoPow 32 5
/-- `PTE_D`, bit 6. -/
abbrev PTE_D : Word := BitVec.twoPow 32 6
/-- `PTE_PG`, bit 9: paged out to secondary storage. -/
abbrev PTE_PG : Word := BitVec.twoPow 32 9
/-- `SWAP_P`, bit 11 of a `VPA_Swap` entry. -/
abbrev SWAP_P : Word := BitVec.twoPow 32 11

example : PTE_P = 0x001#32 ∧ PTE_W = 0x002#32 ∧ PTE_U = 0x004#32 ∧ PTE_A = 0x020#32 ∧
    PTE_D = 0x040#32 ∧ PTE_PG = 0x200#32 ∧ SWAP_P = 0x800#32 ∧
    MAX_SWAP_PAGES = MAX_TOTAL_PAGES - MAX_PSYC_PAGES := by decide

/-! ## Addresses -/

def pdx (va : Nat) : Nat := va / 2 ^ 22 % 1024
def ptx (va : Nat) : Nat := va / 2 ^ 12 % 1024
/-- `PGADDR(d, t, o)`, a 32-bit value. -/
def pgaddr (d t o : Nat) : Nat := (d * 2 ^ 22 + t * 2 ^ 12 + o) % 2 ^ 32
def pgroundup (sz : Nat) : Nat := (sz + PGSIZE - 1) % 2 ^ 32 / PGSIZE * PGSIZE
def pgrounddown (a : Nat) : Nat := a / PGSIZE * PGSIZE

/-- `PTE_FLAGS`. -/
def pteFlags (w : Word) : Word := w &&& 0xFFF#32
/-- `MEM_ADDR` and `SWAP_ADDR`. -/
def entryAddr (w : Word) : Nat := (w &&& ~~~0xFFF#32).toNat
/-- `NFU_MEM_COUNTER`. -/
def nfuMemCounter (w : Word) : Word := w &&& 0x7FF#32

/-! ## Build parameters -/

/-- Which of `NFU_SWAP` and `FIFO_SWAP` is defined. -/
inductive Policy where
  | nfu
  | fifo
  deriving DecidableEq, Repr

/-- One build of the kernel: the replacement policy and the linker symbols. -/
class Build where
  policy : Policy
  /-- The address `data`. -/
  data : Nat
  /-- `V2P(end)`. -/
  kend : Nat
  data_lo : KERNLINK < data
  data_hi : data < KERNBASE + PHYSTOP
  data_page : data % PGSIZE = 0
  kend_lo : EXTMEM < kend
  kend_hi : kend ≤ PHYSTOP

/-! ## The state -/

inductive ProcState where
  | unused
  | embryo
  | sleeping
  | runnable
  | running
  | zombie
  deriving DecidableEq, Repr

def ProcState.live : ProcState → Bool
  | .unused | .embryo => false
  | _ => true

def ProcState.active : ProcState → Bool
  | .sleeping | .runnable | .running => true
  | _ => false

theorem ProcState.live_of_active {t : ProcState} (h : t.active = true) : t.live = true := by
  cases t <;> first | rfl | cases h

theorem ProcState.not_active {t : ProcState} (h : t.live = false) : t.active = false := by
  cases t <;> first | rfl | cases h

/-- `struct proc`, the fields paging reads or writes. -/
structure Proc where
  sz : Nat
  pgdir : Nat
  kstack : Nat
  state : ProcState
  pid : Nat
  parent : Option Nat
  killed : Bool
  /-- `swapFile` is not null. -/
  swapFile : Bool
  vpaSwap : Nat → Word
  vpaMemory : Nat → Word
  sizeMem : Nat
  qHead : Nat
  qTail : Nat

/-- A page directory with the page tables it points to. -/
structure PageDir where
  pde : Nat → Word
  tab : Nat → Nat → Word

/-- The contents of a swap file. -/
structure SwapFile where
  size : Nat
  data : Nat → Byte

structure Kernel where
  /-- The bytes of a frame. -/
  mem : Nat → Nat → Byte
  /-- The directory a frame holds. -/
  dirs : Nat → PageDir
  /-- The free frames. -/
  freelist : List Nat
  totalFreePages : Int
  proc : Nat → Proc
  initproc : Nat
  nextpid : Nat
  /-- The slot of `myproc()`. -/
  cur : Nat
  /-- The directory the processor uses. -/
  cr3 : Nat
  files : Nat → Option SwapFile
  cons : List String

/-- Kernel code: it returns or panics. -/
abbrev K (α : Type) : Type := Prog Kernel α

/-- `panic`. -/
def kpanic {α : Type} (m : String) : K α := throw m

/-- `AssertPanic(c)` with the text of `c`. -/
def assertPanic (c : Prop) [Decidable c] (m : String) : K Unit :=
  if c then pure () else kpanic m

/-- `cprintf`. -/
def Kernel.printed (s : Kernel) (m : String) : Kernel := { s with cons := m :: s.cons }

def cprintf (m : String) : K Unit := modify fun s => s.printed m

/-- `ERROR_STR`: red. -/
def errorStr (m : String) : String := "\x1b[31m" ++ m ++ "\x1b[0m"

/-- `DEBUG_STR`: blue. -/
def debugStr (m : String) : String := "\x1b[34m" ++ m ++ "\x1b[0m"

namespace Kernel

def setProc (s : Kernel) (p : Nat) (q : Proc) : Kernel :=
  { s with proc := Function.update s.proc p q }

def setDir (s : Kernel) (d : Nat) (D : PageDir) : Kernel :=
  { s with dirs := Function.update s.dirs d D }

def setMem (s : Kernel) (f : Nat) (pg : Nat → Byte) : Kernel :=
  { s with mem := Function.update s.mem f pg }

def setFile (s : Kernel) (n : Nat) (f : Option SwapFile) : Kernel :=
  { s with files := Function.update s.files n f }

end Kernel

/-- Store to one page table entry. -/
def PageDir.setPte (D : PageDir) (i j : Nat) (w : Word) : PageDir :=
  { D with tab := Function.update D.tab i (Function.update (D.tab i) j w) }

/-- The entry for page `u`; pages of a missing table read as zero. -/
def PageDir.pte (D : PageDir) (u : Nat) : Word :=
  if has (D.pde (u / 1024)) PTE_P then D.tab (u / 1024) (u % 1024) else 0

end Xv6
