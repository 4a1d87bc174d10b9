import Xv6.Lib.Bytes
import Xv6.Lib.Load
import Xv6.Proc.Ops

/-!
# `exec.c`: loading a program

The program file is what `namei` finds: its contents, held by the inode lock for as long as
`exec` reads them. `argv` lists the argument strings without their NUL. `exec` returns `none` for
`-1`; on success it returns what it puts in the trap frame.

`touch d g` stands where `readi`, called by `loaduvm` for directory `d`, is about to write into
frame `g`. The kernel does nothing there; a check put in its place observes every such write.
-/

namespace Xv6

open Lib

/-- The contents of a program file. -/
abbrev ProgFile : Type := SwapFile

/-! ## `elf.h` -/

abbrev ELF_MAGIC : Word := 0x464C457F#32
abbrev ELF_PROG_LOAD : Word := 1#32
abbrev MAXARG : Nat := 32

/-- `struct elfhdr`, the fields `exec` reads. -/
structure Elfhdr where
  magic : Word
  entry : Word
  phoff : Word
  phnum : Nat

/-- `struct proghdr`, the fields `exec` reads. -/
structure Proghdr where
  type : Word
  off : Nat
  vaddr : Nat
  filesz : Nat
  memsz : Nat
  deriving DecidableEq

/-- `readi(ip, (char*)&elf, 0, sizeof(elf))`, `none` when the file is too short. -/
def readElfhdr (f : ProgFile) : Option Elfhdr :=
  if f.readi 0 52 = some 52 then
    some
      { magic := load f.data 0
        entry := load f.data 24
        phoff := load f.data 28
        phnum := (f.data 45 ++ f.data 44).toNat }
  else none

/-- `readi(ip, (char*)&ph, off, sizeof(ph))`, `none` when the file is too short. -/
def readProghdr (f : ProgFile) (off : Nat) : Option Proghdr :=
  if f.readi off 32 = some 32 then
    some
      { type := load f.data off
        off := (load f.data (off + 4)).toNat
        vaddr := (load f.data (off + 8)).toNat
        filesz := (load f.data (off + 16)).toNat
        memsz := (load f.data (off + 20)).toNat }
  else none

/-! ## `vm.c`: loading, protecting and filling user pages -/

/-- `readi(ip, P2V(pa), off, n) == n` into frame `g`. -/
def readFrame (touch : Nat → K Unit) (f : ProgFile) (g off n : Nat) : K Bool :=
  match f.readi off n with
  | none => pure false
  | some 0 => pure (decide (0 = n))
  | some (r + 1) => do
    touch g
    modify fun s => s.setMem g fun k => if k < r + 1 then f.data (off + k) else s.mem g k
    pure (decide (r + 1 = n))

/-- The loop of `loaduvm` at page `i`, with `n` pages left. -/
def loadLoop (touch : Nat → Nat → K Unit) (d addr : Nat) (f : ProgFile) (offset sz : Nat) :
    Nat → Nat → K Int
  | 0, _ => pure 0
  | n + 1, i => do
    match ← walkpgdir d ((addr + i) % 2 ^ 32) false with
    | none => kpanic "loaduvm: address should exist"
    | some pte => do
      let w ← loadPte pte
      let n1 := if sz - i < PGSIZE then sz - i else PGSIZE
      if ← readFrame (touch d) f (pageNo w) ((offset + i) % 2 ^ 32) n1 then
        loadLoop touch d addr f offset sz n (i + PGSIZE)
      else pure (-1)

def loaduvm (touch : Nat → Nat → K Unit) (d addr : Nat) (f : ProgFile) (offset sz : Nat) : K Int :=
  if addr % PGSIZE ≠ 0 then kpanic "loaduvm: addr must be page aligned"
  else loadLoop touch d addr f offset sz ((sz + PGSIZE - 1) / PGSIZE) 0

def clearpteu (d uva : Nat) : K Unit := do
  match ← walkpgdir d uva false with
  | none => kpanic "clearpteu"
  | some pte => do
    let w ← loadPte pte
    storePte pte (w &&& ~~~PTE_U)

/-- The frame of a page that users may access, `none` for the null pointer. -/
def uva2ka (d uva : Nat) : K (Option Nat) := do
  match ← walkpgdir d uva false with
  -- the entry is read without a test
  | none => kpanic "trap"
  | some pte => do
    let w ← loadPte pte
    if !has w PTE_P then pure none
    else if !has w PTE_U then pure none
    else pure (some (pageNo w))

/-- `memmove` of `n` bytes of `src` to offset `o` of a page. -/
def overwrite (pg : Nat → Byte) (o n : Nat) (src : Nat → Byte) : Nat → Byte := fun k =>
  if o ≤ k ∧ k < o + n then src (k - o) else pg k

/-- The loop of `copyout`; every round copies a byte at least, so `len` rounds are enough. -/
def copyoutLoop (d : Nat) : Nat → Nat → (Nat → Byte) → Nat → K Int
  | 0, _, _, _ => pure 0
  | fuel + 1, va, buf, len =>
    if 0 < len then do
      let va0 := pgrounddown va
      match ← uva2ka d va0 with
      | none => pure (-1)
      | some g => do
        let n := if PGSIZE - (va - va0) > len then len else PGSIZE - (va - va0)
        modify fun s => s.setMem g (overwrite (s.mem g) (va - va0) n buf)
        copyoutLoop d fuel ((va0 + PGSIZE) % 2 ^ 32) (fun k => buf (n + k)) (len - n)
    else pure 0

def copyout (d va : Nat) (p : Nat → Byte) (len : Nat) : K Int := copyoutLoop d len va p len

/-! ## `exec` -/

section

variable [Build]

/-- What `exec` does to the swap state of the caller before it loads. -/
def resetSwap (c : Nat) : K Unit := do
  let q ← getProc c
  if q.pid = 1 then do
    let r ← initFreshSwap c
    assertPanic (r = 0) "initFreshSwap(curproc) == 0"
  else do
    let r ← restoreSwap c
    assertPanic (r = 0) "restoreSwap(curproc) == 0"
    let r ← destroySwap c
    assertPanic (r = 0) "destroySwap(curproc) == 0"
    let r ← initFreshSwap c
    assertPanic (r = 0) "initFreshSwap(curproc) == 0"

/-- The part of the loop of `exec` for a loadable segment; `none` is `goto bad`. -/
def loadSegment (touch : Nat → Nat → K Unit) (d : Nat) (f : ProgFile) (ph : Proghdr) (sz : Nat) :
    K (Option Nat) :=
  if ph.memsz < ph.filesz then pure none
  else if (ph.vaddr + ph.memsz) % 2 ^ 32 < ph.vaddr then pure none
  else do
    let sz ← allocuvm d sz ((ph.vaddr + ph.memsz) % 2 ^ 32)
    if sz = 0 then pure none
    else if ph.vaddr % PGSIZE ≠ 0 then pure none
    else do
      let r ← loaduvm touch d ph.vaddr f ph.off ph.filesz
      if r < 0 then pure none else pure (some sz)

/-- The loop over the program headers, with `n` of them left; `none` is `goto bad`. -/
def loadProgram (touch : Nat → Nat → K Unit) (d : Nat) (f : ProgFile) :
    Nat → Word → Nat → K (Option Nat)
  | 0, _, sz => pure (some sz)
  | n + 1, off, sz =>
    match readProghdr f off.toNat with
    | none => pure none
    | some ph =>
      if ph.type ≠ ELF_PROG_LOAD then loadProgram touch d f n (off + 32) sz
      else do
        match ← loadSegment touch d f ph sz with
        | none => pure none
        | some sz => loadProgram touch d f n (off + 32) sz

/-- The guard page and the stack page above an image of `sz` bytes. -/
@[irreducible] def allocStack (d sz : Nat) : K (Option Nat) := do
  let sz ← allocuvm d (pgroundup sz) ((pgroundup sz + 2 * PGSIZE) % 2 ^ 32)
  if sz = 0 then pure none
  else do
    clearpteu d (sz - 2 * PGSIZE)
    pure (some sz)

/-- `sp = (sp - (strlen(arg) + 1)) & ~3`. -/
def pushed (sp : Nat) (arg : List Byte) : Nat :=
  (sp + 2 ^ 32 - (arg.length + 1) % 2 ^ 32) % 2 ^ 32 / 4 * 4

/-- A string with its NUL. -/
def cstring (arg : List Byte) : Nat → Byte := fun k => arg.getD k 0

/-- Push the argument strings, `argc` of them done; the stack pointer and the pointers to the
strings, `none` for `goto bad`. -/
def pushArgs (d : Nat) : List (List Byte) → Nat → Nat → List Nat → K (Option (Nat × List Nat))
  | [], _, sp, ptrs => pure (some (sp, ptrs))
  | arg :: argv, argc, sp, ptrs =>
    if MAXARG ≤ argc then pure none
    else do
      let sp := pushed sp arg
      let r ← copyout d sp (cstring arg) (arg.length + 1)
      if r < 0 then pure none
      else pushArgs d argv (argc + 1) sp (ptrs ++ [sp])

/-- `ustack`: fake return address, `argc`, `argv`, the pointers and a null pointer. -/
def ustack (sp : Nat) (ptrs : List Nat) : List Word :=
  0xffffffff#32 :: BitVec.ofNat 32 ptrs.length :: BitVec.ofNat 32 (sp + 2 ^ 32 - (ptrs.length + 1) * 4) ::
    (ptrs.map (BitVec.ofNat 32) ++ [0#32])

/-- The bytes of an array of words. -/
def wordBytes (ws : List Word) : Nat → Byte := ofWords fun i => ws.getD i 0

/-- The stack of the new program; its stack pointer. -/
def buildStack (d sz : Nat) (argv : List (List Byte)) : K (Option Nat) := do
  match ← pushArgs d argv 0 sz [] with
  | none => pure none
  | some (sp, ptrs) => do
    let esp := (sp + 2 ^ 32 - (3 + ptrs.length + 1) * 4) % 2 ^ 32
    let r ← copyout d esp (wordBytes (ustack sp ptrs)) ((3 + ptrs.length + 1) * 4)
    if r < 0 then pure none else pure (some esp)

/-- The segments and the pages of the stack in directory `d`; the size. -/
def loadPages (touch : Nat → Nat → K Unit) (d : Nat) (f : ProgFile) (elf : Elfhdr) : K (Option Nat) := do
  match ← loadProgram touch d f elf.phnum elf.phoff PGSIZE with
  | none => pure none
  | some sz => allocStack d sz

/-- What `exec` has before it pushes the arguments. -/
structure NewImage where
  entry : Word
  slot : Nat
  dir : Nat
  sz : Nat
  deriving DecidableEq

/-- `exec` up to the stack pages; `none` after `bad`. -/
def loadFile (touch : Nat → Nat → K Unit) (f : ProgFile) : K (Option NewImage) :=
  match readElfhdr f with
  | none => pure none
  | some elf =>
    if elf.magic ≠ ELF_MAGIC then pure none
    else do
      match ← setupkvm with
      | none => pure none
      | some d => do
        let s ← get
        resetSwap s.cur
        match ← loadPages touch d f elf with
        | none => do
          freevm d
          pure none
        | some sz => pure (some ⟨elf.entry, s.cur, d, sz⟩)

/-- What `exec` puts in the trap frame. -/
structure Regs where
  eip : Word
  esp : Nat
  deriving DecidableEq

/-- Commit to the user image. -/
def commitImage (c d sz : Nat) : K Unit := do
  let q ← getProc c
  setProc c { q with pgdir := d, sz := sz }
  switchuvm c
  freevm q.pgdir

/-- The arguments of the new program, and the change to it. -/
def startImage (x : NewImage) (argv : List (List Byte)) : K (Option Regs) := do
  match ← buildStack x.dir x.sz argv with
  | none => do
    freevm x.dir
    pure none
  | some sp => do
    commitImage x.slot x.dir x.sz
    pure (some ⟨x.entry, sp⟩)

/-- `exec` with `touch` before the writes of `loaduvm`. -/
def execWith (touch : Nat → Nat → K Unit) (file : Option ProgFile) (argv : List (List Byte)) :
    K (Option Regs) := do
  match file with
  | none => do
    cprintf "exec: fail\n"
    pure none
  | some f =>
    match ← loadFile touch f with
    | none => pure none
    | some x => startImage x argv

def exec (file : Option ProgFile) (argv : List (List Byte)) : K (Option Regs) :=
  execWith (fun _ _ => pure ()) file argv

end

end Xv6
