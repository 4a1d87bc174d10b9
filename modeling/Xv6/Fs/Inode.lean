import Xv6.Lib.Bytes
import Xv6.Lib.Wp
import Xv6.Param

/-!
# `fs.c`: blocks and inodes

`block b` is what `bread(b)` returns: the contents of a block of the bitmap or of the data area,
as bytes. The inodes on the disk are kept by number; `icache` is the table of `NINODE` inodes in
memory. A block number of 0 stands for no block. Inode locks are left out: calls run one at a time.
-/

namespace Xv6

open Lib

/-- The `type` of an inode; `free` is 0. -/
inductive FileType where
  | free
  | dir
  | file
  | dev
  deriving DecidableEq, Repr

/-- `struct dinode`. `addrs` has `NDIRECT + 1` entries. -/
structure Dinode where
  type : FileType
  major : BitVec 16
  minor : BitVec 16
  nlink : BitVec 16
  size : Nat
  addrs : Nat → Nat

/-- Set one entry of `addrs`. -/
def Dinode.setAddr (d : Dinode) (k b : Nat) : Dinode :=
  { d with addrs := Function.update d.addrs k b }

/-- `struct inode`: an entry of the inode cache. `node` is the copy of the disk inode. -/
structure Inode where
  inum : Nat
  ref : Nat
  valid : Bool
  node : Dinode

/-- `struct superblock`, and `devsw`. The data blocks are `datastart ≤ b < size`. -/
structure Volume where
  size : Nat
  ninodes : Nat
  inodestart : Nat
  bmapstart : Nat
  datastart : Nat
  devRead : Nat → Option (Nat → Option (List (BitVec 8)))
  devWrite : Nat → Option (List (BitVec 8) → Option Nat)
  bmap_pos : 0 < bmapstart
  bmap_fits : bmapstart + (size + BPB - 1) / BPB ≤ datastart
  small : size < 2 ^ 31

structure Fs where
  block : Nat → Nat → BitVec 8
  dinode : Nat → Dinode
  icache : Nat → Inode
  /-- The blocks given to `log_write`. -/
  logged : List Nat

/-- Store an entry of the inode cache. -/
def Fs.setSlot (s : Fs) (ip : Nat) (x : Inode) : Fs :=
  { s with icache := Function.update s.icache ip x }

abbrev F (α : Type) : Type := Prog Fs α

def fpanic {α : Type} (m : String) : F α := throw m

/-- `BBLOCK(b, sb)` -/
def Volume.bblock (v : Volume) (b : Nat) : Nat := b / BPB + v.bmapstart

/-- `IBLOCK(i, sb)` -/
def Volume.iblock (v : Volume) (i : Nat) : Nat := i / IPB + v.inodestart

def bread (b : Nat) : F (Nat → BitVec 8) := do
  let s ← get
  pure (s.block b)

/-- Change the buffer of block `b` and give it to `log_write`. -/
def bchange (b : Nat) (d : Nat → BitVec 8) : F Unit :=
  modify fun s => { s with block := Function.update s.block b d, logged := s.logged ++ [b] }

def bzero (b : Nat) : F Unit := bchange b fun _ => 0

section

variable (v : Volume)

/-- The loop of `balloc` at `b`, with `k` bitmap blocks left. -/
def ballocLoop : Nat → Nat → F Nat
  | 0, _ => fpanic "balloc: out of blocks"
  | k + 1, b => do
    let d ← bread (v.bblock b)
    match (List.range (min BPB (v.size - b))).find? fun bi => !testBit d bi with
    | some bi => do
      bchange (v.bblock b) (setBit d bi)
      bzero (b + bi)
      pure (b + bi)
    | none => ballocLoop k (b + BPB)

def balloc : F Nat := ballocLoop v ((v.size + BPB - 1) / BPB) 0

def bfree (b : Nat) : F Unit := do
  let d ← bread (v.bblock b)
  if testBit d (b % BPB) then bchange (v.bblock b) (clearBit d (b % BPB))
  else fpanic "freeing free block"

/-- Store an inode in its block. -/
def writeDinode (i : Nat) (d : Dinode) : F Unit :=
  modify fun s =>
    { s with dinode := Function.update s.dinode i d, logged := s.logged ++ [v.iblock i] }

/-- Change the copy that cache entry `ip` holds. -/
def setNode (ip : Nat) (f : Dinode → Dinode) : F Unit :=
  modify fun s => s.setSlot ip { s.icache ip with node := f (s.icache ip).node }

def iupdate (ip : Nat) : F Unit := do
  let s ← get
  writeDinode v (s.icache ip).inum (s.icache ip).node

def iget (inum : Nat) : F Nat := do
  let s ← get
  match (List.range NINODE).find? fun k =>
    decide (0 < (s.icache k).ref ∧ (s.icache k).inum = inum) with
  | some ip => do
    set (s.setSlot ip { s.icache ip with ref := (s.icache ip).ref + 1 })
    pure ip
  | none =>
    match (List.range NINODE).find? fun k => decide ((s.icache k).ref = 0) with
    | some ip => do
      set (s.setSlot ip { s.icache ip with inum := inum, ref := 1, valid := false })
      pure ip
    | none => fpanic "iget: no inodes"

/-- `ialloc`; the inode is zeroed but for its type. -/
def ialloc (type : FileType) : F Nat := do
  let s ← get
  match (List.range v.ninodes).find? fun i => decide (1 ≤ i ∧ (s.dinode i).type = .free) with
  | some i => do
    writeDinode v i ⟨type, 0, 0, 0, 0, fun _ => 0⟩
    iget i
  | none => fpanic "ialloc: no inodes"

def idup (ip : Nat) : F Nat := do
  modify fun s => s.setSlot ip { s.icache ip with ref := (s.icache ip).ref + 1 }
  pure ip

def ilock (ip : Nat) : F Unit := do
  let s ← get
  if (s.icache ip).ref < 1 then fpanic "ilock"
  else if (s.icache ip).valid then pure ()
  else do
    let d := s.dinode (s.icache ip).inum
    set (s.setSlot ip { s.icache ip with valid := true, node := d })
    if d.type = .free then fpanic "ilock: no type" else pure ()

/-- The first loop of `itrunc` at `i`, with `k` slots left. -/
def itruncDirect (ip : Nat) : Nat → Nat → F Unit
  | 0, _ => pure ()
  | k + 1, i => do
    let s ← get
    let a := (s.icache ip).node.addrs i
    if a ≠ 0 then do
      bfree v a
      setNode ip fun d => d.setAddr i 0
    itruncDirect ip k (i + 1)

/-- The second loop of `itrunc` at `j`, with `k` words of the indirect block `a` left. -/
def itruncIndirect (a : Nat → BitVec 8) : Nat → Nat → F Unit
  | 0, _ => pure ()
  | k + 1, j => do
    if (getWord a j).toNat ≠ 0 then bfree v (getWord a j).toNat
    itruncIndirect a k (j + 1)

def itrunc (ip : Nat) : F Unit := do
  itruncDirect v ip NDIRECT 0
  let s ← get
  let b := (s.icache ip).node.addrs NDIRECT
  if b ≠ 0 then do
    let a ← bread b
    itruncIndirect v a NINDIRECT 0
    bfree v b
    setNode ip fun d => d.setAddr NDIRECT 0
  setNode ip fun d => { d with size := 0 }
  iupdate v ip

def iput (ip : Nat) : F Unit := do
  let s ← get
  if (s.icache ip).valid ∧ (s.icache ip).node.nlink = 0 ∧ (s.icache ip).ref = 1 then do
    itrunc v ip
    setNode ip fun d => { d with type := .free }
    iupdate v ip
    modify fun s => s.setSlot ip { s.icache ip with valid := false }
  modify fun s => s.setSlot ip { s.icache ip with ref := (s.icache ip).ref - 1 }

def bmap (ip bn : Nat) : F Nat := do
  let s ← get
  if bn < NDIRECT then do
    let addr := (s.icache ip).node.addrs bn
    if addr = 0 then do
      let addr ← balloc v
      setNode ip fun d => d.setAddr bn addr
      pure addr
    else pure addr
  else if bn - NDIRECT < NINDIRECT then do
    let ind ← if (s.icache ip).node.addrs NDIRECT = 0 then do
        let addr ← balloc v
        setNode ip fun d => d.setAddr NDIRECT addr
        pure addr
      else pure ((s.icache ip).node.addrs NDIRECT)
    let a ← bread ind
    let addr := (getWord a (bn - NDIRECT)).toNat
    if addr = 0 then do
      let addr ← balloc v
      let a ← bread ind
      bchange ind (setWord a (bn - NDIRECT) (BitVec.ofNat 32 addr))
      pure addr
    else pure addr
  else fpanic "bmap: out of range"

/-- The loop of `readi`: `n` bytes from `off` on. -/
def readLoop (ip : Nat) : Nat → Nat → Nat → F (List (BitVec 8))
  | 0, _, _ => pure []
  | k + 1, off, n =>
    if n = 0 then pure []
    else do
      let b ← bmap v ip (off / BSIZE)
      let d ← bread b
      let m := min n (BSIZE - off % BSIZE)
      let rest ← readLoop ip k (off + m) (n - m)
      pure ((List.range m).map (fun i => d (off % BSIZE + i)) ++ rest)

/-- `readi`, `none` for `-1`. -/
def readi (ip off n : Nat) : F (Option (List (BitVec 8))) := do
  let s ← get
  let d := (s.icache ip).node
  if d.type = .dev then
    if d.major.toInt < 0 ∨ (NDEV : Int) ≤ d.major.toInt then pure none
    else match v.devRead d.major.toNat with
      | none => pure none
      | some read => pure (read n)
  else if d.size < off ∨ 2 ^ 32 ≤ off + n then pure none
  else do
    let n := if d.size < off + n then d.size - off else n
    let bs ← readLoop v ip n off n
    pure (some bs)

/-- The loop of `writei`: the bytes `src` from `off` on. Returns the final offset. -/
def writeLoop (ip : Nat) : Nat → Nat → List (BitVec 8) → F Nat
  | 0, off, _ => pure off
  | k + 1, off, src =>
    if src = [] then pure off
    else do
      let b ← bmap v ip (off / BSIZE)
      let d ← bread b
      let m := min src.length (BSIZE - off % BSIZE)
      bchange b fun i =>
        if off % BSIZE ≤ i ∧ i < off % BSIZE + m then src.getD (i - off % BSIZE) 0 else d i
      writeLoop ip k (off + m) (src.drop m)

/-- `writei` of the bytes `src`, `none` for `-1`. -/
def writei (ip off : Nat) (src : List (BitVec 8)) : F (Option Nat) := do
  let s ← get
  let d := (s.icache ip).node
  let n := src.length
  if d.type = .dev then
    if d.major.toInt < 0 ∨ (NDEV : Int) ≤ d.major.toInt then pure none
    else match v.devWrite d.major.toNat with
      | none => pure none
      | some write => pure (write src)
  else if d.size < off ∨ 2 ^ 32 ≤ off + n then pure none
  else if MAXFILE * BSIZE < off + n then pure none
  else do
    let off ← writeLoop v ip n off src
    if 0 < n ∧ d.size < off then do
      setNode ip fun d => { d with size := off }
      iupdate v ip
    pure (some n)

end

end Xv6
