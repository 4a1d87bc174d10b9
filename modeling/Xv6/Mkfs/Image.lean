import Xv6.Fs.Dir

/-!
# `mkfs.c`

`mkfs` writes the image of a file system sector by sector. It has its own allocation of inodes and
blocks, by two counters, and its own append to a file. A failed assertion or a read past the end of
the image stops it.

An inode is 64 bytes of its sector, as on the disk: two words for `type`, `major`, `minor` and
`nlink`, one for `size`, and `NDIRECT + 1` for `addrs`.
-/

namespace Xv6

open Lib

/-! ## Inodes in bytes -/

/-- `T_DIR`, `T_FILE` and `T_DEV` -/
def FileType.code : FileType → BitVec 16
  | free => 0
  | dir => 1
  | file => 2
  | dev => 3

/-- The type with a code. `mkfs` writes no other codes. -/
def FileType.ofCode (c : BitVec 16) : FileType :=
  if c = 1 then dir else if c = 2 then file else if c = 3 then dev else free

/-- The words of `struct dinode`. -/
def Dinode.word (d : Dinode) : Nat → Word
  | 0 => d.major ++ d.type.code
  | 1 => d.nlink ++ d.minor
  | 2 => BitVec.ofNat 32 d.size
  | j + 3 => BitVec.ofNat 32 (d.addrs j)

/-- Store an inode as the `m`-th of a sector. -/
def putDinode (buf : Nat → BitVec 8) (m : Nat) (d : Dinode) : Nat → BitVec 8 := fun k =>
  if k / 64 = m then ofWords d.word (k % 64) else buf k

/-- The `m`-th inode of a sector. -/
def getDinode (buf : Nat → BitVec 8) (m : Nat) : Dinode where
  type := .ofCode ((getWord buf (16 * m)).extractLsb' 0 16)
  major := (getWord buf (16 * m)).extractLsb' 16 16
  minor := (getWord buf (16 * m + 1)).extractLsb' 0 16
  nlink := (getWord buf (16 * m + 1)).extractLsb' 16 16
  size := (getWord buf (16 * m + 2)).toNat
  addrs := fun j => if j ≤ NDIRECT then (getWord buf (16 * m + (j + 3))).toNat else 0

/-- The inode fits in its 64 bytes. -/
structure Dinode.Fits (d : Dinode) : Prop where
  size : d.size < 2 ^ 32
  addr : ∀ j, j ≤ NDIRECT → d.addrs j < 2 ^ 32
  beyond : ∀ j, NDIRECT < j → d.addrs j = 0

theorem getWord_putDinode {buf : Nat → BitVec 8} {m j : Nat} {d : Dinode} (hj : j < 16) :
    getWord (putDinode buf m d) (16 * m + j) = d.word j := by
  refine Eq.trans (getWord_congr fun r hr => ?_) (getWord_ofWords d.word j)
  unfold putDinode
  rw [if_pos (by omega), show (4 * (16 * m + j) + r) % 64 = 4 * j + r by omega]

theorem getWord_putDinode_of_ne {buf : Nat → BitVec 8} {m n j : Nat} {d : Dinode} (hj : j < 16)
    (hne : n ≠ m) : getWord (putDinode buf m d) (16 * n + j) = getWord buf (16 * n + j) := by
  refine getWord_congr fun r hr => ?_
  unfold putDinode
  rw [if_neg (by omega)]

theorem FileType.ofCode_code (t : FileType) : FileType.ofCode t.code = t := by
  cases t <;> rfl

/-- What was stored is read. -/
theorem getDinode_putDinode {buf : Nat → BitVec 8} {m : Nat} {d : Dinode} (h : d.Fits) :
    getDinode (putDinode buf m d) m = d := by
  have hw : ∀ j < 16, getWord (putDinode buf m d) (16 * m + j) = d.word j := fun j hj => getWord_putDinode hj
  have haddr : ∀ j, (if j ≤ NDIRECT then (getWord (putDinode buf m d) (16 * m + (j + 3))).toNat else 0) =
      d.addrs j := by
    intro j
    split
    · next hj =>
      rw [hw (j + 3) (by simp only [NDIRECT] at hj; omega)]
      exact Nat.mod_eq_of_lt (h.addr j hj)
    · next hj => exact (h.beyond j (Nat.lt_of_not_le hj)).symm
  unfold getDinode
  rw [funext haddr, hw 1 (by decide), hw 2 (by decide),
    show getWord (putDinode buf m d) (16 * m) = d.word 0 from hw 0 (by decide)]
  unfold Dinode.word
  rw [BitVec.extractLsb'_append_eq_left, BitVec.extractLsb'_append_eq_right,
    BitVec.extractLsb'_append_eq_left, BitVec.extractLsb'_append_eq_right, FileType.ofCode_code,
    BitVec.toNat_ofNat, Nat.mod_eq_of_lt h.size]

/-- The other inodes of the sector stay. -/
theorem getDinode_putDinode_of_ne {buf : Nat → BitVec 8} {m n : Nat} {d : Dinode} (hne : n ≠ m) :
    getDinode (putDinode buf m d) n = getDinode buf n := by
  have hw : ∀ j < 16, getWord (putDinode buf m d) (16 * n + j) = getWord buf (16 * n + j) :=
    fun j hj => getWord_putDinode_of_ne hj hne
  have haddr : ∀ j, (if j ≤ NDIRECT then (getWord (putDinode buf m d) (16 * n + (j + 3))).toNat else 0) =
      if j ≤ NDIRECT then (getWord buf (16 * n + (j + 3))).toNat else 0 := by
    intro j
    split
    · next hj => rw [hw (j + 3) (by simp only [NDIRECT] at hj; omega)]
    · rfl
  unfold getDinode
  rw [funext haddr, hw 1 (by decide), hw 2 (by decide),
    show getWord (putDinode buf m d) (16 * n) = getWord buf (16 * n) from hw 0 (by decide)]

theorem getDinode_fits (buf : Nat → BitVec 8) (m : Nat) : (getDinode buf m).Fits := by
  refine ⟨(getWord buf (16 * m + 2)).isLt, fun j hj => ?_, fun j hj => if_neg (Nat.not_le_of_lt hj)⟩
  rw [show (getDinode buf m).addrs j = (getWord buf (16 * m + (j + 3))).toNat from if_pos hj]
  exact (getWord buf _).isLt

/-! ## The program -/

/-- Inodes of the image. -/
abbrev NINODES : Nat := 200

/-- Blocks of the bitmap. -/
abbrev nbitmap : Nat := FSSIZE / (BSIZE * 8) + 1

/-- Blocks of inodes. -/
abbrev ninodeblocks : Nat := NINODES / IPB + 1

/-- Blocks before the data: boot, superblock, log, inodes and bitmap. -/
abbrev nmeta : Nat := 2 + LOGSIZE + ninodeblocks + nbitmap

/-- The first block of inodes, and the first of the bitmap. -/
abbrev mkInodestart : Nat := 2 + LOGSIZE

abbrev mkBmapstart : Nat := 2 + LOGSIZE + ninodeblocks

/-- The image and the two counters. -/
structure Mkfs where
  sect : Nat → Nat → BitVec 8
  freeinode : Nat
  freeblock : Nat

namespace Mkfs

abbrev M (α : Type) : Type := Prog Mkfs α

def wsect (sec : Nat) (buf : Nat → BitVec 8) : M Unit :=
  modify fun s => { s with sect := Function.update s.sect sec buf }

/-- The image has `FSSIZE` sectors. -/
def rsect (sec : Nat) : M (Nat → BitVec 8) := do
  let s ← get
  if sec < FSSIZE then pure (s.sect sec) else throw "read"

def winode (inum : Nat) (d : Dinode) : M Unit := do
  let buf ← rsect (inum / IPB + mkInodestart)
  wsect (inum / IPB + mkInodestart) (putDinode buf (inum % IPB) d)

def rinode (inum : Nat) : M Dinode := do
  let buf ← rsect (inum / IPB + mkInodestart)
  pure (getDinode buf (inum % IPB))

def ialloc (type : FileType) : M Nat := do
  let s ← get
  set { s with freeinode := s.freeinode + 1 }
  winode s.freeinode ⟨type, 0, 0, 1, 0, fun _ => 0⟩
  pure s.freeinode

def balloc (used : Nat) : M Unit :=
  if used < BSIZE * 8 then wsect mkBmapstart (firstBits used)
  else throw "used < BSIZE*8"

/-- `freeblock++` -/
def nextBlock : M Nat := do
  let s ← get
  set { s with freeblock := s.freeblock + 1 }
  pure s.freeblock

/-- The block of a file in the loop of `iappend`. -/
def blockFor (d : Dinode) (fbn : Nat) : M (Dinode × Nat) :=
  if fbn < NDIRECT then
    if d.addrs fbn = 0 then do
      let b ← nextBlock
      pure (d.setAddr fbn b, b)
    else pure (d, d.addrs fbn)
  else do
    let d ← if d.addrs NDIRECT = 0 then do
        let b ← nextBlock
        pure (d.setAddr NDIRECT b)
      else pure d
    let indirect ← rsect (d.addrs NDIRECT)
    if (getWord indirect (fbn - NDIRECT)).toNat = 0 then do
      let b ← nextBlock
      wsect (d.addrs NDIRECT) (setWord indirect (fbn - NDIRECT) (BitVec.ofNat 32 b))
      pure (d, b)
    else pure (d, (getWord indirect (fbn - NDIRECT)).toNat)

/-- The loop of `iappend` at `off`, with the bytes `p` left. -/
def appendLoop : Nat → Dinode → Nat → List (BitVec 8) → M (Dinode × Nat)
  | 0, d, off, _ => pure (d, off)
  | k + 1, d, off, p =>
    if p = [] then pure (d, off)
    else if off / BSIZE < MAXFILE then do
      let (d, x) ← blockFor d (off / BSIZE)
      let n1 := min p.length ((off / BSIZE + 1) * BSIZE - off)
      let buf ← rsect x
      wsect x fun i =>
        if off - off / BSIZE * BSIZE ≤ i ∧ i < off - off / BSIZE * BSIZE + n1 then
          p.getD (i - (off - off / BSIZE * BSIZE)) 0
        else buf i
      appendLoop k d (off + n1) (p.drop n1)
    else throw "fbn < MAXFILE"

def iappend (inum : Nat) (p : List (BitVec 8)) : M Unit := do
  let d ← rinode inum
  let (d, off) ← appendLoop p.length d d.size p
  winode inum { d with size := off }

/-- The loop that copies a file, `BSIZE` bytes at a time. -/
def copyLoop (inum : Nat) : Nat → List (BitVec 8) → M Unit
  | 0, _ => pure ()
  | k + 1, bytes =>
    if bytes = [] then pure ()
    else do
      iappend inum (bytes.take BSIZE)
      copyLoop inum k (bytes.drop BSIZE)

/-- A leading `_` is dropped. -/
def fileName (arg : List (BitVec 8)) : List (BitVec 8) := if arg.head? = some 95 then arg.tail else arg

/-- The loop over the arguments: the name and the contents of each file. -/
def addFiles (rootino : Nat) : List (List (BitVec 8) × List (BitVec 8)) → M Unit
  | [] => pure ()
  | (arg, bytes) :: files =>
    if slash ∈ arg then throw "index(argv[i], '/') == 0"
    else do
      let inum ← ialloc .file
      iappend rootino (dirent inum (fileName arg))
      copyLoop inum bytes.length bytes
      addFiles rootino files

/-- The words of the superblock. -/
def superblock : List Nat :=
  [FSSIZE, FSSIZE - nmeta, NINODES, LOGSIZE, 2, mkInodestart, mkBmapstart]

def main (files : List (List (BitVec 8) × List (BitVec 8))) : M Unit := do
  wsect 1 (ofWords fun j => BitVec.ofNat 32 (superblock.getD j 0))
  let rootino ← ialloc .dir
  if rootino = ROOTINO then do
    iappend rootino (dirent rootino dot)
    iappend rootino (dirent rootino dotdot)
    addFiles rootino files
    let din ← rinode rootino
    winode rootino { din with size := (din.size / BSIZE + 1) * BSIZE }
    let s ← get
    balloc s.freeblock
  else throw "rootino == ROOTINO"

/-- Every sector is written with zeros first. -/
def blank : Mkfs := ⟨fun _ _ => 0, 1, nmeta⟩

/-- The inode with a number, where the kernel looks for it. -/
def inode (s : Mkfs) (i : Nat) : Dinode := getDinode (s.sect (i / IPB + mkInodestart)) (i % IPB)

end Mkfs

end Xv6
