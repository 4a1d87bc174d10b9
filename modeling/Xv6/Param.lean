import Mathlib.Data.Nat.Notation

/-!
# `param.h` and `fs.h`

The sizes that the file system and the log share.
-/

namespace Xv6

/-- Blocks any file system operation may write. -/
abbrev MAXOPBLOCKS : Nat := 10

/-- Data blocks of the log. -/
abbrev LOGSIZE : Nat := 30

/-- Blocks of the file system. -/
abbrev FSSIZE : Nat := 5000

/-- Bytes of a block. -/
abbrev BSIZE : Nat := 512

/-- Block numbers in an inode. -/
abbrev NDIRECT : Nat := 12

/-- Block numbers in an indirect block. -/
abbrev NINDIRECT : Nat := 128

/-- Blocks of the largest file: `NDIRECT + NINDIRECT`. -/
abbrev MAXFILE : Nat := 140

/-- Bits of a bitmap block. -/
abbrev BPB : Nat := 4096

/-- Inodes of a block. -/
abbrev IPB : Nat := 8

/-- Entries of the inode cache. -/
abbrev NINODE : Nat := 50

/-- Major device numbers. -/
abbrev NDEV : Nat := 10

/-- The inode of the root directory. -/
abbrev ROOTINO : Nat := 1

/-- Bytes of a name in a directory. -/
abbrev DIRSIZ : Nat := 14

end Xv6
