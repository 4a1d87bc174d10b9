import Xv6.Fs.Inode

/-!
# `fs.c` and `sysfile.c`: directories, paths and the calls that change them

A directory is a file of 16-byte entries: an inode number of two bytes, 0 for an empty entry, and
a name of `DIRSIZ` bytes. Paths and names are the bytes before the terminating NUL. `cwd` is the
cache entry of the current directory of the caller.
-/

namespace Xv6

open Lib

/-- `strncmp(p, q, n) == 0`; past its end a string reads as NUL. -/
def strncmpEq : Nat → List (BitVec 8) → List (BitVec 8) → Bool
  | 0, _, _ => true
  | n + 1, p, q =>
    if p.headD 0 ≠ 0 ∧ p.headD 0 = q.headD 0 then strncmpEq n p.tail q.tail
    else p.headD 0 == q.headD 0

/-- `namecmp(s, t) == 0` -/
def namecmp (s t : List (BitVec 8)) : Bool := strncmpEq DIRSIZ s t

/-- What `strncpy` writes. -/
def strncpy : Nat → List (BitVec 8) → List (BitVec 8)
  | 0, _ => []
  | n + 1, t => t.headD 0 :: strncpy n (if t.headD 0 = 0 then [] else t.tail)

/-- `sizeof(struct dirent)` -/
abbrev DIRENT : Nat := 16

/-- `de.inum` of the bytes of an entry. -/
def direntInum (de : List (BitVec 8)) : Nat := (de.getD 0 0).toNat + 256 * (de.getD 1 0).toNat

/-- The bytes of an entry. -/
def dirent (inum : Nat) (name : List (BitVec 8)) : List (BitVec 8) :=
  [BitVec.ofNat 8 inum, BitVec.ofNat 8 (inum / 256)] ++ strncpy DIRSIZ name

section

variable (v : Volume)

/-- Read the entry of `dp` at `off`. -/
def readDirent (dp off : Nat) (err : String) : F (List (BitVec 8)) := do
  match ← readi v dp off DIRENT with
  | none => fpanic err
  | some de => if de.length = DIRENT then pure de else fpanic err

/-- The loop of `dirlookup` at `off`; the inode number and the offset of the entry. -/
def dirlookupLoop (dp size : Nat) (name : List (BitVec 8)) : Nat → Nat → F (Option (Nat × Nat))
  | 0, _ => pure none
  | k + 1, off =>
    if off < size then do
      let de ← readDirent v dp off "dirlookup read"
      if direntInum de ≠ 0 ∧ namecmp name (de.drop 2) then pure (some (direntInum de, off))
      else dirlookupLoop dp size name k (off + DIRENT)
    else pure none

/-- `dirlookup`: the cache entry of the inode found, and the offset of its entry. -/
def dirlookup (dp : Nat) (name : List (BitVec 8)) : F (Option (Nat × Nat)) := do
  let s ← get
  let d := (s.icache dp).node
  if d.type ≠ .dir then fpanic "dirlookup not DIR"
  else match ← dirlookupLoop v dp d.size name d.size 0 with
    | none => pure none
    | some (inum, off) => do
      let ip ← iget inum
      pure (some (ip, off))

/-- `acquiresleep` of a lock that the caller holds: it sleeps for good. -/
def ownLock {α : Type} : F α := throw "acquiresleep: own lock"

/-- The loop of `dirlink` at `off`: the offset of an empty entry, or the size. -/
def emptyLoop (dp size : Nat) : Nat → Nat → F Nat
  | 0, off => pure off
  | k + 1, off =>
    if off < size then do
      let de ← readDirent v dp off "dirlink read"
      if direntInum de = 0 then pure off else emptyLoop dp size k (off + DIRENT)
    else pure off

/-- `dirlink`, `false` for `-1`. The caller holds the lock of `dp`, and `iput` takes that of `ip`. -/
def dirlink (dp : Nat) (name : List (BitVec 8)) (inum : Nat) : F Bool := do
  match ← dirlookup v dp name with
  | some (ip, _) =>
    if ip = dp then ownLock
    else do
      iput v ip
      pure false
  | none => do
    let s ← get
    let off ← emptyLoop v dp (s.icache dp).node.size (s.icache dp).node.size 0
    match ← writei v dp off (dirent inum name) with
    | some _ => pure true
    | none => fpanic "dirlink"

/-- The byte `/`. -/
def slash : BitVec 8 := 47

/-- `skipelem`: the next element, cut to `DIRSIZ` bytes, and the rest of the path. -/
def skipelem (path : List (BitVec 8)) : Option (List (BitVec 8) × List (BitVec 8)) :=
  match path.dropWhile (· == slash) with
  | [] => none
  | p => some ((p.takeWhile (· != slash)).take DIRSIZ,
      (p.dropWhile (· != slash)).dropWhile (· == slash))

/-- The loop of `namex` at `ip`. -/
def namexLoop (parent : Bool) : Nat → Nat → List (BitVec 8) → List (BitVec 8) →
    F (Option (Nat × List (BitVec 8)))
  | 0, _, _, _ => pure none
  | k + 1, ip, path, name =>
    match skipelem path with
    | none =>
      if parent then do
        iput v ip
        pure none
      else pure (some (ip, name))
    | some (name, path) => do
      ilock ip
      let s ← get
      if (s.icache ip).node.type ≠ .dir then do
        iput v ip
        pure none
      else if parent ∧ path = [] then pure (some (ip, name))
      else match ← dirlookup v ip name with
        | none => do
          iput v ip
          pure none
        | some (next, _) => do
          iput v ip
          namexLoop parent k next path name

/-- `namex`: the cache entry reached and the last element. -/
def namex (cwd : Nat) (path : List (BitVec 8)) (parent : Bool) :
    F (Option (Nat × List (BitVec 8))) := do
  let ip ← if path.headD 0 = slash then iget ROOTINO else idup cwd
  namexLoop v parent (path.length + 1) ip path []

def namei (cwd : Nat) (path : List (BitVec 8)) : F (Option Nat) := do
  match ← namex v cwd path false with
  | none => pure none
  | some (ip, _) => pure (some ip)

def nameiparent (cwd : Nat) (path : List (BitVec 8)) : F (Option (Nat × List (BitVec 8))) :=
  namex v cwd path true

/-- The names `.` and `..` -/
def dot : List (BitVec 8) := [46]

def dotdot : List (BitVec 8) := [46, 46]

def create (cwd : Nat) (path : List (BitVec 8)) (type : FileType) (major minor : BitVec 16) :
    F (Option Nat) := do
  match ← nameiparent v cwd path with
  | none => pure none
  | some (dp, name) => do
    ilock dp
    match ← dirlookup v dp name with
    | some (ip, _) => do
      iput v dp
      ilock ip
      let s ← get
      if type = .file ∧ (s.icache ip).node.type = .file then pure (some ip)
      else do
        iput v ip
        pure none
    | none => do
      let ip ← ialloc v type
      ilock ip
      setNode ip fun d => { d with major := major, minor := minor, nlink := 1 }
      iupdate v ip
      let s ← get
      if type = .dir then do
        setNode dp fun d => { d with nlink := d.nlink + 1 }
        iupdate v dp
        if ← dirlink v ip dot (s.icache ip).inum then
          if ← dirlink v ip dotdot (s.icache dp).inum then pure ()
          else fpanic "create dots"
        else fpanic "create dots"
      if ← dirlink v dp name (s.icache ip).inum then do
        iput v dp
        pure (some ip)
      else fpanic "create: dirlink"

/-- The loop of `isdirempty` at `off`. -/
def isdiremptyLoop (dp size : Nat) : Nat → Nat → F Bool
  | 0, _ => pure true
  | k + 1, off =>
    if off < size then do
      let de ← readDirent v dp off "isdirempty: readi"
      if direntInum de ≠ 0 then pure false else isdiremptyLoop dp size k (off + DIRENT)
    else pure true

def isdirempty (dp : Nat) : F Bool := do
  let s ← get
  isdiremptyLoop v dp (s.icache dp).node.size (s.icache dp).node.size (2 * DIRENT)

/-- `sys_unlink`, `false` for `-1`. -/
def unlink (cwd : Nat) (path : List (BitVec 8)) : F Bool := do
  match ← nameiparent v cwd path with
  | none => pure false
  | some (dp, name) => do
    ilock dp
    if namecmp name dot ∨ namecmp name dotdot then do
      iput v dp
      pure false
    else match ← dirlookup v dp name with
      | none => do
        iput v dp
        pure false
      | some (ip, off) =>
        if ip = dp then ownLock
        else do
          ilock ip
          let s ← get
          let d := (s.icache ip).node
          if d.nlink.toInt < 1 then fpanic "unlink: nlink < 1"
          else do
            let empty ← if d.type = .dir then isdirempty v ip else pure true
            if empty then do
              match ← writei v dp off (List.replicate DIRENT 0) with
              | none => fpanic "unlink: writei"
              | some _ => do
                if d.type = .dir then do
                  setNode dp fun d => { d with nlink := d.nlink - 1 }
                  iupdate v dp
                iput v dp
                setNode ip fun d => { d with nlink := d.nlink - 1 }
                iupdate v ip
                iput v ip
                pure true
            else do
              iput v ip
              iput v dp
              pure false

/-- The exit `bad` of `sys_link`. -/
def linkBad (ip : Nat) : F Bool := do
  ilock ip
  setNode ip fun d => { d with nlink := d.nlink - 1 }
  iupdate v ip
  iput v ip
  pure false

/-- `sys_link`, `false` for `-1`. There is one device. -/
def link (cwd : Nat) (old new : List (BitVec 8)) : F Bool := do
  match ← namei v cwd old with
  | none => pure false
  | some ip => do
    ilock ip
    let s ← get
    if (s.icache ip).node.type = .dir then do
      iput v ip
      pure false
    else do
      setNode ip fun d => { d with nlink := d.nlink + 1 }
      iupdate v ip
      match ← nameiparent v cwd new with
      | none => linkBad v ip
      | some (dp, name) => do
        ilock dp
        if ← dirlink v dp name (s.icache ip).inum then do
          iput v dp
          iput v ip
          pure true
        else do
          iput v dp
          linkBad v ip

end

end Xv6
