import Xv6.Lib.Crash
import Xv6.Lib.Word
import Xv6.Param

/-!
# `log.c`: committing a transaction

A block is 128 words. `disk` survives a crash. `cache b` is what `bread(b)` returns: the
buffer of block `b`, which for a logged block holds its new contents. `bwrite` copies a buffer to
the disk and is the only durable step.
-/

namespace Xv6

open Lib

abbrev Block : Type := Nat → Word

/-- `struct logheader`. -/
structure LogHeader where
  n : Int
  block : Nat → Word

/-- `log.start` and `log.size`; the blocks of the log area are numbered by `int`. -/
structure LogArea where
  start : Nat
  size : Nat
  fits : start + size < 2 ^ 31

/-- Block `b` lies outside the log area. -/
def LogArea.Outside (l : LogArea) (b : Nat) : Prop := b < l.start ∨ l.start + l.size ≤ b

/-- The log of the disk image that `mkfs` makes. -/
def mkfsLog : LogArea := ⟨2, LOGSIZE, by decide⟩

structure LogState where
  disk : Nat → Block
  cache : Nat → Block
  lh : LogHeader

/-- Log code: it can be cut off before each `bwrite`. -/
abbrev L (α : Type) : Type := Durable LogState α

/-- Change the buffer of block `b`. -/
def setBuf (b : Nat) (v : Block) : L Unit :=
  Durable.modify fun s => { s with cache := Function.update s.cache b v }

def bwrite (b : Nat) : L Unit :=
  Durable.step fun s => { s with disk := Function.update s.disk b (s.cache b) }

/-- Copy the buffer of `src` to that of `dst` and write it. -/
def copyBlock (dst src : Nat) : L Unit := do
  let s ← Durable.get
  setBuf dst (s.cache src)
  bwrite dst

/-- The loop of `write_log` at `tail`, with `k` blocks left. -/
def writeLogLoop (l : LogArea) : Nat → Nat → L Unit
  | 0, _ => pure ()
  | k + 1, tail => do
    let s ← Durable.get
    copyBlock (l.start + tail + 1) (s.lh.block tail).toNat
    writeLogLoop l k (tail + 1)

def writeLog (l : LogArea) : L Unit := do
  let s ← Durable.get
  writeLogLoop l s.lh.n.toNat 0

/-- The loop of `install_trans` at `tail`, with `k` blocks left. -/
def installTransLoop (l : LogArea) : Nat → Nat → L Unit
  | 0, _ => pure ()
  | k + 1, tail => do
    let s ← Durable.get
    copyBlock (s.lh.block tail).toNat (l.start + tail + 1)
    installTransLoop l k (tail + 1)

def installTrans (l : LogArea) : L Unit := do
  let s ← Durable.get
  installTransLoop l s.lh.n.toNat 0

/-- The header block after `hb->n = lh.n` and the stores to `hb->block`. -/
def headBlock (h : LogHeader) (b : Block) : Block := fun i =>
  if i = 0 then BitVec.ofInt 32 h.n
  else if i ≤ h.n.toNat then h.block (i - 1)
  else b i

def writeHead (l : LogArea) : L Unit := do
  let s ← Durable.get
  setBuf l.start (headBlock s.lh (s.cache l.start))
  bwrite l.start

/-- The header `read_head` finds in block `b`; entries from `n` on are kept. -/
def headOf (b : Block) (h : LogHeader) : LogHeader where
  n := (b 0).toInt
  block := fun i => if (i : Int) < (b 0).toInt then b (i + 1) else h.block i

def readHead (l : LogArea) : L Unit :=
  Durable.modify fun s => { s with lh := headOf (s.cache l.start) s.lh }

/-- `log.lh.n = 0`. -/
def clearHead : L Unit := Durable.modify fun s => { s with lh := { s.lh with n := 0 } }

def recoverFromLog (l : LogArea) : L Unit := do
  readHead l
  installTrans l
  clearHead
  writeHead l

/-- `commit` once `log.lh.n > 0`. -/
def commitBlocks (l : LogArea) : L Unit := do
  writeLog l
  writeHead l
  installTrans l
  clearHead
  writeHead l

def commit (l : LogArea) : L Unit := do
  let s ← Durable.get
  if 0 < s.lh.n then commitBlocks l else pure ()

/-- After a crash the cache is empty and `log` is zero. -/
def restart (d : Nat → Block) : LogState := ⟨d, d, ⟨0, fun _ => 0⟩⟩

/-- `d'` is the disk after recovery from `d`, restarted after any number of crashes. -/
def Recovered (l : LogArea) (d d' : Nat → Block) : Prop :=
  Restarted restart LogState.disk (recoverFromLog l) d d'

end Xv6
