import Mathlib.Data.Fintype.Basic
import Xv6.Lib.Ring
import Xv6.Lib.Run
import Xv6.Lib.Word

/-!
# `pipe.c`

One pipe and the processes that use it. What a process does from taking `p->lock`, or waking up
with it, to releasing it or going to sleep is one step. `killed` is read at most once in such a
section; a `kill` that comes between this read and the `sleep` finds the process still running, so
it only sets the flag. A process holds the read end or the write end or both; the last holder to
close an end calls `pipeclose`.
-/

namespace Xv6

open Lib

abbrev PIPESIZE : Nat := 512

structure Pipe extends Ring 32 (BitVec 8) where
  readopen : Bool
  writeopen : Bool

/-- The user's calls on a pipe. -/
inductive PipeCall where
  /-- `pipewrite` of these bytes. -/
  | write (bs : List (BitVec 8))
  /-- `piperead` of at most `n` bytes. -/
  | read (n : Nat)
  | close (writable : Bool)
  deriving DecidableEq

inductive PipePos where
  | out
  /-- In `pipewrite`, ready for its next section; the bytes are still to be stored. -/
  | writing (bs : List (BitVec 8))
  /-- In `piperead`, ready for its next section. -/
  | reading (n : Nat)
  /-- SLEEPING on `&p->nwrite`. -/
  | sleepWrite (bs : List (BitVec 8))
  /-- SLEEPING on `&p->nread`. -/
  | sleepRead (n : Nat)
  deriving DecidableEq

/-- How a section of `pipewrite` ends. -/
inductive WriteEnd where
  | done
  | asleep
  /-- `-1`: the read end is closed. -/
  | closed
  /-- `-1`: the caller is killed. -/
  | killed
  deriving DecidableEq

/-- How a section of `piperead` ends. -/
inductive ReadEnd where
  | done
  | asleep
  | killed
  deriving DecidableEq

namespace Pipe

def Full (p : Pipe) : Prop := p.nwrite = p.nread + BitVec.ofNat 32 PIPESIZE

def Empty (p : Pipe) : Prop := p.nread = p.nwrite

instance (p : Pipe) : Decidable p.Full := inferInstanceAs (Decidable (_ = _))

instance (p : Pipe) : Decidable p.Empty := inferInstanceAs (Decidable (_ = _))

/-- `p->data[p->nwrite++ % PIPESIZE] = b`. -/
def store (p : Pipe) (b : BitVec 8) : Pipe := { p with toRing := p.toRing.put PIPESIZE b }

/-- `p->data[p->nread % PIPESIZE]`. -/
def next (p : Pipe) : BitVec 8 := p.toRing.front PIPESIZE

/-- `p->nread++`. -/
def taken (p : Pipe) : Pipe := { p with toRing := p.toRing.drop }

/-- What a section of `pipewrite` does. -/
structure Wrote where
  /-- The bytes it stores. -/
  stored : List (BitVec 8)
  ending : WriteEnd
  /-- The bytes that are left. -/
  rest : List (BitVec 8)
  pipe : Pipe

/-- A section of `pipewrite` with the bytes still to be stored. -/
def write (killed : Bool) : List (BitVec 8) → Pipe → Wrote
  | [], p => ⟨[], .done, [], p⟩
  | b :: bs, p =>
    if p.Full then
      if p.readopen = false then ⟨[], .closed, b :: bs, p⟩
      else if killed then ⟨[], .killed, b :: bs, p⟩
      else ⟨[], .asleep, b :: bs, p⟩
    else
      let r := write killed bs (p.store b)
      { r with stored := b :: r.stored }

/-- The copy loop of `piperead`. -/
def copy : Nat → Pipe → List (BitVec 8) × Pipe
  | 0, p => ([], p)
  | n + 1, p =>
    if p.Empty then ([], p)
    else
      let r := copy n p.taken
      (p.next :: r.1, r.2)

/-- What a section of `piperead` does. -/
structure Took where
  bytes : List (BitVec 8)
  ending : ReadEnd
  pipe : Pipe

/-- A section of `piperead`. -/
def read (killed : Bool) (n : Nat) (p : Pipe) : Took :=
  if p.Empty ∧ p.writeopen = true then
    if killed then ⟨[], .killed, p⟩ else ⟨[], .asleep, p⟩
  else ⟨(p.copy n).1, .done, (p.copy n).2⟩

end Pipe

structure PipeProc where
  calls : List PipeCall
  pos : PipePos
  killed : Bool
  /-- It holds the read end. -/
  rd : Bool
  /-- It holds the write end. -/
  wr : Bool
  deriving DecidableEq

/-- It holds the write end, or the read end. -/
def PipeProc.holds (x : PipeProc) : Bool → Bool
  | true => x.wr
  | false => x.rd

/-- It gives the end up. -/
def PipeProc.drop (x : PipeProc) : Bool → PipeProc
  | true => { x with wr := false }
  | false => { x with rd := false }

structure PipeSys (ι : Type) where
  pipe : Pipe
  /-- `kfree((char*)p)` has been done. -/
  freed : Bool
  proc : ι → PipeProc

inductive PipeEvent where
  | tau
  | wrote (bs : List (BitVec 8)) (r : WriteEnd)
  | read (bs : List (BitVec 8)) (r : ReadEnd)
  deriving DecidableEq

/-- `wakeup(&p->nread)`. -/
def PipePos.wakeRead : PipePos → PipePos
  | .sleepRead n => .reading n
  | a => a

/-- `wakeup(&p->nwrite)`. -/
def PipePos.wakeWrite : PipePos → PipePos
  | .sleepWrite bs => .writing bs
  | a => a

namespace PipeSys

variable {ι : Type}

def wakeRead (s : PipeSys ι) : PipeSys ι :=
  { s with proc := fun q => { s.proc q with pos := (s.proc q).pos.wakeRead } }

def wakeWrite (s : PipeSys ι) : PipeSys ι :=
  { s with proc := fun q => { s.proc q with pos := (s.proc q).pos.wakeWrite } }

/-- `pipeclose` up to its wakeup. -/
def closeEnd (s : PipeSys ι) : Bool → PipeSys ι
  | true => { s with pipe := { s.pipe with writeopen := false } }.wakeRead
  | false => { s with pipe := { s.pipe with readopen := false } }.wakeWrite

def pipeclose (s : PipeSys ι) (writable : Bool) : PipeSys ι :=
  let s1 := s.closeEnd writable
  if s1.pipe.readopen = false ∧ s1.pipe.writeopen = false then { s1 with freed := true } else s1

theorem pipeclose_pipe (s : PipeSys ι) (w : Bool) :
    (s.pipeclose w).pipe = (s.closeEnd w).pipe := by
  unfold pipeclose
  dsimp only
  split <;> rfl

theorem pipeclose_proc (s : PipeSys ι) (w : Bool) :
    (s.pipeclose w).proc = (s.closeEnd w).proc := by
  unfold pipeclose
  dsimp only
  split <;> rfl

variable [DecidableEq ι]

def set (s : PipeSys ι) (p : ι) (x : PipeProc) : PipeSys ι :=
  { s with proc := Function.update s.proc p x }

def goto (s : PipeSys ι) (p : ι) (a : PipePos) : PipeSys ι := s.set p { s.proc p with pos := a }

/-- A section of `pipewrite` by `p`; `late` is a `kill` after the test of `killed`. -/
def writeSection (s : PipeSys ι) (p : ι) (late : Bool) (bs : List (BitVec 8)) :
    PipeEvent × PipeSys ι :=
  let r := s.pipe.write (s.proc p).killed bs
  let s1 := { s with pipe := r.pipe }
  let x := { s.proc p with killed := (s.proc p).killed || late }
  (.wrote r.stored r.ending,
    match r.ending with
    | .done => s1.wakeRead.set p { x with pos := .out }
    | .asleep => s1.wakeRead.set p { x with pos := .sleepWrite r.rest }
    | .closed => s1.set p { x with pos := .out }
    | .killed => s1.set p { x with pos := .out })

/-- A section of `piperead` by `p`. -/
def readSection (s : PipeSys ι) (p : ι) (late : Bool) (n : Nat) : PipeEvent × PipeSys ι :=
  let r := s.pipe.read (s.proc p).killed n
  let s1 := { s with pipe := r.pipe }
  let x := { s.proc p with killed := (s.proc p).killed || late }
  (.read r.bytes r.ending,
    match r.ending with
    | .done => s1.wakeWrite.set p { x with pos := .out }
    | .asleep => s1.set p { x with pos := .sleepRead n }
    | .killed => s1.set p { x with pos := .out })

variable [Fintype ι]

/-- `fileclose` of an end that `p` holds. -/
def fileclose (s : PipeSys ι) (p : ι) (writable : Bool) : PipeSys ι :=
  let s1 := s.set p ((s.proc p).drop writable)
  if ∀ q, (s1.proc q).holds writable = false then s1.pipeclose writable else s1

/-- `p` makes its next call; a call on an end that it does not hold fails at once. -/
def call (s : PipeSys ι) (p : ι) : Option (PipeSys ι) :=
  let x := s.proc p
  match x.calls with
  | [] => none
  | .write bs :: cs =>
    some (s.set p { x with calls := cs, pos := if x.wr then .writing bs else .out })
  | .read n :: cs =>
    some (s.set p { x with calls := cs, pos := if x.rd then .reading n else .out })
  | .close w :: cs =>
    let s1 := s.set p { x with calls := cs }
    some (if x.holds w then s1.fileclose p w else s1)

/-- `kill` of `p`. -/
def kill (s : PipeSys ι) (p : ι) : PipeSys ι :=
  s.set p { s.proc p with killed := true, pos := (s.proc p).pos.wakeRead.wakeWrite }

/-- What `p` does next; a sleeper does nothing. -/
def act (s : PipeSys ι) (p : ι) (late : Bool) : Option (PipeEvent × PipeSys ι) :=
  match (s.proc p).pos with
  | .out => (s.call p).map fun s' => (.tau, s')
  | .writing bs => if s.freed then none else some (s.writeSection p late bs)
  | .reading n => if s.freed then none else some (s.readSection p late n)
  | .sleepWrite _ => none
  | .sleepRead _ => none

end PipeSys

structure PipeLabel (ι : Type) where
  proc : ι
  event : PipeEvent
  deriving DecidableEq

/-- A step of `p`, or a `kill` of `p`. -/
inductive PipeStep {ι : Type} [DecidableEq ι] [Fintype ι] (s : PipeSys ι) :
    PipeLabel ι → PipeSys ι → Prop
  | act {p : ι} {late : Bool} {e : PipeEvent} {s' : PipeSys ι} (h : s.act p late = some (e, s')) :
      PipeStep s ⟨p, e⟩ s'
  | kill (p : ι) : PipeStep s ⟨p, .tau⟩ (s.kill p)

/-- The step of `p`, or with `none` a `kill` of `p`. -/
def PipeSys.next {ι : Type} [DecidableEq ι] [Fintype ι] (s : PipeSys ι) :
    ι × Option Bool → Option (PipeLabel ι × PipeSys ι)
  | (p, some late) => (s.act p late).map fun r => (⟨p, r.1⟩, r.2)
  | (p, none) => some (⟨p, .tau⟩, s.kill p)

theorem PipeSys.step_of_next {ι : Type} [DecidableEq ι] [Fintype ι] {s s' : PipeSys ι}
    {i : ι × Option Bool} {a : PipeLabel ι} (h : s.next i = some (a, s')) : PipeStep s a s' := by
  obtain ⟨p, _ | late⟩ := i
  · obtain ⟨rfl, rfl⟩ := Prod.mk.inj (Option.some.inj h)
    exact .kill p
  · obtain ⟨r, hr, he⟩ := Option.map_eq_some_iff.1 h
    obtain ⟨rfl, rfl⟩ := Prod.mk.inj he
    exact .act hr

/-- A new pipe: `pipealloc`, and processes that hold its ends. -/
structure PipeStart {ι : Type} (s : PipeSys ι) : Prop where
  nread : s.pipe.nread = 0
  nwrite : s.pipe.nwrite = 0
  readopen : s.pipe.readopen = true
  writeopen : s.pipe.writeopen = true
  freed : s.freed = false
  out : ∀ p, (s.proc p).pos = .out

/-- A new pipe; process `p` holds both ends and is to make the calls `c p`. -/
def newPipe {ι : Type} (c : ι → List PipeCall) : PipeSys ι where
  pipe := ⟨⟨fun _ => 0, 0, 0⟩, true, true⟩
  freed := false
  proc := fun p => ⟨c p, .out, false, true, true⟩

theorem newPipe_start {ι : Type} (c : ι → List PipeCall) : PipeStart (newPipe c) :=
  ⟨rfl, rfl, rfl, rfl, rfl, fun _ => rfl⟩

end Xv6
