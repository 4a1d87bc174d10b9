import Xv6.Lib.Count
import Xv6.Lib.Run
import Xv6.Log.Commit

/-!
# `log.c`: operations of many processes

Each process makes a list of calls to `begin_op`, `log_write` and `end_op`. A section under
`log.lock` is one step; the tests that `log_write` makes before it takes the lock and the parts
of `commit`, which runs without the lock, are steps of their own. Sleepers on `&log` are made
runnable by `wakeup(&log)` and by `kill`, and test again.
-/

namespace Xv6

open Lib

inductive LogCall where
  | beginOp
  | logWrite (b : Word)
  | endOp
  deriving DecidableEq

/-- Where a process is in `commit` and in the end of `end_op`. -/
inductive CommitPos where
  | start
  | writeLog (tail : Nat)
  | writeHead
  | install (tail : Nat)
  /-- Before `log.lh.n = 0`. -/
  | clear
  /-- Before the second `write_head`. -/
  | erase
  /-- Before the section that clears `log.committing`. -/
  | done
  deriving DecidableEq

inductive LogPos where
  /-- Outside the log code. -/
  | out
  /-- In `begin_op`, before the tests. -/
  | beginOp
  /-- In `begin_op`, in `sleep(&log, &log.lock)`. -/
  | asleep
  /-- Before `log.lh.n >= LOGSIZE` in `log_write`. -/
  | testMax (b : Word)
  /-- Before `log.lh.n >= log.size - 1`. -/
  | testSize (b : Word)
  /-- Before `log.outstanding < 1`. -/
  | testOpen (b : Word)
  /-- Before the section of `log_write` under the lock. -/
  | logWrite (b : Word)
  | endOp
  | commit (c : CommitPos)
  deriving DecidableEq

structure LogProc where
  /-- The calls still to come. -/
  calls : List LogCall
  /-- The operations begun and not ended. -/
  held : Nat
  pos : LogPos
  deriving DecidableEq

/-- `struct log`, the processes, and the message of a panic. -/
structure LogSys (ι : Type) where
  lh : LogHeader
  outstanding : Int
  committing : Bool
  proc : ι → LogProc
  panicked : Option String

inductive LogEvent where
  | tau
  /-- `begin_op` returns. -/
  | begun
  /-- `begin_op` sleeps; the process has `held` operations open. -/
  | slept (held : Nat)
  | logged (b : Word)
  | ended
  /-- The first `write_head` of a commit, with the blocks of the header. -/
  | committed (T : List Word)
  deriving DecidableEq

/-- `log.lh.block[0]` to `log.lh.block[n - 1]`. -/
def LogHeader.blocks (h : LogHeader) : List Word := (List.range h.n.toNat).map h.block

/-- The index at which the loop of `log_write` stops. -/
def LogHeader.slot (h : LogHeader) (b : Word) : Nat :=
  ((List.range h.n.toNat).find? fun i => h.block i == b).getD h.n.toNat

/-- The section of `log_write` under the lock. -/
def LogHeader.absorb (h : LogHeader) (b : Word) : LogHeader where
  n := if h.slot b = h.n.toNat then h.n + 1 else h.n
  block := Function.update h.block (h.slot b) b

namespace LogSys

variable {ι : Type} [DecidableEq ι]

def set (s : LogSys ι) (p : ι) (x : LogProc) : LogSys ι :=
  { s with proc := Function.update s.proc p x }

def goto (s : LogSys ι) (p : ι) (a : LogPos) : LogSys ι := s.set p { s.proc p with pos := a }

theorem set_self (s : LogSys ι) (p : ι) (x : LogProc) : (s.set p x).proc p = x :=
  Function.update_self _ _ _

theorem set_ne (s : LogSys ι) {p q : ι} (x : LogProc) (h : q ≠ p) :
    (s.set p x).proc q = s.proc q := Function.update_of_ne h _ _

/-- What holds of `x` and of the other processes holds of all. -/
theorem forall_set {s : LogSys ι} {p : ι} {x : LogProc} {P : LogProc → Prop} (hx : P x)
    (h : ∀ q, P (s.proc q)) (q : ι) : P ((s.set p x).proc q) := by
  by_cases e : q = p
  · rw [e, set_self]
    exact hx
  · rw [set_ne _ _ e]
    exact h q

theorem goto_held (s : LogSys ι) {p : ι} {a : LogPos} (q : ι) :
    ((s.goto p a).proc q).held = (s.proc q).held := by
  by_cases e : q = p
  · rw [e, goto, set_self]
  · rw [goto, set_ne _ _ e]

def die (s : LogSys ι) (msg : String) : LogSys ι := { s with panicked := some msg }

/-- `wakeup(&log)`. -/
def wakeup (s : LogSys ι) : LogSys ι :=
  { s with proc := fun q =>
      if (s.proc q).pos = .asleep then { s.proc q with pos := .beginOp } else s.proc q }

/-- `p` makes its next call. -/
def call (s : LogSys ι) (p : ι) : Option (LogSys ι) :=
  match (s.proc p).calls with
  | [] => none
  | .beginOp :: cs => some (s.set p ⟨cs, (s.proc p).held, .beginOp⟩)
  | .logWrite b :: cs => some (s.set p ⟨cs, (s.proc p).held, .testMax b⟩)
  | .endOp :: cs => some (s.set p ⟨cs, (s.proc p).held, .endOp⟩)

/-- One turn of the loop of `begin_op`. -/
def beginOp (s : LogSys ι) (p : ι) : LogEvent × LogSys ι :=
  if s.committing then (.slept (s.proc p).held, s.goto p .asleep)
  else if s.lh.n + (s.outstanding + 1) * MAXOPBLOCKS > LOGSIZE then
    (.slept (s.proc p).held, s.goto p .asleep)
  else
    (.begun, { s with outstanding := s.outstanding + 1 }.set p
      ⟨(s.proc p).calls, (s.proc p).held + 1, .out⟩)

/-- A test of `log_write` before the lock. -/
def test (s : LogSys ι) (p : ι) (bad : Prop) [Decidable bad] (msg : String) (a : LogPos) :
    LogSys ι :=
  if bad then s.die msg else s.goto p a

def logWrite (s : LogSys ι) (p : ι) (b : Word) : LogSys ι :=
  { s with lh := s.lh.absorb b }.goto p .out

/-- The first section of `end_op`. -/
def endOp (s : LogSys ι) (p : ι) : LogEvent × LogSys ι :=
  let s1 := { s with outstanding := s.outstanding - 1 }
  let x := s.proc p
  if s.committing then (.tau, s1.die "log.committing")
  else if s1.outstanding = 0 then
    (.ended, { s1 with committing := true }.set p ⟨x.calls, x.held - 1, .commit .start⟩)
  else (.ended, (s1.wakeup).set p ⟨x.calls, x.held - 1, .out⟩)

/-- A step of `commit`, or the last section of `end_op`. -/
def commitStep (s : LogSys ι) (p : ι) : CommitPos → LogEvent × LogSys ι
  | .start => (.tau, s.goto p (.commit (if 0 < s.lh.n then .writeLog 0 else .done)))
  | .writeLog tail =>
    (.tau, s.goto p (.commit (if (tail : Int) < s.lh.n then .writeLog (tail + 1) else .writeHead)))
  | .writeHead => (.committed s.lh.blocks, s.goto p (.commit (.install 0)))
  | .install tail =>
    (.tau, s.goto p (.commit (if (tail : Int) < s.lh.n then .install (tail + 1) else .clear)))
  | .clear => (.tau, { s with lh := { s.lh with n := 0 } }.goto p (.commit .erase))
  | .erase => (.tau, s.goto p (.commit .done))
  | .done => (.tau, { s with committing := false }.wakeup.goto p .out)

/-- What `p` does next. -/
def next (l : LogArea) (s : LogSys ι) (p : ι) : Option (LogEvent × LogSys ι) :=
  if s.panicked.isSome then none else
  match (s.proc p).pos with
  | .out => (s.call p).map fun s' => (.tau, s')
  | .beginOp => some (s.beginOp p)
  | .asleep => some (.tau, s.goto p .beginOp)
  | .testMax b =>
    some (.tau, s.test p (s.lh.n ≥ LOGSIZE) "too big a transaction" (.testSize b))
  | .testSize b =>
    some (.tau, s.test p (s.lh.n ≥ l.size - 1) "too big a transaction" (.testOpen b))
  | .testOpen b =>
    some (.tau, s.test p (s.outstanding < 1) "log_write outside of trans" (.logWrite b))
  | .logWrite b => some (.logged b, s.logWrite p b)
  | .endOp => some (s.endOp p)
  | .commit c => some (s.commitStep p c)

/-- The log after `initlog`; process `p` is to make the calls `c p`. -/
def start (c : ι → List LogCall) : LogSys ι where
  lh := ⟨0, fun _ => 0⟩
  outstanding := 0
  committing := false
  proc := fun p => ⟨c p, 0, .out⟩
  panicked := none

end LogSys

/-- A step of process `p`. -/
structure LogLabel (ι : Type) where
  proc : ι
  event : LogEvent
  deriving DecidableEq

def LogStep {ι : Type} [DecidableEq ι] (l : LogArea) (s : LogSys ι) (a : LogLabel ι)
    (s' : LogSys ι) : Prop :=
  s.next l a.proc = some (a.event, s')

/-- The step of `p`, labelled. -/
def LogSys.act {ι : Type} [DecidableEq ι] (l : LogArea) (s : LogSys ι) (p : ι) :
    Option (LogLabel ι × LogSys ι) :=
  (s.next l p).map fun r => (⟨p, r.1⟩, r.2)

theorem LogSys.step_of_act {ι : Type} [DecidableEq ι] {l : LogArea} {s s' : LogSys ι} {p : ι}
    {a : LogLabel ι} (h : s.act l p = some (a, s')) : LogStep l s a s' := by
  obtain ⟨r, hr, he⟩ := Option.map_eq_some_iff.1 h
  obtain ⟨rfl, rfl⟩ := Prod.mk.inj he
  exact hr

/-- With `d` operations open, `log_write` and `end_op` are called only inside one. -/
def Nested : Nat → List LogCall → Prop
  | _, [] => True
  | d, .beginOp :: cs => Nested (d + 1) cs
  | d, .logWrite _ :: cs => 0 < d ∧ Nested d cs
  | d, .endOp :: cs => 0 < d ∧ Nested (d - 1) cs

instance Nested.decidable : ∀ (d : Nat) (cs : List LogCall), Decidable (Nested d cs)
  | _, [] => inferInstanceAs (Decidable True)
  | d, .beginOp :: cs => Nested.decidable (d + 1) cs
  | d, .logWrite _ :: cs =>
    have := Nested.decidable d cs
    inferInstanceAs (Decidable (0 < d ∧ Nested d cs))
  | d, .endOp :: cs =>
    have := Nested.decidable (d - 1) cs
    inferInstanceAs (Decidable (0 < d ∧ Nested (d - 1) cs))

end Xv6
