import Mathlib.Logic.Function.Basic
import Xv6.Lib.Run

/-!
# `sleep` and `wakeup`

Processes on any number of CPUs wait for a condition that a lock `lk` protects. A step is one
acquisition or release of a lock or one change of a process's state, by one CPU. A spinlock belongs
to the CPU that took it, so `ptable.lock` goes from the process that calls `sched` to the
scheduler of its CPU and from there to the process it switches to. With `same`, `lk` is
`ptable.lock` itself: `sleep` then neither takes nor releases it, and a waker, which holds
`ptable.lock`, calls `wakeup1`.
-/

namespace Xv6

open Lib

/-- `acquire(lk); while(!cond) sleep(chan, lk); release(lk)` or
`acquire(lk); cond = 1; wakeup(chan); release(lk)`. -/
inductive Job where
  | sleeper
  | waker
  deriving DecidableEq

/-- Where a process holds no lock, so that a timer interrupt can make it yield. -/
inductive Home where
  /-- Between two jobs. -/
  | next
  /-- A sleeper before `acquire(lk)`, at first or at the end of `sleep`. -/
  | acquire
  /-- A waker before `acquire(lk)`. -/
  | wakeAcquire
  deriving DecidableEq

/-- What a process does next. -/
inductive Pc where
  | home (h : Home)
  /-- `forkret`, the first time a process runs: `release(&ptable.lock)`. -/
  | forkret
  /-- `while(!cond)`. -/
  | test
  /-- `sleep`: `acquire(&ptable.lock)`. -/
  | sleepAcquire
  /-- `sleep`: `release(lk)`. -/
  | sleepRelease
  /-- `p->chan = chan`. -/
  | setChan
  /-- `p->state = SLEEPING`. -/
  | setState
  /-- `sched` in `sleep`. -/
  | sched
  /-- `p->chan = 0` once `sched` has returned. -/
  | tidy
  /-- `sleep`: `release(&ptable.lock)`. -/
  | sleepReturn
  /-- `release(lk)` after the loop. -/
  | leave
  /-- `cond = 1`. -/
  | setCond
  /-- `wakeup`: `acquire(&ptable.lock)`. -/
  | wakeupAcquire
  /-- `wakeup1` at slot `j`. -/
  | scan (j : Nat)
  /-- `wakeup`: `release(&ptable.lock)`. -/
  | wakeupRelease
  /-- `release(lk)` of a waker. -/
  | wakeRelease
  /-- `yield`: `acquire(&ptable.lock)`. -/
  | yieldAcquire (h : Home)
  /-- `yield`: `myproc()->state = RUNNABLE`. -/
  | yieldSet (h : Home)
  /-- `sched` in `yield`. -/
  | yieldSched (h : Home)
  /-- `yield`: `release(&ptable.lock)` once `sched` has returned. -/
  | yieldReturn (h : Home)
  deriving DecidableEq

inductive RunState where
  | sleeping
  | runnable
  | running
  deriving DecidableEq

structure Sleeper where
  jobs : List Job
  pc : Pc
  state : RunState
  /-- `p->chan == chan`. -/
  chan : Bool
  deriving DecidableEq

/-- What a CPU does. -/
inductive Cpu (n : Nat) where
  /-- The scheduler before `acquire(&ptable.lock)`. -/
  | idle
  /-- The scheduler in its loop over the process table. -/
  | loop
  | run (p : Fin n)
  deriving DecidableEq

/-- A process table of `n` slots and CPUs `κ`. -/
structure SleepSys (n : Nat) (κ : Type) where
  cond : Bool
  lk : Option κ
  ptable : Option κ
  cpu : κ → Cpu n
  proc : Fin n → Sleeper

/-- How a step that is not determined goes on. -/
inductive Choice (n : Nat) where
  | go
  /-- A timer interrupt. -/
  | tick
  /-- The scheduler switches to `p`. -/
  | pick (p : Fin n)

namespace SleepSys

variable {n : Nat} {κ : Type} [DecidableEq κ]

def set (s : SleepSys n κ) (p : Fin n) (x : Sleeper) : SleepSys n κ :=
  { s with proc := Function.update s.proc p x }

def goto (s : SleepSys n κ) (p : Fin n) (a : Pc) : SleepSys n κ :=
  s.set p { s.proc p with pc := a }

def setCpu (s : SleepSys n κ) (c : κ) (x : Cpu n) : SleepSys n κ :=
  { s with cpu := Function.update s.cpu c x }

/-- `acquire(&ptable.lock)`; the CPU spins while the lock is taken. -/
def takePt (s : SleepSys n κ) (c : κ) : Option (SleepSys n κ) :=
  if s.ptable = none then some { s with ptable := some c } else none

def dropPt (s : SleepSys n κ) : SleepSys n κ := { s with ptable := none }

/-- `acquire(lk)`. -/
def takeLk (same : Bool) (s : SleepSys n κ) (c : κ) : Option (SleepSys n κ) :=
  if same then s.takePt c
  else if s.lk = none then some { s with lk := some c } else none

/-- `release(lk)`. -/
def dropLk (same : Bool) (s : SleepSys n κ) : SleepSys n κ :=
  if same then s.dropPt else { s with lk := none }

/-- `swtch` to the scheduler; the process goes on at `a` when it runs again. -/
def park (s : SleepSys n κ) (c : κ) (p : Fin n) (a : Pc) : SleepSys n κ :=
  (s.goto p a).setCpu c .loop

/-- `wakeup1` at slot `j`. -/
def wake (s : SleepSys n κ) (j : Fin n) : SleepSys n κ :=
  if (s.proc j).state = .sleeping ∧ (s.proc j).chan = true then
    s.set j { s.proc j with state := .runnable }
  else s

/-- The next step of `p` on CPU `c`. -/
def procStep (same : Bool) (s : SleepSys n κ) (c : κ) (p : Fin n) : Option (SleepSys n κ) :=
  let x := s.proc p
  match x.pc with
  | .home .next =>
    match x.jobs with
    | [] => none
    | .sleeper :: js => some (s.set p { x with jobs := js, pc := .home .acquire })
    | .waker :: js => some (s.set p { x with jobs := js, pc := .home .wakeAcquire })
  | .forkret => some (s.dropPt.goto p (.home .next))
  | .home .acquire => (s.takeLk same c).map fun s1 => s1.goto p .test
  | .test =>
    some (s.goto p (if s.cond then .leave else if same then .setChan else .sleepAcquire))
  | .sleepAcquire => (s.takePt c).map fun s1 => s1.goto p .sleepRelease
  | .sleepRelease => some ((s.dropLk same).goto p .setChan)
  | .setChan => some (s.set p { x with chan := true, pc := .setState })
  | .setState => some (s.set p { x with state := .sleeping, pc := .sched })
  | .sched => some (s.park c p .tidy)
  | .tidy => some (s.set p { x with chan := false, pc := if same then .test else .sleepReturn })
  | .sleepReturn => some (s.dropPt.goto p (.home .acquire))
  | .leave => some ((s.dropLk same).goto p (.home .next))
  | .home .wakeAcquire => (s.takeLk same c).map fun s1 => s1.goto p .setCond
  | .setCond =>
    some ({ s with cond := true }.goto p (if same then .scan 0 else .wakeupAcquire))
  | .wakeupAcquire => (s.takePt c).map fun s1 => s1.goto p (.scan 0)
  | .scan j =>
    if h : j < n then some ((s.wake ⟨j, h⟩).goto p (.scan (j + 1)))
    else some (s.goto p (if same then .wakeRelease else .wakeupRelease))
  | .wakeupRelease => some (s.dropPt.goto p .wakeRelease)
  | .wakeRelease => some ((s.dropLk same).goto p (.home .next))
  | .yieldAcquire h => (s.takePt c).map fun s1 => s1.goto p (.yieldSet h)
  | .yieldSet h => some (s.set p { x with state := .runnable, pc := .yieldSched h })
  | .yieldSched h => some (s.park c p (.yieldReturn h))
  | .yieldReturn h => some (s.dropPt.goto p (.home h))

/-- The next step of CPU `c`. -/
def next (same : Bool) (s : SleepSys n κ) (c : κ) : Choice n → Option (SleepSys n κ)
  | .go =>
    match s.cpu c with
    | .idle => (s.takePt c).map fun s1 => s1.setCpu c .loop
    | .loop => some (s.dropPt.setCpu c .idle)
    | .run p => s.procStep same c p
  | .tick =>
    match s.cpu c with
    | .run p =>
      match (s.proc p).pc with
      | .home h => some (s.goto p (.yieldAcquire h))
      | _ => none
    | _ => none
  | .pick p =>
    if s.cpu c = .loop ∧ (s.proc p).state = .runnable then
      some ((s.set p { s.proc p with state := .running }).setCpu c (.run p))
    else none

/-- All CPUs are in the scheduler and process `p` is to do the jobs `jobs p`. -/
def start (jobs : Fin n → List Job) : SleepSys n κ where
  cond := false
  lk := none
  ptable := none
  cpu := fun _ => .idle
  proc := fun p => ⟨jobs p, .forkret, .runnable, false⟩

end SleepSys

/-- A step of a CPU. -/
def SleepStep {n : Nat} {κ : Type} [DecidableEq κ] (same : Bool) (s : SleepSys n κ)
    (a : κ × Choice n) (s' : SleepSys n κ) : Prop := s.next same a.1 a.2 = some s'

end Xv6
