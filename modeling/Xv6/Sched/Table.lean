import Mathlib.Data.List.FinRange
import Mathlib.Logic.Function.Basic
import Xv6.Lib.Run
import Xv6.Vm.State

/-!
# The process table

`fork`, `exit`, `wait`, `kill` and scheduling on a table of slots. A critical section under
`ptable.lock` is one step. `fork` works on the new slot without the lock between the sections of
`allocproc` and of its end, and can fail there three times; it then sets the slot back to
UNUSED and leaves the other fields as they are.
-/

namespace Xv6

open Lib

/-- Where a process is. `c` is the slot that `fork` is filling. -/
inductive TabPc (n : Nat) where
  /-- In user code, or in kernel code that is not listed here. -/
  | user
  /-- `fork`: `kalloc` of the kernel stack in `allocproc`. -/
  | kstack (c : Fin n)
  /-- `fork`: `copyuvm`. -/
  | copyuvm (c : Fin n)
  /-- `fork`: `np->parent = curproc`. -/
  | setParent (c : Fin n)
  /-- `fork`: `initSwap`. -/
  | initSwap (c : Fin n)
  /-- `fork`: the section that makes the child RUNNABLE. -/
  | start (c : Fin n)
  /-- In the loop of `wait`. -/
  | wait
  deriving DecidableEq

structure Slot (n : Nat) where
  state : ProcState
  pid : Int
  parent : Option (Fin n)
  killed : Bool
  pc : TabPc n
  deriving DecidableEq

structure Table (n : Nat) where
  nextpid : Int
  proc : Fin n → Slot n

/-- What a process does, or what happens to it. -/
inductive TabAct where
  | fork
  /-- The next step of `fork`, which succeeds or fails. -/
  | forkStep (ok : Bool)
  | exit
  /-- A turn of the loop of `wait`. -/
  | wait
  | kill (pid : Int)
  /-- A trap that sets `killed`. -/
  | trap
  /-- `sleep` anywhere but in `wait`. -/
  | sleep
  | yield
  /-- The scheduler runs it. -/
  | schedule
  /-- A `wakeup` of a process that sleeps anywhere but in `wait`. -/
  | wakeup
  deriving DecidableEq

/-- What is seen of a step. -/
inductive TabEvent (n : Nat) where
  | tau
  /-- `allocproc` has taken slot `c` and given it `pid`. -/
  | alloc (c : Fin n) (pid : Int)
  /-- `fork` returns `pid`, the new process in slot `c`. -/
  | forked (c : Fin n) (pid : Int)
  /-- `fork` returns `-1` and gives slot `c` back. -/
  | forkFailed (c : Fin n)
  | exited
  /-- `wait` returns the `pid` of the process in slot `c`. -/
  | reaped (c : Fin n) (pid : Int)
  /-- `wait` returns `-1`. -/
  | waitFailed
  /-- `kill(pid)` finds slot `c` and returns 0, or finds none and returns `-1`. -/
  | kill (pid : Int) (c : Option (Fin n))
  | trap
  deriving DecidableEq

/-- SLEEPING in `wait`, on the channel of its own slot. -/
def Slot.Waiting {n : Nat} (x : Slot n) : Prop := x.state = .sleeping ∧ x.pc = .wait

instance {n : Nat} (x : Slot n) : Decidable x.Waiting := inferInstanceAs (Decidable (_ ∧ _))

/-- A process that has started and has not exited. -/
def Slot.Active {n : Nat} (x : Slot n) : Prop := x.state.active = true

theorem Slot.active_of_state {n : Nat} {x : Slot n} {t : ProcState} (h : x.state = t)
    (ht : t.active = true) : x.Active := by
  rw [Slot.Active, h]
  exact ht

namespace Table

variable {n : Nat}

/-- The first slot that has property `P`. -/
def find (s : Table n) (P : Slot n → Bool) : Option (Fin n) :=
  (List.finRange n).find? fun c => P (s.proc c)

def set (s : Table n) (p : Fin n) (x : Slot n) : Table n :=
  { s with proc := Function.update s.proc p x }

/-- The section of `allocproc`, and `fork` returns `-1` if there is no slot. -/
def fork (s : Table n) (p : Fin n) : TabEvent n × Table n :=
  match s.find fun x => x.state == .unused with
  | none => (.tau, s)
  | some c =>
    (.alloc c s.nextpid,
      ({ s with nextpid := s.nextpid + 1 }.set c
        { s.proc c with state := .embryo, pid := s.nextpid }).set p
        { s.proc p with pc := .kstack c })

/-- A failing `fork` gives slot `c` back. -/
def forkFail (s : Table n) (p c : Fin n) : TabEvent n × Table n :=
  (.forkFailed c, (s.set c { s.proc c with state := .unused }).set p { s.proc p with pc := .user })

/-- `fork` goes on with slot `c`. -/
def forkStep (s : Table n) (p : Fin n) (ok : Bool) : Option (TabEvent n × Table n) :=
  match (s.proc p).pc with
  | .kstack c =>
    some (if ok then (.tau, s.set p { s.proc p with pc := .copyuvm c }) else s.forkFail p c)
  | .copyuvm c =>
    some (if ok then (.tau, s.set p { s.proc p with pc := .setParent c }) else s.forkFail p c)
  | .setParent c =>
    some (.tau, (s.set c { s.proc c with parent := some p }).set p
      { s.proc p with pc := .initSwap c })
  | .initSwap c =>
    some (if ok then (.tau, s.set p { s.proc p with pc := .start c }) else s.forkFail p c)
  | .start c =>
    some (.forked c (s.proc c).pid,
      (s.set c { s.proc c with state := .runnable, pc := .user }).set p
        { s.proc p with pc := .user })
  | _ => none

/-- `wakeup1` of the channel on which process `q` sleeps in `wait`. -/
def wakeup1 (s : Table n) (q : Fin n) : Table n :=
  { s with proc := fun r =>
    { s.proc r with
      state := if r = q ∧ (s.proc r).Waiting then .runnable else (s.proc r).state } }

/-- The children of `p` go to `init`. -/
def reparent (init : Fin n) (s : Table n) (p : Fin n) : Table n :=
  { s with proc := fun r =>
    { s.proc r with
      parent := if (s.proc r).parent = some p then some init else (s.proc r).parent } }

/-- `wakeup1(p->parent)` -/
def wakeParent (s : Table n) (p : Fin n) : Table n := (s.proc p).parent.elim s s.wakeup1

/-- The section of `exit`: the parent of `p` is woken, its children go to `init`, which is woken
if one of them is a ZOMBIE. -/
def exit (init : Fin n) (s : Table n) (p : Fin n) : Table n :=
  let s1 := s.wakeParent p
  let s2 := s1.reparent init p
  let s3 :=
    if ∃ c ∈ List.finRange n, (s1.proc c).parent = some p ∧ (s1.proc c).state = .zombie then
      s2.wakeup1 init
    else s2
  s3.set p { s3.proc p with state := .zombie }

/-- A turn of the loop of `wait`. -/
def wait (s : Table n) (p : Fin n) : TabEvent n × Table n :=
  match s.find fun x => x.parent == some p && x.state == .zombie with
  | some c =>
    (.reaped c (s.proc c).pid,
      (s.set c { s.proc c with state := .unused, pid := 0, parent := none, killed := false }).set p
        { s.proc p with pc := .user })
  | none =>
    if (s.find fun x => x.parent == some p) = none ∨ (s.proc p).killed = true then
      (.waitFailed, s.set p { s.proc p with pc := .user })
    else (.tau, s.set p { s.proc p with state := .sleeping, pc := .wait })

/-- `kill(pid)`: the first slot with this `pid`, whatever its state. -/
def kill (s : Table n) (pid : Int) : TabEvent n × Table n :=
  match s.find fun x => x.pid == pid with
  | none => (.kill pid none, s)
  | some c =>
    (.kill pid (some c),
      s.set c { s.proc c with
        killed := true
        state := if (s.proc c).state = .sleeping then .runnable else (s.proc c).state })

/-- The step of `p` that `a` names, if `p` can make it. -/
def next (init : Fin n) (s : Table n) (p : Fin n) (a : TabAct) : Option (TabEvent n × Table n) :=
  let x := s.proc p
  match a with
  | .schedule =>
    if x.state = .runnable then some (.tau, s.set p { x with state := .running }) else none
  | .wakeup =>
    if x.state = .sleeping ∧ x.pc ≠ .wait then
      some (.tau, s.set p { x with state := .runnable })
    else none
  | .fork => if x.state = .running ∧ x.pc = .user then some (s.fork p) else none
  | .forkStep ok => if x.state = .running then s.forkStep p ok else none
  | .exit =>
    if x.state = .running ∧ x.pc = .user ∧ p ≠ init then some (.exited, s.exit init p) else none
  | .wait =>
    if x.state = .running ∧ (x.pc = .user ∨ x.pc = .wait) then some (s.wait p) else none
  | .kill pid => if x.state = .running ∧ x.pc = .user then some (s.kill pid) else none
  | .trap =>
    if x.state = .running ∧ x.pc = .user then
      some (.trap, s.set p { x with killed := true })
    else none
  | .sleep =>
    if x.state = .running ∧ x.pc ≠ .wait then
      some (.tau, s.set p { x with state := .sleeping })
    else none
  | .yield =>
    if x.state = .running ∧ x.pc ≠ .wait then
      some (.tau, s.set p { x with state := .runnable })
    else none

/-- The table after `userinit`. -/
def boot (init : Fin n) : Table n where
  nextpid := 2
  proc := fun p =>
    if p = init then ⟨.runnable, 1, none, false, .user⟩ else ⟨.unused, 0, none, false, .user⟩

end Table

/-- The slot and the `pid` of a process, and what it does. -/
structure TabLabel (n : Nat) where
  proc : Fin n
  pid : Int
  event : TabEvent n
  deriving DecidableEq

/-- A step of, or for, process `a.proc`. -/
def TabStep {n : Nat} (init : Fin n) (s : Table n) (a : TabLabel n) (s' : Table n) : Prop :=
  a.pid = (s.proc a.proc).pid ∧ ∃ k, s.next init a.proc k = some (a.event, s')

/-- The step that `k` names, with its label. -/
def Table.act {n : Nat} (init : Fin n) (s : Table n) (k : Fin n × TabAct) :
    Option (TabLabel n × Table n) :=
  (s.next init k.1 k.2).map fun r => (⟨k.1, (s.proc k.1).pid, r.1⟩, r.2)

theorem tabStep_of_act {n : Nat} {init : Fin n} {s s' : Table n} {k : Fin n × TabAct}
    {a : TabLabel n} (h : s.act init k = some (a, s')) : TabStep init s a s' := by
  obtain ⟨⟨e, s1⟩, h1, he⟩ := Option.map_eq_some_iff.1 h
  obtain ⟨rfl, rfl⟩ := Prod.mk.inj he
  exact ⟨rfl, k.2, h1⟩

/-! ### What a step can do -/

namespace TabPc

variable {n : Nat}

/-- The slot that `fork` has taken and not yet started or given back. -/
def child : TabPc n → Option (Fin n)
  | .kstack c | .copyuvm c | .setParent c | .initSwap c | .start c => some c
  | .user | .wait => none

/-- `fork` has set the parent of the new slot. -/
def Linked : TabPc n → Prop
  | .initSwap _ | .start _ => True
  | _ => False

end TabPc

namespace Table

variable {n : Nat} {init p c : Fin n} {s s' : Table n} {e : TabEvent n} {P : Slot n → Bool}

@[simp] theorem set_self (x : Slot n) : (s.set p x).proc p = x := Function.update_self ..

theorem set_of_ne {q : Fin n} (x : Slot n) (h : q ≠ p) : (s.set p x).proc q = s.proc q :=
  Function.update_of_ne h ..

theorem forall_set {Q : Fin n → Slot n → Prop} {x : Slot n} (hp : Q p x)
    (hq : ∀ q, q ≠ p → Q q (s.proc q)) (q : Fin n) : Q q ((s.set p x).proc q) := by
  by_cases h : q = p
  · subst h
    rwa [set_self]
  · rw [set_of_ne _ h]
    exact hq q h

@[simp] theorem set_nextpid (x : Slot n) : (s.set p x).nextpid = s.nextpid := rfl

theorem set_comm {x y : Slot n} (h : c ≠ p) : (s.set c x).set p y = (s.set p y).set c x := by
  unfold set
  rw [Function.update_comm h]

theorem find_some (h : s.find P = some c) : P (s.proc c) = true :=
  List.find?_some (p := fun c => P (s.proc c)) h

theorem find_none (h : s.find P = none) (c : Fin n) : P (s.proc c) = false := by
  unfold find at h
  simpa using List.find?_eq_none.1 h c (List.mem_finRange c)

/-- A ZOMBIE child of `p`. -/
def ZombieChild (s : Table n) (p : Fin n) : Prop :=
  ∃ c, (s.proc c).parent = some p ∧ (s.proc c).state = .zombie

/-- Who is woken when `p` exits. -/
def WokenBy (init : Fin n) (s : Table n) (p q : Fin n) : Prop :=
  (s.proc p).parent = some q ∨ (q = init ∧ s.ZombieChild p)

theorem wakeParent_proc (q : Fin n) :
    (s.wakeParent p).proc q =
      { s.proc q with
        state :=
          if (s.proc p).parent = some q ∧ (s.proc q).Waiting then .runnable
          else (s.proc q).state } := by
  unfold wakeParent
  cases h : (s.proc p).parent with
  | none => simp
  | some r =>
    simp only [Option.elim_some, wakeup1, Option.some.injEq, @eq_comm _ r q]

theorem wakeParent_zombie :
    (∃ c ∈ List.finRange n, ((s.wakeParent p).proc c).parent = some p ∧
      ((s.wakeParent p).proc c).state = .zombie) ↔ s.ZombieChild p := by
  unfold ZombieChild
  refine exists_congr fun c => ?_
  rw [wakeParent_proc]
  dsimp only
  split
  · rename_i h
    simp [h.2.1]
  · simp [List.mem_finRange]

theorem exit_nextpid : (s.exit init p).nextpid = s.nextpid := by
  unfold exit wakeParent
  dsimp only
  rw [set_nextpid]
  cases (s.proc p).parent <;> split <;> rfl

open Classical in
theorem exit_proc (q : Fin n) :
    (s.exit init p).proc q =
      { s.proc q with
        parent := if (s.proc q).parent = some p then some init else (s.proc q).parent
        state :=
          if q = p then .zombie
          else if s.WokenBy init p q ∧ (s.proc q).Waiting then .runnable
          else (s.proc q).state } := by
  unfold exit WokenBy
  simp only [wakeParent_zombie]
  by_cases hq : q = p
  · subst hq
    rw [set_self]
    split <;> simp [wakeup1, reparent, wakeParent_proc]
  · rw [set_of_ne _ hq]
    split
    · rename_i hz
      by_cases hw : (s.proc q).Waiting
      · by_cases hp : (s.proc p).parent = some q
        · simp [wakeup1, reparent, wakeParent_proc, Slot.Waiting, hp, hw.1, hw.2]
        · simp [wakeup1, reparent, wakeParent_proc, Slot.Waiting, hp, hw.1, hw.2, hz]
      · have hw' : ∀ o, ¬ ({ s.proc q with parent := o } : Slot n).Waiting := fun _ h => hw h
        simp [wakeup1, reparent, wakeParent_proc, hw, hw']
    · rename_i hz
      simp [reparent, wakeParent_proc, hz]

/-- What a step of, or for, process `p` does. -/
inductive Effect (init : Fin n) (s : Table n) (p : Fin n) : TabEvent n → Table n → Prop
  | idle : Effect init s p .tau s
  /-- `p` changes its state or goes on in `fork` or `wait`. -/
  | move (x : Slot n) (hp : (s.proc p).Active) (hx : x.Active) (hpid : x.pid = (s.proc p).pid)
      (hparent : x.parent = (s.proc p).parent) (hkilled : x.killed = (s.proc p).killed)
      (hchild : x.pc.child = (s.proc p).pc.child)
      (hlinked : x.pc.Linked → (s.proc p).pc.Linked)
      (hwait : x.Waiting → ¬ s.ZombieChild p) : Effect init s p .tau (s.set p x)
  | trap (hp : (s.proc p).state = .running) :
      Effect init s p .trap (s.set p { s.proc p with killed := true })
  | waitFailed (hp : (s.proc p).Active) (hpc : (s.proc p).pc.child = none)
      (h : (∀ q, (s.proc q).parent ≠ some p) ∨ (s.proc p).killed = true) :
      Effect init s p .waitFailed (s.set p { s.proc p with pc := .user })
  | alloc (c : Fin n) (hp : (s.proc p).Active) (hpc : (s.proc p).pc.child = none)
      (hc : (s.proc c).state = .unused) :
      Effect init s p (.alloc c s.nextpid)
        (({ s with nextpid := s.nextpid + 1 }.set c
          { s.proc c with state := .embryo, pid := s.nextpid }).set p
          { s.proc p with pc := .kstack c })
  | forkFailed (c : Fin n) (hp : (s.proc p).Active) (hpc : (s.proc p).pc.child = some c) :
      Effect init s p (.forkFailed c)
        ((s.set c { s.proc c with state := .unused }).set p { s.proc p with pc := .user })
  | setParent (c : Fin n) (hp : (s.proc p).Active) (hpc : (s.proc p).pc = .setParent c) :
      Effect init s p .tau
        ((s.set c { s.proc c with parent := some p }).set p { s.proc p with pc := .initSwap c })
  | forked (c : Fin n) (hp : (s.proc p).Active) (hpc : (s.proc p).pc = .start c) :
      Effect init s p (.forked c (s.proc c).pid)
        ((s.set c { s.proc c with state := .runnable, pc := .user }).set p
          { s.proc p with pc := .user })
  | exited (hp : (s.proc p).Active) (hpc : (s.proc p).pc = .user) (hinit : p ≠ init) :
      Effect init s p .exited (s.exit init p)
  | reaped (c : Fin n) (hp : (s.proc p).Active) (hpc : (s.proc p).pc.child = none)
      (hparent : (s.proc c).parent = some p) (hc : (s.proc c).state = .zombie) :
      Effect init s p (.reaped c (s.proc c).pid)
        ((s.set c { s.proc c with state := .unused, pid := 0, parent := none, killed := false }).set
          p { s.proc p with pc := .user })
  | kill (c : Fin n) :
      Effect init s p (.kill (s.proc c).pid (some c))
        (s.set c { s.proc c with
          killed := true
          state := if (s.proc c).state = .sleeping then .runnable else (s.proc c).state })
  | killNone (pid : Int) : Effect init s p (.kill pid none) s

theorem fork_effect (hp : (s.proc p).Active) (hpc : (s.proc p).pc = .user) :
    Effect init s p (s.fork p).1 (s.fork p).2 := by
  unfold fork
  split
  · exact .idle
  · rename_i c hc
    exact .alloc c hp (by rw [hpc]; rfl) (by simpa using find_some hc)

theorem forkStep_effect {ok : Bool} (hrun : (s.proc p).state = .running)
    (h : s.forkStep p ok = some (e, s')) : Effect init s p e s' := by
  have hp := Slot.active_of_state hrun rfl
  -- The position of `p` moves on; its slot is the same otherwise.
  have hmove : ∀ pc : TabPc n, pc.child = (s.proc p).pc.child →
      (pc.Linked → (s.proc p).pc.Linked) →
      Effect init s p .tau (s.set p { s.proc p with pc := pc }) := fun pc h1 h2 =>
    .move _ hp hp rfl rfl rfl h1 h2 fun hw => nomatch hrun.symm.trans hw.1
  unfold forkStep at h
  split at h
  · rename_i c hpc
    cases ok
    · cases h
      exact .forkFailed c hp (by rw [hpc]; rfl)
    · cases h
      exact hmove _ (by rw [hpc]; rfl) nofun
  · rename_i c hpc
    cases ok
    · cases h
      exact .forkFailed c hp (by rw [hpc]; rfl)
    · cases h
      exact hmove _ (by rw [hpc]; rfl) nofun
  · rename_i c hpc
    cases h
    exact .setParent c hp hpc
  · rename_i c hpc
    cases ok
    · cases h
      exact .forkFailed c hp (by rw [hpc]; rfl)
    · cases h
      exact hmove _ (by rw [hpc]; rfl) fun _ => by rw [hpc]; trivial
  · rename_i c hpc
    cases h
    exact .forked c hp hpc
  · cases h

theorem wait_effect (hp : (s.proc p).Active) (hpc : (s.proc p).pc = .user ∨ (s.proc p).pc = .wait) :
    Effect init s p (s.wait p).1 (s.wait p).2 := by
  have hchild : (s.proc p).pc.child = none := by
    rcases hpc with h | h <;> rw [h] <;> rfl
  unfold wait
  split
  · rename_i c hc
    have hz := find_some hc
    simp only [Bool.and_eq_true, beq_iff_eq] at hz
    exact .reaped c hp hchild hz.1 hz.2
  · rename_i hnone
    split
    · rename_i h
      refine .waitFailed hp hchild (h.imp_left fun h q hq => ?_)
      simpa [hq] using find_none h q
    · refine .move _ hp rfl rfl rfl rfl (by rw [hchild]; rfl) nofun fun _ hz => ?_
      obtain ⟨c, hc, hs⟩ := hz
      simpa [hc, hs] using find_none hnone c

theorem kill_effect (pid : Int) : Effect init s p (s.kill pid).1 (s.kill pid).2 := by
  unfold kill
  split
  · exact .killNone pid
  · rename_i c hc
    have hpid : (s.proc c).pid = pid := by simpa using find_some hc
    subst hpid
    exact .kill c

theorem next_effect {a : TabAct} (h : s.next init p a = some (e, s')) : Effect init s p e s' := by
  -- A step that only changes the state of `p` does not put it to sleep in `wait`.
  have hstate : ∀ st : ProcState, (s.proc p).Active →
      ({ s.proc p with state := st } : Slot n).Active →
      (st = .sleeping → (s.proc p).pc ≠ .wait) →
      Effect init s p .tau (s.set p { s.proc p with state := st }) := fun st h0 h1 h2 =>
    .move _ h0 h1 rfl rfl rfl rfl id fun hw => absurd hw.2 (h2 hw.1)
  have hpair : ∀ {r : TabEvent n × Table n}, some r = some (e, s') → r.1 = e ∧ r.2 = s' := by
    intro r hr
    cases hr
    exact ⟨rfl, rfl⟩
  unfold next at h
  dsimp only at h
  split at h
  · split at h
    · rename_i hs
      cases h
      exact hstate _ (Slot.active_of_state hs rfl) rfl nofun
    · cases h
  · split at h
    · rename_i hs
      cases h
      exact hstate _ (Slot.active_of_state hs.1 rfl) rfl nofun
    · cases h
  · split at h
    · rename_i hs
      obtain ⟨rfl, rfl⟩ := hpair h
      exact fork_effect (Slot.active_of_state hs.1 rfl) hs.2
    · cases h
  · split at h
    · rename_i hs
      exact forkStep_effect hs h
    · cases h
  · split at h
    · rename_i hs
      cases h
      exact .exited (Slot.active_of_state hs.1 rfl) hs.2.1 hs.2.2
    · cases h
  · split at h
    · rename_i hs
      obtain ⟨rfl, rfl⟩ := hpair h
      exact wait_effect (Slot.active_of_state hs.1 rfl) hs.2
    · cases h
  · split at h
    · obtain ⟨rfl, rfl⟩ := hpair h
      exact kill_effect _
    · cases h
  · split at h
    · rename_i hs
      cases h
      exact .trap hs.1
    · cases h
  · split at h
    · rename_i hs
      cases h
      exact hstate _ (Slot.active_of_state hs.1 rfl) rfl fun _ => hs.2
    · cases h
  · split at h
    · rename_i hs
      cases h
      exact hstate _ (Slot.active_of_state hs.1 rfl) rfl nofun
    · cases h

end Table

theorem TabStep.effect {n : Nat} {init : Fin n} {s s' : Table n} {a : TabLabel n}
    (h : TabStep init s a s') : s.Effect init a.proc a.event s' := by
  obtain ⟨_, k, hk⟩ := h
  exact Table.next_effect hk

end Xv6
