import Xv6.Lib.Run
import Xv6.Proc.User
import Xv6.Proc.Exit

/-!
# The machine: processes that take turns

A turn picks a process, loads its directory as the scheduler does and performs one operation
on its behalf: a user access, a page fault, a system call on memory or processes, or a timer
tick. Operations of different processes interleave in any order. `SLEEPING`, `RUNNABLE` and
`RUNNING` are not told apart: any such process may have the next turn.
-/

namespace Xv6

open Lib

/-- The operations of a process. Addresses and the argument of `growproc` are 32-bit values. -/
inductive Op where
  | read (va : Word)
  | write (va : Word) (b : Byte)
  /-- The trap handler on a page fault at `va`. -/
  | fault (va : Word)
  | growproc (n : Word)
  | fork
  | exit
  | wait
  | tick
  deriving DecidableEq

/-- What an operation returns. -/
inductive Out where
  | done
  | byte (b : Byte)
  /-- The access raised a page fault. -/
  | trapped
  | ret (r : Int)
  /-- `wait` has to sleep. -/
  | asleep
  deriving DecidableEq

section

variable [Build]

def Op.run : Op → K Out
  | .read va => do
    match ← userRead va.toNat with
    | some b => pure (.byte b)
    | none => pure .trapped
  | .write va b => do
    if ← userWrite va.toNat b then pure .done else pure .trapped
  | .fault va => do
    let r ← recoverPageFault va.toNat
    pure (.ret r)
  | .growproc n => do
    let r ← Xv6.growproc n.toInt
    pure (.ret r)
  | .fork => do
    let r ← Xv6.fork
    pure (.ret r)
  | .exit => do
    Xv6.exit
    pure .done
  | .wait => do
    match ← Xv6.wait with
    | some r => pure (.ret r)
    | none => pure .asleep
  | .tick => do
    timerTick
    pure .done

/-- `c->proc = p; switchuvm(p)`. -/
def schedule (p : Nat) : K Unit := do
  modify fun s => { s with cur := p }
  switchuvm p

/-- Slot `p` performs `op`. -/
def turn (p : Nat) (op : Op) : K Out := do
  schedule p
  op.run

/-- A user access as its program sees it: a page fault that the trap handler recovers makes
the processor repeat the access. -/
def access (p : Nat) (op : Op) (va : Word) : K Out := do
  match ← turn p op with
  | .trapped => do
    match ← turn p (.fault va) with
    | .ret 0 => turn p op
    | _ => pure .trapped
  | r => pure r

end

/-- Slot `slot` performed `op`, which returned `out`. -/
structure Label where
  slot : Nat
  op : Op
  out : Out
  deriving DecidableEq

/-- Slot `p` holds a process that can run. -/
def Active (s : Kernel) (p : Nat) : Prop := p < NPROC ∧ (s.proc p).state.active = true

instance (s : Kernel) (p : Nat) : Decidable (Active s p) := inferInstanceAs (Decidable (_ ∧ _))

/-- The state in which slot `p` starts its turn. -/
def Kernel.scheduled (s : Kernel) (p : Nat) : Kernel :=
  { s with cur := p, cr3 := (s.proc p).pgdir }

theorem Active.running {s : Kernel} {p : Nat} (ha : Active s p) : Running (s.scheduled p) p :=
  ⟨rfl, ha.1, ha.2, rfl⟩

section

variable [Build]

/-- One turn that does not stop the machine. -/
def Step (s : Kernel) (l : Label) (s' : Kernel) : Prop :=
  Active s l.slot ∧ turn l.slot l.op s = .ok (l.out, s')

variable {E : String → Prop} {s : Kernel} {F : Nat → Nat → Nat → Byte} {p : Nat}

/-- Between operations the invariant does not depend on who runs. -/
theorem Inv.scheduled (h : Inv s Pend.none F) (p : Nat) : Inv (s.scheduled p) Pend.none F := by
  refine ⟨h.own, h.dirs, h.excl, fun q hq ha => ?_, h.skip, h.pids, h.pidLt, h.quiet⟩
  have hok := h.procs q hq ha
  rw [show Pend.none.mapped = fun _ => 0 from rfl, show Pend.none.top = 0 from rfl, ite_self,
    ite_self] at hok ⊢
  exact hok

theorem schedule_wp {Q : Unit → Kernel → Prop} (h : Inv s Pend.none F) (ha : Active s p)
    (hQ : Q () (s.scheduled p)) : wp (schedule p) E Q s := by
  have hc : counted s Pend.none.skip p = true := by
    rw [counted_none ha.1]
    exact ProcState.live_of_active ha.2
  unfold schedule switchuvm
  refine wp_seq (modify_wp (wp_seq (getProc_wp ?_)))
  rw [if_neg (h.own.kstack_ne ha.1 hc), if_neg (h.own.pgdir_pos ha.1 hc)]
  exact hQ

theorem turn_wp {op : Op} {Q : Out → Kernel → Prop} (h : Inv s Pend.none F) (ha : Active s p)
    (hrun : wp op.run E Q (s.scheduled p)) : wp (turn p op) E Q s :=
  wp_seq (schedule_wp h ha hrun)

end

end Xv6
