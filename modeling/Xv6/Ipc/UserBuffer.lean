import Xv6.Dev.Console
import Xv6.Exec.Renew
import Xv6.Ipc.Pipe
import Xv6.Proc.Syscall

/-!
# User buffers under a spinlock

`pipewrite`, `piperead`, `consoleread` and `consolewrite` copy between the kernel and a user buffer
while they hold the lock of the pipe or of the console. A call is a process with a position in one of
these loops; one round of a loop is a step, and so is everything another process does in between. A
sleeper may wake up at any time, and a process may be killed at any time.

A process takes its own pages out of memory only by its own faults and by growing, and a sleeping call
does neither. So a buffer that is in memory when the call starts stays there, and the copy loops do not
fault; a page of the buffer that is in the swap file is touched with the lock held.
-/

namespace Xv6

open Lib

/-! ## What the turn of another process leaves alone -/

/-- Slot `q` can still run and has the pages it had, where it had them. -/
structure Remains (q : Nat) (s s' : Kernel) : Prop where
  active : Active s' q
  present : ∀ u, has ((s'.dirs (s'.proc q).pgdir).pte u) PTE_P = has ((s.dirs (s.proc q).pgdir).pte u) PTE_P

section

variable [Build] {E : String → Prop} {s s' : Kernel} {F : Nat → Nat → Nat → Byte} {c p q : Nat}

theorem Local.remains (hl : Local c s s') (h : Inv s Pend.none F) (hr : Running s c) (hq : Active s q) (hne : q ≠ c) :
    Remains q s s' := by
  have hother := hl.other q hne
  refine ⟨⟨hq.1, by rw [hother]; exact hq.2⟩, fun u => ?_⟩
  rw [hother, hl.dirs _ (h.own.pgdir_ne hq.1 hr.lt hne (h.counted hq.1 hq.2) (h.counted hr.lt hr.active))]

omit [Build] in
theorem Spared.remains (hs : Spared s s') (hq : Active s q) : Remains q s s' := by
  have hlive := ProcState.live_of_active hq.2
  refine ⟨⟨hq.1, ?_⟩, fun u => ?_⟩
  · rw [hs.proc q hq.1 hlive]
    exact hq.2
  · rw [hs.proc q hq.1 hlive, hs.dirs q hq.1 hlive]

omit [Build] in
theorem Exited.remains (hx : Exited c s s') (hq : Active s q) (hne : q ≠ c) : Remains q s s' := by
  obtain ⟨t, ht⟩ := hx.other q hne
  refine ⟨⟨hq.1, ?_⟩, fun u => ?_⟩
  · rw [ht]
    exact hq.2
  · rw [ht, hx.dirs]

omit [Build] in
theorem Waited.remains {k : Nat} (hw : Waited k s s') (hq : Active s q) : Remains q s s' := by
  have hne : q ≠ k := by
    rintro rfl
    have := hq.2
    rw [hw.zombie] at this
    cases this
  refine ⟨⟨hq.1, ?_⟩, fun u => ?_⟩
  · rw [hw.other q hne]
    exact hq.2
  · rw [hw.other q hne, hw.dirs q hq.1 hne (ProcState.live_of_active hq.2)]

theorem op_remains (op : Op) (h : Inv s Pend.none F) (hr : Running s c) (hq : Active s q) (hne : q ≠ c) :
    wp op.run Anyway (fun _ s' => Remains q s s') s := by
  cases op with
  | read va =>
    refine wp_seq (wp_post (userRead_inv h hr va.isLt) fun r s' hs => ?_)
    cases r <;> exact hs.2.1.paging.toLocal.remains h hr hq hne
  | write va b =>
    refine wp_seq (wp_post (userWrite_inv h hr va.isLt) fun r s' hs => ?_)
    cases r <;> exact hs.1.paging.toLocal.remains h hr hq hne
  | fault va =>
    refine wp_seq (wp_post (recoverPageFault_inv h hr va.isLt) fun r s' hs => ?_)
    exact hs.2.paging.toLocal.remains h hr hq hne
  | growproc n =>
    refine wp_seq (wp_post (growproc_inv h hr (BitVec.le_toInt n) (BitVec.toInt_lt (x := n))) fun r s' hs => ?_)
    exact hs.1.remains h hr hq hne
  | fork =>
    refine wp_seq (wp_post (fork_inv h hr trivial trivial fun _ _ _ _ => ⟨trivial, trivial⟩) ?_)
    rintro r s' ⟨F', -, hf⟩
    cases hf with
    | failed spared => exact spared.remains hq
    | child _ _ spared => exact spared.remains hq
  | exit => exact wp_seq (wp_post (exit_inv h hr trivial) fun _ s' hs => hs.2.remains hq hne)
  | wait =>
    refine wp_seq (wp_post (wait_inv h) ?_)
    rintro r s' ⟨-, rfl | ⟨k, hk⟩⟩
    · cases r <;> exact ⟨hq, fun _ => rfl⟩
    · cases r <;> exact hk.remains hq
  | tick => exact wp_seq (wp_post (timerTick_inv h hr) fun _ s' hs => hs.2.1.toLocal.remains h hr hq hne)

theorem Step.remains {l : Label} (h : Inv s Pend.none F) (hs : Step s l s') (hq : Active s q) (hne : q ≠ l.slot) :
    Remains q s s' := by
  have hk := of_wp (turn_wp h hs.1 (op_remains l.op (h.scheduled _) hs.1.running hq hne)) hs.2
  exact ⟨hk.active, hk.present⟩

omit [Build] in
theorem Paging.remains (hp : Paging c s s') (hr : Running s c)
    (hpres : ∀ u, has ((s'.dirs (s.proc c).pgdir).pte u) PTE_P = has ((s.dirs (s.proc c).pgdir).pte u) PTE_P) :
    Remains c s s' := by
  refine ⟨⟨hr.lt, (hp.running hr).active⟩, fun u => ?_⟩
  rw [(hp.fields c).2.1]
  exact hpres u

/-- A tick of the clock moves no page. -/
theorem Step.remains_tick {l : Label} (h : Inv s Pend.none F) (hs : Step s l s') (hop : l.op = .tick) :
    Remains l.slot s s' := by
  obtain ⟨ha, hrun⟩ := hs
  rw [hop] at hrun
  have hwp : wp (turn l.slot .tick) Anyway (fun _ s' => Remains l.slot (s.scheduled l.slot) s') s := by
    refine turn_wp h ha (wp_seq (wp_post (timerTick_inv (h.scheduled _) ha.running) ?_))
    rintro _ s1 ⟨-, hp, -, hpres⟩
    exact hp.remains ha.running hpres
  have hk := of_wp hwp hrun
  exact ⟨hk.active, hk.present⟩

end

/-! ## The copy loops -/

inductive IoOp where
  | pipewrite (k : Nat)
  | piperead (k : Nat)
  | consoleread
  | consolewrite
  deriving DecidableEq

inductive IoLock where
  | pipe (k : Nat)
  | cons
  deriving DecidableEq

def IoOp.lock : IoOp → IoLock
  | .pipewrite k => .pipe k
  | .piperead k => .pipe k
  | .consoleread => .cons
  | .consolewrite => .cons

inductive IoPos where
  /-- Before `acquire`, also the one at the end of `sleep`. -/
  | ready
  /-- In the loop, with the lock. -/
  | locked
  | asleep
  deriving DecidableEq

/-- A call in progress. -/
structure IoCall where
  op : IoOp
  buf : Nat
  n : Nat
  /-- The bytes copied so far. -/
  i : Nat
  /-- `consoleread` has met a newline. -/
  ended : Bool
  pos : IoPos

structure IoSys where
  kernel : Kernel
  pipe : Nat → Pipe
  input : Console.Input
  call : Nat → Option IoCall

/-- What a loop does next. -/
inductive Round where
  | copy
  | sleep
  | finish
  deriving DecidableEq

/-- The loop conditions of the four functions. -/
def IoSys.round (s : IoSys) (killed : Bool) (x : IoCall) : Round :=
  match x.op with
  | .pipewrite k =>
    if x.i < x.n then
      if (s.pipe k).Full then
        if (s.pipe k).readopen = false ∨ killed = true then .finish else .sleep
      else .copy
    else .finish
  | .piperead k =>
    -- the first loop, left for good once a byte was copied
    if x.i = 0 ∧ (s.pipe k).Empty ∧ (s.pipe k).writeopen = true then if killed then .finish else .sleep
    else if x.i < x.n ∧ ¬ (s.pipe k).Empty then .copy
    else .finish
  | .consoleread =>
    if x.ended = true ∨ x.n ≤ x.i then .finish
    else if s.input.nread = s.input.w then if killed then .finish else .sleep
    else if (Console.readChar s.input (x.n - x.i) x.n).2 = none then .finish
    else .copy
  | .consolewrite => if x.i < x.n then .copy else .finish

/-- The ring after the loop of `consoleread` is left: a control-D was taken out, or put back. -/
def IoSys.leave (s : IoSys) (x : IoCall) : Console.Input :=
  match x.op with
  | .consoleread =>
    if x.ended = true ∨ x.n ≤ x.i ∨ s.input.nread = s.input.w then s.input
    else (Console.readChar s.input (x.n - x.i) x.n).1
  | _ => s.input

section

variable [Build]

/-- The access to the user buffer in a round of the loop of `x`. -/
def IoSys.touch (s : IoSys) (x : IoCall) : K Byte :=
  match x.op with
  | .pipewrite _ => loadByte (x.buf + x.i)
  | .piperead k => do
    storeByte (x.buf + x.i) (s.pipe k).next
    pure (s.pipe k).next
  | .consoleread => do
    storeByte (x.buf + x.i) (s.input.front INPUT_BUF)
    pure (s.input.front INPUT_BUF)
  | .consolewrite => loadByte (x.buf + x.i)

/-- The state after slot `p` has copied the byte `b` of its call `x`. -/
def IoSys.copied (s : IoSys) (p : Nat) (x : IoCall) (b : Byte) (t : Kernel) : IoSys :=
  match x.op with
  | .pipewrite k =>
    { s with
      kernel := t
      pipe := Function.update s.pipe k ((s.pipe k).store b)
      call := Function.update s.call p (some { x with i := x.i + 1 }) }
  | .piperead k =>
    { s with
      kernel := t
      pipe := Function.update s.pipe k (s.pipe k).taken
      call := Function.update s.call p (some { x with i := x.i + 1 }) }
  | .consoleread =>
    { s with
      kernel := t
      input := (Console.readChar s.input (x.n - x.i) x.n).1
      call := Function.update s.call p (some { x with i := x.i + 1, ended := b == Console.nl }) }
  | .consolewrite => { s with kernel := t, call := Function.update s.call p (some { x with i := x.i + 1 }) }

inductive IoLabel where
  | turn (l : Label)
  | key (c : BitVec 8)
  | close (k : Nat) (writable : Bool)
  /-- `sys_read` or `sys_write` with the buffer `buf` of `n` bytes. -/
  | call (p : Nat) (op : IoOp) (buf n : Word)
  | acquire (p : Nat)
  | copy (p : Nat)
  | sleep (p : Nat)
  | wake (p : Nat)
  | finish (p : Nat)

/-- Nobody holds the lock. -/
def IoSys.Free (s : IoSys) (a : IoLock) : Prop := ∀ p x, s.call p = some x → x.pos = .locked → x.op.lock ≠ a

/-- `pipeclose` up to its wakeup. -/
def Pipe.closed (p : Pipe) : Bool → Pipe
  | true => { p with writeopen := false }
  | false => { p with readopen := false }

/-- One step of the machine. The clock ticks also for a process in a call, but not with the lock held. -/
inductive IoStep (s : IoSys) : IoLabel → IoSys → Prop
  | turn {l : Label} {t : Kernel} (h : Step s.kernel l t)
      (hl : ∀ x, s.call l.slot = some x → l.op = .tick ∧ x.pos ≠ .locked) : IoStep s (.turn l) { s with kernel := t }
  | key (c : BitVec 8) (h : s.Free .cons) : IoStep s (.key c) { s with input := Console.consoleintr c s.input }
  | close (k : Nat) (writable : Bool) (h : s.Free (.pipe k)) :
      IoStep s (.close k writable) { s with pipe := Function.update s.pipe k ((s.pipe k).closed writable) }
  | call {p : Nat} {op : IoOp} {buf n : Word} (ha : Active s.kernel p) (hp : s.call p = none)
      (hok : PtrOk (s.kernel.proc p).sz buf n) :
      IoStep s (.call p op buf n)
        { s with call := Function.update s.call p (some ⟨op, buf.toNat, n.toNat, 0, false, .ready⟩) }
  | acquire {p : Nat} {x : IoCall} (hp : s.call p = some x) (hpos : x.pos = .ready) (hfree : s.Free x.op.lock) :
      IoStep s (.acquire p) { s with call := Function.update s.call p (some { x with pos := .locked }) }
  | copy {p : Nat} {x : IoCall} {killed : Bool} {b : Byte} {t : Kernel} (hp : s.call p = some x)
      (hpos : x.pos = .locked) (hr : s.round killed x = .copy)
      (h : (do schedule p; s.touch x : K Byte) s.kernel = .ok (b, t)) : IoStep s (.copy p) (s.copied p x b t)
  | sleep {p : Nat} {x : IoCall} {killed : Bool} (hp : s.call p = some x) (hpos : x.pos = .locked)
      (hr : s.round killed x = .sleep) :
      IoStep s (.sleep p) { s with call := Function.update s.call p (some { x with pos := .asleep }) }
  | wake {p : Nat} {x : IoCall} (hp : s.call p = some x) (hpos : x.pos = .asleep) :
      IoStep s (.wake p) { s with call := Function.update s.call p (some { x with pos := .ready }) }
  | finish {p : Nat} {x : IoCall} {killed : Bool} (hp : s.call p = some x) (hpos : x.pos = .locked)
      (hr : s.round killed x = .finish) :
      IoStep s (.finish p) { s with input := s.leave x, call := Function.update s.call p none }

/-! ## Faults with the lock held -/

/-- Some process holds a lock and is about to touch a byte that is in its swap file. -/
def FaultsLocked (s : IoSys) : Prop :=
  ∃ p x killed, s.call p = some x ∧ x.pos = .locked ∧ s.round killed x = .copy ∧
    has ((s.kernel.dirs (s.kernel.proc p).pgdir).pte ((x.buf + x.i) / PGSIZE)) PTE_PG = true

/-- The `n` bytes at `buf` are in memory. -/
def InMemory (s : Kernel) (p buf n : Nat) : Prop :=
  ∀ a, buf ≤ a → a < buf + n → has ((s.dirs (s.proc p).pgdir).pte (a / PGSIZE)) PTE_P = true

/-- A call starts with its buffer in memory. -/
def IoLabel.Resident (s : IoSys) : IoLabel → Prop
  | .call p _ buf n => InMemory s.kernel p buf.toNat n.toNat
  | _ => True

def ResidentStep (s : IoSys) (l : IoLabel) (s' : IoSys) : Prop := l.Resident s ∧ IoStep s l s'

/-- The buffers of the calls in progress are in memory. -/
structure IoOk (s : IoSys) : Prop where
  inv : ∃ F, Inv s.kernel Pend.none F
  calls : ∀ p x, s.call p = some x → Active s.kernel p ∧ x.buf + x.n ≤ KERNBASE ∧ InMemory s.kernel p x.buf x.n

variable {s s' : IoSys} {p q : Nat} {x y : IoCall} {killed : Bool}

omit [Build] in
theorem IoSys.lt_of_copy (h : s.round killed x = .copy) : x.i < x.n := by
  unfold IoSys.round at h
  split at h
  · split at h
    · assumption
    · cases h
  · split at h
    · split at h <;> cases h
    · split at h
      next hlt => exact hlt.1
      next => cases h
  · split at h
    · cases h
    · rename_i hno
      exact Nat.lt_of_not_le fun hle => hno (.inr hle)
  · split at h
    · assumption
    · cases h

omit [Build] in
theorem Remains.inMemory {k k' : Kernel} {buf n : Nat} (hk : Remains p k k') (h : InMemory k p buf n) :
    InMemory k' p buf n := fun a h1 h2 => (hk.present _).trans (h a h1 h2)

/-- No fault in a state where the buffers are in memory. -/
theorem IoOk.noFault (h : IoOk s) : ¬ FaultsLocked s := by
  rintro ⟨p, x, killed, hp, -, hr, hg⟩
  obtain ⟨F, hinv⟩ := h.inv
  obtain ⟨ha, hend, hmem⟩ := h.calls p x hp
  have hlt := IoSys.lt_of_copy hr
  have hu : (x.buf + x.i) / PGSIZE < NUSER := by
    rw [NUSER_eq]
    simp only [PGSIZE, KERNBASE] at hend ⊢
    omega
  have habsent := ((hinv.scheduled p).self ha.running).agree.absent_of_paged hu hg
  have hpres := hmem (x.buf + x.i) (Nat.le_add_right _ _) (by omega)
  exact absurd (habsent.symm.trans hpres) Bool.false_ne_true

/-- Nothing moved, and no call is new. -/
theorem IoOk.next (h : IoOk s) (hinv : ∃ F, Inv s'.kernel Pend.none F)
    (hremains : ∀ q x, s.call q = some x → Remains q s.kernel s'.kernel)
    (hcall : ∀ q y, s'.call q = some y → ∃ x, s.call q = some x ∧ y.buf = x.buf ∧ y.n = x.n) : IoOk s' := by
  refine ⟨hinv, fun q y hy => ?_⟩
  obtain ⟨x, hx, hbuf, hn⟩ := hcall q y hy
  obtain ⟨-, hend, hmem⟩ := h.calls q x hx
  rw [hbuf, hn]
  exact ⟨(hremains q x hx).active, hend, (hremains q x hx).inMemory hmem⟩

omit [Build] in
/-- The calls after `p` moved on in its own. -/
theorem moved_call (hp : s.call p = some x) (hbuf : y.buf = x.buf) (hn : y.n = x.n) (q : Nat) (z : IoCall)
    (hz : Function.update s.call p (some y) q = some z) : ∃ x', s.call q = some x' ∧ z.buf = x'.buf ∧ z.n = x'.n := by
  by_cases e : q = p
  · rw [e, Function.update_self] at hz
    cases hz
    exact ⟨x, e ▸ hp, hbuf, hn⟩
  · rw [Function.update_of_ne e] at hz
    exact ⟨z, hz, rfl, rfl⟩

omit [Build] in
theorem remains_same {k : Kernel} (ha : Active k q) : Remains q k k := ⟨ha, fun _ => rfl⟩

/-- No page of anyone moved. -/
def Unmoved (k k' : Kernel) : Prop := (∃ F, Inv k' Pend.none F) ∧ ∀ q, Active k q → Remains q k k'

section

variable {k k' : Kernel} {F : Nat → Nat → Nat → Byte} {va : Nat} {b : Byte}

/-- An access to a byte in memory moves no page. -/
theorem withTrap_unmoved {α : Type} {x : K (Option α)} (hinv : Inv k Pend.none F) (hr : Running k p)
    (hu : va / PGSIZE < NUSER) (hpres : has ((k.dirs (k.proc p).pgdir).pte (va / PGSIZE)) PTE_P = true)
    (hx : wp x Anyway (fun r k' =>
      r ≠ none ∧ (∃ F', Inv k' Pend.none F') ∧ Accessed p k k' ∨ r = none ∧ k' = k) k) :
    wp (withTrap va x) Anyway (fun _ k' => Unmoved k k') k := by
  have hlt : va < 2 ^ 32 := by
    rw [NUSER_eq] at hu
    simp only [PGSIZE] at hu
    omega
  have hnot : has ((k.dirs (k.proc p).pgdir).pte (va / PGSIZE)) PTE_PG = false := by
    cases hg : has ((k.dirs (k.proc p).pgdir).pte (va / PGSIZE)) PTE_PG with
    | false => rfl
    | true =>
      have habsent := (hinv.self hr).agree.absent_of_paged hu hg
      exact absurd (habsent.symm.trans hpres) Bool.false_ne_true
  unfold withTrap
  refine wp_seq (wp_post hx ?_)
  rintro (_ | a) k1 (⟨hne, hinv', hacc⟩ | ⟨hno, rfl⟩)
  · exact absurd rfl hne
  · -- the page is there, so nothing is recovered
    refine wp_seq (wp_post (recoverPageFault_inv hinv hr hlt) ?_)
    rintro r k2 ⟨-, hf⟩
    rw [hf.refused hnot, if_neg (by decide)]
    trivial
  · refine ⟨hinv', fun q hq => ?_⟩
    by_cases e : q = p
    · rw [e]
      exact hacc.paging.remains hr hacc.present
    · exact hacc.paging.toLocal.remains hinv hr hq e
  · cases hno

theorem loadByte_unmoved (hinv : Inv k Pend.none F) (hr : Running k p) (hu : va / PGSIZE < NUSER)
    (hpres : has ((k.dirs (k.proc p).pgdir).pte (va / PGSIZE)) PTE_P = true) :
    wp (loadByte va) Anyway (fun _ k' => Unmoved k k') k := by
  refine withTrap_unmoved hinv hr hu hpres (wp_post (kernelLoad_wp hinv hr hu) ?_)
  rintro r k1 (⟨-, rfl, h1, h2, -⟩ | ⟨-, hno⟩)
  · exact .inl ⟨Option.some_ne_none _, ⟨F, h1⟩, h2⟩
  · exact .inr hno

theorem storeByte_unmoved (hinv : Inv k Pend.none F) (hr : Running k p) (hu : va / PGSIZE < NUSER)
    (hpres : has ((k.dirs (k.proc p).pgdir).pte (va / PGSIZE)) PTE_P = true) :
    wp (storeByte va b) Anyway (fun _ k' => Unmoved k k') k := by
  refine withTrap_unmoved hinv hr hu hpres (wp_post (kernelStore_wp hinv hr hu) ?_)
  rintro r k1 (⟨-, rfl, h1, h2, -⟩ | ⟨-, hno⟩)
  · exact .inl ⟨Option.some_ne_none _, ⟨_, h1⟩, h2⟩
  · exact .inr hno

theorem touch_unmoved (hinv : Inv k Pend.none F) (hr : Running k p) (hu : (x.buf + x.i) / PGSIZE < NUSER)
    (hpres : has ((k.dirs (k.proc p).pgdir).pte ((x.buf + x.i) / PGSIZE)) PTE_P = true) :
    wp (s.touch x) Anyway (fun _ k' => Unmoved k k') k := by
  unfold IoSys.touch
  split
  · exact loadByte_unmoved hinv hr hu hpres
  · exact wp_seq (storeByte_unmoved hinv hr hu hpres)
  · exact wp_seq (storeByte_unmoved hinv hr hu hpres)
  · exact loadByte_unmoved hinv hr hu hpres

end

omit [Build] in
theorem IoSys.copied_fields (s : IoSys) (p : Nat) (x : IoCall) (b : Byte) (t : Kernel) :
    (s.copied p x b t).kernel = t ∧
      ∃ y, (s.copied p x b t).call = Function.update s.call p (some y) ∧ y.buf = x.buf ∧ y.n = x.n := by
  unfold IoSys.copied
  split <;> exact ⟨rfl, _, rfl, rfl, rfl⟩

theorem IoOk.copy {b : Byte} {t : Kernel} (h : IoOk s) (hp : s.call p = some x) (hr : s.round killed x = .copy)
    (hrun : (do schedule p; s.touch x : K Byte) s.kernel = .ok (b, t)) : IoOk (s.copied p x b t) := by
  obtain ⟨F, hinv⟩ := h.inv
  obtain ⟨ha, hend, hmem⟩ := h.calls p x hp
  have hlt := IoSys.lt_of_copy hr
  have hu : (x.buf + x.i) / PGSIZE < NUSER := by
    rw [NUSER_eq]
    simp only [PGSIZE, KERNBASE] at hend ⊢
    omega
  have hwp : wp (do schedule p; s.touch x : K Byte) Anyway (fun _ k' => Unmoved (s.kernel.scheduled p) k') s.kernel :=
    wp_seq (schedule_wp hinv ha (touch_unmoved (hinv.scheduled p) ha.running hu
      (hmem (x.buf + x.i) (Nat.le_add_right _ _) (by omega))))
  obtain ⟨hinv', hremains⟩ := of_wp hwp hrun
  obtain ⟨hkernel, y, hcall, hbuf, hn⟩ := s.copied_fields p x b t
  refine h.next (by rw [hkernel]; exact hinv') (fun q z hz => ?_) fun q z hz => ?_
  · have hk := hremains q (h.calls q z hz).1
    rw [hkernel]
    exact ⟨hk.active, hk.present⟩
  · rw [hcall] at hz
    exact moved_call hp hbuf hn q z hz

theorem ResidentStep.ok {l : IoLabel} (h : IoOk s) (hs : ResidentStep s l s') : IoOk s' := by
  obtain ⟨hres, hs⟩ := hs
  obtain ⟨F, hinv⟩ := h.inv
  have hsame : ∀ q x, s.call q = some x → Remains q s.kernel s.kernel := fun q x hx => remains_same (h.calls q x hx).1
  cases hs with
  | @turn l t hstep hl =>
    obtain ⟨_, -, F', hinv', -⟩ := Step.sim ⟨F, hinv, rfl⟩ hstep
    refine h.next ⟨F', hinv'⟩ (fun q x hx => ?_) fun q y hy => ⟨y, hy, rfl, rfl⟩
    by_cases e : q = l.slot
    · subst e
      exact hstep.remains_tick hinv (hl x hx).1
    · exact hstep.remains hinv (h.calls q x hx).1 e
  | key => exact h.next h.inv hsame fun q y hy => ⟨y, hy, rfl, rfl⟩
  | close => exact h.next h.inv hsame fun q y hy => ⟨y, hy, rfl, rfl⟩
  | @call p op buf n ha hp hok =>
    refine ⟨h.inv, fun q y hy => ?_⟩
    by_cases e : q = p
    · subst e
      dsimp only at hy
      rw [Function.update_self] at hy
      cases hy
      have hsz := ((hinv.scheduled q).self ha.running).size.2
      exact ⟨ha, (hok.le hsz).trans hsz.le, hres⟩
    · dsimp only at hy
      rw [Function.update_of_ne e] at hy
      exact h.calls q y hy
  | acquire hp => exact h.next h.inv hsame (moved_call hp rfl rfl)
  | copy hp hpos hr hrun => exact h.copy hp hr hrun
  | sleep hp => exact h.next h.inv hsame (moved_call hp rfl rfl)
  | wake hp => exact h.next h.inv hsame (moved_call hp rfl rfl)
  | @finish p x killed hp hpos hr =>
    refine h.next h.inv hsame fun q y hy => ?_
    by_cases e : q = p
    · subst e
      dsimp only at hy
      rw [Function.update_self] at hy
      cases hy
    · dsimp only at hy
      rw [Function.update_of_ne e] at hy
      exact ⟨y, hy, rfl, rfl⟩

/-- In every run in which each call starts with its buffer in memory, no page fault is taken with the
lock of a pipe or of the console held. -/
theorem no_locked_fault {t : List IoLabel} {F : Nat → Nat → Nat → Byte} (hinv : Inv s.kernel Pend.none F)
    (hcall : ∀ p, s.call p = none) (hrun : Run ResidentStep s t s') : ¬ FaultsLocked s' := by
  have hok : IoOk s := ⟨⟨F, hinv⟩, fun p x hx => by rw [hcall p] at hx; cases hx⟩
  have hok' : IoOk s' := hrun.invariant (fun _ h hs => hs.ok h) (fun _ _ => trivial) hok
  exact hok'.noFault

/-! ## A buffer in the swap file -/

/-- Sixteen pages are not all in memory. -/
theorem exists_paged {k : Kernel} {F : Nat → Nat → Nat → Byte} (h : Inv k Pend.none F) (ha : Active k p)
    (hv : ∀ u, 1 ≤ u → u < MAX_PSYC_PAGES + 2 → (k.dirs (k.proc p).pgdir).view u ≠ none) :
    ∃ u, 1 ≤ u ∧ u < MAX_PSYC_PAGES + 2 ∧ has ((k.dirs (k.proc p).pgdir).pte u) PTE_PG = true := by
  by_contra hno
  refine ((h.scheduled p).self ha.running).agree.not_crowded fun u h1 h2 => ?_
  refine (entryView_ne_none.1 (hv u h1 h2)).resolve_right fun hg => hno ⟨u, h1, h2, hg⟩

/-- A process of one page grows to sixteen. -/
theorem grows {k : Kernel} {F : Nat → Nat → Nat → Byte} {n : Word} (h : Inv k Pend.none F) (ha : Active k p)
    (hn : n.toInt = 61440) (hsz : (k.proc p).sz = 2 * PGSIZE) (hv : (k.dirs (k.proc p).pgdir).view 1 ≠ none)
    (hlinked : linkedPages (k.proc p) ≤ MAX_PSYC_PAGES) (hfree : 30 ≤ k.freelist.length) :
    ∃ k', Step k ⟨p, .growproc n, .ret 0⟩ k' ∧ (∃ F', Inv k' Pend.none F') ∧ Active k' p ∧
      (k'.proc p).sz = 17 * PGSIZE ∧
      ∀ u, 1 ≤ u → u < MAX_PSYC_PAGES + 2 → (k'.dirs (k'.proc p).pgdir).view u ≠ none := by
  have hlo : pages (k.proc p).sz = 2 := by rw [hsz, pages_mul]
  have hhi : pages (17 * PGSIZE) = 17 := pages_mul 17
  have hcan : ¬ CannotGrow (k.scheduled p) p (17 * PGSIZE) := by
    rintro (hbig | hmany | ⟨u, h1, h2, hout⟩)
    · exact absurd hbig (by decide)
    · change MAX_TOTAL_PAGES < linkedPages (k.proc p) + (pages (17 * PGSIZE) - pages (k.proc p).sz) at hmany
      rw [hlo, hhi] at hmany
      simp only [MAX_TOTAL_PAGES, MAX_PSYC_PAGES] at *
      omega
    · change pages (k.proc p).sz ≤ u at h1
      change k.freelist.length + ((k.proc p).sizeMem + (u - pages (k.proc p).sz) - MAX_PSYC_PAGES) <
        u + 1 - pages (k.proc p).sz + tablesNeeded (k.dirs (k.proc p).pgdir) (pages (k.proc p).sz) (u + 1) at hout
      have htables := tablesNeeded_le (k.dirs (k.proc p).pgdir) (pages (k.proc p).sz) (u + 1)
      rw [hlo] at h1 hout htables
      rw [hhi] at h2
      omega
  have hwp : wp (turn p (.growproc n)) (fun _ => False) (fun out k' => out = .ret 0 ∧ Local p (k.scheduled p) k' ∧
      (∃ F', Inv k' Pend.none F') ∧ (k'.proc p).sz = 17 * PGSIZE ∧
      Filled (some ⟨true, true⟩) 2 17 (k.dirs (k.proc p).pgdir) (k'.dirs (k.proc p).pgdir)) k := by
    refine turn_wp h ha (wp_seq (wp_post (growproc_exact (m := 17 * PGSIZE) (h.scheduled p) ha.running
      (by omega) (by omega) ?_) ?_))
    · change ((17 * PGSIZE : Nat) : Int) = ((k.proc p).sz : Int) + n.toInt
      rw [hn, hsz]
      rfl
    · rintro r k' ⟨hl, ⟨rfl, -, hinv, hsize, hfill⟩ | ⟨-, hc, -⟩⟩
      · refine ⟨rfl, hl, ⟨_, hinv⟩, hsize, ?_⟩
        change Filled _ (pages (k.proc p).sz) _ _ _ at hfill
        rwa [hlo, hhi] at hfill
      · exact absurd hc hcan
  obtain ⟨out, k', hrun, rfl, hl, hinv, hsize, hfill⟩ := exists_of_wp hwp
  have hr' := hl.running ha.running
  have hpg : (k'.proc p).pgdir = (k.proc p).pgdir := by rw [← hr'.cr3, hl.cr3, ha.running.cr3]; rfl
  refine ⟨k', ⟨ha, hrun⟩, hinv, ⟨ha.1, hr'.active⟩, hsize, fun u h1 h2 => ?_⟩
  simp only [MAX_PSYC_PAGES] at h2
  rw [hpg, hfill u (by rw [NUSER_eq]; omega)]
  split
  · exact Option.some_ne_none _
  · obtain rfl : u = 1 := by omega
    exact hv

/-- A process grows, and writes a byte of a page that was moved out to a pipe. -/
theorem pipewrite_faults {F : Nat → Nat → Nat → Byte} (h : Inv s.kernel Pend.none F) (ha : Active s.kernel p)
    (hsz : (s.kernel.proc p).sz = 2 * PGSIZE) (hv : (s.kernel.dirs (s.kernel.proc p).pgdir).view 1 ≠ none)
    (hlinked : linkedPages (s.kernel.proc p) ≤ MAX_PSYC_PAGES) (hfree : 30 ≤ s.kernel.freelist.length)
    (hcall : ∀ q, s.call q = none) (hpipe : ¬ (s.pipe 0).Full) :
    ∃ t s', Run IoStep s t s' ∧ FaultsLocked s' := by
  obtain ⟨k, hgrow, ⟨F', hinv⟩, hact, hsize, hpages⟩ := grows (n := 0xf000) h ha (by decide) hsz hv hlinked hfree
  obtain ⟨u, h1, h2, hg⟩ := exists_paged hinv hact hpages
  simp only [MAX_PSYC_PAGES] at h2
  have hbuf : (BitVec.ofNat 32 (u * PGSIZE)).toNat = u * PGSIZE := by
    rw [BitVec.toNat_ofNat]
    refine Nat.mod_eq_of_lt ?_
    simp only [PGSIZE]
    omega
  have hok : PtrOk (k.proc p).sz (BitVec.ofNat 32 (u * PGSIZE)) 1 := by
    rintro (hneg | hle | hend)
    · exact absurd hneg (by decide)
    · rw [hbuf, hsize] at hle
      simp only [PGSIZE] at hle
      omega
    · rw [BitVec.toNat_add, hbuf, hsize, show (1 : Word).toNat = 1 from rfl] at hend
      simp only [PGSIZE] at hend
      omega
  refine ⟨_, _, .step (.turn hgrow fun x hx => ?_) (.step (@IoStep.call _ _ _ (.pipewrite 0) _ _ hact (hcall p) hok)
    (.step (.acquire (Function.update_self _ _ _) rfl fun q x hx hpos => ?_) (.refl _))),
    p, ⟨.pipewrite 0, u * PGSIZE, 1, 0, false, .locked⟩, false, ?_, rfl, ?_, ?_⟩
  · rw [hcall] at hx
    cases hx
  · dsimp only at hx
    by_cases e : q = p
    · rw [e, Function.update_self] at hx
      cases hx
      cases hpos
    · rw [Function.update_of_ne e, hcall] at hx
      cases hx
  · dsimp only
    rw [Function.update_self, hbuf]
    rfl
  · unfold IoSys.round
    dsimp only
    rw [if_pos (by decide), if_neg hpipe]
  · dsimp only
    rw [Nat.add_zero, Nat.mul_div_cancel _ (by decide)]
    exact hg

end

/-- The small machine with a new pipe and nothing typed. -/
def smallIo : IoSys where
  kernel := smallKernel .fifo
  pipe := fun _ => ⟨⟨fun _ => 0, 0, 0⟩, true, true⟩
  input := Console.start.input
  call := fun _ => none

/-- After growing by 15 pages, the process of the small machine writes a byte of the page that was moved
out to a pipe. -/
theorem smallIo_faults :
    let _ := smallBuild .fifo
    (∃ F, Inv smallIo.kernel Pend.none F) ∧ ∃ t s', Run IoStep smallIo t s' ∧ FaultsLocked s' := by
  let _ := smallBuild .fifo
  have hact : Active (smallKernel .fifo) 0 := by decide
  have hfree : 30 ≤ (smallKernel .fifo).freelist.length := le_trans (by decide) (small_plenty .fifo)
  have hv : ((smallKernel .fifo).dirs ((smallKernel .fifo).proc 0).pgdir).view 1 ≠ none :=
    entryView_ne_none.2 (.inl (((small_loaded .fifo).present 1 (by decide)).2 List.mem_cons_self))
  exact ⟨⟨_, (small_start .fifo).inv⟩, pipewrite_faults (small_start .fifo).inv hact (smallProc_fields .fifo).1 hv
    (by decide +kernel) hfree (fun _ => rfl) (by decide)⟩

/-- The process of the small machine writes a byte of its resident page to a pipe. -/
theorem no_locked_fault_small :
    let _ := smallBuild .fifo
    ∃ s', Run ResidentStep smallIo [.call 0 (.pipewrite 0) 0x1000 1, .acquire 0] s' ∧ ¬ FaultsLocked s' := by
  let _ := smallBuild .fifo
  have hact : Active (smallKernel .fifo) 0 := by decide
  have hmem : InMemory (smallKernel .fifo) 0 0x1000 1 := fun a h1 h2 => by
    obtain rfl : a = 0x1000 := by omega
    exact ((small_loaded .fifo).present 1 (by decide)).2 List.mem_cons_self
  have hfree : ∀ q (x : IoCall), Function.update smallIo.call 0
      (some ⟨.pipewrite 0, 0x1000, 1, 0, false, .ready⟩) q = some x → x.pos = .locked → x.op.lock ≠ .pipe 0 := by
    intro q x hx hpos
    by_cases e : q = 0
    · rw [e, Function.update_self] at hx
      cases hx
      cases hpos
    · rw [Function.update_of_ne e] at hx
      cases hx
  have hrun : ∃ s', Run ResidentStep smallIo [.call 0 (.pipewrite 0) 0x1000 1, .acquire 0] s' :=
    ⟨_, .step ⟨hmem, .call hact rfl (by decide)⟩
      (.step ⟨trivial, .acquire (x := ⟨.pipewrite 0, 0x1000, 1, 0, false, .ready⟩) rfl rfl hfree⟩ (.refl _))⟩
  obtain ⟨s', hrun⟩ := hrun
  exact ⟨s', hrun, no_locked_fault (small_start .fifo).inv (fun _ => rfl) hrun⟩

end Xv6
