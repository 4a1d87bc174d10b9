import Mathlib.Data.List.Nodup
import Mathlib.Data.Nat.Bitwise
import Xv6.Lib.Run
import Xv6.Param

/-!
# The disk driver

`iderw` and `ideintr` of `ide.c`, for any number of buffers; a section under `idelock` is one step.
The disk takes a command from its ports, works on it for any time and then interrupts. `memide.c` is
the same driver over memory, without interrupts: it serves a request when it is made.
-/

namespace Xv6

open Lib

variable {β δ : Type}

structure IdeBuf (δ : Type) where
  dev : Nat
  blockno : Nat
  valid : Bool
  dirty : Bool
  data : δ

/-- What `idestart` writes to the ports 0x1f2 to 0x1f7, and to 0x1f0 for a write. -/
structure IdeCommand (δ : Type) where
  (count lba0 lba1 lba2 drive cmd : Nat)
  out : Option δ

abbrev sectorPerBlock : Nat := BSIZE / 512

def IdeBuf.command (x : IdeBuf δ) : IdeCommand δ :=
  let sector := x.blockno * sectorPerBlock
  { count := sectorPerBlock
    lba0 := sector &&& 0xff
    lba1 := (sector >>> 8) &&& 0xff
    lba2 := (sector >>> 16) &&& 0xff
    drive := 0xe0 ||| ((x.dev &&& 1) <<< 4) ||| ((sector >>> 24) &&& 0x0f)
    cmd := if x.dirty then (if sectorPerBlock = 1 then 0x30 else 0xc5)
      else if sectorPerBlock = 1 then 0x20 else 0xc4
    out := if x.dirty then some x.data else none }

/-- The drive and the sector that the disk takes from its ports. -/
def IdeCommand.place (r : IdeCommand δ) : Nat × Nat :=
  ((r.drive >>> 4) &&& 1, r.lba0 + r.lba1 <<< 8 + r.lba2 <<< 16 + (r.drive &&& 0x0f) <<< 24)

/-- What a process in `iderw` waits for. -/
def IdeBuf.done (x : IdeBuf δ) : Bool := x.valid && !x.dirty

structure Ide (β δ : Type) where
  buf : β → IdeBuf δ
  /-- `idequeue`. -/
  queue : List β
  /-- A process is in `iderw` with this buffer. -/
  waiting : β → Bool
  /-- The command that the disk works on. -/
  busy : Option (IdeCommand δ)
  /-- What `insl` reads. -/
  port : δ
  disk : Nat → Nat → δ

namespace Ide

variable [DecidableEq β]

def idestart (s : Ide β δ) (b : β) : Except String (Ide β δ) :=
  if FSSIZE ≤ (s.buf b).blockno then .error "incorrect blockno"
  else if 7 < sectorPerBlock then .error "idestart"
  else .ok { s with busy := some (s.buf b).command }

/-- `iderw` up to its loop; `held` is `holdingsleep(&b->lock)`. -/
def iderw (havedisk1 held : Bool) (s : Ide β δ) (b : β) : Except String (Ide β δ) :=
  if !held then .error "iderw: buf not locked"
  else if (s.buf b).done then .error "iderw: nothing to do"
  else if (s.buf b).dev ≠ 0 && !havedisk1 then .error "iderw: ide disk 1 not present"
  else
    let s1 := { s with queue := s.queue ++ [b], waiting := Function.update s.waiting b true }
    if s1.queue.head? = some b then s1.idestart b else .ok s1

/-- The disk ends its command; with an error it moves no data. -/
def finish (s : Ide β δ) (ok : Bool) : Ide β δ :=
  match s.busy with
  | none => s
  | some r =>
    let (drive, sector) := r.place
    let s1 := { s with busy := none }
    if !ok then s1
    else match r.out with
      | some d => { s1 with disk := Function.update s.disk drive (Function.update (s.disk drive) sector d) }
      | none => { s1 with port := s.disk drive sector }

/-- The end of `ideintr`: the next request. -/
def startNext (s : Ide β δ) : Except String (Ide β δ) :=
  match s.queue with
  | [] => .ok s
  | b :: _ => s.idestart b

/-- `ok` is `idewait(1) >= 0`. -/
def ideintr (ok : Bool) (s : Ide β δ) : Except String (Ide β δ) :=
  match s.queue with
  | [] => .ok s
  | b :: q =>
    let x := s.buf b
    let data := if !x.dirty && ok then s.port else x.data
    let x1 := { x with data := data, valid := true, dirty := false }
    startNext { s with queue := q, buf := Function.update s.buf b x1 }

end Ide

/-- `iderw` of `memide.c`: the new disk and the new buffer. -/
def Memide.iderw (disksize : Nat) (held : Bool) (disk : Nat → δ) (x : IdeBuf δ) :
    Except String ((Nat → δ) × IdeBuf δ) :=
  if !held then .error "iderw: buf not locked"
  else if x.done then .error "iderw: nothing to do"
  else if x.dev ≠ 1 then .error "iderw: request not for disk 1"
  else if disksize ≤ x.blockno then .error "iderw: block out of range"
  else if x.dirty then .ok (Function.update disk x.blockno x.data, { x with dirty := false, valid := true })
  else .ok (disk, { x with data := disk x.blockno, valid := true })

inductive IdeLabel (β δ : Type) where
  /-- The holder of a buffer's lock changes the buffer. -/
  | own (b : β) (x : IdeBuf δ)
  /-- `iderw` is called. -/
  | call (b : β)
  /-- An interrupt; `ok` says that the disk reports no error. -/
  | intr (ok : Bool)
  /-- `iderw` returns. -/
  | ret (b : β)

section

variable [DecidableEq β]

/-- The lock of a buffer is held by one process, so nobody else changes the buffer or calls `iderw`
while that process is in `iderw`. -/
inductive IdeStep (havedisk1 : Bool) : Ide β δ → IdeLabel β δ → Ide β δ → Prop
  | own {s : Ide β δ} {b : β} {x : IdeBuf δ} (hb : s.waiting b = false) :
      IdeStep havedisk1 s (.own b x) { s with buf := Function.update s.buf b x }
  | call {s s' : Ide β δ} {b : β} (held : Bool) (hb : s.waiting b = false)
      (h : s.iderw havedisk1 held b = .ok s') : IdeStep havedisk1 s (.call b) s'
  | intr {s s' : Ide β δ} {ok : Bool} (h : (s.finish ok).ideintr ok = .ok s') :
      IdeStep havedisk1 s (.intr ok) s'
  | ret {s : Ide β δ} {b : β} (hb : s.waiting b = true) (hd : (s.buf b).done = true) :
      IdeStep havedisk1 s (.ret b) { s with waiting := Function.update s.waiting b false }

/-- Requests are for blocks of disk 1, and the disk has no errors. -/
def IdeLabel.Proper (s : Ide β δ) : IdeLabel β δ → Prop
  | call b => (s.buf b).dev = 1 ∧ (s.buf b).blockno < FSSIZE
  | intr ok => ok = true
  | _ => True

/-- The disk and the buffers with `memide.c`. -/
inductive MemStep : (Nat → δ) × (β → IdeBuf δ) → IdeLabel β δ → (Nat → δ) × (β → IdeBuf δ) → Prop
  | own {d : Nat → δ} {f : β → IdeBuf δ} {b : β} {x : IdeBuf δ} :
      MemStep (d, f) (.own b x) (d, Function.update f b x)
  | call {d d' : Nat → δ} {f : β → IdeBuf δ} {b : β} {x : IdeBuf δ}
      (h : Memide.iderw FSSIZE true d (f b) = .ok (d', x)) :
      MemStep (d, f) (.call b) (d', Function.update f b x)

end

/-! ## The invariant -/

/-- A request that is still to be served. -/
def IdeBuf.Asks (x : IdeBuf δ) : Prop := x.dev = 1 ∧ x.blockno < FSSIZE ∧ x.done = false

/-- The disk takes the drive and the block from the ports. -/
theorem IdeBuf.place_command {x : IdeBuf δ} (h : x.Asks) : x.command.place = (1, x.blockno) := by
  obtain ⟨hdev, hlt, -⟩ := h
  have hlow : ∀ n : Nat, n &&& 0xff = n % 2 ^ 8 := fun n => Nat.and_two_pow_sub_one_eq_mod n 8
  have hhigh : ((0xe0 ||| (1 &&& 1) * 2 ^ 4 ||| 0 &&& 0x0f) &&& 0x0f : Nat) = 0 := rfl
  unfold command IdeCommand.place
  simp only [FSSIZE] at hlt
  simp only [hdev, hlow, Nat.shiftRight_eq_div_pow, Nat.shiftLeft_eq, sectorPerBlock, BSIZE]
  rw [show x.blockno * (512 / 512) / 2 ^ 24 = 0 by omega, hhigh]
  refine Prod.ext rfl ?_
  dsimp only
  omega

/-- The disk works on the head of the queue; a process in `iderw` has its buffer in the queue or can
return. -/
structure IdeInv (s : Ide β δ) : Prop where
  busy : s.busy = s.queue.head?.map fun b => (s.buf b).command
  nodup : s.queue.Nodup
  asks : ∀ b ∈ s.queue, s.waiting b = true ∧ (s.buf b).Asks
  served : ∀ b, s.waiting b = true → b ∈ s.queue ∨ (s.buf b).done = true

variable {s s' : Ide β δ} {b : β} {x : IdeBuf δ} {q : List β}

theorem IdeInv.not_mem (h : IdeInv s) (hb : s.waiting b = false) : b ∉ s.queue := fun hm => by
  simp [(h.asks b hm).1] at hb

theorem idestart_ok (h : (s.buf b).Asks) : s.idestart b = .ok { s with busy := some (s.buf b).command } := by
  unfold Ide.idestart
  rw [if_neg (Nat.not_le.2 h.2.1), if_neg (by decide)]

theorem startNext_ok (hbusy : s.busy = none) (h : ∀ b ∈ s.queue, (s.buf b).Asks) :
    s.startNext = .ok { s with busy := s.queue.head?.map fun b => (s.buf b).command } := by
  obtain ⟨buf, queue, waiting, busy, port, disk⟩ := s
  cases hbusy
  cases queue with
  | nil => rfl
  | cons c q => exact idestart_ok (h c List.mem_cons_self)

variable [DecidableEq β]

theorem IdeInv.own (h : IdeInv s) (hb : s.waiting b = false) :
    IdeInv { s with buf := Function.update s.buf b x } := by
  obtain ⟨hbusy, hnodup, hasks, hserved⟩ := h
  refine ⟨?_, hnodup, ?_, ?_⟩
  · cases hq : s.queue <;> grind [Function.update_apply]
  all_goals grind [Function.update_apply]

/-- `iderw` only enters the request, and starts the disk if it is the first. -/
theorem IdeInv.call {k held : Bool} (h : IdeInv s) (hb : s.waiting b = false) (hdev : (s.buf b).dev = 1)
    (hlt : (s.buf b).blockno < FSSIZE) (hs : s.iderw k held b = .ok s') :
    IdeInv s' ∧ s'.queue = s.queue ++ [b] ∧ s'.buf = s.buf ∧ s'.disk = s.disk := by
  unfold Ide.iderw at hs
  split at hs
  · cases hs
  split at hs
  · cases hs
  next hdone =>
  split at hs
  · cases hs
  have hasks : (s.buf b).Asks := ⟨hdev, hlt, Bool.eq_false_iff.2 hdone⟩
  have hmem := h.not_mem hb
  have hs' : s' = { s with
      queue := s.queue ++ [b]
      waiting := Function.update s.waiting b true
      busy := (s.queue ++ [b]).head?.map fun c => (s.buf c).command } := by
    have hbusy := h.busy
    cases hq : s.queue with
    | nil => simpa [idestart_ok, hasks, hq] using hs.symm
    | cons c q =>
      have hcb : c ≠ b := fun hcb => hmem (by simp [hq, hcb])
      simpa [hcb, hq, hbusy] using hs.symm
  subst hs'
  refine ⟨⟨rfl, ?_, fun c hc => ?_, fun c hc => ?_⟩, rfl, rfl, rfl⟩
  · simpa [List.nodup_append] using ⟨h.nodup, fun c hc hcb => hmem (hcb ▸ hc)⟩
  · have := h.asks c
    grind [Function.update_apply]
  · have := h.served c
    grind [Function.update_apply]

theorem IdeInv.ret (h : IdeInv s) (hdone : (s.buf b).done = true) :
    IdeInv { s with waiting := Function.update s.waiting b false } := by
  obtain ⟨hbusy, hnodup, hasks, hserved⟩ := h
  refine ⟨hbusy, hnodup, ?_, ?_⟩ <;> grind [Function.update_apply, IdeBuf.Asks]

theorem IdeInv.idle (h : IdeInv s) (hq : s.queue = []) : (s.finish true).ideintr true = .ok s := by
  have hbusy : s.busy = none := by simp [h.busy, hq]
  simp [Ide.finish, Ide.ideintr, hbusy, hq]

/-- The head of the queue is served. -/
theorem IdeInv.next (h : IdeInv s) (hq : s.queue = b :: q) (hx : x.done = true) (hs : s'.queue = q)
    (hbuf : ∀ c, s'.buf c = if c = b then x else s.buf c) (hw : s'.waiting = s.waiting)
    (hbusy : s'.busy = q.head?.map fun c => (s'.buf c).command) : IdeInv s' := by
  obtain ⟨-, hnodup, hasks, hserved⟩ := h
  refine ⟨hs ▸ hbusy, ?_, ?_, ?_⟩ <;> grind

/-- An interrupt does for the head of the queue what `memide.c` does at once. -/
theorem IdeInv.intr (h : IdeInv s) (hq : s.queue = b :: q) : ∃ s' x,
    (s.finish true).ideintr true = .ok s' ∧ Memide.iderw FSSIZE true (s.disk 1) (s.buf b) = .ok (s'.disk 1, x) ∧
    s'.buf = Function.update s.buf b x ∧ s'.queue = q ∧ s'.waiting = s.waiting ∧ IdeInv s' := by
  have hasks := (h.asks b (by simp [hq])).2
  have hbusy : s.busy = some (s.buf b).command := by simp [h.busy, hq]
  -- what the disk does, and what `memide.c` does with the same request
  obtain ⟨d, p, x, hfin, hmem, hx⟩ : ∃ d p x, s.finish true = { s with busy := none, disk := d, port := p } ∧
      Memide.iderw FSSIZE true (s.disk 1) (s.buf b) = .ok (d 1, x) ∧
      x = { s.buf b with
        data := if !(s.buf b).dirty && true then p else (s.buf b).data, valid := true, dirty := false } := by
    have hlt := Nat.not_le.2 hasks.2.1
    have hout : (s.buf b).command.out = if (s.buf b).dirty then some (s.buf b).data else none := rfl
    cases hdirty : (s.buf b).dirty <;>
      simp [Ide.finish, Memide.iderw, hbusy, IdeBuf.place_command hasks, hout, hdirty, hasks.1, hasks.2.2, hlt]
  let s1 : Ide β δ := { s with
    queue := q, disk := d, port := p, buf := Function.update s.buf b x,
    busy := q.head?.map fun c => (Function.update s.buf b x c).command }
  have hI : IdeInv s1 := h.next hq (by rw [hx]; rfl) rfl (fun c => Function.update_apply ..) rfl rfl
  refine ⟨s1, x, ?_, hmem, rfl, rfl, rfl, hI⟩
  rw [hfin]
  unfold Ide.ideintr
  simp only [hq]
  rw [← hx]
  exact startNext_ok rfl fun c hc => (hI.asks c hc).2

/-! ## Runs -/

@[simp] def IdeLabel.request : IdeLabel β δ → Option β
  | call b => some b
  | _ => none

@[simp] def IdeLabel.change : IdeLabel β δ → Option (β × IdeBuf δ)
  | own b x => some (b, x)
  | _ => none

/-- The disk and the buffers are those of `memide.c` after the requests that have left the queue, each
served once and in the order of the calls. -/
def Served (disk : Nat → δ) (buf : β → IdeBuf δ) (t : List (IdeLabel β δ)) (s : Ide β δ) : Prop :=
  ∃ u, Run MemStep (disk, buf) u (s.disk 1, s.buf) ∧
    u.filterMap IdeLabel.change = t.filterMap IdeLabel.change ∧
    u.filterMap IdeLabel.request ++ s.queue = t.filterMap IdeLabel.request

variable {k : Bool} {f : β → IdeBuf δ} {m : Nat → δ} {d : Nat → Nat → δ} {p : δ} {t : List (IdeLabel β δ)}

theorem Served.step {l : IdeLabel β δ} (hs : Served m f t s) (h : IdeInv s) (hstep : IdeStep k s l s')
    (hl : l.Proper s) : Served m f (t ++ [l]) s' ∧ IdeInv s' := by
  obtain ⟨u, hrun, hown, hreq⟩ := hs
  cases hstep with
  | own hb =>
    refine ⟨⟨u ++ [.own _ _], hrun.snoc .own, ?_, ?_⟩, h.own hb⟩
    · simp [hown]
    · simp [← hreq, List.filterMap_cons]
  | call _ hb hs =>
    obtain ⟨h', hq, hbuf, hdisk⟩ := h.call hb hl.1 hl.2 hs
    refine ⟨⟨u, by rwa [hbuf, hdisk], ?_, ?_⟩, h'⟩
    · simp [hown]
    · simp [hq, ← hreq]
  | intr hs =>
    cases hl
    cases hq : s.queue with
    | nil =>
      cases hs.symm.trans (h.idle hq)
      refine ⟨⟨u, hrun, ?_, ?_⟩, h⟩
      · simp [hown]
      · simp [hreq]
    | cons b q =>
      obtain ⟨s1, x, hs1, hmem, hbuf, hq1, -, h'⟩ := h.intr hq
      cases hs.symm.trans hs1
      refine ⟨⟨u ++ [.call b], hrun.snoc (hbuf ▸ .call hmem), ?_, ?_⟩, h'⟩
      · simp [hown, List.filterMap_cons]
      · simp [← hreq, hq, hq1, List.filterMap_cons]
  | ret hb hdone =>
    refine ⟨⟨u, hrun, ?_, ?_⟩, h.ret hdone⟩
    · simp [hown]
    · simp [hreq]

/-- Runs without disk errors, of requests for disk 1. -/
abbrev IdeRun (k : Bool) : Ide β δ → List (IdeLabel β δ) → Ide β δ → Prop :=
  Run fun s l s' => IdeStep k s l s' ∧ l.Proper s

theorem IdeRun.served (h : IdeRun k ⟨f, [], fun _ => false, none, p, d⟩ t s) : Served (d 1) f t s ∧ IdeInv s :=
  h.trace (I := fun t s => Served (d 1) f t s ∧ IdeInv s) (fun hI hs => hI.1.step hI.2 hs.1 hs.2)
    ⟨⟨[], .refl _, rfl, rfl⟩, rfl, List.nodup_nil, by simp, by simp⟩

/-- The driver serves its requests as `memide.c` does, and it loses none. -/
theorem ide_refines_memide (h : IdeRun k ⟨f, [], fun _ => false, none, p, d⟩ t s) :
    Served (d 1) f t s ∧ ∀ b, s.waiting b = true → b ∈ s.queue ∨ (s.buf b).done = true :=
  ⟨h.served.1, h.served.2.served⟩

theorem ide_refines_memide_pair : ∃ t s, Served (fun _ => 0) (fun b => ⟨1, 7, false, b, if b then 42 else 0⟩) t s ∧
    s.queue = [] ∧ (s.buf false).data = 42 :=
  ⟨_, _, (ide_refines_memide (k := true) (p := 0) (d := fun _ _ => 0)
    (.step ⟨.call (b := true) true rfl rfl, rfl, by decide⟩
      (.step ⟨.call (b := false) true rfl rfl, rfl, by decide⟩
        (.step ⟨.intr rfl, rfl⟩ (.step ⟨.intr rfl, rfl⟩ (.refl _)))))).1, rfl, rfl⟩

theorem IdeInv.drain (h : IdeInv s) (hq : s.queue = q) : ∃ s',
    IdeRun k s (List.replicate q.length (.intr true)) s' ∧ s'.queue = [] ∧ s'.waiting = s.waiting ∧ IdeInv s' := by
  induction q generalizing s with
  | nil => exact ⟨s, .refl s, hq, rfl, h⟩
  | cons b q ih =>
    obtain ⟨s1, x, hs1, -, -, hq1, hw, h1⟩ := h.intr hq
    obtain ⟨s', hrun, hq', hw', h'⟩ := ih h1 hq1
    exact ⟨s', .step ⟨.intr hs1, rfl⟩ hrun, hq', hw'.trans hw, h'⟩

/-- From every state as many interrupts as requests wait serve them all, without a panic: then every
process in `iderw` returns. -/
theorem ide_drains (h : IdeRun k ⟨f, [], fun _ => false, none, p, d⟩ t s) : ∃ s',
    IdeRun k s (List.replicate s.queue.length (.intr true)) s' ∧ s'.waiting = s.waiting ∧
      ∀ b, s.waiting b = true → (s'.buf b).done = true := by
  obtain ⟨s', hrun, hq, hw, hI⟩ := h.served.2.drain rfl
  exact ⟨s', hrun, hw, fun b hb => (hI.served b (hw ▸ hb)).resolve_left (by simp [hq])⟩

theorem ide_drains_write : ∃ s s' : Ide Bool Nat, s.queue = [true] ∧ IdeRun true s [.intr true] s' ∧
    (s'.buf true).done = true := by
  obtain ⟨s', hrun, -, hdone⟩ := ide_drains (k := true) (f := fun b => ⟨1, 7, false, b, 42⟩) (p := 0)
    (d := fun _ _ => 0) (.step ⟨.call (b := true) true rfl rfl, rfl, by decide⟩ (.refl _))
  exact ⟨_, s', rfl, hrun, hdone true rfl⟩

end Xv6
