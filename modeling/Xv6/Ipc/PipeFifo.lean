import Xv6.Ipc.Pipe

/-!
# A pipe is a queue

The bytes that the sections of `pipewrite` store and those that the sections of `piperead`
return, in the order of the sections, are what was put into the ring and taken out of it.
`PIPESIZE` divides `2 ^ 32`, so the wrapping of the counters is not seen.
-/

namespace Xv6

open Lib

theorem pipesize_lt : PIPESIZE < 2 ^ 32 := by decide

theorem pipesize_dvd : PIPESIZE ∣ 2 ^ 32 := by decide

/-- `st` was stored in the pipe and `rt` returned from it. -/
abbrev Pipe.Holds (p : Pipe) (st rt : List (BitVec 8)) : Prop := p.toRing.Holds PIPESIZE st rt

namespace Pipe

variable {p : Pipe} {st rt : List (BitVec 8)}

/-- A section of `pipewrite` stores its bytes one after another. -/
theorem Holds.write (killed : Bool) (bs : List (BitVec 8)) : ∀ {p : Pipe} {st : List (BitVec 8)},
    p.Holds st rt → (p.write killed bs).pipe.Holds (st ++ (p.write killed bs).stored) rt := by
  induction bs with
  | nil =>
    intro p st h
    rwa [Pipe.write, List.append_nil]
  | cons b bs ih =>
    intro p st h
    unfold Pipe.write
    split
    · split
      · rwa [List.append_nil]
      · split <;> rwa [List.append_nil]
    · rename_i hfull
      have hroom : st.length < rt.length + PIPESIZE := by
        have hle := h.room
        have hne := mt (h.full_iff pipesize_lt).2 hfull
        omega
      have hput : (p.store b).Holds (st ++ [b]) rt := h.put pipesize_dvd hroom b
      have hrest := ih hput
      rwa [List.append_assoc] at hrest

/-- The copy loop takes the bytes out in order. -/
theorem Holds.copy (n : Nat) : ∀ {p : Pipe} {rt : List (BitVec 8)},
    p.Holds st rt → (p.copy n).2.Holds st (rt ++ (p.copy n).1) := by
  induction n with
  | zero =>
    intro p rt h
    rwa [Pipe.copy, List.append_nil]
  | succ n ih =>
    intro p rt h
    unfold Pipe.copy
    split
    · rwa [List.append_nil]
    · rename_i hempty
      have htaken : p.taken.Holds st (rt ++ [p.next]) :=
        h.drop pipesize_dvd (mt (h.empty_iff pipesize_lt).2 hempty)
      have hrest := ih htaken
      rwa [List.append_assoc] at hrest

theorem Holds.read (h : p.Holds st rt) (killed : Bool) (n : Nat) :
    (p.read killed n).pipe.Holds st (rt ++ (p.read killed n).bytes) := by
  unfold Pipe.read
  split
  · split <;> rwa [List.append_nil]
  · exact h.copy n

end Pipe

section

variable {ι : Type}

/-- The bytes a step stores. -/
def PipeLabel.stored (a : PipeLabel ι) : List (BitVec 8) :=
  match a.event with
  | .wrote bs _ => bs
  | _ => []

/-- The bytes a step returns. -/
def PipeLabel.returned (a : PipeLabel ι) : List (BitVec 8) :=
  match a.event with
  | .read bs _ => bs
  | _ => []

/-- The bytes stored so far. -/
def stored (t : List (PipeLabel ι)) : List (BitVec 8) := t.flatMap PipeLabel.stored

/-- The bytes returned so far. -/
def returned (t : List (PipeLabel ι)) : List (BitVec 8) := t.flatMap PipeLabel.returned

variable [DecidableEq ι] [Fintype ι] {s s' : PipeSys ι} {t : List (PipeLabel ι)} {p : ι}
  {a : PipeLabel ι} {st rt : List (BitVec 8)}

theorem PipeSys.fileclose_ring (s : PipeSys ι) (p : ι) (w : Bool) :
    (s.fileclose p w).pipe.toRing = s.pipe.toRing := by
  unfold fileclose
  dsimp only
  split
  · rw [pipeclose_pipe]
    cases w <;> rfl
  · rfl

theorem PipeSys.call_ring (h : s.call p = some s') : s'.pipe.toRing = s.pipe.toRing := by
  unfold call at h
  dsimp only at h
  split at h
  · cases h
  · cases h
    rfl
  · cases h
    rfl
  · cases h
    split
    · exact PipeSys.fileclose_ring _ p _
    · rfl

/-- A step puts its bytes in at the end, or takes its bytes out at the front. -/
theorem PipeStep.holds (h : s.pipe.Holds st rt) (hs : PipeStep s a s') :
    s'.pipe.Holds (st ++ a.stored) (rt ++ a.returned) := by
  cases hs with
  | kill p =>
    rw [show (⟨p, .tau⟩ : PipeLabel ι).stored = [] from rfl,
      show (⟨p, .tau⟩ : PipeLabel ι).returned = [] from rfl, List.append_nil, List.append_nil]
    exact h
  | @act p late e _ hact =>
    unfold PipeSys.act at hact
    split at hact
    · obtain ⟨s1, hcall, he⟩ := Option.map_eq_some_iff.1 hact
      obtain ⟨rfl, rfl⟩ := Prod.mk.inj he
      rw [show (⟨p, .tau⟩ : PipeLabel ι).stored = [] from rfl,
        show (⟨p, .tau⟩ : PipeLabel ι).returned = [] from rfl, List.append_nil, List.append_nil]
      unfold Pipe.Holds
      rw [PipeSys.call_ring hcall]
      exact h
    · rename_i bs hp
      split at hact
      · cases hact
      · obtain ⟨rfl, rfl⟩ := Prod.mk.inj (Option.some.inj hact)
        have hret : (⟨p, .wrote (s.pipe.write (s.proc p).killed bs).stored
            (s.pipe.write (s.proc p).killed bs).ending⟩ : PipeLabel ι).returned = [] := rfl
        rw [hret, List.append_nil]
        have hw := h.write (s.proc p).killed bs
        split <;> exact hw
    · rename_i n hp
      split at hact
      · cases hact
      · obtain ⟨rfl, rfl⟩ := Prod.mk.inj (Option.some.inj hact)
        have hsto : (⟨p, .read (s.pipe.read (s.proc p).killed n).bytes
            (s.pipe.read (s.proc p).killed n).ending⟩ : PipeLabel ι).stored = [] := rfl
        rw [hsto, List.append_nil]
        have hr := h.read (s.proc p).killed n
        split <;> exact hr
    · cases hact
    · cases hact

/-- In every run of a pipe, with any readers and writers: the bytes returned are the first of the
bytes stored, the counters differ by the number of bytes in between, at most `PIPESIZE`, and
these bytes are all still in the buffer. -/
theorem pipe_fifo {s0 : PipeSys ι} (h0 : PipeStart s0) (h : Run PipeStep s0 t s) :
    returned t <+: stored t ∧
    (s.pipe.nwrite - s.pipe.nread).toNat = (stored t).length - (returned t).length ∧
    (s.pipe.nwrite - s.pipe.nread).toNat ≤ PIPESIZE ∧
    ∀ k, (returned t).length ≤ k → (hk : k < (stored t).length) →
      s.pipe.data (k % PIPESIZE) = (stored t)[k] := by
  have hholds : s.pipe.Holds (stored t) (returned t) := by
    refine h.trace (I := fun t s => s.pipe.Holds (stored t) (returned t)) ?_ ?_
    · intro t s a s' hI hs
      have hnext := hs.holds hI
      unfold stored returned
      rw [List.flatMap_append, List.flatMap_append, List.flatMap_singleton, List.flatMap_singleton]
      exact hnext
    · exact ⟨List.prefix_refl _, Nat.zero_le _, h0.nread, h0.nwrite, fun k _ hk =>
        absurd hk (Nat.not_lt_zero k)⟩
  have hcount := hholds.count pipesize_lt
  have hroom := hholds.room
  exact ⟨hholds.before, hcount, by omega, hholds.data⟩

end

/-- A writer of three bytes and a reader of two. -/
def writerAndReader : Fin 2 → List PipeCall
  | 0 => [.write [1, 2, 3]]
  | 1 => [.read 2]

theorem pipe_fifo_two : ∃ t s, Run PipeStep (newPipe writerAndReader) t s ∧
    returned t = [1, 2] ∧ stored t = [1, 2, 3] ∧ (s.pipe.nwrite - s.pipe.nread).toNat = 1 := by
  have hfollow : (follow PipeSys.next (newPipe writerAndReader)
      [(0, some false), (0, some false), (1, some false), (1, some false)]).map
      (fun r => (returned r.1, stored r.1)) = some ([1, 2], [1, 2, 3]) := by decide
  obtain ⟨⟨t, s⟩, hs, he⟩ := Option.map_eq_some_iff.1 hfollow
  obtain ⟨hret, hsto⟩ := Prod.mk.inj he
  have hrun : Run PipeStep (newPipe writerAndReader) t s := Run.of_follow PipeSys.step_of_next hs
  have hfifo := pipe_fifo (newPipe_start _) hrun
  refine ⟨t, s, hrun, hret, hsto, ?_⟩
  rw [hfifo.2.1, show returned t = _ from hret, show stored t = _ from hsto]
  rfl

end Xv6
