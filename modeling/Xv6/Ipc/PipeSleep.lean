import Xv6.Ipc.Pipe

/-!
# Sleepers on a pipe

A reader sleeps on an empty pipe whose write end is open, a writer on a full one whose read end
is open. Every section keeps this, because it wakes the sleepers of the side it has changed
something for. The exception is a section of `pipewrite` by a killed process that has stored bytes
and then finds the pipe full: it returns without `wakeup(&p->nread)`.
-/

namespace Xv6

open Lib

/-- No sleeper is stranded. -/
structure Awake {ι : Type} (s : PipeSys ι) : Prop where
  read : ∀ p n, (s.proc p).pos = .sleepRead n → s.pipe.Empty ∧ s.pipe.writeopen = true
  write : ∀ p bs, (s.proc p).pos = .sleepWrite bs → s.pipe.Full ∧ s.pipe.readopen = true

/-- In `piperead`. -/
def PipePos.inRead : PipePos → Bool
  | .reading _ => true
  | .sleepRead _ => true
  | _ => false

/-- Who is in `piperead` holds the read end; an end that is closed is held by nobody. -/
structure Ends {ι : Type} (s : PipeSys ι) : Prop where
  inRead : ∀ p, (s.proc p).pos.inRead = true → (s.proc p).rd = true
  closed : s.pipe.readopen = false → ∀ p, (s.proc p).rd = false

namespace Pipe

variable {p : Pipe} {killed : Bool}

theorem write_ends (killed : Bool) (bs : List (BitVec 8)) : ∀ p : Pipe,
    (p.write killed bs).pipe.readopen = p.readopen ∧
    (p.write killed bs).pipe.writeopen = p.writeopen := by
  induction bs with
  | nil => exact fun p => ⟨rfl, rfl⟩
  | cons b bs ih =>
    intro p
    unfold Pipe.write
    split
    · split
      · exact ⟨rfl, rfl⟩
      · split <;> exact ⟨rfl, rfl⟩
    · exact ih (p.store b)

/-- A section that has nothing to store, or finds the pipe full at once, changes nothing. -/
theorem write_nothing (killed : Bool) (bs : List (BitVec 8))
    (h : (p.write killed bs).stored = []) : (p.write killed bs).pipe = p := by
  cases bs with
  | nil => rfl
  | cons b bs =>
    unfold Pipe.write at h ⊢
    split at h
    · rename_i hfull
      rw [if_pos hfull]
      split
      · rfl
      · split <;> rfl
    · cases h

theorem write_full (killed : Bool) (bs : List (BitVec 8)) (h : p.Full) :
    (p.write killed bs).pipe = p := by
  refine write_nothing killed bs ?_
  cases bs with
  | nil => rfl
  | cons b bs =>
    unfold Pipe.write
    rw [if_pos h]
    split
    · rfl
    · split <;> rfl

/-- How the section ends: it sleeps only on a full pipe with readers, and `closed` says that there
are none. -/
theorem write_ending (killed : Bool) (bs : List (BitVec 8)) : ∀ p : Pipe,
    ((p.write killed bs).ending ≠ .done → (p.write killed bs).pipe.Full) ∧
    ((p.write killed bs).ending = .asleep → (p.write killed bs).pipe.readopen = true) ∧
    ((p.write killed bs).ending = .closed → (p.write killed bs).pipe.readopen = false) := by
  induction bs with
  | nil => exact fun p => ⟨fun h => absurd rfl h, nofun, nofun⟩
  | cons b bs ih =>
    intro p
    unfold Pipe.write
    split
    · rename_i hfull
      split
      · rename_i hro
        exact ⟨fun _ => hfull, nofun, fun _ => hro⟩
      · rename_i hro
        split
        · exact ⟨fun _ => hfull, nofun, nofun⟩
        · exact ⟨fun _ => hfull, fun _ => Bool.eq_true_of_not_eq_false hro, nofun⟩
    · exact ih (p.store b)

theorem copy_ends (n : Nat) : ∀ p : Pipe, (p.copy n).2.readopen = p.readopen ∧
    (p.copy n).2.writeopen = p.writeopen := by
  induction n with
  | zero => exact fun p => ⟨rfl, rfl⟩
  | succ n ih =>
    intro p
    unfold Pipe.copy
    split
    · exact ⟨rfl, rfl⟩
    · exact ih p.taken

theorem read_ends (killed : Bool) (n : Nat) (p : Pipe) :
    (p.read killed n).pipe.readopen = p.readopen ∧
    (p.read killed n).pipe.writeopen = p.writeopen := by
  unfold Pipe.read
  split
  · split <;> exact ⟨rfl, rfl⟩
  · exact copy_ends n p

end Pipe

/-! ## Waking up -/

namespace PipePos

variable {a : PipePos} {n : Nat} {bs : List (BitVec 8)}

theorem wakeRead_ne : a.wakeRead ≠ .sleepRead n := by
  cases a <;> nofun

theorem wakeWrite_ne : a.wakeWrite ≠ .sleepWrite bs := by
  cases a <;> nofun

theorem of_wakeRead (h : a.wakeRead = .sleepWrite bs) : a = .sleepWrite bs := by
  cases a <;> cases h
  rfl

theorem of_wakeWrite (h : a.wakeWrite = .sleepRead n) : a = .sleepRead n := by
  cases a <;> cases h
  rfl

theorem wakeRead_inRead : a.wakeRead.inRead = a.inRead := by
  cases a <;> rfl

theorem wakeWrite_inRead : a.wakeWrite.inRead = a.inRead := by
  cases a <;> rfl

end PipePos

section

variable {ι : Type} {s s' : PipeSys ι} {p : ι} {x : PipeProc}

/-- After `wakeup(&p->nread)` the pipe may have changed as far as sleeping writers allow. -/
theorem Awake.wakeRead {P : Pipe} {b : Bool}
    (h : ∀ p bs, (s.proc p).pos = .sleepWrite bs → P.Full ∧ P.readopen = true) :
    Awake ({ s with pipe := P, freed := b }.wakeRead) :=
  ⟨fun _ _ hq => absurd hq PipePos.wakeRead_ne, fun q bs hq => h q bs (PipePos.of_wakeRead hq)⟩

/-- After `wakeup(&p->nwrite)` it may have changed as far as sleeping readers allow. -/
theorem Awake.wakeWrite {P : Pipe} {b : Bool}
    (h : ∀ p n, (s.proc p).pos = .sleepRead n → P.Empty ∧ P.writeopen = true) :
    Awake ({ s with pipe := P, freed := b }.wakeWrite) :=
  ⟨fun q n hq => h q n (PipePos.of_wakeWrite hq), fun _ _ hq => absurd hq PipePos.wakeWrite_ne⟩

/-- Nobody sleeps on `&p->nread` of a pipe without readers. -/
theorem Ends.not_sleepRead (h : Ends s) (hro : s.pipe.readopen = false) {n : Nat} :
    (s.proc p).pos ≠ .sleepRead n := by
  intro hp
  have hrd := h.inRead p (by rw [hp]; rfl)
  rw [h.closed hro p] at hrd
  cases hrd

theorem Awake.congr (h : Awake s) (hpipe : s'.pipe = s.pipe) (hproc : s'.proc = s.proc) :
    Awake s' := by
  constructor
  · rw [hpipe, hproc]
    exact h.read
  · rw [hpipe, hproc]
    exact h.write

/-- Closing an end wakes those who wait for the other side. -/
theorem Awake.closeEnd (h : Awake s) (w : Bool) : Awake (s.closeEnd w) := by
  cases w with
  | true => exact Awake.wakeRead h.write
  | false => exact Awake.wakeWrite h.read

theorem Ends.congr (h : Ends s) (hro : s'.pipe.readopen = s.pipe.readopen)
    (hin : ∀ q, (s'.proc q).pos.inRead = (s.proc q).pos.inRead)
    (hrd : ∀ q, (s'.proc q).rd = (s.proc q).rd) : Ends s' := by
  constructor
  · intro q hq
    rw [hrd]
    exact h.inRead q ((hin q).symm.trans hq)
  · intro hc q
    rw [hrd]
    exact h.closed (hro.symm.trans hc) q

variable [DecidableEq ι]

theorem PipeSys.set_self (s : PipeSys ι) (p : ι) (x : PipeProc) : (s.set p x).proc p = x :=
  Function.update_self _ _ _

theorem PipeSys.set_ne (s : PipeSys ι) {q : ι} (x : PipeProc) (h : q ≠ p) :
    (s.set p x).proc q = s.proc q := Function.update_of_ne h _ _

/-- `p` moves; where it sleeps, it may. -/
theorem Awake.set (h : Awake s)
    (hr : ∀ n, x.pos = .sleepRead n → s.pipe.Empty ∧ s.pipe.writeopen = true)
    (hw : ∀ bs, x.pos = .sleepWrite bs → s.pipe.Full ∧ s.pipe.readopen = true) :
    Awake (s.set p x) := by
  constructor
  · intro q n hq
    by_cases e : q = p
    · rw [e, PipeSys.set_self] at hq
      exact hr n hq
    · rw [PipeSys.set_ne _ _ e] at hq
      exact h.read q n hq
  · intro q bs hq
    by_cases e : q = p
    · rw [e, PipeSys.set_self] at hq
      exact hw bs hq
    · rw [PipeSys.set_ne _ _ e] at hq
      exact h.write q bs hq

/-- A section of `pipewrite`; a killed writer must have stored nothing. -/
theorem Awake.writeSection (h : Awake s) (he : Ends s) {late : Bool} {bs : List (BitVec 8)}
    (hclean : (s.pipe.write (s.proc p).killed bs).ending = .killed →
      (s.pipe.write (s.proc p).killed bs).stored = []) :
    Awake (s.writeSection p late bs).2 := by
  obtain ⟨hro, -⟩ := s.pipe.write_ends (s.proc p).killed bs
  obtain ⟨hfull, hasleep, hclosed⟩ := s.pipe.write_ending (s.proc p).killed bs
  -- a pipe with sleeping writers is full, so nothing was stored
  have hwriters : ∀ q bs', (s.proc q).pos = .sleepWrite bs' →
      (s.pipe.write (s.proc p).killed bs).pipe.Full ∧
      (s.pipe.write (s.proc p).killed bs).pipe.readopen = true := by
    intro q bs' hq
    obtain ⟨hf, ho⟩ := h.write q bs' hq
    rw [Pipe.write_full _ _ hf]
    exact ⟨hf, ho⟩
  unfold PipeSys.writeSection
  dsimp only
  split
  · exact (Awake.wakeRead hwriters).set nofun nofun
  · rename_i hr
    exact (Awake.wakeRead hwriters).set nofun
      fun _ _ => ⟨hfull (by rw [hr]; nofun), hasleep hr⟩
  · rename_i hr
    rw [hro] at hclosed
    have hno := hclosed hr
    refine Awake.set ⟨fun q n hq => ?_, fun q bs' hq => ?_⟩ nofun nofun
    · exact absurd hq (he.not_sleepRead hno)
    · have := (h.write q bs' hq).2
      rw [hno] at this
      cases this
  · rename_i hr
    have hsame := Pipe.write_nothing _ _ (hclean hr)
    have hpipe : Awake { s with pipe := (s.pipe.write (s.proc p).killed bs).pipe } :=
      h.congr hsame rfl
    exact hpipe.set nofun nofun

theorem Awake.readSection (h : Awake s) {late : Bool} {n : Nat} :
    Awake (s.readSection p late n).2 := by
  unfold PipeSys.readSection
  dsimp only
  unfold Pipe.read
  by_cases hwait : s.pipe.Empty ∧ s.pipe.writeopen = true
  · rw [if_pos hwait]
    by_cases hk : (s.proc p).killed = true
    · rw [if_pos hk]
      exact h.set nofun nofun
    · rw [if_neg hk]
      exact h.set (fun _ _ => hwait) nofun
  · rw [if_neg hwait]
    refine (Awake.wakeWrite fun q m hq => ?_).set nofun nofun
    exact absurd (h.read q m hq) hwait

theorem Ends.set (h : Ends s) (hin : x.pos.inRead = true → x.rd = true)
    (hrd : x.rd = true → (s.proc p).rd = true) : Ends (s.set p x) := by
  constructor
  · intro q hq
    by_cases e : q = p
    · rw [e, PipeSys.set_self] at hq ⊢
      exact hin hq
    · rw [PipeSys.set_ne _ _ e] at hq ⊢
      exact h.inRead q hq
  · intro hc q
    by_cases e : q = p
    · rw [e, PipeSys.set_self]
      by_contra hx
      have := hrd (Bool.eq_true_of_not_eq_false hx)
      rw [h.closed hc p] at this
      cases this
    · rw [PipeSys.set_ne _ _ e]
      exact h.closed hc q

omit [DecidableEq ι] in
theorem Ends.wakeRead (h : Ends s) : Ends s.wakeRead :=
  h.congr rfl (fun _ => PipePos.wakeRead_inRead) fun _ => rfl

omit [DecidableEq ι] in
theorem Ends.wakeWrite (h : Ends s) : Ends s.wakeWrite :=
  h.congr rfl (fun _ => PipePos.wakeWrite_inRead) fun _ => rfl

theorem Ends.writeSection (h : Ends s) {late : Bool} {bs : List (BitVec 8)} :
    Ends (s.writeSection p late bs).2 := by
  have hpipe : Ends { s with pipe := (s.pipe.write (s.proc p).killed bs).pipe } :=
    h.congr (s.pipe.write_ends _ _).1 (fun _ => rfl) fun _ => rfl
  unfold PipeSys.writeSection
  dsimp only
  split
  · exact hpipe.wakeRead.set nofun id
  · exact hpipe.wakeRead.set nofun id
  · exact hpipe.set nofun id
  · exact hpipe.set nofun id

theorem Ends.readSection (h : Ends s) {late : Bool} {n : Nat} (hp : (s.proc p).pos = .reading n) :
    Ends (s.readSection p late n).2 := by
  have hpipe : Ends { s with pipe := (s.pipe.read (s.proc p).killed n).pipe } :=
    h.congr (Pipe.read_ends _ _ _).1 (fun _ => rfl) fun _ => rfl
  unfold PipeSys.readSection
  dsimp only
  split
  · exact hpipe.wakeWrite.set nofun id
  · exact hpipe.set (fun _ => h.inRead p (by rw [hp]; rfl)) id
  · exact hpipe.set nofun id

variable [Fintype ι]

theorem Awake.fileclose (h : Awake s) (hp : (s.proc p).pos = .out) (w : Bool) :
    Awake (s.fileclose p w) := by
  have hpos : ((s.proc p).drop w).pos = .out := by cases w <;> exact hp
  have hset : Awake (s.set p ((s.proc p).drop w)) :=
    h.set (by rw [hpos]; nofun) (by rw [hpos]; nofun)
  unfold PipeSys.fileclose
  dsimp only
  split
  · exact (hset.closeEnd w).congr (PipeSys.pipeclose_pipe _ _) (PipeSys.pipeclose_proc _ _)
  · exact hset

theorem Ends.fileclose (h : Ends s) (hp : (s.proc p).pos = .out) (w : Bool) :
    Ends (s.fileclose p w) := by
  have hpos : ((s.proc p).drop w).pos = .out := by cases w <;> exact hp
  have hset : Ends (s.set p ((s.proc p).drop w)) :=
    h.set (by rw [hpos]; nofun) (by cases w <;> first | exact id | nofun)
  unfold PipeSys.fileclose
  dsimp only
  split
  · rename_i hlast
    cases w with
    | true =>
      exact hset.congr (by rw [PipeSys.pipeclose_pipe]; rfl)
        (fun q => by rw [PipeSys.pipeclose_proc]; exact PipePos.wakeRead_inRead)
        (fun q => by rw [PipeSys.pipeclose_proc]; rfl)
    | false =>
      constructor
      · rw [PipeSys.pipeclose_proc]
        intro q hq
        exact hset.inRead q (PipePos.wakeWrite_inRead.symm.trans hq)
      · rw [PipeSys.pipeclose_proc]
        exact fun _ q => hlast q
  · exact hset

theorem Awake.call (h : Awake s) (hp : (s.proc p).pos = .out) (hs : s.call p = some s') :
    Awake s' := by
  unfold PipeSys.call at hs
  dsimp only at hs
  split at hs
  · cases hs
  · cases hs
    refine h.set ?_ ?_ <;> dsimp only <;> split <;> nofun
  · cases hs
    refine h.set ?_ ?_ <;> dsimp only <;> split <;> nofun
  · rename_i w cs _
    cases hs
    have hset : Awake (s.set p { s.proc p with calls := cs }) :=
      h.set (by rw [hp]; nofun) (by rw [hp]; nofun)
    split
    · exact hset.fileclose (by rw [PipeSys.set_self]; exact hp) w
    · exact hset

theorem Ends.call (h : Ends s) (hp : (s.proc p).pos = .out) (hs : s.call p = some s') :
    Ends s' := by
  unfold PipeSys.call at hs
  dsimp only at hs
  split at hs
  · cases hs
  · cases hs
    refine h.set ?_ id
    dsimp only
    split <;> nofun
  · cases hs
    refine h.set ?_ id
    dsimp only
    split
    · rename_i hrd
      exact fun _ => hrd
    · nofun
  · rename_i w cs _
    cases hs
    have hset : Ends (s.set p { s.proc p with calls := cs }) := h.set (by rw [hp]; nofun) id
    split
    · exact hset.fileclose (by rw [PipeSys.set_self]; exact hp) w
    · exact hset

/-- No killed process leaves `pipewrite` after it has stored bytes in the same section. -/
def PipeLabel.Clean (a : PipeLabel ι) : Prop := ∀ bs, a.event = .wrote bs .killed → bs = []

theorem Awake.step {a : PipeLabel ι} (h : Awake s ∧ Ends s) (ha : a.Clean) (hs : PipeStep s a s') :
    Awake s' ∧ Ends s' := by
  obtain ⟨h, he⟩ := h
  cases hs with
  | kill p =>
    constructor
    · exact h.set (fun n hn => absurd (PipePos.of_wakeWrite hn) PipePos.wakeRead_ne)
        fun bs hbs => absurd hbs PipePos.wakeWrite_ne
    · refine he.set (fun hin => he.inRead p ?_) id
      exact (PipePos.wakeWrite_inRead.trans PipePos.wakeRead_inRead).symm.trans hin
  | @act p late e _ hact =>
    unfold PipeSys.act at hact
    split at hact
    · rename_i hp
      obtain ⟨s1, hcall, heq⟩ := Option.map_eq_some_iff.1 hact
      obtain ⟨rfl, rfl⟩ := Prod.mk.inj heq
      exact ⟨h.call hp hcall, he.call hp hcall⟩
    · rename_i bs hp
      split at hact
      · cases hact
      · obtain ⟨rfl, rfl⟩ := Prod.mk.inj (Option.some.inj hact)
        refine ⟨h.writeSection he fun hk => ?_, he.writeSection⟩
        exact ha _ (by rw [hk])
    · rename_i n hp
      split at hact
      · cases hact
      · obtain ⟨rfl, rfl⟩ := Prod.mk.inj (Option.some.inj hact)
        exact ⟨h.readSection, he.readSection hp⟩
    · cases hact
    · cases hact

end

end Xv6
