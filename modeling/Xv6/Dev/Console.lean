import Xv6.Lib.Ring
import Xv6.Lib.Run

/-!
# The console's line discipline

`consoleintr` puts characters into a ring with three free-running indices, `consoleread` takes them
out. A character is one step, and so is one round of the loop of a reader; readers and typing
interleave in any way. Output to the screen is left out.

`Line` is what a user sees: the characters committed so far, those already taken, and the line that
is being edited.
-/

namespace Xv6

open Lib

abbrev INPUT_BUF : Nat := 128

namespace Console

abbrev nl : BitVec 8 := 10
abbrev cr : BitVec 8 := 13
abbrev del : BitVec 8 := 127
/-- `C('D')`. -/
abbrev ctrlD : BitVec 8 := 4
abbrev ctrlH : BitVec 8 := 8
abbrev ctrlO : BitVec 8 := 15
abbrev ctrlP : BitVec 8 := 16
abbrev ctrlU : BitVec 8 := 21

/-- `input`: `buf`, `r` and `e` as a ring, and `w`. -/
structure Input extends Ring 32 (BitVec 8) where
  w : BitVec 32

/-- The loop of kill-line, with `k` rounds to go until `e` is `w`. -/
def killLoop : Nat → Input → Input
  | 0, s => s
  | k + 1, s =>
    if s.nwrite ≠ s.w ∧ s.toRing.last INPUT_BUF ≠ nl then killLoop k { s with toRing := s.takeBack }
    else s

/-- The body of the loop of `consoleintr`. -/
def consoleintr (c : BitVec 8) (s : Input) : Input :=
  if c = ctrlO ∨ c = ctrlP then s
  else if c = ctrlU then killLoop (s.nwrite - s.w).toNat s
  else if c = ctrlH ∨ c = del then
    if s.nwrite ≠ s.w then { s with toRing := s.takeBack } else s
  else if c ≠ 0 ∧ (s.nwrite - s.nread).toNat < INPUT_BUF then
    let c := if c = cr then nl else c
    let s := { s with toRing := s.put INPUT_BUF c }
    if c = nl ∨ c = ctrlD ∨ s.nwrite = s.nread + BitVec.ofNat 32 INPUT_BUF then { s with w := s.nwrite } else s
  else s

/-- One round of the loop of `consoleread`, once there is a character: the one handed out, or none
at a control-D. -/
def readChar (s : Input) (n target : Nat) : Input × Option (BitVec 8) :=
  let c := s.front INPUT_BUF
  let s' := { s with toRing := s.drop }
  if c = ctrlD then (if n < target then { s' with nread := s'.nread - 1 } else s', none)
  else (s', some c)

/-- A call of `consoleread`. -/
structure Reading where
  n : Nat
  target : Nat
  /-- The loop was left. -/
  ended : Bool

structure Sys where
  input : Input
  reader : Nat → Option Reading

inductive Ev where
  | key (c : BitVec 8)
  | call (p n : Nat)
  /-- A character is handed to reader `p`. -/
  | hand (p : Nat) (c : BitVec 8)
  /-- Reader `p` meets a control-D, which is kept or not. -/
  | stop (p : Nat) (kept : Bool)
  | ret (p k : Nat)
  /-- A reader that waits is killed. -/
  | killed (p : Nat)

/-- One step of the keyboard or of a reader. -/
inductive Step : Sys → Ev → Sys → Prop
  | key (s : Sys) (c : BitVec 8) : Step s (.key c) { s with input := consoleintr c s.input }
  | call {s : Sys} {p : Nat} (h : s.reader p = none) (n : Nat) :
      Step s (.call p n) { s with reader := Function.update s.reader p (some ⟨n, n, false⟩) }
  | hand {s : Sys} {p n target : Nat} {i : Input} {c : BitVec 8} (h : s.reader p = some ⟨n, target, false⟩)
      (hn : 0 < n) (hne : s.input.nread ≠ s.input.w) (hc : readChar s.input n target = (i, some c)) :
      Step s (.hand p c) ⟨i, Function.update s.reader p (some ⟨n - 1, target, c == nl⟩)⟩
  | stop {s : Sys} {p n target : Nat} {i : Input} (h : s.reader p = some ⟨n, target, false⟩)
      (hn : 0 < n) (hne : s.input.nread ≠ s.input.w) (hc : readChar s.input n target = (i, none)) :
      Step s (.stop p (decide (n < target))) ⟨i, Function.update s.reader p (some ⟨n, target, true⟩)⟩
  | ret {s : Sys} {p n target : Nat} {ended : Bool} (h : s.reader p = some ⟨n, target, ended⟩)
      (hend : ended = true ∨ n = 0) :
      Step s (.ret p (target - n)) { s with reader := Function.update s.reader p none }
  | killed {s : Sys} {p n target : Nat} (h : s.reader p = some ⟨n, target, false⟩) (hn : 0 < n)
      (hr : s.input.nread = s.input.w) :
      Step s (.killed p) { s with reader := Function.update s.reader p none }

def start : Sys := ⟨⟨⟨fun _ => 0, 0, 0⟩, 0⟩, fun _ => none⟩

/-! ## Lines -/

/-- What was committed, what of it was taken out, and what has been typed since. -/
structure Line where
  committed : List (BitVec 8)
  taken : List (BitVec 8)
  pending : List (BitVec 8)

namespace Line

/-- There are `INPUT_BUF` characters that were not taken out. -/
def Full (L : Line) : Prop := L.committed.length + L.pending.length = L.taken.length + INPUT_BUF

instance (L : Line) : Decidable L.Full := by unfold Full; infer_instance

/-- A character is typed at the end of the line. -/
def type (L : Line) (c : BitVec 8) : Line :=
  let L' := { L with pending := L.pending ++ [c] }
  if c = nl ∨ c = ctrlD ∨ L'.Full then { L with committed := L.committed ++ L'.pending, pending := [] } else L'

def key (L : Line) (c : BitVec 8) : Line :=
  if c = ctrlO ∨ c = ctrlP then L
  else if c = ctrlU then { L with pending := [] }
  else if c = ctrlH ∨ c = del then { L with pending := L.pending.dropLast }
  else if c = 0 ∨ L.Full then L
  else L.type (if c = cr then nl else c)

/-- What an event does to the line. -/
def next (L : Line) : Ev → Line
  | .key c => L.key c
  | .hand _ c => { L with taken := L.taken ++ [c] }
  | .stop _ kept => if kept then L else { L with taken := L.taken ++ [ctrlD] }
  | .call .. | .ret .. | .killed _ => L

/-- The line after a trace. -/
def after (t : List Ev) : Line := t.foldl next ⟨[], [], []⟩

theorem next_kept {kept : Bool} (h : kept = true) (L : Line) (p : Nat) : L.next (.stop p kept) = L := if_pos h

theorem next_dropped {kept : Bool} (h : kept = false) (L : Line) (p : Nat) :
    L.next (.stop p kept) = { L with taken := L.taken ++ [ctrlD] } := if_neg (h ▸ Bool.false_ne_true)

theorem key_taken (L : Line) (c : BitVec 8) : (L.key c).taken = L.taken := by
  unfold key type
  dsimp only
  repeat' split
  all_goals rfl

end Line

/-- The characters handed out. -/
def handed (t : List Ev) : List (BitVec 8) :=
  t.filterMap fun
    | .hand _ c => some c
    | _ => none

/-- The characters that reader `p` got in its last call. -/
def got (p : Nat) (t : List Ev) : List (BitVec 8) :=
  t.foldl (fun l e => match e with
    | .call q _ => if q = p then [] else l
    | .hand q c => if q = p then l ++ [c] else l
    | _ => l) []

/-- The ring holds the line. -/
structure Shows (s : Input) (L : Line) : Prop where
  ring : s.toRing.Holds INPUT_BUF (L.committed ++ L.pending) L.taken
  w : s.w = BitVec.ofNat 32 L.committed.length
  before : L.taken <+: L.committed
  typed : nl ∉ L.pending

namespace Shows

variable {s : Input} {L : Line} {c : BitVec 8} {n target : Nat}

theorem dvd : INPUT_BUF ∣ 2 ^ 32 := ⟨2 ^ 25, by decide⟩

theorem lt : INPUT_BUF < 2 ^ 32 := by decide

/-- The counters are far from wrapping past each other. -/
theorem bounds (h : Shows s L) : L.taken.length ≤ L.committed.length ∧
    L.committed.length + L.pending.length ≤ L.taken.length + INPUT_BUF := by
  have hroom := h.ring.room
  rw [List.length_append] at hroom
  exact ⟨h.before.length_le, hroom⟩

theorem w_eq_iff (h : Shows s L) : s.nwrite = s.w ↔ L.pending = [] := by
  have hb := h.bounds
  rw [h.ring.nwrite, h.w, List.length_append]
  constructor
  · intro he
    have hval := congrArg BitVec.toNat he
    rw [BitVec.toNat_ofNat, BitVec.toNat_ofNat] at hval
    refine List.length_eq_zero_iff.1 ?_
    simp only [INPUT_BUF] at hb
    omega
  · intro he
    rw [he, List.length_nil, Nat.add_zero]

theorem r_eq_iff (h : Shows s L) : s.nread = s.w ↔ L.taken.length = L.committed.length := by
  have hb := h.bounds
  rw [h.ring.nread, h.w]
  constructor
  · intro he
    have hval := congrArg BitVec.toNat he
    rw [BitVec.toNat_ofNat, BitVec.toNat_ofNat] at hval
    simp only [INPUT_BUF] at hb
    omega
  · exact fun he => congrArg _ he

theorem full_iff (h : Shows s L) : (s.nwrite - s.nread).toNat < INPUT_BUF ↔ ¬ L.Full := by
  have hb := h.bounds
  rw [h.ring.count lt, List.length_append]
  unfold Line.Full
  omega

/-- Erasing the last character of the line. -/
theorem erase {p : List (BitVec 8)} (h : Shows s L) (hp : L.pending = p ++ [c]) :
    Shows { s with toRing := s.takeBack } { L with pending := p } := by
  have hring := h.ring
  have htyped := h.typed
  rw [hp] at htyped
  rw [hp, ← List.append_assoc] at hring
  exact ⟨hring.takeBack (h.before.trans (List.prefix_append ..)), h.w, h.before,
    fun hm => htyped (List.mem_append_left _ hm)⟩

theorem last (h : Shows s L) {p : List (BitVec 8)} (hp : L.pending = p ++ [c]) : s.toRing.last INPUT_BUF = c := by
  have hring := h.ring
  rw [hp, ← List.append_assoc] at hring
  refine hring.last dvd ?_
  have := h.bounds.1
  rw [List.length_append]
  omega

/-- Kill-line erases the line. -/
theorem kill : ∀ (k : Nat) (s : Input) (L : Line), Shows s L → L.pending.length ≤ k →
    Shows (killLoop k s) { L with pending := [] }
  | 0, s, L, h, hk => by
    have hnil : L.pending = [] := List.length_eq_zero_iff.1 (Nat.le_zero.1 hk)
    rw [← hnil]
    exact h
  | k + 1, s, L, h, hk => by
    unfold killLoop
    rcases List.eq_nil_or_concat L.pending with hnil | ⟨p, c, hp⟩
    · rw [if_neg fun hc => hc.1 (h.w_eq_iff.2 hnil), ← hnil]
      exact h
    · rw [List.concat_eq_append] at hp
      have hne : L.pending ≠ [] := by
        rw [hp]
        exact List.append_ne_nil_of_right_ne_nil _ (List.cons_ne_nil _ _)
      have hc : s.toRing.last INPUT_BUF ≠ nl := by
        rw [h.last hp]
        rintro rfl
        exact h.typed (hp ▸ List.mem_append_right _ List.mem_cons_self)
      rw [if_pos ⟨fun he => hne (h.w_eq_iff.1 he), hc⟩]
      rw [hp, List.length_append, List.length_singleton] at hk
      exact kill k _ { L with pending := p } (h.erase hp) (Nat.le_of_succ_le_succ hk)

/-- A character at the end of the line. -/
theorem type (h : Shows s L) (hroom : ¬ L.Full) (c : BitVec 8) :
    Shows (if c = nl ∨ c = ctrlD ∨ (s.put INPUT_BUF c).nwrite = (s.put INPUT_BUF c).nread + BitVec.ofNat 32 INPUT_BUF
      then ⟨s.put INPUT_BUF c, (s.put INPUT_BUF c).nwrite⟩ else ⟨s.put INPUT_BUF c, s.w⟩) (L.type c) := by
  have hb := h.bounds
  have hput := h.ring.put dvd (by unfold Line.Full at hroom; rw [List.length_append]; omega) c
  rw [List.append_assoc] at hput
  have hfull := hput.full_iff lt
  rw [List.length_append] at hfull
  unfold Line.type
  dsimp only
  have hiff : (c = nl ∨ c = ctrlD ∨ (s.put INPUT_BUF c).nwrite =
      (s.put INPUT_BUF c).nread + BitVec.ofNat 32 INPUT_BUF) ↔
      (c = nl ∨ c = ctrlD ∨ ({ L with pending := L.pending ++ [c] } : Line).Full) :=
    or_congr_right (or_congr_right hfull)
  by_cases hc : c = nl ∨ c = ctrlD ∨ ({ L with pending := L.pending ++ [c] } : Line).Full
  · rw [if_pos (hiff.2 hc), if_pos hc]
    refine ⟨?_, ?_, h.before.trans (List.prefix_append ..), List.not_mem_nil⟩
    · rw [List.append_nil]
      exact hput
    · exact hput.nwrite
  · rw [if_neg fun hc' => hc (hiff.1 hc'), if_neg hc]
    refine ⟨hput, h.w, h.before, fun hm => ?_⟩
    rcases List.mem_append.1 hm with hm | hm
    · exact h.typed hm
    · exact hc (.inl (List.mem_singleton.1 hm).symm)

/-- `consoleintr` is `Line.key`. -/
theorem key (h : Shows s L) (c : BitVec 8) : Shows (consoleintr c s) (L.key c) := by
  have hb := h.bounds
  unfold consoleintr Line.key
  split
  · exact h
  split
  · refine kill _ s L h ?_
    rw [h.ring.nwrite, h.w, List.length_append, BitVec.ofNat_add, BitVec.add_comm, BitVec.add_sub_cancel,
      BitVec.toNat_ofNat]
    simp only [INPUT_BUF] at hb
    omega
  split
  · rcases List.eq_nil_or_concat L.pending with hnil | ⟨p, x, hp⟩
    · rw [if_neg fun hc => hc (h.w_eq_iff.2 hnil), hnil, List.dropLast_nil, ← hnil]
      exact h
    · rw [List.concat_eq_append] at hp
      have hne : L.pending ≠ [] := by
        rw [hp]
        exact List.append_ne_nil_of_right_ne_nil _ (List.cons_ne_nil _ _)
      rw [if_pos fun he => hne (h.w_eq_iff.1 he), show L.pending.dropLast = p by rw [hp, List.dropLast_concat]]
      exact h.erase hp
  · by_cases hc : c = 0 ∨ L.Full
    · rw [if_pos hc, if_neg fun hc' => hc.elim hc'.1 (h.full_iff.1 hc'.2)]
      exact h
    · rw [not_or] at hc
      rw [if_neg (not_or.2 hc), if_pos ⟨hc.1, h.full_iff.2 hc.2⟩]
      exact h.type hc.2 _

/-- The next character is the first committed one that was not taken. -/
theorem front (h : Shows s L) (hne : s.nread ≠ s.w) :
    L.taken ++ [s.front INPUT_BUF] <+: L.committed ∧
      Shows { s with toRing := s.drop } { L with taken := L.taken ++ [s.front INPUT_BUF] } := by
  have hb := h.bounds
  have hlen : L.taken.length ≠ L.committed.length := fun he => hne (h.r_eq_iff.2 he)
  have hdrop := h.ring.drop dvd (by rw [List.length_append]; omega)
  have hbefore : L.taken ++ [s.front INPUT_BUF] <+: L.committed := by
    refine List.prefix_of_prefix_length_le hdrop.before (List.prefix_append ..) ?_
    rw [List.length_append, List.length_singleton]
    omega
  exact ⟨hbefore, hdrop, h.w, hbefore, h.typed⟩

end Shows

/-! ## Runs -/

theorem Line.after_snoc (t : List Ev) (e : Ev) : Line.after (t ++ [e]) = (Line.after t).next e := by
  unfold Line.after
  rw [List.foldl_append]
  rfl

theorem handed_snoc (t : List Ev) (e : Ev) : handed (t ++ [e]) = handed t ++ handed [e] := List.filterMap_append

theorem got_snoc (p : Nat) (t : List Ev) (e : Ev) : got p (t ++ [e]) = match e with
    | .call q _ => if q = p then [] else got p t
    | .hand q c => if q = p then got p t ++ [c] else got p t
    | _ => got p t := by
  unfold got
  rw [List.foldl_append]
  cases e <;> rfl

/-- What holds after a trace. -/
structure Good (t : List Ev) (s : Sys) : Prop where
  shows : Shows s.input (Line.after t)
  handed : handed t = (Line.after t).taken.filter (· ≠ ctrlD)
  got : ∀ p rd, s.reader p = some rd → rd.n + (got p t).length = rd.target

theorem readChar_hand {s : Input} (n target : Nat) (h : s.front INPUT_BUF ≠ ctrlD) :
    readChar s n target = ({ s with toRing := s.drop }, some (s.front INPUT_BUF)) := if_neg h

theorem readChar_stop {s : Input} (n target : Nat) (h : s.front INPUT_BUF = ctrlD) :
    readChar s n target = (if n < target then s else { s with toRing := s.drop }, none) := by
  refine (if_pos h).trans (congrArg (·, none) ?_)
  split
  · -- The index goes back to where it was.
    unfold Ring.drop
    dsimp only
    rw [BitVec.add_sub_cancel]
  · rfl

theorem readChar_some {s i : Input} {n target : Nat} {c : BitVec 8} (h : readChar s n target = (i, some c)) :
    s.front INPUT_BUF = c ∧ c ≠ ctrlD ∧ i = { s with toRing := s.drop } := by
  by_cases hc : s.front INPUT_BUF = ctrlD
  · rw [readChar_stop n target hc] at h
    cases (Prod.mk.inj h).2
  · rw [readChar_hand n target hc] at h
    obtain ⟨hi, hc'⟩ := Prod.mk.inj h
    obtain rfl := Option.some.inj hc'
    exact ⟨rfl, hc, hi.symm⟩

theorem readChar_none {s i : Input} {n target : Nat} (h : readChar s n target = (i, none)) :
    s.front INPUT_BUF = ctrlD ∧ i = if n < target then s else { s with toRing := s.drop } := by
  by_cases hc : s.front INPUT_BUF = ctrlD
  · rw [readChar_stop n target hc] at h
    exact ⟨hc, (Prod.mk.inj h).1.symm⟩
  · rw [readChar_hand n target hc] at h
    cases (Prod.mk.inj h).2

/-- Every step keeps it. -/
theorem Good.step {t : List Ev} {s s' : Sys} {e : Ev} (h : Good t s) (hs : Step s e s') : Good (t ++ [e]) s' := by
  have hreader : ∀ {p : Nat} {x : Option Reading} {q : Nat} {rd : Reading},
      Function.update s.reader p x q = some rd → q = p ∧ x = some rd ∨ q ≠ p ∧ s.reader q = some rd := by
    intro p x q rd hq
    by_cases hqp : q = p
    · subst hqp
      rw [Function.update_self] at hq
      exact .inl ⟨rfl, hq⟩
    · rw [Function.update_of_ne hqp] at hq
      exact .inr ⟨hqp, hq⟩
  cases hs with
  | key c =>
    refine ⟨?_, ?_, fun p rd hp => ?_⟩
    · rw [Line.after_snoc]
      exact h.shows.key c
    · rw [handed_snoc, Line.after_snoc]
      refine (List.append_nil _).trans (h.handed.trans (congrArg _ ?_))
      exact (Line.key_taken _ c).symm
    · rw [got_snoc]
      exact h.got p rd hp
  | call hnone n =>
    refine ⟨by rw [Line.after_snoc]; exact h.shows, ?_, fun q rd hq => ?_⟩
    · rw [handed_snoc, Line.after_snoc]
      exact (List.append_nil _).trans h.handed
    · rw [got_snoc]
      dsimp only
      rcases hreader hq with ⟨rfl, hrd⟩ | ⟨hne, hrd⟩
      · obtain rfl := Option.some.inj hrd
        rw [if_pos rfl]
        rfl
      · rw [if_neg (Ne.symm hne)]
        exact h.got q rd hrd
  | @hand p n target i c hp hn hne hc =>
    obtain ⟨hfront, hcd, rfl⟩ := readChar_some hc
    have hshow := h.shows.front hne
    rw [hfront] at hshow
    refine ⟨?_, ?_, fun q rd hq => ?_⟩
    · rw [Line.after_snoc]
      exact hshow.2
    · rw [handed_snoc, Line.after_snoc, h.handed]
      change _ ++ [c] = ((Line.after t).taken ++ [c]).filter _
      rw [List.filter_append, List.filter_singleton, decide_eq_true hcd]
      rfl
    · rw [got_snoc]
      dsimp only
      rcases hreader hq with ⟨rfl, hrd⟩ | ⟨hqp, hrd⟩
      · obtain rfl := Option.some.inj hrd
        have := h.got q _ hp
        rw [if_pos rfl, List.length_append, List.length_singleton]
        dsimp only at this ⊢
        omega
      · rw [if_neg (Ne.symm hqp)]
        exact h.got q rd hrd
  | @stop p n target i hp hn hne hc =>
    obtain ⟨hfront, rfl⟩ := readChar_none hc
    have hshow := h.shows.front hne
    rw [hfront] at hshow
    refine ⟨?_, ?_, fun q rd hq => ?_⟩
    · rw [Line.after_snoc]
      by_cases hlt : n < target
      · rw [if_pos hlt, Line.next_kept (decide_eq_true hlt)]
        exact h.shows
      · rw [if_neg hlt, Line.next_dropped (decide_eq_false hlt)]
        exact hshow.2
    · rw [handed_snoc, Line.after_snoc, h.handed]
      refine (List.append_nil _).trans ?_
      by_cases hlt : n < target
      · rw [Line.next_kept (decide_eq_true hlt)]
      · rw [Line.next_dropped (decide_eq_false hlt)]
        dsimp only
        rw [List.filter_append]
        exact (List.append_nil _).symm
    · rw [got_snoc]
      rcases hreader hq with ⟨rfl, hrd⟩ | ⟨hqp, hrd⟩
      · obtain rfl := Option.some.inj hrd
        exact (h.got q _ hp : n + _ = target)
      · exact h.got q rd hrd
  | ret hp hend =>
    refine ⟨by rw [Line.after_snoc]; exact h.shows, ?_, fun q rd hq => ?_⟩
    · rw [handed_snoc, Line.after_snoc]
      exact (List.append_nil _).trans h.handed
    · rw [got_snoc]
      rcases hreader hq with ⟨-, hrd⟩ | ⟨-, hrd⟩
      · cases hrd
      · exact h.got q rd hrd
  | killed hp hn hr =>
    refine ⟨by rw [Line.after_snoc]; exact h.shows, ?_, fun q rd hq => ?_⟩
    · rw [handed_snoc, Line.after_snoc]
      exact (List.append_nil _).trans h.handed
    · rw [got_snoc]
      rcases hreader hq with ⟨-, hrd⟩ | ⟨-, hrd⟩
      · cases hrd
      · exact h.got q rd hrd

theorem Good.of_run {t : List Ev} {s : Sys} (h : Run Step start t s) : Good t s := by
  have hstart : Shows start.input ⟨[], [], []⟩ :=
    ⟨⟨List.prefix_rfl, Nat.zero_le _, rfl, rfl, fun _ _ h => absurd h (Nat.not_lt_zero _)⟩, rfl, List.prefix_rfl,
      List.not_mem_nil⟩
  exact h.trace Good.step ⟨hstart, rfl, fun p rd hp => nomatch hp⟩

/-- What readers see of the lines typed. -/
structure Delivers (t : List Ev) (s : Sys) (L : Line) : Prop where
  order : (s.input.w - s.input.nread).toNat ≤ (s.input.nwrite - s.input.nread).toNat ∧
    (s.input.nwrite - s.input.nread).toNat ≤ INPUT_BUF
  shows : Shows s.input L
  /-- Characters are handed out in order, each once; only a control-D is not. -/
  handed : L.taken <+: L.committed ∧ handed t = L.taken.filter (· ≠ ctrlD)
  /-- Erase and kill-line reach back to the last commit at most. -/
  edit : ∀ c, c = ctrlU ∨ c = ctrlH ∨ c = del → (L.key c).committed = L.committed ∧ (L.key c).taken = L.taken ∧
    (L.key c).pending <+: L.pending
  hand : ∀ p c s', Step s (.hand p c) s' → c ≠ ctrlD ∧ L.taken ++ [c] <+: L.committed
  /-- A control-D ends the read that meets it, and is kept when the read has data. -/
  stop : ∀ p kept s', Step s (.stop p kept) s' → L.taken ++ [ctrlD] <+: L.committed ∧
    (kept = true ↔ got p t ≠ []) ∧ (kept = true → s'.input = s.input) ∧
    ∃ n target, s'.reader p = some ⟨n, target, true⟩
  ret : ∀ p k s', Step s (.ret p k) s' → k = (got p t).length
  /-- A reader that wants more takes the next character. -/
  ready : ∀ p n target c, s.reader p = some ⟨n, target, false⟩ → 0 < n → L.taken ++ [c] <+: L.committed →
    ∃ s', if c = ctrlD then Step s (.stop p (decide (n < target))) s' else Step s (.hand p c) s'

theorem Shows.order {s : Input} {L : Line} (h : Shows s L) :
    (s.w - s.nread).toNat ≤ (s.nwrite - s.nread).toNat ∧ (s.nwrite - s.nread).toNat ≤ INPUT_BUF := by
  have hb := h.bounds
  have hcount := h.ring.count lt
  rw [List.length_append] at hcount
  have hw : (s.w - s.nread).toNat = L.committed.length - L.taken.length := by
    have hsub : s.w = s.nread + BitVec.ofNat 32 (L.committed.length - L.taken.length) := by
      rw [h.w, h.ring.nread, ← BitVec.ofNat_add, Nat.add_sub_cancel' hb.1]
    rw [hsub, BitVec.add_comm, BitVec.add_sub_cancel, BitVec.toNat_ofNat]
    exact Nat.mod_eq_of_lt (by simp only [INPUT_BUF] at hb; omega)
  omega

theorem Line.key_edit (L : Line) {c : BitVec 8} (hc : c = ctrlU ∨ c = ctrlH ∨ c = del) :
    (L.key c).committed = L.committed ∧ (L.key c).pending <+: L.pending := by
  rcases hc with rfl | rfl | rfl
  · exact ⟨rfl, List.nil_prefix⟩
  · exact ⟨rfl, List.dropLast_prefix _⟩
  · exact ⟨rfl, List.dropLast_prefix _⟩

/-- The line discipline: characters go out as they were committed. -/
theorem console_delivers {t : List Ev} {s : Sys} (h : Run Step start t s) : Delivers t s (Line.after t) := by
  have hg := Good.of_run h
  refine ⟨hg.shows.order, hg.shows, ⟨hg.shows.before, hg.handed⟩, fun c hc => ?_, ?_, ?_, ?_, ?_⟩
  · obtain ⟨hcom, hpend⟩ := (Line.after t).key_edit hc
    exact ⟨hcom, Line.key_taken _ c, hpend⟩
  · rintro p c s' (_ | _ | ⟨hp, hn, hne, hc⟩)
    obtain ⟨hfront, hcd, -⟩ := readChar_some hc
    exact ⟨hcd, hfront ▸ (hg.shows.front hne).1⟩
  · rintro p kept s' hs
    cases hs with
    | @stop _ n target i hp hn hne hc =>
      obtain ⟨hfront, hi⟩ := readChar_none hc
      have hgot := hg.got p _ hp
      dsimp only at hgot
      refine ⟨hfront ▸ (hg.shows.front hne).1, ?_, ?_, ?_⟩
      · rw [decide_eq_true_iff, Ne, ← List.length_eq_zero_iff]
        omega
      · intro hlt
        rw [hi, if_pos (of_decide_eq_true hlt)]
      · exact ⟨n, target, Function.update_self ..⟩
  · rintro p k s' hs
    cases hs with
    | ret hp hend =>
      have hgot := hg.got p _ hp
      dsimp only at hgot
      omega
  · intro p n target c hp hn hpre
    have hne : s.input.nread ≠ s.input.w := by
      intro he
      have := hpre.length_le
      rw [List.length_append, hg.shows.r_eq_iff.1 he, List.length_singleton] at this
      omega
    have hfront : s.input.front INPUT_BUF = c := by
      have hle := List.prefix_of_prefix_length_le (hg.shows.front hne).1 hpre (by simp)
      have happ := hle.eq_of_length (by simp)
      exact List.singleton_inj.1 (List.append_cancel_left happ)
    by_cases hc : c = ctrlD
    · have hread := readChar_stop n target (hfront.trans hc)
      have hstep := Step.stop hp hn hne hread
      exact ⟨_, (if_pos hc).mpr hstep⟩
    · have hread := readChar_hand n target (fun h => hc (hfront.symm.trans h))
      rw [hfront] at hread
      have hstep := Step.hand hp hn hne hread
      exact ⟨_, (if_neg hc).mpr hstep⟩

/-- The letter a and a control-D: the first read gets one character, and the control-D stays. -/
theorem console_delivers_a : ∃ s, Run Step start
    [.key 97, .key ctrlD, .call 0 5, .hand 0 97, .stop 0 true, .ret 0 1] s ∧
    Delivers [.key 97, .key ctrlD, .call 0 5, .hand 0 97, .stop 0 true, .ret 0 1] s
      ⟨[97, ctrlD], [97], []⟩ := by
  have htyped : Run Step start [.key 97, .key ctrlD, .call 0 5] _ :=
    .step (.key ..) (.step (.key ..) (.step (.call rfl 5) (.refl _)))
  have hhand := htyped.snoc (@Step.hand _ 0 5 5 _ _ rfl (by decide) (by decide)
    (readChar_hand 5 5 (by decide)))
  have hstop := hhand.snoc (@Step.stop _ 0 4 5 _ rfl (by decide) (by decide)
    (readChar_stop 4 5 (by decide)))
  have hret := hstop.snoc (@Step.ret _ 0 4 5 true rfl (.inl rfl))
  exact ⟨_, hret, console_delivers hret⟩

end Console

end Xv6
