import Xv6.Proc.Grow
import Xv6.Proc.Machine

/-!
# Flat memory

What a program should see of its memory: a size, which pages it has, and one byte per
address that changes when the program writes it. There are no frames, slots or resident
sets. `turn_sim` shows that every turn of the machine is a step of this abstract one: the
contents `F` of the kernel invariant are its bytes.
-/

namespace Xv6

open Lib

/-- The memory of one process as its program sees it. -/
structure Flat where
  size : Nat
  view : Nat → Option Perm
  byte : Nat → Nat → Byte

/-- A page of `[PGSIZE, size)` is missing. -/
def Flat.Hole (a : Flat) : Prop := ∃ u, 1 ≤ u ∧ u < pages a.size ∧ a.view u = none

/-- The page of an address. -/
def page (va : Word) : Nat := va.toNat / PGSIZE

/-- The offset of an address in its page. -/
def offset (va : Word) : Nat := va.toNat % PGSIZE

/-- The pages `[lo, hi)` become `x`. -/
def fillView (x : Option Perm) (lo hi : Nat) (v : Nat → Option Perm) : Nat → Option Perm :=
  fun u => if lo ≤ u ∧ u < hi then x else v u

/-- The pages `[lo, hi)` become zero. -/
def fillZero (lo hi : Nat) (f : Nat → Nat → Byte) : Nat → Nat → Byte :=
  fun u o => if lo ≤ u ∧ u < hi then 0 else f u o

/-- One byte changes. -/
def pokeByte (u o : Nat) (b : Byte) (f : Nat → Nat → Byte) : Nat → Nat → Byte :=
  Function.update f u (Function.update (f u) o b)

/-- What the process with memory `a` may do with its own memory. -/
inductive Flat.Does (a : Flat) : Op → Out → Flat → Prop
  | read {va : Word} {w : Bool} (h : a.view (page va) = some ⟨true, w⟩) :
      Does a (.read va) (.byte (a.byte (page va) (offset va))) a
  | readFault {va : Word} : Does a (.read va) .trapped a
  | write {va : Word} {b : Byte} (h : a.view (page va) = some ⟨true, true⟩) :
      Does a (.write va b) .done ⟨a.size, a.view, pokeByte (page va) (offset va) b a.byte⟩
  | writeFault {va : Word} {b : Byte} : Does a (.write va b) .trapped a
  | fault {va : Word} {r : Int} (h : r = 0 ∨ r = -1) : Does a (.fault va) (.ret r) a
  | tick : Does a .tick .done a
  | kept {n : Word} {r : Int}
      (h : r = 0 ∧ (n.toInt = 0 ∨ a.size + n.toInt < 0) ∨ r = -1 ∧ 0 < n.toInt) :
      Does a (.growproc n) (.ret r) a
  | grew {n : Word} {m : Nat} (hm : (m : Int) = a.size + n.toInt) (hn : 0 < n.toInt) :
      Does a (.growproc n) (.ret 0) ⟨m, fillView (some ⟨true, true⟩) (pages a.size) (pages m) a.view,
        fillZero (pages a.size) (pages m) a.byte⟩
  | shrank {n : Word} {m : Nat} (hm : (m : Int) = a.size + n.toInt) (hn : n.toInt < 0)
      (hpos : 0 < m) : Does a (.growproc n) (.ret 0)
        ⟨m, fillView none (pages m) (pages a.size) a.view, a.byte⟩
  /-- `growproc(-sz)` takes the pages away and reports an error. -/
  | emptied {n : Word} (hm : a.size + n.toInt = 0) : Does a (.growproc n) (.ret (-1))
        ⟨a.size, fillView none 0 (pages a.size) a.view, a.byte⟩

/-- The memories of the processes that can run, by slot. -/
abbrev Flats : Type := Nat → Option Flat

/-- A step of the abstract machine. Only the slot that has its turn and a new child change. -/
inductive FlatStep (A : Flats) : Label → Flats → Prop
  | own {p : Nat} {a a' : Flat} {op : Op} {out : Out} (hp : A p = some a) (h : a.Does op out a') :
      FlatStep A ⟨p, op, out⟩ (Function.update A p (some a'))
  | noFork {p : Nat} {a : Flat} (hp : A p = some a) : FlatStep A ⟨p, .fork, .ret (-1)⟩ A
  | fork {p k : Nat} {a : Flat} {pid : Int} (hp : A p = some a) (hk : A k = none) :
      FlatStep A ⟨p, .fork, .ret pid⟩ (Function.update A k (some a))
  | exit {p : Nat} {a : Flat} (hp : A p = some a) :
      FlatStep A ⟨p, .exit, .done⟩ (Function.update A p none)
  | wait {p : Nat} {a : Flat} {out : Out} (hp : A p = some a) : FlatStep A ⟨p, .wait, out⟩ A

/-- A turn leaves the memories of the other processes alone. -/
theorem FlatStep.other {A A' : Flats} {l : Label} (h : FlatStep A l A') {q : Nat} (hq : q ≠ l.slot)
    (ha : A q ≠ none) : A' q = A q := by
  cases h with
  | own => exact Function.update_of_ne hq _ _
  | noFork => rfl
  | fork _ hk =>
    refine Function.update_of_ne ?_ _ _
    rintro rfl
    exact ha hk
  | exit => exact Function.update_of_ne hq _ _
  | wait => rfl

/-- The turn took all pages of its process away. -/
def Label.Empties (l : Label) : Prop :=
  ∃ n : Word, l.op = .growproc n ∧ n.toInt < 0 ∧ l.out = .ret (-1)

theorem Flat.Does.noHole {a a' : Flat} {op : Op} {out : Out} {p : Nat} (h : a.Does op out a')
    (hl : ¬ (Label.mk p op out).Empties) (ha : ¬ a.Hole) : ¬ a'.Hole := by
  cases h with
  | grew hm hn =>
    rintro ⟨u, h1, h2, hv⟩
    dsimp only [fillView] at h2 hv
    split at hv
    · cases hv
    · exact ha ⟨u, h1, by omega, hv⟩
  | shrank hm hn hpos =>
    rintro ⟨u, h1, h2, hv⟩
    dsimp only [fillView] at h2 hv
    rw [if_neg (by omega)] at hv
    exact ha ⟨u, h1, lt_of_lt_of_le h2 (pages_mono (by omega)), hv⟩
  | @emptied n hm =>
    by_cases hn : n.toInt < 0
    · exact absurd ⟨n, rfl, hn, rfl⟩ hl
    · rintro ⟨u, h1, h2, -⟩
      have : a.size = 0 := by omega
      rw [show pages a.size = 0 by rw [this]; rfl] at h2
      omega
  | _ => exact ha

/-- No holes appear as long as no process gives all its pages away. -/
theorem FlatStep.noHole {A A' : Flats} {l : Label} (h : FlatStep A l A') (hl : ¬ l.Empties)
    (hA : ∀ p a, A p = some a → ¬ a.Hole) : ∀ p a, A' p = some a → ¬ a.Hole := by
  have hset : ∀ {k x}, (∀ a, x = some a → ¬ a.Hole) →
      ∀ p a, Function.update A k x p = some a → ¬ a.Hole := fun {k x} hx p a hp => by
    by_cases e : p = k
    · rw [e, Function.update_self] at hp
      exact hx a hp
    · rw [Function.update_of_ne e] at hp
      exact hA p a hp
  cases h with
  | own hp hd => exact hset fun a ha => by cases ha; exact hd.noHole hl (hA _ _ hp)
  | noFork => exact hA
  | fork hp => exact hset fun a ha => by cases ha; exact hA _ _ hp
  | exit => exact hset fun a ha => by cases ha
  | wait => exact hA

/-- What a turn of a process with memory `a` may stop the machine with: assertions on frames
that `kalloc` could not provide, `fork` of an address space with a hole, and `exit` of
`init`. -/
inductive Stops (a : Flat) : Op → String → Prop
  | table : Stops a .fork "newPte != 0"
  | buffer : Stops a .fork "(buff = kalloc()) != 0"
  | pte (h : a.Hole) : Stops a .fork "copyuvm: pte should exist"
  | absent (h : a.Hole) : Stops a .fork "copyuvm: page not present"
  | init : Stops a .exit "init exiting"

/-! ## The abstraction -/

/-- The user half of an address space. -/
def userView (D : PageDir) (u : Nat) : Option Perm := if u < NUSER then D.view u else none

theorem userView_of_lt {D : PageDir} {u : Nat} (h : u < NUSER) : userView D u = D.view u := if_pos h

theorem lt_of_userView {D : PageDir} {u : Nat} (h : userView D u ≠ none) : u < NUSER := by
  by_contra hc
  exact h (if_neg hc)

theorem SamePages.userView {D D' : PageDir} (h : SamePages D D') : userView D' = userView D := by
  funext u
  unfold Xv6.userView
  split
  · exact h u ‹_›
  · rfl

theorem Filled.userView {x : Option Perm} {lo hi : Nat} {D D' : PageDir} (h : Filled x lo hi D D')
    (hhi : hi ≤ NUSER) : userView D' = fillView x lo hi (userView D) := by
  funext u
  unfold fillView Xv6.userView
  by_cases hu : u < NUSER
  · rw [if_pos hu, if_pos hu, h u hu]
  · rw [if_neg hu, if_neg hu, if_neg (by omega)]

/-- The memory of slot `p`, whose pages hold `F p`. -/
def flat (s : Kernel) (F : Nat → Nat → Nat → Byte) (p : Nat) : Flat :=
  ⟨(s.proc p).sz, userView (s.dirs (s.proc p).pgdir), F p⟩

/-- The memories of the processes. -/
def flats (s : Kernel) (F : Nat → Nat → Nat → Byte) : Flats :=
  fun p => if Active s p then some (flat s F p) else none

section

variable {s s' : Kernel} {F F' : Nat → Nat → Nat → Byte} {c p : Nat}

theorem flats_active (h : Active s p) : flats s F p = some (flat s F p) := if_pos h

theorem flats_inactive (h : ¬ Active s p) : flats s F p = none := if_neg h

theorem active_of_flats {a : Flat} (h : flats s F p = some a) : Active s p ∧ a = flat s F p := by
  unfold flats at h
  split at h
  · cases h
    exact ⟨‹_›, rfl⟩
  · cases h

/-- The turn of slot `c` changed the memory of `c` only. -/
theorem flats_update {x : Option Flat} (hc : flats s' F' c = x)
    (hact : ∀ q ≠ c, Active s' q ↔ Active s q)
    (hflat : ∀ q ≠ c, Active s q → flat s' F' q = flat s F q) :
    flats s' F' = Function.update (flats s F) c x := by
  funext q
  by_cases e : q = c
  · rw [e, Function.update_self, hc]
  · rw [Function.update_of_ne e]
    unfold flats
    by_cases ha : Active s q
    · rw [if_pos ha, if_pos ((hact q e).2 ha), hflat q e ha]
    · rw [if_neg ha, if_neg fun h => ha ((hact q e).1 h)]

theorem flats_congr (hact : ∀ q, Active s' q ↔ Active s q)
    (hflat : ∀ q, Active s q → flat s' F' q = flat s F q) : flats s' F' = flats s F := by
  funext q
  unfold flats
  by_cases ha : Active s q
  · rw [if_pos ha, if_pos ((hact q).2 ha), hflat q ha]
  · rw [if_neg ha, if_neg fun h => ha ((hact q).1 h)]

theorem zeroed_self (F : Nat → Nat → Nat → Byte) (c lo hi : Nat) :
    zeroed F c lo hi c = fillZero lo hi (F c) := by
  funext u o
  unfold zeroed fillZero
  simp only [true_and]

theorem Local.running (h : Local c s s') (hr : Running s c) : Running s' c := by
  obtain ⟨q, n, ⟨a, m, k, hd, tl, rfl⟩, hq⟩ := h.self
  refine ⟨h.cur.trans hr.cur, hr.lt, ?_, ?_⟩ <;> rw [hq]
  · exact hr.active
  · exact h.cr3.trans hr.cr3

theorem Spared.active_iff (h : Spared s s')
    (hnew : (s'.proc p).state.live = true → (s.proc p).state.live = true) :
    Active s' p ↔ Active s p := by
  refine ⟨fun ⟨hp, ha⟩ => ⟨hp, ?_⟩, fun ⟨hp, ha⟩ => ⟨hp, ?_⟩⟩
  · rwa [h.proc p hp (hnew (ProcState.live_of_active ha))] at ha
  · rwa [h.proc p hp (ProcState.live_of_active ha)]

theorem Spared.flats (h : Spared s s') (hnew : NoneNew s s') : flats s' F = flats s F := by
  refine flats_congr (fun q => h.active_iff (hnew q)) fun q hq => ?_
  unfold flat
  rw [h.proc q hq.1 (ProcState.live_of_active hq.2), h.dirs q hq.1 (ProcState.live_of_active hq.2)]

theorem Waited.flats {k : Nat} (h : Waited k s s') : flats s' F = flats s F := by
  refine flats_congr (fun q => ?_) fun q hq => ?_
  · unfold Active
    by_cases e : q = k
    · rw [e, h.self, h.zombie]
      rfl
    · rw [h.other q e]
  · have hne : q ≠ k := by
      rintro rfl
      have := hq.2
      rw [h.zombie] at this
      cases this
    unfold flat
    rw [h.other q hne, h.dirs q hq.1 hne (ProcState.live_of_active hq.2)]

variable [Build]

theorem Local.flats (hl : Local c s s') (h : Inv s Pend.none F) (hr : Running s c)
    (hF : ∀ q ≠ c, F' q = F q) {m : Nat} (hm : (s'.proc c).sz = m) :
    flats s' F' = Function.update (flats s F) c
      (some ⟨m, userView (s'.dirs (s.proc c).pgdir), F' c⟩) := by
  obtain ⟨q, n, ⟨a, mem, k, hd, tl, rfl⟩, hq⟩ := hl.self
  refine flats_update ?_ (fun q hne => ?_) fun q hne ha => ?_
  · rw [flats_active ⟨hr.lt, by rw [hq]; exact hr.active⟩, flat, hm]
    rw [show (s'.proc c).pgdir = (s.proc c).pgdir by rw [hq]; rfl]
  · unfold Active
    rw [hl.other q hne]
  · unfold flat
    rw [hl.other q hne, hl.dirs _ (h.own.pgdir_ne ha.1 hr.lt hne (h.counted ha.1 ha.2)
      (h.counted hr.lt hr.active)), hF q hne]

/-- An operation on the memory of the running process alone. -/
theorem Local.flatStep {op : Op} {out : Out} {m : Nat} (hl : Local c s s') (h : Inv s Pend.none F)
    (hr : Running s c) (hF : ∀ q ≠ c, F' q = F q) (hm : (s'.proc c).sz = m)
    (hd : (flat s F c).Does op out ⟨m, userView (s'.dirs (s.proc c).pgdir), F' c⟩) :
    FlatStep (Xv6.flats s F) ⟨c, op, out⟩ (Xv6.flats s' F') := by
  rw [hl.flats h hr hF hm]
  exact .own (flats_active ⟨hr.lt, hr.active⟩) hd

/-- Paging is not visible. -/
theorem Paging.flats (hp : Paging c s s') (h : Inv s Pend.none F) (hr : Running s c)
    (hs : SamePages (s.dirs (s.proc c).pgdir) (s'.dirs (s.proc c).pgdir)) :
    Xv6.flats s' F = Xv6.flats s F := by
  rw [hp.toLocal.flats h hr (fun _ _ => rfl) (hp.fields c).1, hs.userView]
  exact Function.update_eq_self_iff.2 (flats_active ⟨hr.lt, hr.active⟩).symm

/-- An operation that no program notices. -/
theorem Paging.flatStep {op : Op} {out : Out} (hp : Paging c s s') (h : Inv s Pend.none F)
    (hr : Running s c) (hs : SamePages (s.dirs (s.proc c).pgdir) (s'.dirs (s.proc c).pgdir))
    (hd : (flat s F c).Does op out (flat s F c)) :
    FlatStep (Xv6.flats s F) ⟨c, op, out⟩ (Xv6.flats s' F) := by
  refine hp.toLocal.flatStep h hr (fun _ _ => rfl) (hp.fields c).1 ?_
  rw [hs.userView]
  exact hd

/-- A turn of slot `p` in `s` came to `s'`: the invariant holds and the abstract machine can
do the same. -/
def Sim (s : Kernel) (F : Nat → Nat → Nat → Byte) (p : Nat) (op : Op) (out : Out) (s' : Kernel) :
    Prop :=
  ∃ F', Inv s' Pend.none F' ∧ FlatStep (Xv6.flats s F) ⟨p, op, out⟩ (Xv6.flats s' F')

variable {E : String → Prop} {va : Word}

theorem read_sim (h : Inv s Pend.none F) (hr : Running s c) :
    wp (Op.run (.read va)) E (Sim s F c (.read va)) s := by
  refine wp_seq (wp_post (userRead_inv h hr va.isLt) ?_)
  rintro r s' ⟨h', hacc, hval, -⟩
  cases r with
  | none => exact ⟨F, h', hacc.paging.flatStep h hr hacc.pages .readFault⟩
  | some b =>
    obtain ⟨hu, ⟨w, hv⟩, rfl⟩ := hval b rfl
    refine ⟨F, h', hacc.paging.flatStep h hr hacc.pages (.read (w := w) ?_)⟩
    exact (userView_of_lt hu).trans hv

theorem write_sim {b : Byte} (h : Inv s Pend.none F) (hr : Running s c) :
    wp (Op.run (.write va b)) E (Sim s F c (.write va b)) s := by
  refine wp_seq (wp_post (userWrite_inv (b := b) h hr va.isLt) ?_)
  rintro r s' ⟨hacc, h', -⟩
  cases r with
  | false =>
    obtain rfl : s' = s := h'
    exact ⟨F, h, hacc.paging.flatStep h hr hacc.pages .writeFault⟩
  | true =>
    obtain ⟨h', hu, hv⟩ := h'
    refine ⟨_, h', hacc.paging.toLocal.flatStep h hr (fun q hq => Function.update_of_ne hq _ _)
      (hacc.paging.fields c).1 ?_⟩
    rw [hacc.pages.userView, poke, Function.update_self]
    exact .write ((userView_of_lt hu).trans hv)

theorem fault_sim (h : Inv s Pend.none F) (hr : Running s c) :
    wp (Op.run (.fault va)) E (Sim s F c (.fault va)) s := by
  refine wp_seq (wp_post (recoverPageFault_inv h hr va.isLt) ?_)
  rintro r s' ⟨h', hf⟩
  exact ⟨F, h', hf.paging.flatStep h hr hf.pages (.fault hf.ret)⟩

theorem tick_sim (h : Inv s Pend.none F) (hr : Running s c) :
    wp (Op.run .tick) E (Sim s F c .tick) s := by
  refine wp_seq (wp_post (timerTick_inv h hr) ?_)
  rintro _ s' ⟨h', hp, hs, -⟩
  exact ⟨F, h', hp.flatStep h hr hs .tick⟩

theorem growproc_sim {n : Word} (h : Inv s Pend.none F) (hr : Running s c) :
    wp (Op.run (.growproc n)) E (Sim s F c (.growproc n)) s := by
  have hlo := BitVec.le_toInt n
  have hhi := BitVec.toInt_lt (x := n)
  have hsz := (h.self hr).size
  refine wp_seq (wp_post (growproc_inv h hr hlo hhi) ?_)
  rintro r s' ⟨hl, F', h', hg⟩
  refine ⟨F', h', ?_⟩
  cases hg with
  | kept ret size same =>
    refine hl.flatStep h hr (fun _ _ => rfl) size ?_
    rw [same.userView]
    exact .kept ret
  | grew hm hn size fresh =>
    have hlt := size ▸ (h'.self (hl.running hr)).size.2
    refine hl.flatStep h hr (fun q hq => ?_) size ?_
    · funext u o
      exact if_neg fun hc => hq hc.1
    · rw [fresh.userView (pages_le hlt.le), zeroed_self]
      exact .grew hm hn
  | shrank hm hn hpos size gone =>
    refine hl.flatStep h hr (fun _ _ => rfl) size ?_
    rw [gone.userView (pages_le hsz.2.le)]
    exact .shrank hm hn hpos
  | emptied hm size gone =>
    refine hl.flatStep h hr (fun _ _ => rfl) size ?_
    rw [gone.userView (pages_le hsz.2.le)]
    exact .emptied hm

theorem fork_sim (h : Inv s Pend.none F) (hr : Running s c)
    (hE : ∀ m, Stops (flat s F c) .fork m → E m) : wp (Op.run .fork) E (Sim s F c .fork) s := by
  have ha : Active s c := ⟨hr.lt, hr.active⟩
  refine wp_seq (wp_post (fork_inv h hr (hE _ .table) (hE _ .buffer) fun u h1 h2 hv => ?_) ?_)
  · have hole : (flat s F c).Hole :=
      ⟨u, h1, h2, by rw [← hv]; exact userView_of_lt (h2.trans_le (pages_le (h.self hr).size.2.le))⟩
    exact ⟨hE _ (.pte hole), hE _ (.absent hole)⟩
  rintro r s' ⟨F', h', hf⟩
  refine ⟨F', h', ?_⟩
  cases hf with
  | failed spared noneNew =>
    rw [spared.flats noneNew]
    exact .noFork (flats_active ha)
  | @child k lt free spared others state size parent same =>
    have hk : ¬ Active s k := fun hk => by
      have := hk.2
      rw [free] at this
      cases this
    rw [show Xv6.flats s' (Function.update F k (F c)) =
      Function.update (Xv6.flats s F) k (some (flat s F c)) from ?_]
    · exact .fork (flats_active ha) (flats_inactive hk)
    refine flats_update ?_ (fun q hne => ?_) fun q hne hq => ?_
    · rw [flats_active ⟨lt, by rw [state]; rfl⟩]
      unfold flat
      rw [size, same.userView, Function.update_self]
    · exact spared.active_iff (others q hne)
    · unfold flat
      rw [spared.proc q hq.1 (ProcState.live_of_active hq.2),
        spared.dirs q hq.1 (ProcState.live_of_active hq.2), Function.update_of_ne hne]

theorem exit_sim (h : Inv s Pend.none F) (hr : Running s c)
    (hE : ∀ m, Stops (flat s F c) .exit m → E m) : wp (Op.run .exit) E (Sim s F c .exit) s := by
  refine wp_seq (wp_post (exit_inv h hr (hE _ .init)) ?_)
  rintro _ s' ⟨h', hx⟩
  refine ⟨F, h', ?_⟩
  rw [show Xv6.flats s' F = Function.update (Xv6.flats s F) c none from ?_]
  · exact .exit (flats_active ⟨hr.lt, hr.active⟩)
  refine flats_update (flats_inactive ?_) (fun q hne => ?_) fun q hne _ => ?_
  · rintro ⟨-, hc⟩
    rw [hx.self] at hc
    cases hc
  · obtain ⟨t, ht⟩ := hx.other q hne
    unfold Active
    rw [ht]
  · obtain ⟨t, ht⟩ := hx.other q hne
    unfold flat
    rw [ht, hx.dirs]

theorem wait_sim (h : Inv s Pend.none F) (hr : Running s c) :
    wp (Op.run .wait) E (Sim s F c .wait) s := by
  have ha : Active s c := ⟨hr.lt, hr.active⟩
  refine wp_seq (wp_post (wait_inv h) ?_)
  rintro r s' ⟨h', hw⟩
  have hflats : Xv6.flats s' F = Xv6.flats s F := by
    obtain rfl | ⟨k, hk⟩ := hw
    · rfl
    · exact hk.flats
  have hstep : ∀ out, FlatStep (Xv6.flats s F) ⟨c, .wait, out⟩ (Xv6.flats s' F) := fun out => by
    rw [hflats]
    exact .wait (flats_active ha)
  cases r <;> exact ⟨F, h', hstep _⟩

/-- Every turn keeps the invariant and is a step of the abstract machine. -/
theorem turn_sim (op : Op) (h : Inv s Pend.none F) (ha : Active s p)
    (hE : ∀ m, Stops (flat s F p) op m → E m) : wp (turn p op) E (Sim s F p op) s := by
  have h' := h.scheduled p
  have hr := ha.running
  refine turn_wp h ha ?_
  cases op with
  | read va => exact read_sim h' hr
  | write va b => exact write_sim h' hr
  | fault va => exact fault_sim h' hr
  | growproc n => exact growproc_sim h' hr
  | fork => exact fork_sim h' hr hE
  | exit => exact exit_sim h' hr hE
  | wait => exact wait_sim h' hr
  | tick => exact tick_sim h' hr

theorem reachable_inv {t : List Label} (h : Inv s Pend.none F) (hrun : Run Step s t s') :
    ∃ F', Inv s' Pend.none F' := by
  refine hrun.invariant (I := fun s => ∃ F, Inv s Pend.none F) (C := fun _ => True)
    (fun {s l s'} _ hs hl => ?_) (fun _ _ => trivial) ⟨F, h⟩
  obtain ⟨F, h⟩ := hs
  obtain ⟨F', h', -⟩ := of_wp (turn_sim (E := fun _ => True) l.op h hl.1 fun _ _ => trivial) hl.2
  exact ⟨F', h'⟩

end

end Xv6
