import Xv6.Exec.Atomic
import Xv6.Proc.Invisible

/-!
# `exec` among the other operations

An `exec` that gives up early, or that starts an image of at most `MAX_PSYC_PAGES` pages, keeps the
kernel invariant: the caller has a new address space without holes, and nobody else sees anything.
-/

namespace Xv6

open Lib

/-! ## Whole memories -/

/-- Every page of `[PGSIZE, size)` is there and writable. -/
def Flat.Whole (a : Flat) : Prop := ∀ u, 1 ≤ u → u < pages a.size → ∃ user, a.view u = some ⟨user, true⟩

theorem Flat.Does.whole {a a' : Flat} {op : Op} {out : Out} (h : a.Does op out a')
    (hop : ∀ n : Word, op = .growproc n → (a.size : Int) + n.toInt ≠ 0) (ha : a.Whole) : a'.Whole := by
  cases h with
  | grew hm hn =>
    intro u h1 h2
    dsimp only [fillView] at h2 ⊢
    by_cases hin : pages a.size ≤ u
    · rw [if_pos ⟨hin, h2⟩]
      exact ⟨true, rfl⟩
    · rw [if_neg fun h => hin h.1]
      exact ha u h1 (Nat.lt_of_not_le hin)
  | shrank hm hn hpos =>
    intro u h1 h2
    dsimp only [fillView] at h2 ⊢
    rw [if_neg (by omega)]
    exact ha u h1 (lt_of_lt_of_le h2 (pages_mono (by omega)))
  | emptied hm => exact absurd hm (hop _ rfl)
  | _ => exact ha

/-- Memories stay whole as long as no process gives all its pages away. -/
theorem FlatStep.whole {A A' : Flats} {l : Label} (h : FlatStep A l A')
    (hl : ∀ (n : Word) (a : Flat), l.op = .growproc n → A l.slot = some a → (a.size : Int) + n.toInt ≠ 0)
    (hA : ∀ p a, A p = some a → a.Whole) : ∀ p a, A' p = some a → a.Whole := by
  have hset : ∀ {k x}, (∀ a, x = some a → a.Whole) →
      ∀ p a, Function.update A k x p = some a → a.Whole := fun {k x} hx p a hp => by
    by_cases e : p = k
    · rw [e, Function.update_self] at hp
      exact hx a hp
    · rw [Function.update_of_ne e] at hp
      exact hA p a hp
  cases h with
  | own hp hd => exact hset fun a ha => by cases ha; exact hd.whole (fun n hn => hl n _ hn hp) (hA _ _ hp)
  | noFork => exact hA
  | fork hp => exact hset fun a ha => by cases ha; exact hA _ _ hp
  | exit => exact hset fun a ha => by cases ha
  | wait => exact hA

/-! ## The invariant with a new address space -/

/-- The caller `c` exchanged its directory for `d`. -/
structure Replaces (c d : Nat) (s s' : Kernel) : Prop where
  cur : s'.cur = s.cur
  nextpid : s'.nextpid = s.nextpid
  other : ∀ p ≠ c, s'.proc p = s.proc p
  state : (s'.proc c).state = (s.proc c).state
  pid : (s'.proc c).pid = (s.proc c).pid
  pgdir : (s'.proc c).pgdir = d
  dirs : ∀ e ≠ (s.proc c).pgdir, e ≠ d → s'.dirs e = s.dirs e
  files : ∀ n ≠ (s.proc c).pid, s'.files n = s.files n
  cons : ∀ t ∈ s'.cons, t ∈ s.cons ∨ ∃ a b, t = restoreMsg a b

section

variable [Build] {E : String → Prop} {s s' s2 s4 : Kernel} {F : Nat → Nat → Nat → Byte} {c d p m n guard res sz : Nat}
  {L : List Nat} {img : Nat → Byte} {f : ProgFile} {file : Option ProgFile} {argv : List (List Byte)}

omit [Build] in
theorem Begun.replaces (h : Begun s c d s2) (hb : Builds c d L s2 s4) (hcom : Commits c d sz s4 s') :
    Replaces c d s s' := by
  obtain ⟨s1, hw, hr⟩ := h.steps
  obtain ⟨a, x, y, z, t, hq⟩ := hb.self
  have hself : s'.proc c = { s4.proc c with pgdir := d, sz := sz } := by
    rw [hcom.proc]
    exact Function.update_self _ _ _
  have hpid : (s4.proc c).pid = (s.proc c).pid := by
    rw [hq, hr.self, hw.proc]
    rfl
  have hpg : (s4.proc c).pgdir = (s.proc c).pgdir := by
    rw [hq, hr.self, hw.proc]
    rfl
  refine ⟨?_, ?_, fun p hp => ?_, ?_, ?_, by rw [hself], fun e he hd => ?_, fun k hk => ?_, fun t ht => ?_⟩
  · rw [hcom.cur, hb.cur, hr.cur, hw.cur]
  · rw [hcom.nextpid, hb.nextpid, hr.nextpid, hw.nextpid]
  · rw [hcom.proc, Function.update_of_ne hp, hb.other p hp, hr.other p hp, hw.proc]
  · rw [hself, hq, hr.self, hw.proc]
    rfl
  · rw [hself]
    exact hpid
  · rw [hcom.dirs e (by rwa [hpg]), hb.dirs e hd, hr.dirs e (by rwa [hw.proc]), hw.dirs e hd]
  · rw [hcom.files, hb.files, hr.files k (by rwa [hw.proc]), hw.files]
  · rw [hcom.cons, hb.cons] at ht
    have := hr.cons t ht
    rwa [hw.cons] at this

omit [Build] in
/-- The swap file of the caller. -/
theorem Begun.swapFile (h : Begun s c d s2) (hb : Builds c d L s2 s4) :
    ∃ g, s4.files (s4.proc c).pid = some g ∧ (s4.proc c).swapFile = true := by
  obtain ⟨s1, hw, hr⟩ := h.steps
  obtain ⟨a, x, y, z, t, hq⟩ := hb.self
  obtain ⟨g, hg⟩ := hr.file
  refine ⟨g, ?_, ?_⟩
  · rw [hb.files, hq, hr.self]
    exact hg
  · rw [hq, hr.self]
    rfl

/-- The pages of the other processes. -/
theorem Begun.frame {u : Nat} (h : Begun s c d s2) (hinv : Inv s Pend.none F) (hb : Builds c d s.freelist s2 s4)
    (hi : Image s4 c d m guard res s.freelist img) (hcom : Commits c d sz s4 s') (hrun : Running s c) (hp : p < NPROC)
    (hpc : p ≠ c) (ha : (s.proc p).state.active = true) (hu : u < NUSER)
    (hpte : has ((s.dirs (s.proc p).pgdir).pte u) PTE_P = true) :
    s'.mem (pageNo ((s.dirs (s.proc p).pgdir).pte u)) = s.mem (pageNo ((s.dirs (s.proc p).pgdir).pte u)) := by
  obtain ⟨s1, hw, hr⟩ := h.steps
  obtain ⟨a, x, y, z, t, hq⟩ := hb.self
  have hcounted := hinv.counted hp ha
  have hrunc := hinv.counted hrun.lt hrun.active
  have hproc : s4.proc p = s.proc p := by rw [hb.other p hpc, hr.other p hpc, hw.proc]
  have hpg : (s4.proc c).pgdir = (s.proc c).pgdir := by
    rw [hq, hr.self, hw.proc]
    rfl
  have hcounted4 : counted s4 (Pend.none.withDir d).skip p = true := by
    unfold counted at hcounted ⊢
    rwa [hproc]
  have hrunc4 : counted s4 (Pend.none.withDir d).skip c = true := by
    unfold counted at hrunc ⊢
    rw [hq, hr.self, hw.proc]
    exact hrunc
  have hned : (s.proc p).pgdir ≠ d := by
    rw [← hproc]
    exact hi.own.spare_ne hp hcounted4
  have hneo : (s.proc p).pgdir ≠ (s.proc c).pgdir := hinv.own.pgdir_ne hp hrun.lt hpc hcounted hrunc
  have hdir : s4.dirs (s.proc p).pgdir = s.dirs (s.proc p).pgdir := by
    rw [hb.dirs _ hned, hr.dirs _ (by rwa [hw.proc]), hw.dirs _ hned]
  have hwired : s1.mem = s.mem := funext fun g => by_contra fun hne => hw.mem g hne
  have hbuilt : s4.mem (pageNo ((s.dirs (s.proc p).pgdir).pte u)) =
      s.mem (pageNo ((s.dirs (s.proc p).pgdir).pte u)) := by
    by_contra hne
    rw [← hwired, ← hr.mem] at hne
    exact hinv.own.pte_ne hp hcounted hu hpte (.inl (hb.mem _ hne)) rfl
  rw [← hbuilt]
  by_contra hne
  have hfreed := hcom.mem _ hne
  have hpair := hi.own.pair_le hp hrun.lt hpc hcounted4 hrunc4 (pageNo ((s.dirs (s.proc p).pgdir).pte u))
  have hmine := dirCount_pte (s.proc p).pgdir hu hpte
  rw [hproc, hdir] at hpair
  omega

omit [Build] in
theorem debugStr_ne_errorStr (m m' : String) : debugStr m ≠ errorStr m' := by
  intro h
  have hlist := congrArg String.toList h
  unfold debugStr errorStr at hlist
  rw [String.toList_append, String.toList_append, String.toList_append, String.toList_append] at hlist
  cases congrArg (fun l : List Char => l[3]?) hlist

omit [Build] in
theorem restoreMsg_not_dirty (a b : Nat) : restoreMsg a b ∉ dirtyMsgs := by
  intro h
  rcases List.mem_cons.1 h with h | h
  · exact debugStr_ne_errorStr _ _ h
  · exact debugStr_ne_errorStr _ _ (List.mem_singleton.1 h)

/-- The invariant with a new address space for the running process. -/
theorem Inv.replace {G : Nat → Nat → Byte} (h : Inv s Pend.none F) (hr : Running s c) (hrep : Replaces c d s s')
    (hown : Own s' Pend.none)
    (hne : ∀ p < NPROC, p ≠ c → Xv6.counted s Pend.none.skip p = true → (s.proc p).pgdir ≠ d)
    (hmem : ∀ p < NPROC, p ≠ c → (s.proc p).state.active = true → ∀ u < NUSER,
      has ((s.dirs (s.proc p).pgdir).pte u) PTE_P = true →
      s'.mem (pageNo ((s.dirs (s.proc p).pgdir).pte u)) = s.mem (pageNo ((s.dirs (s.proc p).pgdir).pte u)))
    (hdir : DirOk (s'.dirs d))
    (hok : ProcOk (s'.proc c) (s'.dirs d) s'.mem (s'.files (s'.proc c).pid) G (fun _ => 0) 0) :
    Inv s' Pend.none (Function.update F c G) := by
  have hcc := h.counted hr.lt hr.active
  have hdirs : ∀ p < NPROC, p ≠ c → Xv6.counted s Pend.none.skip p = true →
      s'.dirs (s.proc p).pgdir = s.dirs (s.proc p).pgdir := fun p hp hpc hc =>
    hrep.dirs _ (h.own.pgdir_ne hp hr.lt hpc hc hcc) (hne p hp hpc hc)
  have hstate : ∀ p, (s'.proc p).state = (s.proc p).state := fun p => by
    by_cases e : p = c
    · rw [e]
      exact hrep.state
    · rw [hrep.other p e]
  have hpids : ∀ p, (s'.proc p).pid = (s.proc p).pid := fun p => by
    by_cases e : p = c
    · rw [e]
      exact hrep.pid
    · rw [hrep.other p e]
  have hcounted : ∀ p, Xv6.counted s' Pend.none.skip p = Xv6.counted s Pend.none.skip p := fun p => by
    unfold Xv6.counted
    rw [hstate]
  refine ⟨hown, fun p hp hc => ?_, fun p hp hc => ?_, fun p hp ha => ?_, fun p hp ha => ?_,
    fun p hp q hq ha hb => ?_, fun p hp ha => ?_, fun t ht => ?_⟩
  · rw [hcounted] at hc
    by_cases e : p = c
    · rw [e, hrep.pgdir]
      exact hdir
    · rw [hrep.other p e, hdirs p hp e hc]
      exact h.dirs p hp hc
  · rw [hcounted] at hc
    by_cases e : p = c
    · rw [e, hrep.pgdir]
      exact fun u hu hg => hok.agree.absent_of_paged hu hg
    · rw [hrep.other p e, hdirs p hp e hc]
      exact h.excl p hp hc
  · rw [show Pend.none.mapped = fun _ => 0 from rfl, show Pend.none.top = 0 from rfl, ite_self, ite_self]
    rw [hstate] at ha
    by_cases e : p = c
    · subst e
      rw [hrep.pgdir, Function.update_self]
      exact hok
    · have hold := h.procs p hp ha
      rw [show Pend.none.mapped = fun _ => 0 from rfl, show Pend.none.top = 0 from rfl, ite_self, ite_self] at hold
      rw [hrep.other p e, hdirs p hp e (h.counted hp ha), hrep.files _ (h.pids p hp c hr.lt ha hr.active e),
        Function.update_of_ne e]
      exact hold.of_mem fun u hu hpte => hmem p hp e ha u hu hpte
  · rw [hstate] at ha
    exact h.skip p hp ha
  · rw [hstate] at ha hb
    rw [hpids, hpids]
    exact h.pids p hp q hq ha hb
  · rw [hstate] at ha
    rw [hpids, hrep.nextpid]
    exact h.pidLt p hp ha
  · obtain ht | ⟨a, b, rfl⟩ := hrep.cons t ht
    · exact h.quiet t ht
    · exact restoreMsg_not_dirty a b

/-! ## One `exec` -/

/-- What holds of an `exec` before it starts if it is to leave the invariant alone: it gives up early, or
there are frames enough, the image fits in memory and the arguments fit in a page. -/
inductive Fine (s : Kernel) (argv : List (List Byte)) : Option ProgFile → Prop
  | givesUp {file : Option ProgFile} (h : GivesUp s file) : Fine s argv file
  | fits {f : ProgFile} {e : Nat} (hfree : PLENTY ≤ s.freelist.length) (hf : f.size ≤ MAXFILE * BSIZE)
      (hl : loads f = .fits e) (hargc : argv.length ≤ MAXARG) (hlen : ∀ arg ∈ argv, arg.length + 1 ≤ MAXSTR)
      (hroom : argRoom argv ≤ PGSIZE) : Fine s argv (some f)

/-- The memories of the processes after slot `c` has called `exec`. -/
def Execs (c : Nat) (A A' : Flats) : Prop := A' = A ∨ ∃ a : Flat, a.Whole ∧ A' = Function.update A c (some a)

theorem givesUp_inv (h : Inv s Pend.none F) (hr : Running s c) (hg : GivesUp s file) :
    wp (exec file argv) E (fun _ s' => Inv s' Pend.none F ∧ flats s' F = flats s F) s := by
  refine exec_givesUp_rule (h.caller hr) hg ⟨h, rfl⟩ ⟨h.print (by decide), rfl⟩ fun d s' hown htouch hne => ?_
  have hdirs : ∀ p < NPROC, counted s Pend.none.skip p = true →
      s'.dirs (s.proc p).pgdir = s.dirs (s.proc p).pgdir := fun p hp hc => htouch.dirs _ (hne p hp hc)
  refine ⟨h.unseen htouch.proc htouch.cur htouch.nextpid htouch.files (by rw [htouch.cons]; exact h.quiet) hdirs
    (fun g hg => .inl (htouch.mem g hg)) hown rfl rfl rfl, flats_congr (fun q => ?_) fun q hq => ?_⟩
  · unfold Active
    rw [htouch.proc]
  · unfold flat
    rw [htouch.proc, hdirs q hq.1 (h.counted hq.1 hq.2)]

/-- The process that runs the new image. -/
theorem Image.procOk {g : SwapFile} (hi : Image s4 c d m guard res L img) (hcom : Commits c d (m * PGSIZE) s4 s')
    (hlt : c < NPROC) (hlive : (s4.proc c).state.live = true) (hfile : (s4.proc c).swapFile = true)
    (hg : s4.files (s4.proc c).pid = some g) :
    ProcOk (s'.proc c) (s'.dirs d) s'.mem (s'.files (s'.proc c).pid) (fun u o => img (u * PGSIZE + o)) (fun _ => 0) 0 := by
  have hself : s'.proc c = { s4.proc c with pgdir := d, sz := m * PGSIZE } := by
    rw [hcom.proc]
    exact Function.update_self _ _ _
  have hholds := hcom.holds hi hlt hlive
  have hpg : (s'.proc c).pgdir = d := by rw [hself]
  have hpos := hi.pos
  have hdir := hcom.dir hi hlt hlive
  have hnone : ∀ i, has ((s'.proc c).vpaSwap i) SWAP_P = false := fun i => by
    rw [hself]
    change has ((s4.proc c).vpaSwap i) SWAP_P = false
    rw [hi.slots, has_zero]
  refine ⟨?_, fun u hu hm => ?_, ?_, ⟨g, ?_, ?_, fun i _ ht => ?_, fun i _ ht => ?_⟩, ?_⟩
  · have := hholds.agree
    rwa [hpg] at this
  · rw [hdir, hi.paged hu] at hm
    obtain hp | hp := hm
    · rw [hi.present hu] at hp
      obtain ⟨h1, h2⟩ := of_decide_eq_true hp
      rw [hself]
      exact ⟨h1, lt_of_lt_of_le (Nat.mul_lt_mul_of_pos_right h2 (by decide)) (le_max_left _ _)⟩
    · cases hp
  · rw [hself]
    exact hfile
  · rw [hcom.files, hself]
    exact hg
  · have := hholds.frames
    rwa [hpg] at this
  · rw [hnone] at ht
    cases ht
  · rw [hnone] at ht
    cases ht
  · rw [hself]
    have hcount := hi.size
    have htab := hi.agree.table.size
    simp only [MAX_PSYC_PAGES, PGSIZE, KERNBASE] at *
    omega

/-- A new image has all its pages. -/
theorem Image.whole {D : PageDir} {byte : Nat → Nat → Byte} (hi : Image s c d m guard res L img) (hD : D = s.dirs d) :
    (Flat.mk (m * PGSIZE) (userView D) byte).Whole := by
  intro u h1 h2
  have hm : u < m := by
    change u < pages (m * PGSIZE) at h2
    rwa [pages_mul] at h2
  obtain ⟨g, -, -, hpte⟩ := hi.page h1 hm
  obtain ⟨hp, -, -, hw⟩ := pageEntry_flags guard u g
  refine ⟨has (pageEntry guard u g) PTE_U, ?_⟩
  change userView D u = _
  rw [hD, userView_of_lt (hi.lt_user hm), PageDir.view, hpte, entryView_present hp, hw]

/-- The machine after an image was started. -/
theorem Begun.inv (h : Begun s c d s2) (hinv : Inv s Pend.none F) (hrun : Running s c)
    (hb : Builds c d s.freelist s2 s4) (hi : Image s4 c d m guard res s.freelist img) (hk : Kept s4 c)
    (hcom : Commits c d (m * PGSIZE) s4 s') (hown : Own s' Pend.none) :
    ∃ F', Inv s' Pend.none F' ∧ Execs c (flats s F) (flats s' F') := by
  have hact : (s'.proc c).state.active = true := by
    rw [(h.replaces hb hcom).state]
    exact hrun.active
  have hrep := h.replaces hb hcom
  have hsame : ∀ p, p ≠ c → s4.proc p = s.proc p := fun p hp => by
    rw [← hrep.other p hp, hcom.proc, Function.update_of_ne hp]
  have hne : ∀ p < NPROC, p ≠ c → Xv6.counted s Pend.none.skip p = true → (s.proc p).pgdir ≠ d :=
    fun p hp hpc hc => by
      rw [← hsame p hpc]
      refine hi.own.spare_ne hp ?_
      unfold counted at hc ⊢
      rwa [hsame p hpc]
  have hdir := hcom.dir hi hk.lt hk.live
  have hcc := hinv.counted hrun.lt hrun.active
  have hself : s'.proc c = { s4.proc c with pgdir := d, sz := m * PGSIZE } := by
    rw [hcom.proc]
    exact Function.update_self _ _ _
  obtain ⟨g, hg, hfile⟩ := h.swapFile hb
  refine ⟨_, hinv.replace hrun hrep hown hne
    (fun p hp hpc ha u hu hpte => h.frame hinv hb hi hcom hrun hp hpc ha hu hpte) (by rw [hdir]; exact hi.dir)
    (hi.procOk hcom hk.lt hk.live hfile hg), .inr ⟨_, ?_, flats_update (flats_active ⟨hrun.lt, hact⟩) ?_ ?_⟩⟩
  · unfold flat
    rw [hself]
    exact hi.whole hdir
  · intro q hq
    unfold Active
    rw [hrep.other q hq]
  · intro q hq ha
    unfold flat
    rw [hrep.other q hq, Function.update_of_ne hq, hrep.dirs _ (hinv.own.pgdir_ne ha.1 hrun.lt hq
      (hinv.counted ha.1 ha.2) hcc) (hne q ha.1 hq (hinv.counted ha.1 ha.2))]

theorem fits_inv {e : Nat} (hinv : Inv s Pend.none F) (hrun : Running s c) (hfree : PLENTY ≤ s.freelist.length)
    (hf : f.size ≤ MAXFILE * BSIZE) (hl : loads f = .fits e) (hargc : argv.length ≤ MAXARG)
    (hlen : ∀ arg ∈ argv, arg.length + 1 ≤ MAXSTR) (hroom : argRoom argv ≤ PGSIZE) :
    wp (exec (some f) argv) E (fun _ s' => ∃ F', Inv s' Pend.none F' ∧ Execs c (flats s F) (flats s' F')) s := by
  unfold exec execWith
  refine wp_seq (wp_post (loadFile_loads (hinv.caller hrun) hfree hf (fun _ _ _ _ _ _ _ _ _ _ => rfl)
    (by rw [hl]; exact nofun) (by rw [hl]; exact nofun)) ?_)
  rintro (_ | ⟨entry, slot, dir, sz⟩) s1 h1
  · rw [hl] at h1
    cases h1.1
  · obtain ⟨rfl, hk, m, -, rfl, hi, s2, hbegun, hbuilds⟩ := h1
    refine wp_post (hi.startImage hk hargc hlen entry) ?_
    rintro r s' ⟨hown, hres⟩
    rw [if_pos hroom] at hres
    obtain ⟨-, -, img, s3, hi3, hb3, hcom, -, -⟩ := hres
    have hk3 := hk.builds (hi.own.spare_ne hk.lt ((counted_none hk.lt).trans hk.live)) hb3
    exact hbegun.inv hinv hrun (hbuilds.trans hb3) hi3 hk3 hcom hown

theorem exec_inv (hinv : Inv s Pend.none F) (hrun : Running s c) (hfine : Fine s argv file) :
    wp (exec file argv) E (fun _ s' => ∃ F', Inv s' Pend.none F' ∧ Execs c (flats s F) (flats s' F')) s := by
  cases hfine with
  | givesUp hg => exact wp_post (givesUp_inv hinv hrun hg) fun _ _ h => ⟨F, h.1, .inl h.2⟩
  | fits hfree hf hl hargc hlen hroom => exact fits_inv hinv hrun hfree hf hl hargc hlen hroom

/-! ## Runs -/

/-- A turn of a process, or a turn in which it calls `exec`. -/
inductive Act where
  | turn (l : Label)
  | exec (p : Nat) (file : Option ProgFile) (argv : List (List Byte)) (r : Option Regs)

/-- What slot `p` does in its turn when it calls `exec`. -/
def execTurn (p : Nat) (file : Option ProgFile) (argv : List (List Byte)) : K (Option Regs) := do
  schedule p
  exec file argv

def ActStep (s : Kernel) : Act → Kernel → Prop
  | .turn l, s' => Step s l s'
  | .exec p file argv r, s' => Active s p ∧ execTurn p file argv s = .ok (r, s')

/-- No `growproc(-sz)`, and only `exec`s that give up early or start an image. -/
def Act.Fine (s : Kernel) : Act → Prop
  | .turn l => ∀ n : Word, l.op = .growproc n → ((s.proc l.slot).sz : Int) + n.toInt ≠ 0
  | .exec _ file argv _ => Xv6.Fine s argv file

/-- A step that meets the condition. -/
def FineStep (s : Kernel) (a : Act) (s' : Kernel) : Prop := a.Fine s ∧ ActStep s a s'

/-- Every process has a whole memory. -/
def WholeMem (s : Kernel) : Prop := ∃ F, Inv s Pend.none F ∧ ∀ p a, flats s F p = some a → a.Whole

omit [Build] in
theorem Fine.scheduled (h : Fine s argv file) (p : Nat) : Fine (s.scheduled p) argv file := by
  cases h with
  | givesUp hg =>
    refine .givesUp ?_
    cases file with
    | none => trivial
    | some f => exact hg
  | fits hfree hf hl hargc hlen hroom => exact .fits hfree hf hl hargc hlen hroom

theorem ActStep.whole {a : Act} (h : WholeMem s) (hf : a.Fine s) (hs : ActStep s a s') : WholeMem s' := by
  obtain ⟨F, hinv, hw⟩ := h
  cases a with
  | turn l =>
    obtain ⟨A', hstep, F', hinv', rfl⟩ := Step.sim ⟨F, hinv, rfl⟩ hs
    refine ⟨F', hinv', hstep.whole (fun n a hn ha => ?_) hw⟩
    obtain ⟨-, rfl⟩ := active_of_flats ha
    exact hf n hn
  | exec p file argv r =>
    obtain ⟨ha, hs⟩ := hs
    have hturn : wp (execTurn p file argv) (fun _ => False)
        (fun _ s' => ∃ F', Inv s' Pend.none F' ∧ Execs p (flats s F) (flats s' F')) s := by
      unfold execTurn
      refine wp_seq (schedule_wp hinv ha ?_)
      exact exec_inv (hinv.scheduled p) ha.running (Fine.scheduled hf p)
    obtain ⟨F', hinv', hexec⟩ := of_wp hturn hs
    refine ⟨F', hinv', ?_⟩
    obtain he | ⟨b, hb, he⟩ := hexec
    · rw [he]
      exact hw
    · rw [he]
      intro q a hq
      by_cases e : q = p
      · rw [e, Function.update_self] at hq
        cases hq
        exact hb
      · rw [Function.update_of_ne e] at hq
        exact hw q a hq

theorem wholeMem_of_run {t : List Act} (h : WholeMem s) (hrun : Run FineStep s t s') : WholeMem s' :=
  hrun.invariant (fun _ h hs => ActStep.whole h hs.1 hs.2) (fun _ _ => trivial) h

end

end Xv6
