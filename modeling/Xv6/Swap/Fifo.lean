import Xv6.Lib.Run
import Xv6.Swap.Effect
import Xv6.Swap.Init
import Xv6.Vm.Small

/-!
# The ring of `FIFO_SWAP` is a queue

`linkOrder t` reads off a trace which pages were linked and not taken out since, in the order in
which they were linked. The ring from `q_head` on is that list, through pushes, evictions and
removals from the middle. The steps are the calls of one process, and between them anything that
leaves its tables alone.
-/

namespace Xv6

open Lib

/-- A call on the tables of a process. -/
inductive FifoEvent where
  /-- `linkNewPage` entered `a`; `out` is the page it moved to the swap file. -/
  | link (a : Nat) (out : Option Nat)
  /-- `linkNewPage` returned `-1`. -/
  | full (a : Nat)
  | moveFrom (a : Nat)
  | unlink (a : Nat)
  | other
  deriving DecidableEq

namespace FifoEvent

/-- `a` is no longer resident after the event. -/
def removes (e : FifoEvent) (a : Nat) : Bool :=
  match e with
  | link _ out => out == some a
  | unlink b => b == a
  | _ => false

/-- The page the event links. -/
def linked : FifoEvent → Option Nat
  | link a _ => some a
  | _ => none

def links (a : Nat) (e : FifoEvent) : Bool := e.linked == some a

end FifoEvent

open FifoEvent

/-- The pages linked in `t` and not taken out later, in the order in which they were linked. -/
def linkOrder : List FifoEvent → List Nat
  | [] => []
  | e :: t =>
    match e.linked with
    | some a => if t.any fun e => e.removes a then linkOrder t else a :: linkOrder t
    | none => linkOrder t

theorem linkOrder_snoc (t : List FifoEvent) (e : FifoEvent) :
    linkOrder (t ++ [e]) = (linkOrder t).filter (fun a => !e.removes a) ++ e.linked.toList := by
  induction t with
  | nil =>
    cases he : e.linked <;> simp [linkOrder, he]
  | cons d t ih =>
    rw [List.cons_append, linkOrder, linkOrder, ih]
    cases d.linked with
    | none => rfl
    | some a =>
      simp only [List.any_append, List.any_cons, List.any_nil, Bool.or_false]
      cases h1 : t.any fun e => e.removes a <;> cases h2 : e.removes a <;> simp [h2]

/-- When a page was last linked. -/
def linkedAt (t : List FifoEvent) (a : Nat) : Nat := lastAt (links a) t

/-- The page that entered the swap table. -/
def movedOut (q q' : Proc) : Option Nat :=
  ((List.range MAX_SWAP_PAGES).find? fun i =>
    !has (q.vpaSwap i) SWAP_P && has (q'.vpaSwap i) SWAP_P).map fun i => entryAddr (q'.vpaSwap i)

theorem movedOut_same {q q' : Proc} (h : q'.vpaSwap = q.vpaSwap) : movedOut q q' = none := by
  unfold movedOut
  rw [List.find?_eq_none.2 fun i _ => ?_]
  · rfl
  · rw [h]
    cases has (q.vpaSwap i) SWAP_P <;> decide

theorem movedOut_fill {q q' : Proc} {i : Nat} {w : Word} (hi : i < MAX_SWAP_PAGES)
    (hfree : has (q.vpaSwap i) SWAP_P = false)
    (h : q'.vpaSwap = (q.fillSlot i (pageNo w)).vpaSwap) : movedOut q q' = some (entryAddr w) := by
  have hlt := pageNo_lt w
  have hslot := slotEntry (a := pageNo w * PGSIZE) (Nat.mul_mod_left _ _) (by simp only [PGSIZE]; omega)
  have hi' : has (q'.vpaSwap i) SWAP_P = true ∧ entryAddr (q'.vpaSwap i) = entryAddr w := by
    rw [h, entryAddr_eq w]
    simp only [Proc.fillSlot, Function.update_self]
    exact hslot
  have hfind : (List.range MAX_SWAP_PAGES).find? (fun i =>
      !has (q.vpaSwap i) SWAP_P && has (q'.vpaSwap i) SWAP_P) = some i := by
    refine List.find?_range_eq_some.2 ⟨?_, List.mem_range.2 hi, fun j hj => ?_⟩
    · rw [hfree, hi'.1]
      rfl
    · rw [h]
      simp only [Proc.fillSlot, Function.update_of_ne (Nat.ne_of_lt hj)]
      cases has (q.vpaSwap j) SWAP_P <;> rfl
  unfold movedOut
  rw [hfind, Option.map_some, hi'.2]

/-! ## Steps -/

/-- The tables of two processes are the same. -/
def SameTables (q q' : Proc) : Prop :=
  q'.vpaSwap = q.vpaSwap ∧ q'.vpaMemory = q.vpaMemory ∧ q'.sizeMem = q.sizeMem ∧
    q'.qHead = q.qHead ∧ q'.qTail = q.qTail

section

variable [Build]

/-- A call of process `p`, or something else that leaves its tables alone. A page is linked only
when it is not, and the write of a page that is evicted succeeds. -/
inductive FifoStep (p : Nat) : Kernel → FifoEvent → Kernel → Prop
  | link {s s' : Kernel} {a : Nat} (ha : a % PGSIZE = 0) (hlt : a < 2 ^ 32)
      (hnew : a ∉ resident (s.proc p) ∧ swapSlot (s.proc p) a = none)
      (h : linkNewPage p a s = .ok (0, s'))
      (hout : (s.proc p).sizeMem = MAX_PSYC_PAGES → movedOut (s.proc p) (s'.proc p) ≠ none) :
      FifoStep p s (.link a (movedOut (s.proc p) (s'.proc p))) s'
  | full {s s' : Kernel} {a : Nat} (h : linkNewPage p a s = .ok (-1, s')) : FifoStep p s (.full a) s'
  | moveFrom {s s' : Kernel} {a mem : Nat} {r : Int} (h : moveFromSwap p a mem s = .ok (r, s')) :
      FifoStep p s (.moveFrom a) s'
  | unlink {s s' : Kernel} {a : Nat} {r : Int} (h : unlinkPage p a s = .ok (r, s')) :
      FifoStep p s (.unlink a) s'
  | other {s s' : Kernel} (h : SameTables (s.proc p) (s'.proc p)) : FifoStep p s .other s'

/-- The ring holds what the trace says. -/
structure RingHolds (q : Proc) (t : List FifoEvent) : Prop where
  table : TableOk q
  order : resident q = linkOrder t
  sorted : (linkOrder t).Pairwise fun a b => linkedAt t a < linkedAt t b

variable {s s' : Kernel} {q q' : Proc} {t : List FifoEvent} {e : FifoEvent} {p a : Nat}

namespace RingHolds

theorem nodup (h : RingHolds q t) : (resident q).Nodup := by
  rw [h.order]
  exact h.sorted.imp fun hlt he => absurd (he ▸ hlt) (Nat.lt_irrefl _)

/-- The link times stay sorted when pages leave and the page that is linked comes last. -/
theorem sorted_snoc (h : RingHolds q t) (hnew : ∀ a, e.linked = some a → a ∉ resident q) :
    (linkOrder (t ++ [e])).Pairwise fun a b => linkedAt (t ++ [e]) a < linkedAt (t ++ [e]) b := by
  have hkeep : ∀ b ∈ linkOrder t, linkedAt (t ++ [e]) b = linkedAt t b := by
    intro b hb
    unfold linkedAt
    rw [lastAt_snoc, if_neg]
    intro hl
    exact hnew b (beq_iff_eq.1 hl) (h.order ▸ hb)
  rw [linkOrder_snoc, List.pairwise_append]
  refine ⟨?_, ?_, fun b hb c hc => ?_⟩
  · refine (h.sorted.filter _).imp_of_mem fun hb hc hlt => ?_
    rwa [hkeep _ (List.mem_filter.1 hb).1, hkeep _ (List.mem_filter.1 hc).1]
  · cases e.linked with
    | none => exact List.Pairwise.nil
    | some a => exact List.pairwise_singleton _ _
  · rw [Option.mem_toList] at hc
    rw [hkeep b (List.mem_filter.1 hb).1]
    have hc' : linkedAt (t ++ [e]) c = t.length + 1 := by
      unfold linkedAt
      rw [lastAt_snoc]
      exact if_pos (beq_iff_eq.2 hc)
    rw [hc']
    exact Nat.lt_succ_of_le (lastAt_le _ _)

theorem same (h : RingHolds q t) (hs : q'.vpaMemory = q.vpaMemory ∧ q'.sizeMem = q.sizeMem ∧
      q'.qHead = q.qHead ∧ q'.qTail = q.qTail) (hl : e.linked = none)
    (hr : ∀ a ∈ resident q, e.removes a = false) : RingHolds q' (t ++ [e]) := by
  obtain ⟨h1, h2, h3, h4⟩ := hs
  refine ⟨⟨?_, ?_⟩, ?_, h.sorted_snoc fun a ha => by rw [hl] at ha; cases ha⟩
  · rw [h2]
    exact h.table.size
  · rw [h2, h3, h4]
    exact h.table.ring
  · rw [resident_congr h1 h2 h3, linkOrder_snoc, hl, ← h.order, Option.toList_none, List.append_nil]
    exact (List.filter_eq_self.2 fun a ha => by rw [hr a ha]; rfl).symm

theorem push (h : RingHolds q t) (hn : q.sizeMem < MAX_PSYC_PAGES) (ha : a % PGSIZE = 0)
    (hlt : a < 2 ^ 32) (hnew : a ∉ resident q) :
    RingHolds (pushMemory q a) (t ++ [.link a none]) := by
  refine ⟨h.table.push hn, ?_, h.sorted_snoc fun b hb => ?_⟩
  · rw [resident_push h.table hn ha hlt, linkOrder_snoc, ← h.order]
    congr 1
    exact (List.filter_eq_self.2 fun _ _ => rfl).symm
  · cases hb
    exact hnew

/-- An eviction takes the page that was linked longest ago. -/
theorem evict {i : Nat} (hpol : Build.policy = .fifo) (h : RingHolds q t)
    (hn : q.sizeMem = MAX_PSYC_PAGES) (ha : a % PGSIZE = 0) (hlt : a < 2 ^ 32)
    (hnew : a ∉ resident q)
    (hq' : q' = replaceMemory (q.fillSlot i (pageNo (q.vpaMemory q.qHead))) q.qHead a) :
    (linkOrder t).head? = some (entryAddr (q.vpaMemory q.qHead)) ∧
      RingHolds q' (t ++ [.link a (some (entryAddr (q.vpaMemory q.qHead)))]) := by
  obtain ⟨w, hw⟩ : ∃ w, w = q.fillSlot i (pageNo (q.vpaMemory q.qHead)) := ⟨_, rfl⟩
  have hwt : TableOk w := by
    rw [hw]
    exact ⟨h.table.size, h.table.ring⟩
  have hwr : resident w = resident q := by
    rw [hw]
    exact resident_congr rfl rfl rfl
  obtain ⟨l, h1, h2⟩ := resident_replace_fifo w.qHead hpol hwt (by rw [hw]; exact hn) ha hlt
  have hhead : w.qHead = q.qHead ∧ w.vpaMemory = q.vpaMemory := by
    rw [hw]
    exact ⟨rfl, rfl⟩
  rw [hwr, hhead.1, hhead.2] at h1
  rw [hhead.1] at h2
  rw [← hw] at hq'
  have hnd := h.nodup
  rw [h1] at hnd
  have hfilter : (resident q).filter (fun b => !(FifoEvent.link a
      (some (entryAddr (q.vpaMemory q.qHead)))).removes b) = l := by
    rw [h1, List.filter_cons_of_neg (by simp [removes])]
    refine List.filter_eq_self.2 fun b hb => ?_
    have : entryAddr (q.vpaMemory q.qHead) ≠ b := fun he => (List.nodup_cons.1 hnd).1 (he ▸ hb)
    simpa [removes] using this
  refine ⟨by rw [← h.order, h1]; rfl, ?_, ?_, h.sorted_snoc fun b hb => ?_⟩
  · rw [hq']
    exact hwt.replace (by rw [hw]; exact hn)
  · rw [hq', h2, linkOrder_snoc, ← h.order, hfilter]
    rfl
  · cases hb
    exact hnew

theorem unlink (hpol : Build.policy = .fifo) (h : RingHolds q t) (ha : a % PGSIZE = 0) :
    ∃ r q', unlinkTables q a = .ok (r, q') ∧ RingHolds q' (t ++ [.unlink a]) := by
  unfold unlinkTables
  rw [if_neg (not_not.2 ha)]
  by_cases hm : a ∈ resident q
  · obtain ⟨m, b, hun, htab, hres⟩ := unlinkMemory_fifo hpol h.table hm
    rw [hun]
    refine ⟨0, _, rfl, htab, ?_, h.sorted_snoc fun b hb => by cases hb⟩
    rw [hres, linkOrder_snoc, ← h.order, h.nodup.erase_eq_filter]
    change _ = _ ++ []
    rw [List.append_nil]
    refine List.filter_congr fun b _ => ?_
    simp only [removes, bne]
    rw [Bool.beq_comm]
  · rw [unlinkMemory_none h.table hm]
    have hkeep : ∀ b ∈ resident q, (FifoEvent.unlink a).removes b = false := fun b hb => by
      have : a ≠ b := fun he => hm (he ▸ hb)
      simpa [removes] using this
    dsimp only
    split
    · exact ⟨0, _, rfl, h.same ⟨rfl, rfl, rfl, rfl⟩ rfl hkeep⟩
    · exact ⟨-1, q, rfl, h.same ⟨rfl, rfl, rfl, rfl⟩ rfl hkeep⟩

theorem link (hpol : Build.policy = .fifo) (h : RingHolds (s.proc p) t) (ha : a % PGSIZE = 0)
    (hlt : a < 2 ^ 32) (hnew : a ∉ resident (s.proc p)) (hres : LinkResult p a s 0 s')
    (hout : (s.proc p).sizeMem = MAX_PSYC_PAGES → movedOut (s.proc p) (s'.proc p) ≠ none) :
    RingHolds (s'.proc p) (t ++ [.link a (movedOut (s.proc p) (s'.proc p))]) ∧
      ∀ b, movedOut (s.proc p) (s'.proc p) = some b → (linkOrder t).head? = some b := by
  cases hres with
  | pushed hn =>
    have hself : (s.setProc p (pushMemory (s.proc p) a)).proc p = pushMemory (s.proc p) a :=
      Function.update_self _ _ _
    obtain ⟨m, n, b, c, hpush⟩ := pushMemory_eq (s.proc p) a
    rw [hself, movedOut_same (by rw [hpush]; rfl)]
    exact ⟨h.push (lt_of_le_of_ne h.table.size hn) ha hlt hnew, fun b hb => by cases hb⟩
  | @replaced idx i u hn hfree hv hmoved =>
    obtain ⟨hi, hslot, -⟩ := getFreeSwapPageIndex_some hfree
    obtain rfl : idx = (s.proc p).qHead := by
      unfold Victim at hv
      rwa [hpol] at hv
    have hself : (u.setProc p (replaceMemory (u.proc p) (s.proc p).qHead a)).proc p =
        replaceMemory ((s.proc p).fillSlot i (pageNo ((s.proc p).vpaMemory (s.proc p).qHead)))
          (s.proc p).qHead a := by
      rw [hmoved.proc, Function.update_self]
      exact Function.update_self _ _ _
    obtain ⟨m, b, c, hrep⟩ := replaceMemory_eq
      ((s.proc p).fillSlot i (pageNo ((s.proc p).vpaMemory (s.proc p).qHead))) (s.proc p).qHead a
    obtain ⟨hhead, hholds⟩ := h.evict hpol hn ha hlt hnew hself
    rw [movedOut_fill hi hslot (by rw [hself, hrep]; rfl)]
    exact ⟨hholds, fun b hb => hb ▸ hhead⟩
  | @lost i u _ hn hfree hmoved =>
    -- the page was not written: excluded
    refine absurd (movedOut_same ?_) (hout hn)
    obtain ⟨m, b, c, hrep⟩ := replaceMemory_eq (u.proc p) (u.proc p).qHead a
    have hself : (u.setProc p (replaceMemory (u.proc p) (u.proc p).qHead a)).proc p =
        (u.proc p).withMem m (u.proc p).sizeMem b c := by
      rw [← hrep]
      exact Function.update_self _ _ _
    rw [hself, hmoved.proc]
    rfl

theorem step (hpol : Build.policy = .fifo) (h : RingHolds (s.proc p) t) (hs : FifoStep p s e s') :
    RingHolds (s'.proc p) (t ++ [e]) ∧
      ∀ a b, e = .link a (some b) → (linkOrder t).head? = some b := by
  cases hs with
  | @link _ a ha hlt hnew hrun hout =>
    have hres : LinkResult p a s 0 s' := of_wp (linkNewPage_any (E := fun _ => True)
      (fun _ _ => trivial) (fun _ => trivial) (fun _ _ _ => trivial) fun _ _ hres => hres) hrun
    obtain ⟨h1, h2⟩ := h.link hpol ha hlt hnew.1 hres hout
    exact ⟨h1, fun _ b he => h2 b (FifoEvent.link.inj he).2⟩
  | @full _ a hrun =>
    have hres : LinkResult p a s (-1) s' := of_wp (linkNewPage_any (E := fun _ => True)
      (fun _ _ => trivial) (fun _ => trivial) (fun _ _ _ => trivial) fun _ _ hres => hres) hrun
    refine ⟨?_, fun _ _ he => by cases he⟩
    cases hres with
    | noSlot => exact h.same ⟨rfl, rfl, rfl, rfl⟩ rfl fun _ _ => rfl
    | stuck hnfu =>
      rw [hpol] at hnfu
      cases hnfu
  | @moveFrom _ a mem r hrun =>
    have hres : FetchResult p a mem s r s' := of_wp (moveFromSwap_any (E := fun _ => True)
      (fun _ _ => trivial) (fun _ => trivial) fun _ _ hres => hres) hrun
    refine ⟨?_, fun _ _ he => by cases he⟩
    cases hres with
    | missing => exact h.same ⟨rfl, rfl, rfl, rfl⟩ rfl fun _ _ => rfl
    | fetched =>
      refine h.same ?_ rfl fun _ _ => rfl
      simp [Kernel.setMem, Kernel.setProc, Proc.clearSlot]
    | short => exact h.same ⟨rfl, rfl, rfl, rfl⟩ rfl fun _ _ => rfl
  | @unlink _ a r hrun =>
    refine ⟨?_, fun _ _ he => by cases he⟩
    have hwp : wp (unlinkPage p a) (fun _ => True)
        (fun _ s' => RingHolds (s'.proc p) (t ++ [.unlink a])) s := by
      unfold unlinkPage
      refine wp_seq (getProc_wp ?_)
      by_cases ha : a % PGSIZE = 0
      · obtain ⟨r, q', hun, hq'⟩ := h.unlink hpol ha
        rw [hun]
        refine wp_seq (setProc_wp ?_)
        rw [wp_pure, show (s.setProc p q').proc p = q' from Function.update_self _ _ _]
        exact hq'
      · unfold unlinkTables
        rw [if_pos ha]
        trivial
    exact of_wp hwp hrun
  | other hsame => exact ⟨h.same hsame.2 rfl fun _ _ => rfl, fun _ _ he => by cases he⟩

end RingHolds

omit [Build] in
/-- `moveToSwap` does not stop with an assertion of `linkNewPage`. -/
theorem moveStops_other : ∀ m ∈ moveStops, m ∉ ["PTE_FLAGS(vpa) ==0", "p->q_head == p->q_tail"] := by
  decide

/-- In every run of calls of a process that starts with empty tables, `q_head`, `q_tail` and
`size_mem` describe a ring; from `q_head` on it lists the resident pages in the order in which they
were linked; the page that is evicted is the one that was linked longest ago; and no assertion of
`linkNewPage` or `unlinkPage` fails. -/
theorem fifo_ring_is_queue (hpol : Build.policy = .fifo) {s0 : Kernel} {r : Int}
    (h0 : initFreshSwap p s0 = .ok (r, s)) (hrun : Run (FifoStep p) s t s') :
    (s'.proc p).sizeMem ≤ MAX_PSYC_PAGES ∧ (s'.proc p).qHead < MAX_PSYC_PAGES ∧
    (s'.proc p).qTail < MAX_PSYC_PAGES ∧
    (s'.proc p).qTail = ((s'.proc p).qHead + (s'.proc p).sizeMem) % MAX_PSYC_PAGES ∧
    ringAddrs (s'.proc p).vpaMemory (s'.proc p).sizeMem (s'.proc p).qHead = linkOrder t ∧
    (∀ a b s'', FifoStep p s' (.link a (some b)) s'' →
      b ∈ linkOrder t ∧ ∀ c ∈ linkOrder t, c ≠ b → linkedAt t b < linkedAt t c) ∧
    (∀ a m, a % PGSIZE = 0 → linkNewPage p a s' = .error m →
      m ∉ ["PTE_FLAGS(vpa) ==0", "p->q_head == p->q_tail"]) ∧
    ∀ a, a % PGSIZE = 0 → ∃ r s'', unlinkPage p a s' = .ok (r, s'') := by
  have hstart : RingHolds (s.proc p) [] := by
    suffices hwp : wp (initFreshSwap p) (fun _ => True) (fun _ s => RingHolds (s.proc p) []) s0 from
      of_wp hwp h0
    unfold initFreshSwap
    refine wp_seq (getProc_wp (wp_seq (setProc_wp (createSwapFile_wp fun f => ?_))))
    have hk : ((s0.setProc p (s0.proc p).freshTables).withFile p f).proc p =
        { (s0.proc p).freshTables with swapFile := true } := by
      simp [Kernel.withFile, Kernel.setProc, Kernel.setFile]
    rw [hk]
    refine ⟨⟨Nat.zero_le _, fun _ => ⟨Nat.zero_lt_succ _, rfl⟩⟩, ?_, List.Pairwise.nil⟩
    rw [resident_fifo hpol]
    rfl
  have h : RingHolds (s'.proc p) t := hrun.trace (I := fun t s => RingHolds (s.proc p) t)
    (fun h hs => (h.step hpol hs).1) hstart
  obtain ⟨hhead, htail⟩ := h.table.ring hpol
  refine ⟨h.table.size, hhead, ?_, htail, ?_, fun a b s'' hs => ?_, fun a m ha hrun => ?_,
    fun a ha => ?_⟩
  · rw [htail]
    exact Nat.mod_lt _ (by decide)
  · rw [← resident_fifo hpol]
    exact h.order
  · have hb := (h.step hpol hs).2 a b rfl
    obtain ⟨l, hl⟩ : ∃ l, linkOrder t = b :: l := by
      rcases hl : linkOrder t with _ | ⟨c, l⟩
      · rw [hl] at hb
        cases hb
      · rw [hl] at hb
        exact ⟨l, by rw [Option.some.inj hb]⟩
    have hsorted := h.sorted
    rw [hl] at hsorted ⊢
    exact ⟨List.mem_cons_self, fun c hc hne =>
      (List.pairwise_cons.1 hsorted).1 c ((List.mem_cons.1 hc).resolve_left hne)⟩
  · have hwp : wp (linkNewPage p a) (fun m => m ∈ moveStops) (fun _ _ => True) s' := by
      refine linkNewPage_any (fun _ hm => hm) (fun hne => absurd ha hne) (fun _ hn hne => ?_)
        fun _ _ _ => trivial
      refine absurd ?_ hne
      rw [htail, hn, Nat.add_mod_right, Nat.mod_eq_of_lt hhead]
    exact moveStops_other m (stop_of_wp hwp hrun)
  · obtain ⟨r, q', hun, -⟩ := h.unlink hpol ha
    have hwp : wp (unlinkPage p a) (fun _ => False) (fun _ _ => True) s' := by
      unfold unlinkPage
      refine wp_seq (getProc_wp ?_)
      rw [hun]
      exact wp_seq (setProc_wp trivial)
    obtain ⟨r, s'', hok, -⟩ := exists_of_wp hwp
    exact ⟨r, s'', hok⟩

/-- The step that links or unlinks the page of `e`, if it is one of process `p`. -/
def fifoNext (p : Nat) (s : Kernel) (e : FifoEvent) : Option (FifoEvent × Kernel) :=
  match e with
  | .link a _ =>
    match linkNewPage p a s with
    | .ok (r, s') =>
      if r = 0 ∧ a % PGSIZE = 0 ∧ a < 2 ^ 32 ∧ a ∉ resident (s.proc p) ∧ swapSlot (s.proc p) a = none ∧
          ((s.proc p).sizeMem = MAX_PSYC_PAGES → movedOut (s.proc p) (s'.proc p) ≠ none) then
        some (.link a (movedOut (s.proc p) (s'.proc p)), s')
      else none
    | .error _ => none
  | .unlink a =>
    match unlinkPage p a s with
    | .ok (_, s') => some (.unlink a, s')
    | .error _ => none
  | _ => none

theorem FifoStep.of_next {l : FifoEvent} (h : fifoNext p s e = some (l, s')) : FifoStep p s l s' := by
  unfold fifoNext at h
  split at h
  · split at h
    · split at h
      · rename_i r s1 hrun hc
        obtain ⟨rfl, ha, hlt, hr, hs, hout⟩ := hc
        cases h
        exact .link ha hlt ⟨hr, hs⟩ hrun hout
      · cases h
    · cases h
  · split at h
    · rename_i hrun
      cases h
      exact .unlink hrun
    · cases h
  · cases h

end

/-- A process whose pages are all mapped. -/
def mappedKernel : Kernel where
  mem := fun _ _ => 0
  dirs := fun _ => ⟨fun _ => PTE_P, fun _ j => pageWord (57140 + j) ||| PTE_P⟩
  freelist := []
  totalFreePages := 0
  proc := fun _ => { emptyProc with pid := 1 }
  initproc := 0
  nextpid := 2
  cur := 0
  cr3 := 0
  files := fun _ => none
  cons := []

/-- Sixteen pages are linked, the fifth is unlinked and two more are linked. -/
def sixteenLinks : List FifoEvent :=
  ((List.range 16).map fun i => .link ((i + 1) * PGSIZE) none) ++
    [.unlink (5 * PGSIZE), .link (17 * PGSIZE) none, .link (18 * PGSIZE) none]

theorem fifo_ring_is_queue_sixteen :
    let _ := smallBuild .fifo
    ∃ r s t s', initFreshSwap 0 mappedKernel = .ok (r, s) ∧ Run (FifoStep 0) s t s' ∧
      t.getLast? = some (.link (18 * PGSIZE) (some (2 * PGSIZE))) ∧
      ringAddrs (s'.proc 0).vpaMemory (s'.proc 0).sizeMem (s'.proc 0).qHead =
        ([3, 4, 6, 7, 8, 9, 10, 11, 12, 13, 14, 15, 16, 17, 18] : List Nat).map (· * PGSIZE) := by
  let _ := smallBuild .fifo
  have hok : (match initFreshSwap 0 mappedKernel with
      | .ok (_, s) => (follow (fifoNext 0) s sixteenLinks).map fun r =>
          (r.1.getLast?, linkOrder r.1)
      | .error _ => none) = some (some (.link (18 * PGSIZE) (some (2 * PGSIZE))),
        ([3, 4, 6, 7, 8, 9, 10, 11, 12, 13, 14, 15, 16, 17, 18] : List Nat).map (· * PGSIZE)) := by
    decide +kernel
  split at hok
  · rename_i r s h0
    obtain ⟨⟨t, s'⟩, hf, he⟩ := Option.map_eq_some_iff.1 hok
    obtain ⟨h1, h2⟩ := Prod.mk.inj he
    have hrun : Run (FifoStep 0) s t s' := by
      refine Run.of_follow (fun hi => ?_) hf
      exact FifoStep.of_next hi
    exact ⟨r, s, t, s', h0, hrun, h1, (fifo_ring_is_queue rfl h0 hrun).2.2.2.2.1.trans h2⟩
  · cases hok

end Xv6
