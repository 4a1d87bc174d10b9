import Xv6.Lib.Run
import Xv6.Swap.Counter
import Xv6.Vm.Small

/-!
# `NFU_SWAP` evicts a least used page while the counters last

`uses t a` is the number of ticks at which page `a` was found accessed since it was last linked. The
counter beside the page is eleven bits wide and holds `uses t a % 2048`, so `linkNewPage` evicts a
least used page only as long as no count reaches 2048. The steps are the calls of one process, and
between them anything that leaves its tables alone: accessed bits are set in any pattern.
-/

namespace Xv6

open Lib

/-! ## Events -/

/-- A call on the tables of a process. -/
inductive NfuEvent where
  /-- `linkNewPage` entered `a`; `out` is the page that left `VPA_Memory`. -/
  | link (a : Nat) (out : Option Nat)
  /-- `linkNewPage` returned `-1`. -/
  | full (a : Nat)
  | unlink (a : Nat)
  /-- `recoverPageFault` at page `a`, which is resident afterwards or not. -/
  | recover (a : Nat) (done : Bool) (out : Option Nat)
  /-- `nfu_Increment_Counter` found the accessed bits of the pages `seen` set. -/
  | tick (seen : List Nat)
  | other
  deriving DecidableEq

namespace NfuEvent

def linked : NfuEvent → Option Nat
  | link a _ => some a
  | recover a true _ => some a
  | _ => none

/-- The page that was evicted. -/
def evicts : NfuEvent → Option Nat
  | link _ out | recover _ _ out => out
  | _ => none

def links (a : Nat) (e : NfuEvent) : Bool := e.linked == some a

def sees (a : Nat) : NfuEvent → Bool
  | tick seen => seen.contains a
  | _ => false

end NfuEvent

open NfuEvent

/-- The number of ticks since `a` was last linked at which it was found accessed. -/
def uses (t : List NfuEvent) (a : Nat) : Nat := countSince (NfuEvent.links a) (sees a) t

theorem uses_linked {e : NfuEvent} {a : Nat} (t : List NfuEvent) (h : e.linked = some a) :
    uses (t ++ [e]) a = 0 := by
  unfold uses
  rw [countSince_snoc]
  exact if_pos (beq_iff_eq.2 h)

theorem uses_snoc {e : NfuEvent} {a : Nat} (t : List NfuEvent) (h : e.linked ≠ some a) :
    uses (t ++ [e]) a = uses t a + (e.sees a).toNat := by
  unfold uses
  rw [countSince_snoc]
  exact if_neg (by simpa [NfuEvent.links] using h)

/-! ## Steps -/

section

variable [Build]

/-- The page that is no longer resident. -/
def leftMemory (q q' : Proc) : Option Nat := (resident q).find? fun b => !(resident q').contains b

/-- The resident pages whose accessed bit is set. -/
def seenPages (s : Kernel) (p : Nat) : List Nat :=
  ((List.range (s.proc p).sizeMem).filter (accessed s p)).map fun i =>
    entryAddr ((s.proc p).vpaMemory i)

omit [Build] in
theorem sees_seenPages {s : Kernel} {p i : Nat}
    (hinj : ∀ i < (s.proc p).sizeMem, ∀ j < (s.proc p).sizeMem,
      entryAddr ((s.proc p).vpaMemory i) = entryAddr ((s.proc p).vpaMemory j) → i = j)
    (hi : i < (s.proc p).sizeMem) :
    sees (entryAddr ((s.proc p).vpaMemory i)) (.tick (seenPages s p)) = accessed s p i := by
  rw [Bool.eq_iff_iff]
  unfold sees seenPages
  rw [List.contains_iff_mem, List.mem_map]
  constructor
  · rintro ⟨j, hj, he⟩
    obtain ⟨hj1, hj2⟩ := List.mem_filter.1 hj
    rwa [← hinj j (List.mem_range.1 hj1) i hi he]
  · exact fun hacc => ⟨i, List.mem_filter.2 ⟨List.mem_range.2 hi, hacc⟩, rfl⟩

/-- A call of process `p`, or something else that leaves its tables alone. A page is linked only when
it is not resident. -/
inductive NfuStep (p : Nat) : Kernel → NfuEvent → Kernel → Prop
  | link {s s' : Kernel} {a : Nat} (ha : a % PGSIZE = 0) (hlt : a < 2 ^ 32)
      (hnew : a ∉ resident (s.proc p)) (h : linkNewPage p a s = .ok (0, s')) :
      NfuStep p s (.link a (leftMemory (s.proc p) (s'.proc p))) s'
  | full {s s' : Kernel} {a : Nat} (h : linkNewPage p a s = .ok (-1, s')) : NfuStep p s (.full a) s'
  | unlink {s s' : Kernel} {a : Nat} {r : Int} (h : unlinkPage p a s = .ok (r, s')) :
      NfuStep p s (.unlink a) s'
  | recover {s s' : Kernel} {va : Nat} {r : Int} (hcur : s.cur = p) (hva : va < 2 ^ 32)
      (hnew : pgrounddown va ∉ resident (s.proc p)) (h : recoverPageFault va s = .ok (r, s')) :
      NfuStep p s (.recover (pgrounddown va) ((resident (s'.proc p)).contains (pgrounddown va))
        (leftMemory (s.proc p) (s'.proc p))) s'
  | tick {s s' : Kernel} (h : nfuIncrementCounter p s = .ok ((), s')) :
      NfuStep p s (.tick (seenPages s p)) s'
  | other {s s' : Kernel} (h : (s'.proc p).vpaMemory = (s.proc p).vpaMemory ∧
      (s'.proc p).sizeMem = (s.proc p).sizeMem) : NfuStep p s .other s'

end

/-! ## The counters follow the trace -/

/-- The pages are distinct, and each counter holds the count of its page modulo 2048. -/
structure CountsUses (q : Proc) (t : List NfuEvent) : Prop where
  size : q.sizeMem ≤ MAX_PSYC_PAGES
  inj : ∀ i < q.sizeMem, ∀ j < q.sizeMem, entryAddr (q.vpaMemory i) = entryAddr (q.vpaMemory j) → i = j
  count : ∀ i < q.sizeMem, counter (q.vpaMemory i) = uses t (entryAddr (q.vpaMemory i)) % 2048

/-- `VPA_Memory` is the same. -/
def SameMemory (q q' : Proc) : Prop := q'.vpaMemory = q.vpaMemory ∧ q'.sizeMem = q.sizeMem

namespace CountsUses

variable {q q' : Proc} {t : List NfuEvent} {e : NfuEvent} {a : Nat}

theorem pages_inj (h : CountsUses q t) (j k : Nat) (_ : 0 ≤ j) (hjk : j < k)
    (hk : k < 0 + q.sizeMem) : pageNo (q.vpaMemory j) ≠ pageNo (q.vpaMemory k) := by
  intro he
  have := h.inj j (by omega) k (by omega) (by rw [entryAddr_eq, entryAddr_eq, he])
  omega

theorem congr (h : CountsUses q t) (hs : SameMemory q q') : CountsUses q' t := by
  obtain ⟨h1, h2⟩ := hs
  refine ⟨?_, ?_, ?_⟩ <;> rw [h2]
  · exact h.size
  · rw [h1]
    exact h.inj
  · rw [h1]
    exact h.count

/-- An event that neither links nor sees a page. -/
theorem quiet (h : CountsUses q t) (hl : e.linked = none) (hs : ∀ a, e.sees a = false) :
    CountsUses q (t ++ [e]) := by
  refine ⟨h.size, h.inj, fun i hi => ?_⟩
  rw [uses_snoc t (by rw [hl]; exact nofun), hs, h.count i hi]
  rfl

/-- The page that is linked enters with counter 0 at `idx`; the other entries are as before. -/
theorem enter (idx : Nat) (h : CountsUses q t) (ha : a % PGSIZE = 0) (hlt : a < 2 ^ 32)
    (hnew : ∀ i < q.sizeMem, entryAddr (q.vpaMemory i) ≠ a) (hl : e.linked = some a)
    (hs : ∀ b, e.sees b = false) (hsize : q'.sizeMem ≤ MAX_PSYC_PAGES)
    (hin : ∀ i < q'.sizeMem, i = idx ∨ i < q.sizeMem)
    (hmem : q'.vpaMemory = Function.update q.vpaMemory idx (BitVec.ofNat 32 a)) :
    CountsUses q' (t ++ [e]) := by
  have hself : entryAddr (q'.vpaMemory idx) = a ∧ counter (q'.vpaMemory idx) = 0 := by
    rw [hmem, Function.update_self]
    exact ⟨entryAddr_ofNat ha hlt, counter_ofNat ha⟩
  have hother : ∀ i ≠ idx, q'.vpaMemory i = q.vpaMemory i := fun i hi => by
    rw [hmem, Function.update_of_ne hi]
  refine ⟨hsize, fun i hi j hj heq => ?_, fun i hi => ?_⟩
  · by_cases e1 : i = idx <;> by_cases e2 : j = idx
    · rw [e1, e2]
    · rw [e1, hself.1, hother j e2] at heq
      exact absurd heq.symm (hnew j ((hin j hj).resolve_left e2))
    · rw [e2, hself.1, hother i e1] at heq
      exact absurd heq (hnew i ((hin i hi).resolve_left e1))
    · rw [hother i e1, hother j e2] at heq
      exact h.inj i ((hin i hi).resolve_left e1) j ((hin j hj).resolve_left e2) heq
  · by_cases e1 : i = idx
    · rw [e1, hself.2, hself.1, uses_linked t hl]
    · have hi' := (hin i hi).resolve_left e1
      rw [hother i e1, uses_snoc t, hs, h.count i hi']
      · rfl
      · rw [hl]
        exact fun he => hnew i hi' (Option.some.inj he).symm

theorem unlinked {idx : Nat} (h : CountsUses q t) (hidx : idx < q.sizeMem)
    (hsize : q'.sizeMem = q.sizeMem - 1)
    (hmem : ∀ i < q.sizeMem - 1, q'.vpaMemory i =
      if i = idx then q.vpaMemory (q.sizeMem - 1) else q.vpaMemory i) : CountsUses q' t := by
  -- entry `i` was entry `old i` before
  have hold : ∀ i < q.sizeMem - 1, ∃ k < q.sizeMem, q'.vpaMemory i = q.vpaMemory k ∧
      k = if i = idx then q.sizeMem - 1 else i := by
    intro i hi
    refine ⟨if i = idx then q.sizeMem - 1 else i, by split <;> omega, ?_, rfl⟩
    rw [hmem i hi]
    split <;> rfl
  have hle := h.size
  refine ⟨by omega, fun i hi j hj heq => ?_, fun i hi => ?_⟩
  · rw [hsize] at hi hj
    obtain ⟨k, hk, he, hk'⟩ := hold i hi
    obtain ⟨l, hl, he', hl'⟩ := hold j hj
    rw [he, he'] at heq
    have hkl := h.inj k hk l hl heq
    split at hk' <;> split at hl' <;> omega
  · rw [hsize] at hi
    obtain ⟨k, hk, he, -⟩ := hold i hi
    rw [he]
    exact h.count k hk

/-- A tick counts the pages it sees. -/
theorem ticked {s : Kernel} {p : Nat} (h : CountsUses (s.proc p) t)
    (hs : q' = (s.proc p).withEntries (usedEntries s p 0 (s.proc p).sizeMem)) :
    CountsUses q' (t ++ [.tick (seenPages s p)]) := by
  have hentry : ∀ i < (s.proc p).sizeMem, q'.vpaMemory i = if accessed s p i = true
      then countUse ((s.proc p).vpaMemory i) else (s.proc p).vpaMemory i := fun i hi => by
    rw [hs]
    exact usedEntries_of_mem (Nat.zero_le i) (by omega)
  have haddr : ∀ i < (s.proc p).sizeMem,
      entryAddr (q'.vpaMemory i) = entryAddr ((s.proc p).vpaMemory i) := fun i hi => by
    rw [hentry i hi]
    split
    · exact entryAddr_countUse _
    · rfl
  have hsize : q'.sizeMem = (s.proc p).sizeMem := by
    rw [hs]
    rfl
  refine ⟨hsize ▸ h.size, fun i hi j hj heq => ?_, fun i hi => ?_⟩
  · rw [hsize] at hi hj
    rw [haddr i hi, haddr j hj] at heq
    exact h.inj i hi j hj heq
  · rw [hsize] at hi
    have hcount := h.count i hi
    rw [haddr i hi, uses_snoc t (by exact nofun), sees_seenPages h.inj hi, hentry i hi]
    cases hacc : accessed s p i
    · rw [if_neg Bool.false_ne_true]
      exact hcount
    · rw [if_pos rfl, counter_countUse, hcount]
      simp only [Bool.toNat_true]
      omega

end CountsUses

/-! ## One step -/

section

variable [Build] {s s' : Kernel} {t : List NfuEvent} {e : NfuEvent} {p a : Nat}

theorem mem_resident_nfu (hpol : Build.policy = .nfu) {q : Proc} :
    a ∈ resident q ↔ ∃ i < q.sizeMem, entryAddr (q.vpaMemory i) = a := by
  rw [resident_nfu hpol, List.mem_map]
  simp only [List.mem_range]

theorem leftMemory_some {q q' : Proc} {b : Nat} (h : leftMemory q q' = some b) :
    b ∈ resident q ∧ b ∉ resident q' := by
  refine ⟨List.mem_of_find?_eq_some h, fun hb => ?_⟩
  have := List.find?_some h
  rw [List.contains_iff_mem.2 hb] at this
  cases this

theorem SameMemory.resident_eq (hpol : Build.policy = .nfu) {q q' : Proc} (h : SameMemory q q') :
    resident q' = resident q := by
  rw [resident_nfu hpol, resident_nfu hpol, h.1, h.2]

theorem SameMemory.leftMemory (hpol : Build.policy = .nfu) {q q' : Proc} (h : SameMemory q q') :
    leftMemory q q' = none := by
  cases hb : Xv6.leftMemory q q' with
  | none => rfl
  | some b =>
    obtain ⟨h1, h2⟩ := leftMemory_some hb
    exact absurd h1 (h.resident_eq hpol ▸ h2)

/-- A call of `linkNewPage` that fails leaves the entries alone. -/
theorem LinkResult.same_of_failed (h : LinkResult p a s (-1) s') :
    SameMemory (s.proc p) (s'.proc p) := by
  cases h with
  | noSlot => exact ⟨rfl, rfl⟩
  | stuck _ _ _ hmoved =>
    unfold SameMemory Kernel.printed
    rw [hmoved.proc]
    exact ⟨rfl, rfl⟩

/-- What `recoverPageFault` does to `VPA_Memory`: nothing, or what `linkNewPage` does. -/
theorem recoverPageFault_memory {va : Nat} (hva : va < 2 ^ 32) :
    wp (recoverPageFault va) (fun _ => True) (fun _ s' =>
      SameMemory (s.proc s.cur) (s'.proc s.cur) ∨ ∃ s1 r,
        SameMemory (s.proc s.cur) (s1.proc s.cur) ∧ LinkResult s.cur (pgrounddown va) s1 r s') s := by
  unfold recoverPageFault
  refine wp_seq (get_wp (wp_seq ?_))
  cases ht : (s.dirs (s.proc s.cur).pgdir).hasTable (va / PGSIZE) with
  | false => exact walkpgdir_missing hva ht (.inl ⟨rfl, rfl⟩)
  | true =>
    refine walkpgdir_found hva ht (wp_seq (loadPte_wp ht ?_))
    split
    · exact .inl ⟨rfl, rfl⟩
    · refine wp_seq (kalloc_wp (fun _ => wp_seq (cprintf_wp (.inl ⟨rfl, rfl⟩))) fun f l _ =>
        wp_seq (moveFromSwap_any (fun _ _ => trivial) (fun _ => trivial) fun r s1 hres => ?_))
      cases hres with
      | missing =>
        rw [if_pos (by decide)]
        exact wp_seq (cprintf_wp (wp_seq (kfree_any trivial (.inl ⟨rfl, rfl⟩))))
      | short =>
        rw [if_pos (by decide)]
        exact wp_seq (cprintf_wp (wp_seq (kfree_any trivial (.inl ⟨rfl, rfl⟩))))
      | fetched =>
        rw [if_neg (by decide)]
        refine wp_seq (assertPanic_any trivial fun _ => wp_seq (assertPanic_any trivial fun _ =>
          wp_seq (get_wp (wp_seq (assertPanic_any trivial fun _ => wp_seq (storePte_wp
            (wp_seq (linkNewPage_any (fun _ _ => trivial) (fun _ => trivial) (fun _ _ _ => trivial)
              fun r s2 hlink => wp_seq (get_wp (wp_seq (assertPanic_any trivial fun _ => .inr
                ⟨_, r, ?_, hlink⟩)))))))))))
        simp [SameMemory, Kernel.setDir, Kernel.setProc, Kernel.setMem, Kernel.taken, Proc.clearSlot]

namespace CountsUses

/-- Linking enters the page or leaves the entries alone; the page that leaves has a smallest
counter. -/
theorem linkResult {r : Int} (hpol : Build.policy = .nfu) (h : CountsUses (s.proc p) t)
    (ha : a % PGSIZE = 0) (hlt : a < 2 ^ 32) (hnew : a ∉ resident (s.proc p))
    (hres : LinkResult p a s r s') :
    (r = 0 ∧ a ∈ resident (s'.proc p) ∧
      (∀ e : NfuEvent, e.linked = some a → (∀ b, e.sees b = false) → CountsUses (s'.proc p) (t ++ [e])) ∧
      ∀ b, leftMemory (s.proc p) (s'.proc p) = some b → ∀ c ∈ resident (s.proc p),
        uses t b % 2048 ≤ uses t c % 2048) ∨
    r = -1 ∧ SameMemory (s.proc p) (s'.proc p) := by
  have hnew' : ∀ i < (s.proc p).sizeMem, entryAddr ((s.proc p).vpaMemory i) ≠ a :=
    fun i hi he => hnew ((mem_resident_nfu hpol).2 ⟨i, hi, he⟩)
  cases hres with
  | pushed hn =>
    have hself : (s.setProc p (pushMemory (s.proc p) a)).proc p =
        (s.proc p).withMem (Function.update (s.proc p).vpaMemory (s.proc p).sizeMem (BitVec.ofNat 32 a))
          ((s.proc p).sizeMem + 1) (s.proc p).qHead (s.proc p).qTail := by
      rw [show (s.setProc p (pushMemory (s.proc p) a)).proc p = pushMemory (s.proc p) a from
        Function.update_self _ _ _]
      unfold pushMemory
      rw [hpol]
      rfl
    have hmem : ((s.setProc p (pushMemory (s.proc p) a)).proc p).vpaMemory =
        Function.update (s.proc p).vpaMemory (s.proc p).sizeMem (BitVec.ofNat 32 a) := by
      rw [hself]
      rfl
    have hsz : ((s.setProc p (pushMemory (s.proc p) a)).proc p).sizeMem = (s.proc p).sizeMem + 1 := by
      rw [hself]
      rfl
    refine .inl ⟨rfl, (mem_resident_nfu hpol).2 ⟨(s.proc p).sizeMem, by omega, ?_⟩,
      fun e hl hs => h.enter (s.proc p).sizeMem ha hlt hnew' hl hs ?_ (fun i hi => ?_) hmem, fun b hb => ?_⟩
    · rw [hmem, Function.update_self, entryAddr_ofNat ha hlt]
    · rw [hsz]
      exact Nat.lt_of_le_of_ne h.size hn
    · omega
    · -- nothing leaves
      obtain ⟨h1, h2⟩ := leftMemory_some hb
      obtain ⟨i, hi, he⟩ := (mem_resident_nfu hpol).1 h1
      refine absurd ((mem_resident_nfu hpol).2 ⟨i, by omega, ?_⟩) h2
      rw [hmem, Function.update_of_ne (Nat.ne_of_lt hi), he]
  | noSlot => exact .inr ⟨rfl, rfl, rfl⟩
  | @replaced idx i u hn hfree hv hmoved =>
    have hvict : nfuVictim (s.proc p).vpaMemory = some idx := by
      unfold Victim at hv
      rwa [hpol] at hv
    have hidx : idx < (s.proc p).sizeMem := by
      obtain ⟨k, hk, hlt⟩ := nfuVictim_some (s.proc p).vpaMemory
      rw [hvict] at hk
      rwa [Option.some.inj hk, hn]
    have hself : (u.setProc p (replaceMemory (u.proc p) idx a)).proc p =
        ((s.proc p).fillSlot i (pageNo ((s.proc p).vpaMemory idx))).withEntries
          (Function.update (s.proc p).vpaMemory idx (BitVec.ofNat 32 a)) := by
      rw [show (u.setProc p (replaceMemory (u.proc p) idx a)).proc p = replaceMemory (u.proc p) idx a from
        Function.update_self _ _ _, hmoved.proc, Function.update_self]
      unfold replaceMemory
      rw [hpol]
      rfl
    have hmem : ((u.setProc p (replaceMemory (u.proc p) idx a)).proc p).vpaMemory =
        Function.update (s.proc p).vpaMemory idx (BitVec.ofNat 32 a) := by
      rw [hself]
      rfl
    have hsz : ((u.setProc p (replaceMemory (u.proc p) idx a)).proc p).sizeMem = (s.proc p).sizeMem := by
      rw [hself]
      rfl
    refine .inl ⟨rfl, (mem_resident_nfu hpol).2 ⟨idx, by omega, ?_⟩, fun e hl hs => h.enter idx ha hlt
      hnew' hl hs (hsz ▸ h.size) (fun k hk => .inr (by omega)) hmem, fun b hb c hc => ?_⟩
    · rw [hmem, Function.update_self, entryAddr_ofNat ha hlt]
    · obtain ⟨h1, h2⟩ := leftMemory_some hb
      obtain ⟨k, hk, rfl⟩ := (mem_resident_nfu hpol).1 h1
      obtain ⟨j, hj, rfl⟩ := (mem_resident_nfu hpol).1 hc
      -- only the entry at `idx` was written
      obtain rfl : k = idx := by
        by_contra hne
        refine h2 ((mem_resident_nfu hpol).2 ⟨k, by omega, ?_⟩)
        rw [hmem, Function.update_of_ne hne]
      rw [← h.count k hk, ← h.count j hj]
      exact nfuVictim_le hvict j (by omega)
  | lost hfifo =>
    rw [hpol] at hfifo
    cases hfifo
  | stuck hpol hn hfree hmoved =>
    exact .inr ⟨rfl, (LinkResult.stuck (a := a) hpol hn hfree hmoved).same_of_failed⟩

theorem unlinkTables {q q' : Proc} {r : Int} (hpol : Build.policy = .nfu) (h : CountsUses q t)
    (hun : unlinkTables q a = .ok (r, q')) : CountsUses q' t := by
  unfold Xv6.unlinkTables at hun
  split at hun
  · cases hun
  · split at hun
    · cases hun
    · rename_i q1 hq
      cases hun
      unfold unlinkMemory at hq
      rw [hpol] at hq
      dsimp only at hq
      split at hq
      · cases hq
      · split at hq
        · cases hq
        · rename_i i hi
          cases hq
          have hlt : i < q.sizeMem := List.mem_range.1 (List.mem_of_find?_eq_some hi)
          refine h.unlinked hlt rfl fun j hj => ?_
          have hne : j ≠ q.sizeMem - 1 := Nat.ne_of_lt hj
          dsimp only
          rw [Function.update_of_ne hne, Function.update_apply]
    · split at hun
      · cases hun
        exact h.congr ⟨rfl, rfl⟩
      · cases hun
        exact h

/-- What one step keeps, and which page it evicts. -/
theorem step (hpol : Build.policy = .nfu) (h : CountsUses (s.proc p) t) (hs : NfuStep p s e s') :
    CountsUses (s'.proc p) (t ++ [e]) ∧ ∀ b, e.evicts = some b → b ∈ resident (s.proc p) ∧
      ∀ c ∈ resident (s.proc p), uses t b % 2048 ≤ uses t c % 2048 := by
  cases hs with
  | @link _ a ha hlt hnew hrun =>
    have hres : LinkResult p a s 0 s' := of_wp (linkNewPage_any (E := fun _ => True)
      (fun _ _ => trivial) (fun _ => trivial) (fun _ _ _ => trivial) fun _ _ hres => hres) hrun
    obtain ⟨-, -, h1, h2⟩ | ⟨hr, -⟩ := h.linkResult hpol ha hlt hnew hres
    · exact ⟨h1 _ rfl fun _ => rfl, fun b hb => ⟨(leftMemory_some hb).1, h2 b hb⟩⟩
    · exact absurd hr (by decide)
  | @full _ a hrun =>
    have hres : LinkResult p a s (-1) s' := of_wp (linkNewPage_any (E := fun _ => True)
      (fun _ _ => trivial) (fun _ => trivial) (fun _ _ _ => trivial) fun _ _ hres => hres) hrun
    exact ⟨(h.congr hres.same_of_failed).quiet rfl fun _ => rfl, fun b hb => by cases hb⟩
  | @unlink _ a r hrun =>
    refine ⟨?_, fun b hb => by cases hb⟩
    have hwp : wp (unlinkPage p a) (fun _ => True) (fun _ s' => CountsUses (s'.proc p) t) s := by
      unfold unlinkPage
      refine wp_seq (getProc_wp ?_)
      split
      · trivial
      · rename_i r q hq
        refine wp_seq (setProc_wp ?_)
        rw [wp_pure, show (s.setProc p q).proc p = q from Function.update_self _ _ _]
        exact h.unlinkTables hpol hq
    exact (of_wp hwp hrun).quiet rfl fun _ => rfl
  | @recover _ va r hcur hva hnew hrun =>
    have halign : pgrounddown va % PGSIZE = 0 := Nat.mul_mod_left _ _
    have hword : pgrounddown va < 2 ^ 32 := lt_of_le_of_lt (Nat.div_mul_le_self va PGSIZE) hva
    have hres := of_wp (recoverPageFault_memory (s := s) hva) hrun
    rw [hcur] at hres
    have hkept : SameMemory (s.proc p) (s'.proc p) →
        CountsUses (s'.proc p) (t ++ [.recover (pgrounddown va)
          ((resident (s'.proc p)).contains (pgrounddown va)) (leftMemory (s.proc p) (s'.proc p))]) ∧
        ∀ b, leftMemory (s.proc p) (s'.proc p) = some b → b ∈ resident (s.proc p) ∧
          ∀ c ∈ resident (s.proc p), uses t b % 2048 ≤ uses t c % 2048 := by
      intro hsame
      rw [hsame.leftMemory hpol, hsame.resident_eq hpol,
        Bool.eq_false_of_not_eq_true (mt List.contains_iff_mem.1 hnew)]
      exact ⟨(h.congr hsame).quiet rfl fun _ => rfl, fun b hb => by cases hb⟩
    obtain hsame | ⟨s1, r1, hsame, hlink⟩ := hres
    · exact hkept hsame
    · have hr1 := hsame.resident_eq hpol
      obtain ⟨-, hin, h1, h2⟩ | ⟨rfl, -⟩ := (h.congr hsame).linkResult hpol halign hword
        (by rwa [hr1]) hlink
      · unfold leftMemory at h2 ⊢
        rw [hr1] at h2
        rw [List.contains_iff_mem.2 hin]
        exact ⟨h1 _ rfl fun _ => rfl, fun b hb => ⟨(leftMemory_some hb).1, h2 b hb⟩⟩
      · obtain ⟨h3, h4⟩ := hlink.same_of_failed
        exact hkept ⟨h3.trans hsame.1, h4.trans hsame.2⟩
  | tick hrun =>
    refine ⟨?_, fun b hb => by cases hb⟩
    have hproc := of_wp (nfuIncrementLoop_any (E := fun _ => True) _ 0 s h.pages_inj
      fun _ _ _ _ => trivial) hrun
    refine h.ticked ?_
    rw [hproc, Function.update_self]
  | other hsame => exact ⟨(h.congr hsame).quiet rfl fun _ => rfl, fun b hb => by cases hb⟩

end CountsUses

/-- In every run of calls of a process that starts with empty tables, a page that is evicted has,
modulo 2048, been found accessed at the fewest ticks since it was linked. So while no resident page
has been found accessed at 2048 ticks or more since it was linked, the page that is evicted is a
least used one. Counting never changes the address beside a counter. -/
theorem nfu_evicts_least (hpol : Build.policy = .nfu) {s0 : Kernel} {r : Int}
    (h0 : initFreshSwap p s0 = .ok (r, s)) (hrun : Run (NfuStep p) s t s') :
    (∀ e s'' b, NfuStep p s' e s'' → e.evicts = some b →
      b ∈ resident (s'.proc p) ∧
      (∀ c ∈ resident (s'.proc p), uses t b % 2048 ≤ uses t c % 2048) ∧
      ((∀ c ∈ resident (s'.proc p), uses t c < 2048) →
        ∀ c ∈ resident (s'.proc p), uses t b ≤ uses t c)) ∧
    ∀ seen s'', NfuStep p s' (.tick seen) s'' →
      ∀ i, entryAddr ((s''.proc p).vpaMemory i) = entryAddr ((s'.proc p).vpaMemory i) := by
  have hstart : CountsUses (s.proc p) [] := by
    suffices hwp : wp (initFreshSwap p) (fun _ => True) (fun _ s => CountsUses (s.proc p) []) s0 from
      of_wp hwp h0
    unfold initFreshSwap
    refine wp_seq (getProc_wp (wp_seq (setProc_wp (createSwapFile_wp fun f => ?_))))
    have hk : (((s0.setProc p (s0.proc p).freshTables).withFile p f).proc p).sizeMem = 0 := by
      simp [Kernel.withFile, Kernel.setProc, Kernel.setFile, Proc.freshTables]
    refine ⟨?_, ?_, ?_⟩ <;> rw [hk]
    · exact Nat.zero_le _
    · exact fun i hi => absurd hi (Nat.not_lt_zero i)
    · exact fun i hi => absurd hi (Nat.not_lt_zero i)
  have h : CountsUses (s'.proc p) t := hrun.trace (I := fun t s => CountsUses (s.proc p) t)
    (fun h hs => (h.step hpol hs).1) hstart
  refine ⟨fun e s'' b hs hb => ?_, fun seen s'' hs i => ?_⟩
  · obtain ⟨hin, hle⟩ := (h.step hpol hs).2 b hb
    refine ⟨hin, hle, fun hlt c hc => ?_⟩
    have := hle c hc
    rwa [Nat.mod_eq_of_lt (hlt b hin), Nat.mod_eq_of_lt (hlt c hc)] at this
  · cases hs with
    | tick htick =>
      have hproc := of_wp (nfuIncrementLoop_any (E := fun _ => True) _ 0 s' h.pages_inj
        fun _ _ _ _ => trivial) htick
      rw [hproc, Function.update_self]
      change entryAddr (usedEntries s' p 0 (s'.proc p).sizeMem i) = _
      unfold usedEntries
      split
      · exact entryAddr_countUse _
      · rfl

end

/-! ## A counter that wraps around -/

section

/-- A process with the entries `T`, whose pages are all mapped; the accessed bit of page `i + 1` is
set if `acc i`. -/
def touchKernel (T : Nat → Word) (n : Nat) (acc : Nat → Bool) : Kernel where
  mem := fun _ _ => 0
  dirs := fun _ => ⟨fun _ => PTE_P, fun _ j =>
    pageWord (57140 + j) ||| PTE_P ||| if acc (j - 1) then PTE_A else 0⟩
  freelist := []
  totalFreePages := 0
  proc := fun _ => { emptyProc with pid := 1, swapFile := true, vpaMemory := T, sizeMem := n }
  initproc := 0
  nextpid := 2
  cur := 0
  cr3 := 0
  files := fun _ => some ⟨0, fun _ => 0⟩
  cons := []

variable [Build]

/-- Some run ends with `n` entries `T`, and page `i + 1` has been used `U i` times. -/
def Reached (T : Nat → Word) (n : Nat) (U : Nat → Nat) : Prop :=
  ∃ r s t s', initFreshSwap 0 (touchKernel (fun _ => 0) 0 fun _ => false) = .ok (r, s) ∧
    Run (NfuStep 0) s t s' ∧ (s'.proc 0).vpaMemory = T ∧ (s'.proc 0).sizeMem = n ∧
    ∀ i < n, uses t ((i + 1) * PGSIZE) = U i

/-- Pages 1 to `n` in order. -/
def PagesInOrder (T : Nat → Word) (n : Nat) : Prop :=
  ∀ i < n, entryAddr (T i) = (i + 1) * PGSIZE

variable {T : Nat → Word} {n : Nat} {U : Nat → Nat}

namespace Reached

theorem start : Reached (fun _ => 0) 0 fun _ => 0 :=
  ⟨0, _, [], _, rfl, .refl _, rfl, rfl, fun i hi => absurd hi (Nat.not_lt_zero i)⟩

/-- Linking the next page. -/
theorem link (hpol : Build.policy = .nfu) (h : Reached T n U) (hT : PagesInOrder T n)
    (hn : n < MAX_PSYC_PAGES) :
    Reached (Function.update T n (BitVec.ofNat 32 ((n + 1) * PGSIZE))) (n + 1)
      (Function.update U n 0) := by
  obtain ⟨r, s, t, s', h0, hrun, hmem, hsize, huses⟩ := h
  have hword : (n + 1) * PGSIZE < 2 ^ 32 := by
    simp only [MAX_PSYC_PAGES, PGSIZE] at *
    omega
  have hpush : linkNewPage 0 ((n + 1) * PGSIZE) s' =
      .ok (0, s'.setProc 0 (pushMemory (s'.proc 0) ((n + 1) * PGSIZE))) := by
    obtain ⟨r', s'', hok, rfl, rfl⟩ := exists_of_wp (linkNewPage_push (E := fun _ => False) (s := s')
      (c := 0) (u := n + 1) (Q := fun r s'' => r = 0 ∧
        s'' = s'.setProc 0 (pushMemory (s'.proc 0) ((n + 1) * PGSIZE))) (by omega) ⟨rfl, rfl⟩)
    exact hok
  have hnew : (n + 1) * PGSIZE ∉ resident (s'.proc 0) := by
    rw [mem_resident_nfu hpol, hmem, hsize]
    rintro ⟨i, hi, he⟩
    rw [hT i hi] at he
    simp only [PGSIZE] at he
    omega
  have hself : (s'.setProc 0 (pushMemory (s'.proc 0) ((n + 1) * PGSIZE))).proc 0 =
      (s'.proc 0).withMem (Function.update (s'.proc 0).vpaMemory (s'.proc 0).sizeMem
        (BitVec.ofNat 32 ((n + 1) * PGSIZE))) ((s'.proc 0).sizeMem + 1) (s'.proc 0).qHead
        (s'.proc 0).qTail := by
    simp only [Kernel.setProc, Function.update_self, pushMemory, hpol]
    rfl
  refine ⟨r, s, _, _, h0, hrun.snoc (.link (Nat.mul_mod_left _ _) hword hnew hpush), ?_, ?_, ?_⟩
  · rw [hself, hmem, hsize]
    rfl
  · rw [hself, hsize]
    rfl
  · intro i hi
    by_cases he : i = n
    · rw [he, Function.update_self, uses_linked _ rfl]
    · rw [Function.update_of_ne he, uses_snoc, huses i (by omega)]
      · rfl
      · intro hc
        have := Option.some.inj hc
        simp only [PGSIZE] at this
        omega

/-- A tick that finds the pages of `acc` accessed. -/
theorem tick (h : Reached T n U) (hT : PagesInOrder T n) (hn : n ≤ MAX_PSYC_PAGES) (acc : Nat → Bool) :
    Reached (fun i => if i < n ∧ acc i = true then countUse (T i) else T i) n
      fun i => U i + (acc i).toNat := by
  obtain ⟨r, s, t, s', h0, hrun, hmem, hsize, huses⟩ := h
  have hpage : ∀ i < n, pageNo (T i) = i + 1 := fun i hi => by
    rw [← entryAddr_div, hT i hi, Nat.mul_div_cancel _ (by decide)]
  have hsees : ∀ i < n, accessed (touchKernel T n acc) 0 i = acc i := by
    intro i hi
    simp only [MAX_PSYC_PAGES] at hn
    unfold accessed touchKernel PageDir.pte
    dsimp only
    rw [hpage i hi, has_bit (by decide) (by decide), if_pos (by decide), has_or _ _ (by decide),
      has_or _ _ (by decide), show (i + 1) % 1024 - 1 = i by omega, has_pageWord _ (by decide),
      has_bit (by decide) (by decide)]
    cases acc i
    · rw [if_neg Bool.false_ne_true, has_zero]
      decide
    · rw [if_pos rfl, has_bit (by decide) (by decide)]
      decide
  have hwp := nfuIncrementLoop_any (E := fun _ => False) (p := 0) n 0 (touchKernel T n acc)
    (fun j k _ hjk hk he => by
      change pageNo (T j) = pageNo (T k) at he
      rw [hpage j (by omega), hpage k (by omega)] at he
      omega)
    fun j _ _ hno => by
      unfold PageDir.hasTable touchKernel at hno
      rw [has_bit (by decide) (by decide)] at hno
      exact absurd hno (by decide)
  obtain ⟨⟨⟩, s'', htick, hproc⟩ := exists_of_wp hwp
  have hself : s''.proc 0 = ((touchKernel T n acc).proc 0).withEntries
      (usedEntries (touchKernel T n acc) 0 0 n) := by
    rw [hproc, Function.update_self]
  have htouch : NfuStep 0 s' .other (touchKernel T n acc) := .other ⟨hmem.symm, hsize.symm⟩
  refine ⟨r, s, _, s'', h0, (hrun.snoc htouch).snoc (.tick htick), ?_, ?_, fun i hi => ?_⟩
  · rw [hself]
    funext i
    change usedEntries (touchKernel T n acc) 0 0 n i = _
    by_cases hi : i < n
    · rw [usedEntries_of_mem (Nat.zero_le i) (by omega), hsees i hi]
      exact if_congr ⟨fun h => ⟨hi, h⟩, fun h => h.2⟩ rfl rfl
    · rw [usedEntries_of_not (by omega), if_neg fun h => hi h.1]
      rfl
  · rw [hself]
    rfl
  · rw [uses_snoc _ (by exact nofun), uses_snoc _ (by exact nofun), huses i hi]
    have hseen := sees_seenPages (s := touchKernel T n acc) (p := 0) (fun i hi j hj he => by
      change entryAddr (T i) = entryAddr (T j) at he
      rw [hT i hi, hT j hj] at he
      simp only [PGSIZE] at he
      omega) hi
    rw [hsees i hi] at hseen
    change U i + 0 + (sees ((i + 1) * PGSIZE) (.tick (seenPages (touchKernel T n acc) 0))).toNat =
      U i + (acc i).toNat
    rw [← hseen, ← hT i hi]
    rfl

theorem ticks (h : Reached T n U) (hT : PagesInOrder T n) (hn : n ≤ MAX_PSYC_PAGES)
    (acc : Nat → Bool) (k : Nat) :
    Reached (fun i => if i < n ∧ acc i = true then countUse^[k] (T i) else T i) n
      fun i => U i + k * (acc i).toNat := by
  induction k with
  | zero =>
    simp only [Function.iterate_zero, id_eq, ite_self, Nat.zero_mul, Nat.add_zero]
    exact h
  | succ k ih =>
    have hnext := ih.tick (fun i hi => ?_) hn acc
    · convert hnext using 1
      · funext i
        split
        · rw [Function.iterate_succ_apply']
        · rfl
      · funext i
        rw [Nat.succ_mul, Nat.add_assoc]
    · rw [← hT i hi]
      dsimp only
      split
      · exact entryAddr_iterate _ _
      · rfl

/-- The first `n` pages are linked, none of them used. -/
def linkedEntries (n : Nat) : Nat → Word := fun i =>
  if i < n then BitVec.ofNat 32 ((i + 1) * PGSIZE) else 0

omit [Build] in
theorem linkedEntries_inOrder {n : Nat} (hn : n ≤ MAX_PSYC_PAGES) : PagesInOrder (linkedEntries n) n := by
  intro i hi
  unfold linkedEntries
  rw [if_pos hi, entryAddr_ofNat (Nat.mul_mod_left _ _)]
  simp only [MAX_PSYC_PAGES, PGSIZE] at *
  omega

theorem links (hpol : Build.policy = .nfu) : ∀ n ≤ MAX_PSYC_PAGES, Reached (linkedEntries n) n fun _ => 0 := by
  intro n
  induction n with
  | zero => exact fun _ => start
  | succ n ih =>
    intro hn
    have hnext := (ih (by omega)).link hpol (linkedEntries_inOrder (by omega)) hn
    rw [Function.update_eq_self] at hnext
    convert hnext using 1
    funext i
    unfold linkedEntries
    rw [Function.update_apply]
    by_cases he : i = n
    · rw [if_pos he, he, if_pos (Nat.lt_succ_self n)]
    · rw [if_neg he]
      exact if_congr (by omega) rfl rfl

/-- From the entries that were reached, linking one more page. -/
theorem evict {s' : Kernel} (h : Reached T n U) (acc : Nat → Bool) {a b : Nat}
    (ha : a % PGSIZE = 0) (hlt : a < 2 ^ 32) (hnew : a ∉ resident ((touchKernel T n acc).proc 0))
    (hok : linkNewPage 0 a (touchKernel T n acc) = .ok (0, s'))
    (hout : leftMemory ((touchKernel T n acc).proc 0) (s'.proc 0) = some b) :
    ∃ r s1 t, initFreshSwap 0 (touchKernel (fun _ => 0) 0 fun _ => false) = .ok (r, s1) ∧
      Run (NfuStep 0) s1 t (touchKernel T n acc) ∧
      NfuStep 0 (touchKernel T n acc) (.link a (some b)) s' ∧
      ∀ i < n, uses t ((i + 1) * PGSIZE) = U i := by
  obtain ⟨r, s, t, s1, h0, hrun, hmem, hsize, huses⟩ := h
  have htouch : NfuStep 0 s1 .other (touchKernel T n acc) := .other ⟨hmem.symm, hsize.symm⟩
  refine ⟨r, s, _, h0, hrun.snoc htouch, hout ▸ .link ha hlt hnew hok, fun i hi => ?_⟩
  rw [uses_snoc _ (by exact nofun), huses i hi]
  rfl

end Reached

end

/-- The table when fifteen pages are linked and page 1 has been used 2048 times, the others once. -/
def wrappedEntries : Nat → Word := fun i =>
  if i = 0 then 0x1000#32 else if i < 15 then BitVec.ofNat 32 ((i + 1) * PGSIZE + 1) else 0

theorem countUse_wraps : countUse^[2048] 0x1000#32 = 0x1000#32 := by decide +kernel

theorem countUse_once : ∀ i < 15, countUse (Reached.linkedEntries 15 i) =
    BitVec.ofNat 32 ((i + 1) * PGSIZE + 1) := by decide +kernel

theorem wrapped_reached :
    let _ := smallBuild .nfu
    Reached wrappedEntries 15 fun i => if i = 0 then 2048 else 1 := by
  let _ := smallBuild .nfu
  have hin := Reached.linkedEntries_inOrder (n := 15) (by decide)
  -- 2048 ticks that find page 1 accessed, then one that finds the others
  have h1 := (Reached.links rfl 15 (by decide)).ticks hin (by decide) (fun i => i == 0) 2048
  have h2 := h1.tick (fun i hi => ?_) (by decide) fun i => i != 0
  · convert h2 using 1
    · funext i
      unfold wrappedEntries
      by_cases h0 : i = 0
      · rw [h0, if_pos rfl, if_neg (by decide), if_pos (by decide),
          show Reached.linkedEntries 15 0 = 0x1000#32 by decide]
        exact countUse_wraps.symm
      · by_cases hlt : i < 15
        · simp [h0, hlt, countUse_once i hlt]
        · simp [h0, hlt, Reached.linkedEntries]
    · funext i
      by_cases h0 : i = 0
      · rw [h0]
        rfl
      · rw [if_neg h0, beq_false_of_ne h0, bne, beq_false_of_ne h0]
        rfl
  · rw [← hin i hi]
    dsimp only
    split
    · exact entryAddr_iterate _ _
    · rfl

/-- Page 1 is evicted although it was used 2048 times and every other page once. -/
theorem nfu_counter_wraps :
    let _ := smallBuild .nfu
    ∃ r s t s' s'', initFreshSwap 0 (touchKernel (fun _ => 0) 0 fun _ => false) = .ok (r, s) ∧
      Run (NfuStep 0) s t s' ∧ NfuStep 0 s' (.link (16 * PGSIZE) (some (1 * PGSIZE))) s'' ∧
      2 * PGSIZE ∈ resident (s'.proc 0) ∧ uses t (1 * PGSIZE) = 2048 ∧ uses t (2 * PGSIZE) = 1 := by
  let _ := smallBuild .nfu
  have hok : returns (linkNewPage 0 (16 * PGSIZE) (touchKernel wrappedEntries 15 fun _ => false))
      (fun r s' => decide (r = 0 ∧ leftMemory ((touchKernel wrappedEntries 15 fun _ => false).proc 0)
        (s'.proc 0) = some (1 * PGSIZE))) = true := by decide +kernel
  obtain ⟨r, s'', hrun, htest⟩ := of_returns hok
  obtain ⟨rfl, hout⟩ := of_decide_eq_true htest
  obtain ⟨r, s, t, h0, hr, hs, huses⟩ := wrapped_reached.evict (fun _ => false) (by decide) (by decide)
    (by decide +kernel) hrun hout
  exact ⟨r, s, t, _, s'', h0, hr, hs, by decide +kernel, huses 0 (by decide), huses 1 (by decide)⟩

/-- Fifteen pages that were never used: the scan ends at the last of them. -/
theorem nfu_evicts_least_unused :
    let _ := smallBuild .nfu
    ∃ s t s' s'', Run (NfuStep 0) s t s' ∧ NfuStep 0 s' (.link (16 * PGSIZE) (some (15 * PGSIZE))) s'' ∧
      ∀ c ∈ resident (s'.proc 0), uses t (15 * PGSIZE) % 2048 ≤ uses t c % 2048 := by
  let _ := smallBuild .nfu
  have hok : returns (linkNewPage 0 (16 * PGSIZE)
        (touchKernel (Reached.linkedEntries 15) 15 fun _ => false))
      (fun r s' => decide (r = 0 ∧ leftMemory
        ((touchKernel (Reached.linkedEntries 15) 15 fun _ => false).proc 0) (s'.proc 0) =
          some (15 * PGSIZE))) = true := by decide +kernel
  obtain ⟨r, s'', hrun, htest⟩ := of_returns hok
  obtain ⟨rfl, hout⟩ := of_decide_eq_true htest
  obtain ⟨r, s, t, h0, hr, hs, -⟩ := (Reached.links rfl 15 (by decide)).evict (fun _ => false)
    (by decide) (by decide) (by decide +kernel) hrun hout
  exact ⟨s, t, _, s'', hr, hs, ((nfu_evicts_least rfl h0 hr).1 _ _ _ hs rfl).2.1⟩

end Xv6
