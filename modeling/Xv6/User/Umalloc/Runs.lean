import Xv6.Lib.Run
import Xv6.User.Umalloc.Malloc

/-!
# Programs that use the allocator

A program calls `malloc` and `free` in any order and writes into its blocks. What is allocated is
kept beside the heap.
-/

namespace Xv6.Umalloc

open Lib

structure Sys where
  heap : Heap
  /-- The blocks that `malloc` returned and that were not freed: header address and length. -/
  alloc : List (Nat × Nat)

inductive Ev where
  | malloc (nbytes : BitVec 32) (r : Nat)
  | free (ap : Nat)
  | write

variable {base : Nat} {env : Env}

/-- The bytes that the program may write: those of its blocks, and those outside of the heap. -/
def Writable (base : Nat) (s : Sys) (x : Nat) : Prop :=
  (∃ b ∈ s.alloc, b.1 + HDR ≤ x ∧ x < b.1 + b.2) ∨
    (¬ (base ≤ x ∧ x < base + HDR) ∧ ∀ r ∈ regions s.heap.calls, ¬ (r.1 ≤ x ∧ x < r.1 + r.2))

inductive Step (base : Nat) (env : Env) : Sys → Ev → Sys → Prop
  | malloc {s : Sys} {nbytes : BitVec 32} {fuel r : Nat} {h' : Heap}
      (hr : malloc env base fuel nbytes s.heap = .ok (r, h')) :
      Step base env s (.malloc nbytes r)
        ⟨h', if r = 0 then s.alloc else (r - HDR, HDR * nunits nbytes) :: s.alloc⟩
  | free {s : Sys} {b : Nat × Nat} {fuel : Nat} {h' : Heap} (hb : b ∈ s.alloc)
      (hr : free fuel (b.1 + HDR) s.heap = .ok ((), h')) :
      Step base env s (.free (b.1 + HDR)) ⟨h', s.alloc.erase b⟩
  | write {s : Sys} {m : Nat → BitVec 8} (hm : ∀ x, m x ≠ s.heap.mem x → Writable base s x) :
      Step base env s .write ⟨{ s.heap with mem := m }, s.alloc⟩

/-- Before the first call. -/
structure Start (s : Sys) : Prop where
  freep : s.heap.freep = 0
  calls : s.heap.calls = []
  alloc : s.alloc = []

/-! ## Sizes -/

theorem nunits_eq {nbytes : BitVec 32} (h : nbytes.toNat ≤ 2 ^ 32 - 8) : nunits nbytes = (nbytes.toNat + 7) / 8 + 1 := by
  unfold nunits HDR
  rw [BitVec.toNat_add, Nat.mod_eq_of_lt (by change nbytes.toNat + 7 < 2 ^ 32; omega)]
  rfl

/-- The request fits into an `int`. -/
theorem coreUnits_lt {nbytes : BitVec 32} (h : nbytes.toNat ≤ 2 ^ 31 - 16) : HDR * coreUnits (nunits nbytes) < 2 ^ 31 := by
  rw [nunits_eq (by omega)]
  unfold coreUnits HDR
  split <;> omega

theorem room {nbytes : BitVec 32} (h : nbytes.toNat ≤ 2 ^ 32 - 8) : nbytes.toNat ≤ HDR * (nunits nbytes - 1) := by
  rw [nunits_eq h]
  unfold HDR
  omega

/-! ## Every step keeps the heap -/

theorem Inv.perm {h : Heap} {L A A' R : List (Nat × Nat)} (hI : Inv base h L A R) (hp : A.Perm A') : Inv base h L A' R := by
  refine ⟨hI.pos, hI.fits, hI.links, hI.baseSize, hI.sorted, hI.freep, fun b hb => ?_, fun b hb => hI.alloc b (hp.mem_iff.2 hb),
    fun x => ?_, hI.once, hI.low, hI.top⟩
  · exact hI.units b ((hp.append_left L).mem_iff.2 hb)
  · rw [← hI.tiled x]
    exact (times_perm ((hp.append_left L).cons _) x).symm

theorem free_ready {s : Sys} {b : Nat × Nat} (hR : Ready base s.heap s.alloc) (hb : b ∈ s.alloc) :
    ∃ k, ∀ fuel, wp (free fuel (b.1 + HDR)) (fun _ => fuel ≤ k) (fun _ h' => Ready base h' (s.alloc.erase b)) s.heap := by
  rcases hR with ⟨-, hA, -⟩ | ⟨L, hI⟩
  · rw [hA] at hb
    cases hb
  · have hI' := hI.perm (List.perm_cons_erase hb)
    refine ⟨2 * L.length + 1, fun fuel => wp_post (free_wp hI' fuel) fun _ h' ⟨L', hF⟩ => .inr ⟨L', ?_⟩⟩
    rw [hF.calls]
    exact hF.inv

/-- A header of the heap is not writable. -/
theorem Inv.not_writable {s : Sys} {L : List (Nat × Nat)} (hI : Inv base s.heap L s.alloc (regions s.heap.calls))
    {q x : Nat} (hq : q ∈ base :: (L ++ s.alloc).map Prod.fst) (h1 : q ≤ x) (h2 : x < q + HDR) : ¬ Writable base s x := by
  rintro (⟨b, hb, hx1, hx2⟩ | ⟨hnot, hout⟩)
  · have hb' : b ∈ L ++ s.alloc := List.mem_append_right _ hb
    rcases List.mem_cons.1 hq with rfl | hq
    · have := (hI.bounds hb').1
      omega
    · obtain ⟨c, hc, rfl⟩ := List.mem_map.1 hq
      have hc8 := hI.units c hc
      by_cases hcb : c = b
      · rw [hcb] at h2
        omega
      · have hd : Disj c b := (List.pairwise_cons.1 hI.disj).2.forall hc hb' hcb
        unfold Disj at hd
        omega
  · rcases List.mem_cons.1 hq with rfl | hq
    · exact hnot ⟨h1, h2⟩
    · obtain ⟨c, hc, rfl⟩ := List.mem_map.1 hq
      have hc8 := hI.units c hc
      obtain ⟨r, hr, hx⟩ := hI.in_region hc h1 (by omega)
      exact hout r hr hx

theorem write_ready {s : Sys} {m : Nat → BitVec 8} (hR : Ready base s.heap s.alloc)
    (hm : ∀ x, m x ≠ s.heap.mem x → Writable base s x) : Ready base { s.heap with mem := m } s.alloc := by
  rcases hR with hR | ⟨L, hI⟩
  · exact .inl hR
  · have hsame : ∀ q ∈ base :: (L ++ s.alloc).map Prod.fst, Same s.heap { s.heap with mem := m } q := by
      intro q hq
      refine same_of_bytes fun x h1 h2 => ?_
      by_contra hne
      exact hI.not_writable hq h1 h2 (hm x hne)
    have hbase := hsame base List.mem_cons_self
    have hblock : ∀ b ∈ L ++ s.alloc, Same s.heap { s.heap with mem := m } b.1 :=
      fun b hb => hsame b.1 (List.mem_cons_of_mem _ (List.mem_map_of_mem hb))
    refine .inr ⟨L, hI.pos, hI.fits, hI.links.congr hbase.1 fun c hc => hblock c (List.mem_append_left _ hc),
      hbase.2.trans hI.baseSize, hI.sorted, hI.freep, hI.units, fun b hb => ?_, hI.tiled, hI.once, hI.low, hI.top⟩
    exact (congrArg (HDR * ·) (hblock b (List.mem_append_right _ hb)).2).trans (hI.alloc b hb)

/-- The requests of a trace are small enough for `morecore`. -/
def Modest (e : Ev) : Prop := ∀ nbytes r, e = .malloc nbytes r → nbytes.toNat ≤ 2 ^ 31 - 16

theorem ret_ne (a : Nat) : a + HDR ≠ 0 := Nat.succ_ne_zero (a + 7)

theorem Got.ready {s : Sys} {nbytes : BitVec 32} {r : Nat} {h' : Heap} (hg : Got base s.heap s.alloc (nunits nbytes) r h') :
    Ready base h' (if r = 0 then s.alloc else (r - HDR, HDR * nunits nbytes) :: s.alloc) := by
  rcases hg.result with ⟨rfl, L', hI⟩ | ⟨a, L', rfl, hI⟩
  · exact .inr ⟨L', hI⟩
  · rw [if_neg (ret_ne a), Nat.add_sub_cancel]
    exact .inr ⟨L', hI⟩

section

variable (hbase : 0 < base) (hfits : base + HDR ≤ 2 ^ 32) (henv : Fresh base env)
include hbase hfits henv

theorem Ready.step {s s' : Sys} {e : Ev} (he : Modest e) (hR : Ready base s.heap s.alloc) (hs : Step base env s e s') :
    Ready base s'.heap s'.alloc := by
  cases hs with
  | @malloc nbytes fuel r h' hr =>
    obtain ⟨b, hwp⟩ := malloc_wp hbase hfits henv hR (coreUnits_lt (he nbytes r rfl))
    exact (of_wp (hwp fuel) hr).ready
  | @free b fuel h' hb hr =>
    obtain ⟨k, hwp⟩ := free_ready hR hb
    exact of_wp (hwp fuel) hr
  | write hm => exact write_ready hR hm

theorem ready_of_run {s₀ s : Sys} {t : List Ev} (h0 : Start s₀) (hrun : Run (Step base env) s₀ t s) (ht : ∀ e ∈ t, Modest e) :
    Ready base s.heap s.alloc :=
  hrun.invariant (I := fun s => Ready base s.heap s.alloc) (fun he hR hs => Ready.step hbase hfits henv he hR hs) ht
    (.inl ⟨h0.freep, h0.alloc, h0.calls⟩)

end

/-- The free list, and the blocks in the regions. -/
structure Consistent (base : Nat) (h : Heap) (L A : List (Nat × Nat)) : Prop where
  /-- One cycle through `base`, which goes up except at the end. -/
  cycle : Links h base L base
  up : (base :: L.map Prod.fst).Pairwise (· < ·)
  start : h.freep ∈ base :: L.map Prod.fst
  size : ∀ b ∈ L ++ A, HDR * h.size b.1 = b.2 ∧ 0 < b.2
  disjoint : (L ++ A).Pairwise Disj
  cover : ∀ x, (∃ b ∈ L ++ A, b.1 ≤ x ∧ x < b.1 + b.2) ↔ ∃ r ∈ regions h.calls, r.1 ≤ x ∧ x < r.1 + r.2
  gaps : ∀ b ∈ L, ∀ c ∈ L, b.1 + b.2 ≠ c.1

/-- Two free blocks are apart in one order or the other. -/
theorem Inv.gap_or {h : Heap} {L A R : List (Nat × Nat)} (hI : Inv base h L A R) {b c : Nat × Nat} (hb : b ∈ L) (hc : c ∈ L)
    (hne : b ≠ c) : Gap b c ∨ Gap c b := by
  have hs : L.Pairwise fun a b => Gap a b ∨ Gap b a := (List.pairwise_cons.1 hI.sorted).2.imp fun h => .inl h
  have : Std.Symm fun a b : Nat × Nat => Gap a b ∨ Gap b a := ⟨fun _ _ h => h.symm⟩
  exact hs.forall hb hc hne

theorem Inv.consistent {h : Heap} {L A : List (Nat × Nat)} (hI : Inv base h L A (regions h.calls)) : Consistent base h L A := by
  refine ⟨hI.links, ?_, ?_, fun b hb => ⟨?_, ?_⟩, (List.pairwise_cons.1 hI.disj).2, fun x => ⟨?_, ?_⟩, fun b hb c hc he => ?_⟩
  · have hmap : (((base, 0) :: L).map Prod.fst).Pairwise (· < ·) := by
      refine List.Pairwise.map _ (fun b c hbc => ?_) hI.sorted
      exact Nat.lt_of_le_of_lt (Nat.le_add_right ..) hbc
    exact hmap
  · rcases hI.freep with hf | ⟨n, hn⟩
    · rw [hf]
      exact List.mem_cons_self
    · exact List.mem_cons_of_mem _ (List.mem_map_of_mem hn)
  · exact (List.mem_append.1 hb).elim hI.size_free (hI.alloc b)
  · exact Nat.lt_of_lt_of_le (Nat.succ_pos _) (hI.units b hb)
  · rintro ⟨b, hb, h1, h2⟩
    exact hI.in_region hb h1 h2
  · rintro ⟨r, hr, h1, h2⟩
    have hpos := times_pos_of_mem (List.mem_cons_of_mem (base, HDR) hr) h1 h2
    rw [← hI.tiled x] at hpos
    obtain ⟨b, hb, hx1, hx2⟩ := exists_of_times_pos hpos
    rcases List.mem_cons.1 hb with rfl | hb
    · have := hI.low r hr
      dsimp only at hx2
      omega
    · exact ⟨b, hb, hx1, hx2⟩
  · by_cases hbc : b = c
    · have := hI.units b (List.mem_append_left _ hb)
      unfold HDR at this
      rw [hbc] at he this
      omega
    · have hg := hI.gap_or hb hc hbc
      unfold Gap at hg
      omega

section

variable (hbase : 0 < base) (hfits : base + HDR ≤ 2 ^ 32) (henv : Fresh base env)
include hbase hfits henv

theorem malloc_steps {s : Sys} {nbytes : BitVec 32} (hR : Ready base s.heap s.alloc) (hn : nbytes.toNat ≤ 2 ^ 31 - 16) :
    ∃ r s', Step base env s (.malloc nbytes r) s' := by
  obtain ⟨b, hwp⟩ := malloc_wp hbase hfits henv hR (coreUnits_lt hn)
  obtain ⟨fuel, r, h', hr, -⟩ := exists_fuel hwp
  exact ⟨r, _, .malloc hr⟩

theorem malloc_block {s s' : Sys} {nbytes : BitVec 32} {r : Nat} (hR : Ready base s.heap s.alloc) (hn : nbytes.toNat ≤ 2 ^ 31 - 16)
    (hs : Step base env s (.malloc nbytes r) s') : r = 0 ∨ ∃ b ∈ s'.alloc, r = b.1 + HDR ∧ nbytes.toNat + HDR ≤ b.2 := by
  cases hs with
  | @malloc _ fuel _ h' hr =>
    obtain ⟨b, hwp⟩ := malloc_wp hbase hfits henv hR (coreUnits_lt hn)
    have hg := of_wp (hwp fuel) hr
    rcases hg.result with ⟨h0, -⟩ | ⟨a, L', rfl, hI⟩
    · exact .inl h0
    · have hroom := room (Nat.le_trans hn (by decide))
      refine .inr ⟨(a, HDR * nunits nbytes), ?_, rfl, ?_⟩
      · dsimp only
        rw [if_neg (ret_ne a), Nat.add_sub_cancel]
        exact List.mem_cons_self
      · unfold HDR at *
        dsimp only
        have : 1 ≤ nunits nbytes := Nat.le_add_left 1 _
        omega

end

theorem free_steps {s : Sys} {b : Nat × Nat} (hR : Ready base s.heap s.alloc) (hb : b ∈ s.alloc) :
    ∃ s', Step base env s (.free (b.1 + HDR)) s' := by
  obtain ⟨k, hwp⟩ := free_ready hR hb
  obtain ⟨fuel, _, h', hr, -⟩ := exists_fuel hwp
  exact ⟨_, .free hb hr⟩

/-- The heap of every program with requests below `2 ^ 28` bytes. -/
theorem heap_consistent {s₀ s : Sys} {t : List Ev} (hbase : 0 < base) (hfits : base + HDR ≤ 2 ^ 32) (henv : Fresh base env)
    (h0 : Start s₀) (hrun : Run (Step base env) s₀ t s)
    (ht : ∀ nbytes r, .malloc nbytes r ∈ t → nbytes.toNat < 2 ^ 28) :
    ((s.heap.freep = 0 ∧ s.alloc = [] ∧ s.heap.calls = []) ∨ ∃ L, Consistent base s.heap L s.alloc) ∧
    (∀ nbytes : BitVec 32, nbytes.toNat < 2 ^ 28 → (∃ r s', Step base env s (.malloc nbytes r) s') ∧
      ∀ r s', Step base env s (.malloc nbytes r) s' → r = 0 ∨ ∃ b ∈ s'.alloc, r = b.1 + HDR ∧ nbytes.toNat + HDR ≤ b.2) ∧
    ∀ b ∈ s.alloc, ∃ s', Step base env s (.free (b.1 + HDR)) s' := by
  have hR : Ready base s.heap s.alloc := by
    refine ready_of_run hbase hfits henv h0 hrun fun e he nbytes r hmal => ?_
    have := ht nbytes r (hmal ▸ he)
    omega
  refine ⟨hR.imp_right fun ⟨L, hI⟩ => ⟨L, hI.consistent⟩, fun nbytes hn => ⟨?_, fun r s' hs => ?_⟩, fun b hb => free_steps hR hb⟩
  · exact malloc_steps hbase hfits henv hR (by omega)
  · exact malloc_block hbase hfits henv hR (by omega) hs

/-- An `sbrk` that gives one region, at `q`, and nothing after that. -/
def onceAt (q : Nat) : Env := fun calls n => if calls = [] ∧ n < 2 ^ 31 then q else 2 ^ 32 - 1

theorem fresh_onceAt {q : Nat} (hlow : base + HDR ≤ q) (htop : q ≤ 2 ^ 31) : Fresh base (onceAt q) := by
  intro calls n _
  unfold onceAt
  by_cases hc : calls = [] ∧ (n : Int) < 2 ^ 31
  · rw [if_pos hc]
    refine .inr ⟨hlow, fun r hr => ?_, by omega⟩
    rw [hc.1] at hr
    cases hr
  · rw [if_neg hc]
    exact .inl rfl

def emptyHeap : Sys := ⟨⟨fun _ => 0, 0, []⟩, []⟩

/-- One byte is cut from the end of the first region. -/
theorem heap_consistent_one : ∃ s, Run (Step 4096 (onceAt 8192)) emptyHeap [.malloc 1 40952] s ∧
    ∃ L, Consistent 4096 s.heap L s.alloc ∧ s.alloc = [(40944, 16)] := by
  have hok : returns (malloc (onceAt 8192) 4096 4 1 emptyHeap.heap) (fun r _ => decide (r = 40952)) =
      true := by decide +kernel
  obtain ⟨r, h', hr, htest⟩ := of_returns hok
  obtain rfl := of_decide_eq_true htest
  have hrun : Run (Step 4096 (onceAt 8192)) emptyHeap [.malloc 1 40952] _ := .step (.malloc hr) (.refl _)
  refine ⟨_, hrun, ?_⟩
  have hsmall : ∀ (nbytes : BitVec 32) (r : Nat), Ev.malloc nbytes r ∈ [.malloc 1 40952] → nbytes.toNat < 2 ^ 28 := by
    intro nbytes r hm
    cases List.mem_singleton.1 hm
    decide
  have hstate := (heap_consistent (by decide) (by decide) (fresh_onceAt (by decide) (by decide)) ⟨rfl, rfl, rfl⟩ hrun
    hsmall).1
  rcases hstate with ⟨-, hA, -⟩ | ⟨L, hL⟩
  · cases hA
  · exact ⟨L, hL, rfl⟩

end Xv6.Umalloc
