import Mathlib.Data.List.Perm.Basic
import Xv6.Lib.Count
import Xv6.Swap.Table

/-!
# What the swap tables record

`resident p` lists the page addresses in the live entries of `VPA_Memory`, in link
order under `FIFO_SWAP`; `swapCount p a` counts the occupied slots of `VPA_Swap` that
hold page `a`. The two replacement policies are used by the rest of the development
only through the lemmas here: what entering, replacing and removing a page does to
`resident`.
-/

namespace Xv6

open Lib Finset

/-! ## Entries -/

theorem entryAddr_eq (w : Word) : entryAddr w = pageNo w * PGSIZE := toNat_and_not_4095 w

theorem entryAddr_mod (w : Word) : entryAddr w % PGSIZE = 0 := by
  rw [entryAddr_eq]; simp

theorem entryAddr_lt (w : Word) : entryAddr w < 2 ^ 32 := by
  have := pageNo_lt w
  rw [entryAddr_eq]
  simp only [PGSIZE]
  omega

theorem ofNat_eq_pageWord {a : Nat} (ha : a % PGSIZE = 0) :
    BitVec.ofNat 32 a = pageWord (a / PGSIZE) := by
  unfold pageWord
  congr 1
  simp only [PGSIZE] at *
  omega

theorem entryAddr_or {a : Nat} {f : Word} (ha : a % PGSIZE = 0) (hlt : a < 2 ^ 32)
    (hf : pageNo f = 0) : entryAddr (BitVec.ofNat 32 a ||| f) = a := by
  simp only [PGSIZE] at ha
  rw [entryAddr_eq, pageNo_or_flag _ hf, ofNat_eq_pageWord ha, pageNo_pageWord]
  · simp only [PGSIZE]; omega
  · simp only [PGSIZE]; omega

theorem entryAddr_ofNat {a : Nat} (ha : a % PGSIZE = 0) (hlt : a < 2 ^ 32) :
    entryAddr (BitVec.ofNat 32 a) = a := by
  simpa using entryAddr_or (f := 0) ha hlt (by decide)

/-- Change the `VPA_Memory` part of the tables. -/
def Proc.withMem (p : Proc) (mem : Nat → Word) (n h t : Nat) : Proc :=
  { p with vpaMemory := mem, sizeMem := n, qHead := h, qTail := t }

/-! ## The ring -/

/-- The addresses in `n` ring entries from `idx` on. -/
def ringAddrs (mem : Nat → Word) : Nat → Nat → List Nat
  | 0, _ => []
  | n + 1, idx => entryAddr (mem idx) :: ringAddrs mem n (circleNext idx)

theorem circleNext_eq {x : Nat} (h : x < MAX_PSYC_PAGES) :
    circleNext x = (x + 1) % MAX_PSYC_PAGES := by
  unfold circleNext
  simp only [MAX_PSYC_PAGES] at *
  split <;> omega

theorem circleNext_lt {x : Nat} (h : x < MAX_PSYC_PAGES) : circleNext x < MAX_PSYC_PAGES := by
  unfold circleNext
  simp only [MAX_PSYC_PAGES] at *
  split <;> omega

/-- `k` steps after the successor are `k + 1` steps. -/
theorem circleNext_add {x : Nat} (h : x < MAX_PSYC_PAGES) (k : Nat) :
    (circleNext x + k) % MAX_PSYC_PAGES = (x + (k + 1)) % MAX_PSYC_PAGES := by
  rw [circleNext_eq h]
  simp only [MAX_PSYC_PAGES] at *
  omega

theorem ringAddrs_length (mem : Nat → Word) (n idx : Nat) : (ringAddrs mem n idx).length = n := by
  induction n generalizing idx with
  | zero => rfl
  | succ n ih => simp [ringAddrs, ih]

theorem ringAddrs_mod {mem : Nat → Word} {n idx b : Nat} (h : b ∈ ringAddrs mem n idx) :
    b % PGSIZE = 0 := by
  induction n generalizing idx with
  | zero => cases h
  | succ n ih =>
    rw [ringAddrs, List.mem_cons] at h
    obtain rfl | h := h
    · exact entryAddr_mod _
    · exact ih h

theorem ringAddrs_congr {mem mem' : Nat → Word} {n idx : Nat} (hi : idx < MAX_PSYC_PAGES)
    (h : ∀ k < n, mem' ((idx + k) % MAX_PSYC_PAGES) = mem ((idx + k) % MAX_PSYC_PAGES)) :
    ringAddrs mem' n idx = ringAddrs mem n idx := by
  induction n generalizing idx with
  | zero => rfl
  | succ n ih =>
    have h0 := h 0 (by omega)
    rw [Nat.add_zero, Nat.mod_eq_of_lt hi] at h0
    simp only [ringAddrs, h0]
    rw [ih (circleNext_lt hi)]
    intro k hk
    rw [circleNext_add hi]
    exact h (k + 1) (by omega)

theorem ringAddrs_snoc {mem : Nat → Word} {n idx : Nat} (hi : idx < MAX_PSYC_PAGES) :
    ringAddrs mem (n + 1) idx =
      ringAddrs mem n idx ++ [entryAddr (mem ((idx + n) % MAX_PSYC_PAGES))] := by
  induction n generalizing idx with
  | zero => simp [ringAddrs, Nat.mod_eq_of_lt hi]
  | succ n ih =>
    rw [ringAddrs, ih (circleNext_lt hi), circleNext_add hi, ringAddrs]
    rfl

theorem fifoShift_idx {mem : Nat → Word} {n idx : Nat} (hi : idx < MAX_PSYC_PAGES) :
    (fifoShift n mem idx).2 = (idx + n) % MAX_PSYC_PAGES := by
  induction n generalizing idx mem with
  | zero => simp [fifoShift, Nat.mod_eq_of_lt hi]
  | succ n ih => rw [fifoShift, ih (circleNext_lt hi), circleNext_add hi]

theorem fifoShift_other {mem : Nat → Word} {n idx x : Nat} (hi : idx < MAX_PSYC_PAGES)
    (hx : ∀ k < n, x ≠ (idx + k) % MAX_PSYC_PAGES) : (fifoShift n mem idx).1 x = mem x := by
  induction n generalizing idx mem with
  | zero => rfl
  | succ n ih =>
    have h0 := hx 0 (by omega)
    rw [Nat.add_zero, Nat.mod_eq_of_lt hi] at h0
    rw [fifoShift, ih (circleNext_lt hi), Function.update_of_ne h0]
    intro k hk
    rw [circleNext_add hi]
    exact hx (k + 1) (by omega)

/-- Two ring positions less than a turn apart differ. -/
theorem ring_ne {x j k : Nat} (hj : j < k) (hk : k < MAX_PSYC_PAGES + j) :
    (x + j) % MAX_PSYC_PAGES ≠ (x + k) % MAX_PSYC_PAGES := by
  simp only [MAX_PSYC_PAGES] at *
  omega

/-- Shifting closes the gap: the window now holds what followed it. -/
theorem fifoShift_ring {mem : Nat → Word} {n idx : Nat} (hi : idx < MAX_PSYC_PAGES)
    (hn : n < MAX_PSYC_PAGES) :
    ringAddrs (fifoShift n mem idx).1 n idx = ringAddrs mem n (circleNext idx) := by
  induction n generalizing idx mem with
  | zero => rfl
  | succ n ih =>
    have hnext := circleNext_lt hi
    have hidx : (fifoShift n (Function.update mem idx (mem (circleNext idx)))
        (circleNext idx)).1 idx = mem (circleNext idx) := by
      rw [fifoShift_other hnext, Function.update_self]
      intro k hk
      rw [circleNext_add hi]
      have := ring_ne (x := idx) (j := 0) (k := k + 1) (by omega) (by omega)
      rwa [Nat.add_zero, Nat.mod_eq_of_lt hi] at this
    have htail : ringAddrs (Function.update mem idx (mem (circleNext idx))) n
        (circleNext (circleNext idx)) = ringAddrs mem n (circleNext (circleNext idx)) := by
      refine ringAddrs_congr (circleNext_lt hnext) fun k hk => Function.update_of_ne ?_ _ _
      rw [circleNext_add hnext, circleNext_add hi]
      have := ring_ne (x := idx) (j := 0) (k := k + 1 + 1) (by omega) (by omega)
      rw [Nat.add_zero, Nat.mod_eq_of_lt hi] at this
      exact this.symm
    rw [fifoShift, ringAddrs, hidx, ih hnext (by omega), htail, ringAddrs]

theorem fifoSearch_none {mem : Nat → Word} {a n idx : Nat} (h : a ∉ ringAddrs mem n idx) :
    fifoSearch mem a n idx = none := by
  induction n generalizing idx with
  | zero => rfl
  | succ n ih =>
    simp only [ringAddrs, List.mem_cons, not_or] at h
    rw [fifoSearch, if_neg (Ne.symm h.1), ih h.2]

/-- A successful search removes the first entry for `a` from the ring. -/
theorem fifoSearch_some {mem : Nat → Word} {a n idx : Nat} (hi : idx < MAX_PSYC_PAGES)
    (hn : n < MAX_PSYC_PAGES) (h : a ∈ ringAddrs mem (n + 1) idx) :
    ∃ mem', fifoSearch mem a (n + 1) idx = some (mem', (idx + n) % MAX_PSYC_PAGES) ∧
      ringAddrs mem' n idx = (ringAddrs mem (n + 1) idx).erase a ∧
      ∀ x, (∀ k < n, x ≠ (idx + k) % MAX_PSYC_PAGES) → mem' x = mem x := by
  induction n generalizing idx with
  | zero =>
    have ha : entryAddr (mem idx) = a := by simpa [ringAddrs, eq_comm] using h
    refine ⟨mem, ?_, ?_, fun _ _ => rfl⟩
    · simp [fifoSearch, ha, fifoShift, Nat.mod_eq_of_lt hi]
    · simp [ringAddrs, ha]
  | succ n ih =>
    by_cases ha : entryAddr (mem idx) = a
    · refine ⟨(fifoShift (n + 1) mem idx).1, ?_, ?_, fun x hx => fifoShift_other hi hx⟩
      · rw [fifoSearch, if_pos ha, ← fifoShift_idx hi]
      · rw [fifoShift_ring hi hn, ringAddrs.eq_2 mem idx (n + 1), ← ha, List.erase_cons_head]
    · have hmem : a ∈ ringAddrs mem (n + 1) (circleNext idx) := by
        rw [ringAddrs, List.mem_cons] at h
        exact h.resolve_left fun e => ha e.symm
      obtain ⟨mem', h1, h2, h3⟩ := ih (circleNext_lt hi) (by omega) hmem
      refine ⟨mem', ?_, ?_, ?_⟩
      · rw [fifoSearch, if_neg ha, h1, circleNext_add hi]
      · have hidx : mem' idx = mem idx := by
          refine h3 idx fun k hk => ?_
          rw [circleNext_add hi]
          have := ring_ne (x := idx) (j := 0) (k := k + 1) (by omega) (by omega)
          rwa [Nat.add_zero, Nat.mod_eq_of_lt hi] at this
        rw [ringAddrs, hidx, h2, ringAddrs.eq_2 mem idx (n + 1), List.erase_cons_tail]
        simpa using ha
      · intro x hx
        refine h3 x fun k hk => ?_
        rw [circleNext_add hi]
        exact hx (k + 1) (by omega)

theorem fifoAssert_ok {q : Proc} (h1 : q.qHead < MAX_PSYC_PAGES) (h2 : q.sizeMem < MAX_PSYC_PAGES)
    (h3 : q.qTail = (q.qHead + q.sizeMem) % MAX_PSYC_PAGES) : fifoAssert q = .ok () := by
  unfold fifoAssert
  simp only [MAX_PSYC_PAGES] at *
  split
  · rw [if_pos (by omega)]
  · split <;> rw [if_pos (by omega)]

/-! ## `VPA_Memory` -/

/-- The NFU scan ends at one of the entries. -/
theorem nfuVictim_some (mem : Nat → Word) : ∃ i, nfuVictim mem = some i ∧ i < MAX_PSYC_PAGES := by
  -- the first entry always wins against the initial bound
  have hstep : ∀ (l : List Nat) (best : Word × Option Nat),
      (∀ j ∈ l, j < MAX_PSYC_PAGES) → (∃ i, best.2 = some i ∧ i < MAX_PSYC_PAGES) →
      ∃ i, (l.foldl (nfuBest mem) best).2 = some i ∧ i < MAX_PSYC_PAGES := by
    intro l
    induction l with
    | nil => intro best _ h; exact h
    | cons j l ih =>
      intro best hl h
      refine ih _ (fun k hk => hl k (List.mem_cons_of_mem _ hk)) ?_
      unfold nfuBest
      split
      · exact ⟨j, rfl, hl j List.mem_cons_self⟩
      · exact h
  have hrange : List.range MAX_PSYC_PAGES = 0 :: (List.range 14).map (· + 1) := by decide
  have hfirst : nfuBest mem (0xffffffff#32, none) 0 = (nfuMemCounter (mem 0), some 0) := by
    unfold nfuBest
    rw [if_pos]
    exact BitVec.le_def.mpr (Nat.le_of_lt_succ (nfuMemCounter (mem 0)).isLt)
  unfold nfuVictim
  rw [hrange, List.foldl_cons, hfirst]
  refine hstep _ _ (fun j hj => ?_) ⟨0, rfl, by decide⟩
  obtain ⟨k, hk, rfl⟩ := List.mem_map.mp hj
  have := List.mem_range.mp hk
  simp only [MAX_PSYC_PAGES]
  omega

section Build

variable [Build]

/-- The addresses in the live entries of `VPA_Memory`. -/
def resident (p : Proc) : List Nat :=
  match Build.policy with
  | .fifo => ringAddrs p.vpaMemory p.sizeMem p.qHead
  | .nfu => (List.range p.sizeMem).map fun i => entryAddr (p.vpaMemory i)

/-- The table is not overfull and the ring's tail is where its head and length say. -/
structure TableOk (p : Proc) : Prop where
  size : p.sizeMem ≤ MAX_PSYC_PAGES
  ring : Build.policy = .fifo →
    p.qHead < MAX_PSYC_PAGES ∧ p.qTail = (p.qHead + p.sizeMem) % MAX_PSYC_PAGES

variable {p : Proc} {a : Nat}

theorem resident_fifo (hp : Build.policy = .fifo) (p : Proc) :
    resident p = ringAddrs p.vpaMemory p.sizeMem p.qHead := by
  unfold resident; rw [hp]

theorem resident_nfu (hp : Build.policy = .nfu) (p : Proc) :
    resident p = (List.range p.sizeMem).map fun i => entryAddr (p.vpaMemory i) := by
  unfold resident; rw [hp]

theorem resident_length (p : Proc) : (resident p).length = p.sizeMem := by
  cases hp : (Build.policy : Policy) with
  | fifo => rw [resident_fifo hp, ringAddrs_length]
  | nfu => rw [resident_nfu hp]; simp

theorem resident_mod {b : Nat} (h : b ∈ resident p) : b % PGSIZE = 0 := by
  cases hp : (Build.policy : Policy) with
  | nfu =>
    rw [resident_nfu hp, List.mem_map] at h
    obtain ⟨i, -, rfl⟩ := h
    exact entryAddr_mod _
  | fifo =>
    rw [resident_fifo hp] at h
    exact ringAddrs_mod h

/-- `resident` reads only the table fields. -/
theorem resident_congr {q : Proc} (h1 : q.vpaMemory = p.vpaMemory) (h2 : q.sizeMem = p.sizeMem)
    (h3 : q.qHead = p.qHead) : resident q = resident p := by
  unfold resident; rw [h1, h2, h3]

/-- Entering a page appends it. -/
theorem resident_push (ht : TableOk p) (hn : p.sizeMem < MAX_PSYC_PAGES) (ha : a % PGSIZE = 0)
    (hlt : a < 2 ^ 32) : resident (pushMemory p a) = resident p ++ [a] := by
  cases hp : (Build.policy : Policy) with
  | fifo =>
    obtain ⟨hh, htl⟩ := ht.ring hp
    rw [resident_fifo hp, resident_fifo hp]
    simp only [pushMemory, hp]
    rw [ringAddrs_snoc hh, ← htl, Function.update_self, entryAddr_ofNat ha hlt]
    congr 1
    refine ringAddrs_congr hh fun k hk => Function.update_of_ne ?_ _ _
    rw [htl]
    exact ring_ne hk (by omega)
  | nfu =>
    rw [resident_nfu hp, resident_nfu hp]
    simp only [pushMemory, hp]
    rw [List.range_succ, List.map_append, List.map_singleton, Function.update_self,
      entryAddr_ofNat ha hlt]
    congr 1
    refine List.map_congr_left fun i hi => ?_
    have := List.mem_range.mp hi
    rw [Function.update_of_ne (by omega)]

theorem TableOk.push (ht : TableOk p) (hn : p.sizeMem < MAX_PSYC_PAGES) :
    TableOk (pushMemory p a) := by
  cases hp : (Build.policy : Policy) with
  | fifo =>
    obtain ⟨hh, htl⟩ := ht.ring hp
    refine ⟨?_, fun _ => ?_⟩ <;> simp only [pushMemory, hp]
    · omega
    · refine ⟨hh, ?_⟩
      simp only [MAX_PSYC_PAGES] at *
      omega
  | nfu =>
    refine ⟨?_, fun h => by rw [hp] at h; cases h⟩
    simp only [pushMemory, hp]
    omega

theorem pushMemory_eq (p : Proc) (a : Nat) :
    ∃ m n h t, pushMemory p a = p.withMem m n h t := by
  unfold pushMemory
  cases (Build.policy : Policy) <;> exact ⟨_, _, _, _, rfl⟩

/-! ## Replacing an entry of the full table -/

/-- The table after `linkNewPage` put `a` in the place of the evicted entry `idx`. -/
def replaceMemory (p : Proc) (idx a : Nat) : Proc :=
  match Build.policy with
  | .fifo =>
    { p with
      vpaMemory := Function.update p.vpaMemory p.qTail (BitVec.ofNat 32 a)
      qTail := (p.qTail + 1) % MAX_PSYC_PAGES
      qHead := (p.qHead + 1) % MAX_PSYC_PAGES }
  | .nfu => { p with vpaMemory := Function.update p.vpaMemory idx (BitVec.ofNat 32 a) }

/-- The entry a full table gives up: the ring's head, or any entry for `NFU_SWAP`. -/
def Evicts (p : Proc) (idx : Nat) : Prop :=
  idx < MAX_PSYC_PAGES ∧ (Build.policy = .fifo → idx = p.qHead)

theorem replaceMemory_eq (p : Proc) (idx a : Nat) :
    ∃ m h t, replaceMemory p idx a = p.withMem m p.sizeMem h t := by
  unfold replaceMemory
  cases (Build.policy : Policy) <;> exact ⟨_, _, _, rfl⟩

theorem TableOk.replace {idx : Nat} (ht : TableOk p) (hf : p.sizeMem = MAX_PSYC_PAGES) :
    TableOk (replaceMemory p idx a) := by
  cases hp : (Build.policy : Policy) with
  | fifo =>
    obtain ⟨hh, htl⟩ := ht.ring hp
    refine ⟨?_, fun _ => ?_⟩ <;> simp only [replaceMemory, hp]
    · exact ht.size
    · simp only [MAX_PSYC_PAGES] at *
      omega
  | nfu =>
    refine ⟨?_, fun h => by rw [hp] at h; cases h⟩
    simp only [replaceMemory, hp]
    exact ht.size

/-- With the ring full, the oldest entry leaves it and the new one is the last. -/
theorem resident_replace_fifo (idx : Nat) (hp : Build.policy = .fifo) (ht : TableOk p)
    (hf : p.sizeMem = MAX_PSYC_PAGES) (ha : a % PGSIZE = 0) (hlt : a < 2 ^ 32) :
    ∃ l, resident p = entryAddr (p.vpaMemory p.qHead) :: l ∧
      resident (replaceMemory p idx a) = l ++ [a] := by
  obtain ⟨hh, htl⟩ := ht.ring hp
  refine ⟨ringAddrs p.vpaMemory 14 (circleNext p.qHead), ?_, ?_⟩
  · rw [resident_fifo hp, hf]
    rfl
  rw [resident_fifo hp]
  simp only [replaceMemory, hp]
  rw [hf] at htl ⊢
  have hnext : (p.qHead + 1) % MAX_PSYC_PAGES = circleNext p.qHead := (circleNext_eq hh).symm
  have htail : p.qTail = p.qHead := by simp only [MAX_PSYC_PAGES] at *; omega
  have hkeep : ringAddrs (Function.update p.vpaMemory p.qHead (BitVec.ofNat 32 a)) 14
      (circleNext p.qHead) = ringAddrs p.vpaMemory 14 (circleNext p.qHead) := by
    refine ringAddrs_congr (circleNext_lt hh) fun k hk => Function.update_of_ne ?_ _ _
    rw [circleNext_add hh]
    simp only [MAX_PSYC_PAGES] at *
    omega
  have hlast : (circleNext p.qHead + 14) % MAX_PSYC_PAGES = p.qHead := by
    rw [circleNext_add hh]
    simp only [MAX_PSYC_PAGES] at *
    omega
  rw [hnext, htail, show MAX_PSYC_PAGES = 14 + 1 from rfl,
    ringAddrs_snoc (circleNext_lt hh), hlast, Function.update_self, hkeep, entryAddr_ofNat ha hlt]

/-- The evicted entry leaves the list and `a` enters it. -/
theorem resident_replace {idx : Nat} (ht : TableOk p) (hf : p.sizeMem = MAX_PSYC_PAGES)
    (he : Evicts p idx) (ha : a % PGSIZE = 0) (hlt : a < 2 ^ 32) :
    (a :: resident p).Perm (entryAddr (p.vpaMemory idx) :: resident (replaceMemory p idx a)) := by
  cases hp : (Build.policy : Policy) with
  | fifo =>
    obtain ⟨l, h1, h2⟩ := resident_replace_fifo idx hp ht hf ha hlt
    rw [h2, he.2 hp, h1]
    exact (List.Perm.swap _ _ _).trans ((List.perm_append_singleton _ _).symm.cons _)
  | nfu =>
    rw [resident_nfu hp, resident_nfu hp]
    simp only [replaceMemory, hp, hf]
    have hidx : idx < ((List.range MAX_PSYC_PAGES).map fun i => entryAddr (p.vpaMemory i)).length := by
      simpa using he.1
    have hset : (List.range MAX_PSYC_PAGES).map (fun i =>
        entryAddr (Function.update p.vpaMemory idx (BitVec.ofNat 32 a) i)) =
        ((List.range MAX_PSYC_PAGES).map fun i => entryAddr (p.vpaMemory i)).set idx a := by
      refine List.ext_getElem (by simp) fun k h1 h2 => ?_
      rw [List.getElem_set]
      by_cases hk : idx = k
      · subst hk
        simp [entryAddr_ofNat ha hlt]
      · simp [hk, Function.update_of_ne (Ne.symm hk)]
    rw [hset]
    have hget : entryAddr (p.vpaMemory idx) =
        ((List.range MAX_PSYC_PAGES).map fun i => entryAddr (p.vpaMemory i)).get ⟨idx, hidx⟩ := by
      simp
    rw [hget]
    exact ((List.getElem_cons_eraseIdx_perm hidx).symm.cons a).trans
      ((List.Perm.swap _ _ _).trans ((List.set_perm_cons_eraseIdx hidx a).symm.cons _))

/-! ## Removing an entry -/

theorem unlinkMemory_none (ht : TableOk p) (ha : a ∉ resident p) :
    unlinkMemory p a = .ok none := by
  cases hp : (Build.policy : Policy) with
  | fifo =>
    rw [resident_fifo hp] at ha
    simp only [unlinkMemory, hp, fifoSearch_none ha]
  | nfu =>
    rw [resident_nfu hp] at ha
    have hs : nfuSearch p a = none := by
      refine List.find?_eq_none.mpr fun i hi => ?_
      simp only [beq_iff_eq]
      exact fun e => ha (List.mem_map.mpr ⟨i, hi, e⟩)
    simp only [unlinkMemory, hp, hs]
    rw [if_neg (by have := ht.size; omega)]

theorem unlinkMemory_fifo (hp : Build.policy = .fifo) (ht : TableOk p) (ha : a ∈ resident p) :
    ∃ m t, unlinkMemory p a = .ok (some (p.withMem m (p.sizeMem - 1) p.qHead t)) ∧
      TableOk (p.withMem m (p.sizeMem - 1) p.qHead t) ∧
      resident (p.withMem m (p.sizeMem - 1) p.qHead t) = (resident p).erase a := by
  obtain ⟨hh, htl⟩ := ht.ring hp
  have hsize := ht.size
  rw [resident_fifo hp] at ha
  obtain ⟨n, hn⟩ : ∃ n, p.sizeMem = n + 1 := by
    cases hz : p.sizeMem with
    | zero => rw [hz] at ha; cases ha
    | succ n => exact ⟨n, rfl⟩
  rw [hn] at ha hsize
  obtain ⟨m, h1, h2, -⟩ := fifoSearch_some hh (by omega) ha
  refine ⟨m, (p.qHead + n) % MAX_PSYC_PAGES, ?_, ⟨?_, fun _ => ⟨hh, ?_⟩⟩, ?_⟩
  · have hassert := fifoAssert_ok (q := p.withMem m n p.qHead ((p.qHead + n) % MAX_PSYC_PAGES))
      hh (by simp only [Proc.withMem]; omega) rfl
    simp only [unlinkMemory, hp, hn, h1, Nat.add_sub_cancel]
    simp only [Proc.withMem] at hassert ⊢
    rw [hassert]
    rfl
  · simp only [Proc.withMem]; omega
  · simp only [Proc.withMem, hn, Nat.add_sub_cancel]
  · rw [resident_fifo hp, resident_fifo hp, hn, Nat.add_sub_cancel, ← h2]
    rfl

/-- The live entries of `VPA_Memory` under `NFU_SWAP`, with their counters. -/
def nfuEntries (p : Proc) : List Word := (List.range p.sizeMem).map p.vpaMemory

omit [Build] in
theorem nfuEntries_addr (p : Proc) :
    (nfuEntries p).map entryAddr = (List.range p.sizeMem).map fun i => entryAddr (p.vpaMemory i) :=
  List.map_map ..

theorem unlinkMemory_entries (hp : Build.policy = .nfu) (ht : TableOk p) (ha : a ∈ resident p) :
    ∃ m w, unlinkMemory p a = .ok (some (p.withMem m (p.sizeMem - 1) p.qHead p.qTail)) ∧
      entryAddr w = a ∧
      (nfuEntries p).Perm (w :: nfuEntries (p.withMem m (p.sizeMem - 1) p.qHead p.qTail)) := by
  rw [resident_nfu hp] at ha
  obtain ⟨k, hk, hka⟩ := List.mem_map.mp ha
  obtain ⟨i, hi⟩ : ∃ i, nfuSearch p a = some i := by
    cases hs : nfuSearch p a with
    | some i => exact ⟨i, rfl⟩
    | none =>
      have := List.find?_eq_none.mp hs k hk
      simp [hka] at this
  have hia : entryAddr (p.vpaMemory i) = a := by simpa using List.find?_some hi
  have hilt : i < p.sizeMem := List.mem_range.mp (List.mem_of_find?_eq_some hi)
  refine ⟨Function.update (Function.update p.vpaMemory i (p.vpaMemory (p.sizeMem - 1)))
    (p.sizeMem - 1) 0, p.vpaMemory i, ?_, hia, ?_⟩
  · simp only [unlinkMemory, hp, hi]
    rw [if_neg (by have := ht.size; omega)]
    rfl
  · obtain ⟨n, hn⟩ : ∃ n, p.sizeMem = n + 1 := ⟨p.sizeMem - 1, by omega⟩
    simp only [nfuEntries, Proc.withMem, hn, Nat.add_sub_cancel]
    -- the last entry moves into the gap
    have hmap : (List.range n).map (Function.update
        (Function.update p.vpaMemory i (p.vpaMemory n)) n 0) =
        ((List.range n).map p.vpaMemory).set i (p.vpaMemory n) := by
      refine List.ext_getElem (by simp) fun j h1 h2 => ?_
      have hj : j < n := by simpa using h1
      rw [List.getElem_set]
      by_cases hij : i = j
      · subst hij
        simp [Function.update_of_ne (show i ≠ n by omega)]
      · simp [hij, Function.update_of_ne (show j ≠ n by omega),
          Function.update_of_ne (Ne.symm hij)]
    rw [hmap, List.range_succ, List.map_append, List.map_singleton]
    refine (List.perm_append_singleton _ _).trans ?_
    by_cases hin : i = n
    · rw [List.set_eq_of_length_le (by simp [hin]), hin]
    · have hlen : i < ((List.range n).map p.vpaMemory).length := by simp; omega
      have hget : ((List.range n).map p.vpaMemory)[i] = p.vpaMemory i := by simp
      rw [← hget]
      exact ((List.getElem_cons_eraseIdx_perm hlen).symm.cons _).trans
        ((List.Perm.swap _ _ _).trans ((List.set_perm_cons_eraseIdx hlen _).symm.cons _))

theorem unlinkMemory_nfu (hp : Build.policy = .nfu) (ht : TableOk p) (ha : a ∈ resident p) :
    ∃ m, unlinkMemory p a = .ok (some (p.withMem m (p.sizeMem - 1) p.qHead p.qTail)) ∧
      (resident p).Perm (a :: resident (p.withMem m (p.sizeMem - 1) p.qHead p.qTail)) := by
  obtain ⟨m, w, hun, rfl, hperm⟩ := unlinkMemory_entries hp ht ha
  refine ⟨m, hun, ?_⟩
  rw [resident_nfu hp, resident_nfu hp, ← nfuEntries_addr, ← nfuEntries_addr]
  exact hperm.map entryAddr

/-- `unlinkPage` takes a recorded page out of `VPA_Memory`. -/
theorem unlinkMemory_some (ht : TableOk p) (ha : a ∈ resident p) :
    ∃ m n h t, unlinkMemory p a = .ok (some (p.withMem m n h t)) ∧ TableOk (p.withMem m n h t) ∧
      (resident p).Perm (a :: resident (p.withMem m n h t)) := by
  cases hp : (Build.policy : Policy) with
  | fifo =>
    obtain ⟨m, t, h1, h2, h3⟩ := unlinkMemory_fifo hp ht ha
    exact ⟨m, _, _, t, h1, h2, h3 ▸ List.perm_cons_erase ha⟩
  | nfu =>
    obtain ⟨m, h1, h2⟩ := unlinkMemory_nfu hp ht ha
    refine ⟨m, _, _, _, h1, ⟨?_, fun h => by rw [hp] at h; cases h⟩, h2⟩
    have := ht.size
    simp only [Proc.withMem]
    omega

theorem Evicts.mem {idx : Nat} (he : Evicts p idx) (hf : p.sizeMem = MAX_PSYC_PAGES) :
    entryAddr (p.vpaMemory idx) ∈ resident p := by
  cases hp : (Build.policy : Policy) with
  | fifo =>
    rw [resident_fifo hp, hf, he.2 hp, show MAX_PSYC_PAGES = 14 + 1 from rfl, ringAddrs]
    exact List.mem_cons_self
  | nfu =>
    rw [resident_nfu hp, hf]
    exact List.mem_map.mpr ⟨idx, List.mem_range.mpr he.1, rfl⟩

/-- A timer tick rewrites a counter and keeps the page. -/
theorem resident_update {i : Nat} {w : Word} (hw : entryAddr w = entryAddr (p.vpaMemory i)) :
    resident { p with vpaMemory := Function.update p.vpaMemory i w } = resident p := by
  have hmem : ∀ j, entryAddr (Function.update p.vpaMemory i w j) = entryAddr (p.vpaMemory j) := by
    intro j
    by_cases hj : j = i
    · rw [hj, Function.update_self, hw]
    · rw [Function.update_of_ne hj]
  cases hp : (Build.policy : Policy) with
  | fifo =>
    rw [resident_fifo hp, resident_fifo hp]
    dsimp only
    generalize p.sizeMem = n
    generalize p.qHead = idx
    induction n generalizing idx with
    | zero => rfl
    | succ n ih => rw [ringAddrs, ringAddrs, hmem, ih]
  | nfu =>
    rw [resident_nfu hp, resident_nfu hp]
    exact List.map_congr_left fun j _ => hmem j

end Build

/-! ## `VPA_Swap` -/

/-- `1` when `w` is an occupied slot for page `a`. -/
def slotHolds (w : Word) (a : Nat) : Nat := if has w SWAP_P && entryAddr w == a then 1 else 0

/-- How many slots hold page `a`. -/
def swapCount (p : Proc) (a : Nat) : Nat :=
  ∑ i ∈ range MAX_SWAP_PAGES, slotHolds (p.vpaSwap i) a

theorem swapCount_congr {p q : Proc} (h : q.vpaSwap = p.vpaSwap) (a : Nat) :
    swapCount q a = swapCount p a := by
  unfold swapCount; rw [h]

theorem slotHolds_free {w : Word} (a : Nat) (h : has w SWAP_P = false) : slotHolds w a = 0 := by
  simp [slotHolds, h]

theorem slotHolds_occupied {w : Word} (a : Nat) (h : has w SWAP_P = true) :
    slotHolds w a = ind (entryAddr w = a) := by
  simp [slotHolds, ind, h]

/-- What `moveToSwap` enters for page `a`. -/
theorem slotEntry {a : Nat} (ha : a % PGSIZE = 0) (hlt : a < 2 ^ 32) :
    has (SWAP_P ||| BitVec.ofNat 32 a) SWAP_P = true ∧
      entryAddr (SWAP_P ||| BitVec.ofNat 32 a) = a := by
  refine ⟨?_, ?_⟩
  · rw [has_or _ _ (by decide)]
    rfl
  · rw [BitVec.or_comm, entryAddr_or ha hlt (by decide)]

/-- Enter page `v` in slot `i`. -/
def Proc.fillSlot (p : Proc) (i v : Nat) : Proc :=
  { p with vpaSwap := Function.update p.vpaSwap i (SWAP_P ||| BitVec.ofNat 32 (v * PGSIZE)) }

/-- Give slot `i` up. -/
def Proc.clearSlot (p : Proc) (i : Nat) : Proc :=
  { p with vpaSwap := Function.update p.vpaSwap i 0 }

variable {p : Proc} {a i : Nat}

theorem swapCount_update (w : Word) (hi : i < MAX_SWAP_PAGES) (b : Nat) :
    swapCount { p with vpaSwap := Function.update p.vpaSwap i w } b + slotHolds (p.vpaSwap i) b =
      swapCount p b + slotHolds w b := by
  have h := sum_range_change (g := fun k => slotHolds (p.vpaSwap k) b)
    (q := fun k => slotHolds (Function.update p.vpaSwap i w k) b) hi
    (fun k _ hk => by rw [Function.update_of_ne hk])
  rwa [Function.update_self] at h

theorem swapCount_fill {v : Nat} (hi : i < MAX_SWAP_PAGES) (hf : has (p.vpaSwap i) SWAP_P = false)
    (hlt : v * PGSIZE < 2 ^ 32) (b : Nat) :
    swapCount (p.fillSlot i v) b = swapCount p b + ind (v * PGSIZE = b) := by
  have h := swapCount_update (p := p) (SWAP_P ||| BitVec.ofNat 32 (v * PGSIZE)) hi b
  obtain ⟨h1, h2⟩ := slotEntry (by simp) hlt
  rw [slotHolds_free b hf, slotHolds_occupied b h1, h2, Nat.add_zero] at h
  exact h

theorem swapCount_clear (hi : i < MAX_SWAP_PAGES) (ho : has (p.vpaSwap i) SWAP_P = true) (b : Nat) :
    swapCount (p.clearSlot i) b + ind (entryAddr (p.vpaSwap i) = b) = swapCount p b := by
  have h := swapCount_update (p := p) 0 hi b
  rwa [slotHolds_free b (has_zero _), slotHolds_occupied b ho, Nat.add_zero] at h

theorem swapCount_pos (hi : i < MAX_SWAP_PAGES) (ho : has (p.vpaSwap i) SWAP_P = true)
    (ha : entryAddr (p.vpaSwap i) = a) : 0 < swapCount p a := by
  have h := term_le_sum (fun k => slotHolds (p.vpaSwap k) a) hi
  rw [slotHolds_occupied a ho, ind_true ha] at h
  exact h

theorem exists_slot (h : 0 < swapCount p a) :
    ∃ i < MAX_SWAP_PAGES, has (p.vpaSwap i) SWAP_P = true ∧ entryAddr (p.vpaSwap i) = a := by
  obtain ⟨i, hi, hpos⟩ := exists_pos_of_sum_pos h
  refine ⟨i, hi, ?_⟩
  unfold slotHolds at hpos
  split at hpos
  · rename_i hc
    simpa using hc
  · omega

theorem swapSlot_some (h : swapSlot p a = some i) :
    i < MAX_SWAP_PAGES ∧ has (p.vpaSwap i) SWAP_P = true ∧ entryAddr (p.vpaSwap i) = a := by
  have h1 := List.mem_range.mp (List.mem_of_find?_eq_some h)
  have h2 := List.find?_some h
  simp only [Bool.and_eq_true, beq_iff_eq] at h2
  exact ⟨h1, h2⟩

theorem swapSlot_of_pos (h : 0 < swapCount p a) : ∃ i, swapSlot p a = some i := by
  obtain ⟨i, hi, h1, h2⟩ := exists_slot h
  cases hs : swapSlot p a with
  | some j => exact ⟨j, rfl⟩
  | none =>
    have := List.find?_eq_none.mp hs i (List.mem_range.mpr hi)
    simp [h1, h2] at this

theorem getFreeSwapPageIndex_some (h : getFreeSwapPageIndex p = some i) :
    i < MAX_SWAP_PAGES ∧ has (p.vpaSwap i) SWAP_P = false ∧
      ∀ j < i, has (p.vpaSwap j) SWAP_P = true := by
  obtain ⟨h1, h2, h3⟩ := List.find?_range_eq_some.mp h
  exact ⟨by simpa using h2, by simpa using h1, fun j hj => by simpa using h3 j hj⟩

theorem getFreeSwapPageIndex_of_free (hi : i < MAX_SWAP_PAGES)
    (hf : has (p.vpaSwap i) SWAP_P = false) : ∃ j, getFreeSwapPageIndex p = some j := by
  cases hs : getFreeSwapPageIndex p with
  | some j => exact ⟨j, rfl⟩
  | none =>
    have := List.find?_eq_none.mp hs i (List.mem_range.mpr hi)
    simp [hf] at this

/-! ## Occupied slots -/

/-- The number of occupied slots of `VPA_Swap`. -/
def occupied (p : Proc) : Nat := ∑ i ∈ range MAX_SWAP_PAGES, (has (p.vpaSwap i) SWAP_P).toNat

theorem occupied_congr {q : Proc} (h : q.vpaSwap = p.vpaSwap) : occupied q = occupied p := by
  unfold occupied; rw [h]

theorem occupied_le (p : Proc) : occupied p ≤ MAX_SWAP_PAGES :=
  sum_range_le fun _ _ => Bool.toNat_le _

theorem occupied_fill {v : Nat} (hi : i < MAX_SWAP_PAGES) (hf : has (p.vpaSwap i) SWAP_P = false)
    (hlt : v * PGSIZE < 2 ^ 32) : occupied (p.fillSlot i v) = occupied p + 1 := by
  have h := sum_range_change (g := fun k => (has (p.vpaSwap k) SWAP_P).toNat)
    (q := fun k => (has (Function.update p.vpaSwap i (SWAP_P ||| BitVec.ofNat 32 (v * PGSIZE)) k)
      SWAP_P).toNat) hi (fun k _ hk => by rw [Function.update_of_ne hk])
  rw [Function.update_self, hf, (slotEntry (by simp) hlt).1, Bool.toNat_false, Bool.toNat_true,
    Nat.add_zero] at h
  unfold occupied
  exact h

/-- No slot is found exactly when all are occupied. -/
theorem getFreeSwapPageIndex_none :
    getFreeSwapPageIndex p = none ↔ occupied p = MAX_SWAP_PAGES := by
  constructor
  · intro h
    have hall : ∀ i < MAX_SWAP_PAGES, (has (p.vpaSwap i) SWAP_P).toNat = 1 := fun i hi => by
      have := List.find?_eq_none.mp h i (List.mem_range.mpr hi)
      simp only [Bool.not_eq_eq_eq_not, Bool.not_true] at this
      rw [Bool.eq_true_of_not_eq_false this, Bool.toNat_true]
    unfold occupied
    rw [sum_range_one hall]
  · intro h
    cases hs : getFreeSwapPageIndex p with
    | none => rfl
    | some i =>
      obtain ⟨hi, hf, -⟩ := getFreeSwapPageIndex_some hs
      have := occupied_fill (v := 0) hi hf (by decide)
      have := occupied_le (p.fillSlot i 0)
      omega

/-- The number of live entries of both tables. -/
def linkedPages (p : Proc) : Nat := p.sizeMem + occupied p

theorem linkedPages_le (h : p.sizeMem ≤ MAX_PSYC_PAGES) : linkedPages p ≤ MAX_TOTAL_PAGES := by
  have := occupied_le p
  unfold linkedPages
  simp only [MAX_PSYC_PAGES, MAX_SWAP_PAGES, MAX_TOTAL_PAGES] at *
  omega

theorem linkedPages_full (h : p.sizeMem ≤ MAX_PSYC_PAGES) : linkedPages p = MAX_TOTAL_PAGES ↔
    p.sizeMem = MAX_PSYC_PAGES ∧ occupied p = MAX_SWAP_PAGES := by
  have := occupied_le p
  unfold linkedPages
  simp only [MAX_PSYC_PAGES, MAX_SWAP_PAGES, MAX_TOTAL_PAGES] at *
  omega

attribute [irreducible] swapCount occupied

end Xv6
