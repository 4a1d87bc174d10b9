import Xv6.Vm.Own
import Xv6.Swap.Resident

/-!
# The swap tables agree with the page table

A page table is seen here as a function from page numbers to entries. `Agree q pte m` says
that `VPA_Memory` of `q` lists each present page once, apart from the pages counted by `m`
which are mapped but not linked yet, and that `VPA_Swap` lists each paged-out page once.
`Stored` says that the frames of present pages and the slots of paged-out pages hold the
page contents `F`.

Every change the kernel makes to tables and entries is one of the steps below: map, push,
evict, unlink, recover, unmap.
-/

namespace Xv6

open Lib

theorem ind_page (u v : Nat) : ind (u * PGSIZE = v * PGSIZE) = ind (u = v) :=
  ind_congr ⟨fun h => by simp only [PGSIZE] at h; omega, fun h => by rw [h]⟩

section Agree

variable [Build]

/-- Tables, page table and the unlinked pages `m` say the same. -/
structure Agree (q : Proc) (pte : Nat → Word) (m : Nat → Nat) : Prop where
  table : TableOk q
  inMem : ∀ u < NUSER, (resident q).count (u * PGSIZE) + m u = (has (pte u) PTE_P).toNat
  inSwap : ∀ u < NUSER, swapCount q (u * PGSIZE) = (has (pte u) PTE_PG).toNat
  excl : ∀ u < NUSER, has (pte u) PTE_P = true → has (pte u) PTE_PG = false
  memLt : ∀ a ∈ resident q, a < KERNBASE
  swapLt : ∀ i < MAX_SWAP_PAGES, has (q.vpaSwap i) SWAP_P = true →
    entryAddr (q.vpaSwap i) < KERNBASE

variable {q : Proc} {pte pte' : Nat → Word} {m : Nat → Nat} {u i : Nat} {w : Word}

namespace Agree

theorem of_flags (h : Agree q pte m) (hp : ∀ u < NUSER, has (pte' u) PTE_P = has (pte u) PTE_P)
    (hg : ∀ u < NUSER, has (pte' u) PTE_PG = has (pte u) PTE_PG) : Agree q pte' m where
  table := h.table
  inMem u hu := by rw [h.inMem u hu, hp u hu]
  inSwap u hu := by rw [h.inSwap u hu, hg u hu]
  excl u hu := by rw [hp u hu, hg u hu]; exact h.excl u hu
  memLt := h.memLt
  swapLt := h.swapLt

/-- `Agree` reads the tables only through what they record. -/
theorem of_tables {q' : Proc} (h : Agree q pte m) (ht : TableOk q') (hr : resident q' = resident q)
    (hs : ∀ a, swapCount q' a = swapCount q a)
    (hlt : ∀ i < MAX_SWAP_PAGES, has (q'.vpaSwap i) SWAP_P = true →
      entryAddr (q'.vpaSwap i) < KERNBASE) : Agree q' pte m where
  table := ht
  inMem u hu := by rw [hr]; exact h.inMem u hu
  inSwap u hu := by rw [hs]; exact h.inSwap u hu
  excl := h.excl
  memLt := by rw [hr]; exact h.memLt
  swapLt := hlt

/-- The same tables in another record. -/
theorem congr {q' : Proc} (h : Agree q pte m) (h1 : q'.vpaMemory = q.vpaMemory)
    (h2 : q'.vpaSwap = q.vpaSwap) (h3 : q'.sizeMem = q.sizeMem) (h4 : q'.qHead = q.qHead)
    (h5 : q'.qTail = q.qTail) : Agree q' pte m := by
  refine h.of_tables ⟨?_, ?_⟩ ?_ (swapCount_congr h2) (by rw [h2]; exact h.swapLt)
  · rw [h3]; exact h.table.size
  · rw [h3, h4, h5]; exact h.table.ring
  · unfold resident
    rw [h1, h3, h4]

/-- A page that is neither present nor paged out gets a frame. -/
theorem map (h : Agree q pte m) (hp : has (pte u) PTE_P = false)
    (hg : has (pte u) PTE_PG = false) (hwp : has w PTE_P = true) (hwg : has w PTE_PG = false) :
    Agree q (Function.update pte u w) (bump m u) where
  table := h.table
  inMem v hv := by
    have := h.inMem v hv
    by_cases e : v = u
    · subst e
      rw [Function.update_self, bump_self, hwp]
      rw [hp] at this
      simp only [Bool.toNat_true, Bool.toNat_false] at *
      omega
    · rw [Function.update_of_ne e, bump_of_ne _ e, this]
  inSwap v hv := by
    by_cases e : v = u
    · subst e
      rw [Function.update_self, h.inSwap v hv, hg, hwg]
    · rw [Function.update_of_ne e, h.inSwap v hv]
  excl v hv := by
    by_cases e : v = u
    · subst e; rw [Function.update_self]; exact fun _ => hwg
    · rw [Function.update_of_ne e]; exact h.excl v hv
  memLt := h.memLt
  swapLt := h.swapLt

/-- An unlinked page is unmapped again. -/
theorem unmap (h : Agree q pte (bump m u)) (hu : u < NUSER) :
    Agree q (Function.update pte u 0) m := by
  have hone := h.inMem u hu
  rw [bump_self] at hone
  have hp : has (pte u) PTE_P = true := by
    by_contra hc
    rw [Bool.not_eq_true] at hc
    rw [hc, Bool.toNat_false] at hone
    omega
  refine ⟨h.table, fun v hv => ?_, fun v hv => ?_, fun v hv => ?_, h.memLt, h.swapLt⟩
  · have := h.inMem v hv
    by_cases e : v = u
    · subst e
      rw [hp, Bool.toNat_true] at hone
      rw [Function.update_self, has_zero, Bool.toNat_false]
      omega
    · rw [Function.update_of_ne e]
      rw [bump_of_ne _ e] at this
      exact this
  · by_cases e : v = u
    · subst e
      rw [Function.update_self, has_zero, h.inSwap v hv, h.excl v hv hp]
    · rw [Function.update_of_ne e, h.inSwap v hv]
  · by_cases e : v = u
    · subst e; rw [Function.update_self, has_zero]; exact fun hc => absurd hc (by decide)
    · rw [Function.update_of_ne e]; exact h.excl v hv

/-- An unlinked page is entered in `VPA_Memory`. -/
theorem push (h : Agree q pte (bump m u)) (hu : u < NUSER) (hn : q.sizeMem < MAX_PSYC_PAGES) :
    Agree (pushMemory q (u * PGSIZE)) pte m := by
  have hr := resident_push h.table hn (a := u * PGSIZE) (by simp) (page_lt_word hu)
  obtain ⟨_, _, _, _, hq⟩ := pushMemory_eq q (u * PGSIZE)
  have hs : (pushMemory q (u * PGSIZE)).vpaSwap = q.vpaSwap := by rw [hq]; rfl
  refine ⟨h.table.push hn, fun v hv => ?_, fun v hv => ?_, h.excl, fun a ha => ?_, ?_⟩
  · have := h.inMem v hv
    rw [hr, List.count_append, count_cons_ind, List.count_nil, ind_page]
    simp only [bump] at this
    omega
  · rw [swapCount_congr hs, h.inSwap v hv]
  · rw [hr, List.mem_append, List.mem_singleton] at ha
    obtain ha | rfl := ha
    · exact h.memLt a ha
    · exact page_lt hu
  · rw [hs]; exact h.swapLt

/-- A linked page that is not in transit is recorded once and present. -/
theorem resident_iff (h : Agree q pte m) (hu : u < NUSER) (hm : m u = 0) :
    u * PGSIZE ∈ resident q ↔ has (pte u) PTE_P = true := by
  have := h.inMem u hu
  rw [hm, Nat.add_zero] at this
  rw [← List.count_pos_iff, this]
  cases has (pte u) PTE_P <;> simp

theorem present_of_resident (h : Agree q pte m) (hu : u < NUSER) (hr : u * PGSIZE ∈ resident q) :
    has (pte u) PTE_P = true ∧ m u = 0 := by
  have h1 := h.inMem u hu
  have h2 := List.count_pos_iff.mpr hr
  cases hp : has (pte u) PTE_P with
  | true => rw [hp, Bool.toNat_true] at h1; exact ⟨rfl, by omega⟩
  | false => rw [hp, Bool.toNat_false] at h1; omega

/-- An occupied slot is for a paged-out user page. -/
theorem paged_of_slot (h : Agree q pte m) (hi : i < MAX_SWAP_PAGES)
    (ho : has (q.vpaSwap i) SWAP_P = true) :
    ∃ u < NUSER, entryAddr (q.vpaSwap i) = u * PGSIZE ∧ has (pte u) PTE_PG = true := by
  obtain ⟨u, hu, he⟩ := exists_page (entryAddr_mod _) (h.swapLt i hi ho)
  refine ⟨u, hu, he, ?_⟩
  have h1 := swapCount_pos hi ho he
  have h2 := h.inSwap u hu
  cases hp : has (pte u) PTE_PG with
  | true => rfl
  | false => rw [hp, Bool.toNat_false] at h2; omega

theorem slot_of_paged (h : Agree q pte m) (hu : u < NUSER) (hg : has (pte u) PTE_PG = true) :
    ∃ i, swapSlot q (u * PGSIZE) = some i := by
  refine swapSlot_of_pos ?_
  rw [h.inSwap u hu, hg]
  decide

/-- The page in an occupied slot is paged out in one slot only. -/
theorem slot_unique {j : Nat} (h : Agree q pte m) (hi : i < MAX_SWAP_PAGES)
    (hj : j < MAX_SWAP_PAGES) (hoi : has (q.vpaSwap i) SWAP_P = true)
    (hoj : has (q.vpaSwap j) SWAP_P = true)
    (he : entryAddr (q.vpaSwap i) = entryAddr (q.vpaSwap j)) : i = j := by
  by_contra hne
  obtain ⟨u, hu, hue, hg⟩ := h.paged_of_slot hi hoi
  have h1 := pair_le_sum (fun k => slotHolds (q.vpaSwap k) (u * PGSIZE)) hi hj hne
  rw [slotHolds_occupied _ hoi, slotHolds_occupied _ hoj, ind_true hue,
    ind_true (he ▸ hue)] at h1
  have h2 := h.inSwap u hu
  rw [hg, Bool.toNat_true] at h2
  unfold swapCount at h2
  omega

theorem absent_of_paged (h : Agree q pte m) (hu : u < NUSER) (hg : has (pte u) PTE_PG = true) :
    has (pte u) PTE_P = false := by
  by_contra hc
  rw [Bool.not_eq_false] at hc
  rw [h.excl u hu hc] at hg
  cases hg

/-- No page is recorded twice. -/
theorem nodup (h : Agree q pte m) : (resident q).Nodup := by
  refine List.nodup_iff_count_le_one.2 fun a => ?_
  by_cases ha : a ∈ resident q
  · obtain ⟨u, hu, rfl⟩ := exists_page (resident_mod ha) (h.memLt a ha)
    have hone := h.inMem u hu
    have hle : (has (pte u) PTE_P).toNat ≤ 1 := Bool.toNat_le _
    omega
  · rw [List.count_eq_zero_of_not_mem ha]
    exact Nat.zero_le 1

/-- A paged-out page leaves its slot and its entry is cleared. -/
theorem clearSlot (h : Agree q pte m) (hu : u < NUSER) (hg : has (pte u) PTE_PG = true)
    (hs : swapSlot q (u * PGSIZE) = some i) :
    Agree (q.clearSlot i) (Function.update pte u 0) m := by
  obtain ⟨hi, ho, he⟩ := swapSlot_some hs
  refine ⟨⟨h.table.size, h.table.ring⟩, fun v hv => ?_, fun v hv => ?_, fun v hv => ?_, h.memLt,
    fun j hj hoj => ?_⟩
  · have hmem := h.inMem v hv
    by_cases e : v = u
    · subst e
      rw [h.absent_of_paged hv hg] at hmem
      rw [Function.update_self, has_zero]
      exact hmem
    · rw [Function.update_of_ne e]
      exact hmem
  · have hc := swapCount_clear hi ho (v * PGSIZE)
    rw [he, ind_page, h.inSwap v hv] at hc
    by_cases e : v = u
    · subst e
      rw [ind_true rfl, hg, Bool.toNat_true] at hc
      rw [Function.update_self, has_zero, Bool.toNat_false]
      omega
    · rw [ind_false (Ne.symm e)] at hc
      rw [Function.update_of_ne e]
      omega
  · by_cases e : v = u
    · subst e; rw [Function.update_self, has_zero]; exact fun hc => absurd hc (by decide)
    · rw [Function.update_of_ne e]; exact h.excl v hv
  · by_cases e : j = i
    · subst e
      dsimp only [Proc.clearSlot] at hoj
      rw [Function.update_self, has_zero] at hoj
      cases hoj
    · dsimp only [Proc.clearSlot] at hoj ⊢
      rw [Function.update_of_ne e] at hoj ⊢
      exact h.swapLt j hj hoj

/-- A paged-out page leaves its slot and becomes present, not yet linked. -/
theorem recover (h : Agree q pte m) (hu : u < NUSER) (hg : has (pte u) PTE_PG = true)
    (hs : swapSlot q (u * PGSIZE) = some i) (hwp : has w PTE_P = true)
    (hwg : has w PTE_PG = false) :
    Agree (q.clearSlot i) (Function.update pte u w)
      (bump m u) := by
  have h0 := (h.clearSlot hu hg hs).map (u := u) (w := w) (by rw [Function.update_self, has_zero])
    (by rw [Function.update_self, has_zero]) hwp hwg
  rwa [Function.update_idem] at h0

/-- `unlinkPage` on a paged-out page. -/
theorem unlink_paged (h : Agree q pte m) (hu : u < NUSER) (hg : has (pte u) PTE_PG = true) :
    ∃ i, swapSlot q (u * PGSIZE) = some i ∧ unlinkTables q (u * PGSIZE) = .ok (0, q.clearSlot i) ∧
      Agree (q.clearSlot i) (Function.update pte u 0) m := by
  obtain ⟨i, hs⟩ := h.slot_of_paged hu hg
  refine ⟨i, hs, ?_, h.clearSlot hu hg hs⟩
  have hnot : u * PGSIZE ∉ resident q := by
    intro hr
    have := (h.present_of_resident hu hr).1
    rw [h.absent_of_paged hu hg] at this
    cases this
  unfold unlinkTables
  rw [if_neg (by simp), unlinkMemory_none h.table hnot, hs]
  rfl

/-- `unlinkPage` on a present page that is linked. -/
theorem unlink_present (h : Agree q pte m) (hu : u < NUSER) (hp : has (pte u) PTE_P = true)
    (hm : m u = 0) :
    ∃ a n b t, unlinkTables q (u * PGSIZE) = .ok (0, q.withMem a n b t) ∧
      Agree (q.withMem a n b t) (Function.update pte u 0) m := by
  obtain ⟨a, n, b, t, h1, h2, h3⟩ :=
    unlinkMemory_some h.table ((h.resident_iff hu hm).mpr hp)
  refine ⟨a, n, b, t, ?_, h2, fun v hv => ?_, fun v hv => ?_, fun v hv => ?_, fun c hc => ?_,
    h.swapLt⟩
  · unfold unlinkTables
    rw [if_neg (by simp), h1]
  · have hc := (h3.count_eq (v * PGSIZE)).symm
    have hmem := h.inMem v hv
    rw [count_cons_ind, ind_page] at hc
    by_cases e : v = u
    · subst e
      rw [ind_true rfl] at hc
      rw [hp, Bool.toNat_true] at hmem
      rw [Function.update_self, has_zero, Bool.toNat_false]
      omega
    · rw [ind_false (Ne.symm e)] at hc
      rw [Function.update_of_ne e]
      omega
  · rw [swapCount_congr (show (q.withMem a n b t).vpaSwap = q.vpaSwap from rfl), h.inSwap v hv]
    by_cases e : v = u
    · subst e; rw [Function.update_self, has_zero, h.excl v hv hp]
    · rw [Function.update_of_ne e]
  · by_cases e : v = u
    · subst e; rw [Function.update_self, has_zero]; exact fun hc => absurd hc (by decide)
    · rw [Function.update_of_ne e]; exact h.excl v hv
  · exact h.memLt c (h3.mem_iff.mpr (List.mem_cons_of_mem _ hc))

/-- The full table gives up the page of entry `idx` to slot `i` and takes `u` in its place. -/
theorem evict {idx v : Nat} (h : Agree q pte (bump m u)) (hu : u < NUSER)
    (hf : q.sizeMem = MAX_PSYC_PAGES) (he : Evicts q idx) (hv : v < NUSER)
    (hva : entryAddr (q.vpaMemory idx) = v * PGSIZE) (hi : i < MAX_SWAP_PAGES)
    (hfree : has (q.vpaSwap i) SWAP_P = false) (hwp : has w PTE_P = false)
    (hwg : has w PTE_PG = true) :
    Agree (replaceMemory (q.fillSlot i v) idx (u * PGSIZE)) (Function.update pte v w) m := by
  set q1 := q.fillSlot i v with hq1
  have ht1 : TableOk q1 := ⟨h.table.size, h.table.ring⟩
  have hr1 : resident q1 = resident q := rfl
  have hperm := resident_replace ht1 hf (show Evicts q1 idx from he) (a := u * PGSIZE) (by simp)
    (page_lt_word hu)
  rw [hr1, show entryAddr (q1.vpaMemory idx) = v * PGSIZE from hva] at hperm
  obtain ⟨a, b, t, hq2⟩ := replaceMemory_eq q1 idx (u * PGSIZE)
  have hs2 : (replaceMemory q1 idx (u * PGSIZE)).vpaSwap = q1.vpaSwap := by rw [hq2]; rfl
  have hvr : v * PGSIZE ∈ resident q := hva ▸ he.mem hf
  obtain ⟨hvp, hvm⟩ := h.present_of_resident hv hvr
  have hne : v ≠ u := by
    rintro rfl
    rw [bump_self] at hvm
    omega
  refine ⟨ht1.replace hf, fun x hx => ?_, fun x hx => ?_, fun x hx => ?_, fun c hc => ?_,
    fun j hj => ?_⟩
  · have hc := hperm.count_eq (x * PGSIZE)
    have hmem := h.inMem x hx
    rw [count_cons_ind, count_cons_ind, ind_page, ind_page] at hc
    simp only [bump] at hmem
    by_cases e : x = v
    · subst e
      rw [hvp, Bool.toNat_true] at hmem
      rw [ind_true rfl] at hc
      rw [Function.update_self, hwp, Bool.toNat_false]
      omega
    · rw [ind_false (Ne.symm e)] at hc
      rw [Function.update_of_ne e]
      omega
  · have hc := swapCount_fill (p := q) hi hfree (page_lt_word hv) (x * PGSIZE)
    have hsw := h.inSwap x hx
    rw [swapCount_congr hs2, hq1, hc, ind_page]
    by_cases e : x = v
    · subst e
      rw [h.excl x hx hvp, Bool.toNat_false] at hsw
      rw [ind_true rfl, Function.update_self, hwg, Bool.toNat_true]
      omega
    · rw [ind_false (Ne.symm e), Function.update_of_ne e]
      omega
  · by_cases e : x = v
    · subst e; rw [Function.update_self, hwp]; exact fun hc => absurd hc (by decide)
    · rw [Function.update_of_ne e]; exact h.excl x hx
  · have := hperm.mem_iff.mpr (List.mem_cons_of_mem _ hc)
    rw [List.mem_cons] at this
    obtain rfl | hc := this
    · exact page_lt hu
    · exact h.memLt c hc
  · rw [hs2]
    by_cases e : j = i
    · subst e
      intro _
      dsimp only [q1, Proc.fillSlot]
      rw [Function.update_self, (slotEntry (by simp) (page_lt_word hv)).2]
      exact page_lt hv
    · dsimp only [q1, Proc.fillSlot]
      rw [Function.update_of_ne e]
      exact h.swapLt j hj

end Agree

end Agree

/-! ## Contents -/

/-- Present frames and occupied slots hold the page contents `F`. -/
structure Stored (q : Proc) (pte : Nat → Word) (mem : Nat → Nat → Byte) (f : SwapFile)
    (F : Nat → Nat → Byte) : Prop where
  frames : ∀ u < NUSER, has (pte u) PTE_P = true → ∀ o < PGSIZE, mem (pageNo (pte u)) o = F u o
  room : ∀ i < MAX_SWAP_PAGES, has (q.vpaSwap i) SWAP_P = true → (i + 1) * PGSIZE ≤ f.size
  slots : ∀ i < MAX_SWAP_PAGES, has (q.vpaSwap i) SWAP_P = true → ∀ o < PGSIZE,
    f.data (i * PGSIZE + o) = F (entryAddr (q.vpaSwap i) / PGSIZE) o

namespace Stored

variable {q : Proc} {pte pte' : Nat → Word} {m : Nat → Nat} {u i : Nat} {w : Word}
  {mem mem' : Nat → Nat → Byte} {f : SwapFile} {F F' : Nat → Nat → Byte}

/-- Only the frames of present pages matter. -/
theorem of_mem (h : Stored q pte mem f F)
    (hm : ∀ u < NUSER, has (pte u) PTE_P = true → mem' (pageNo (pte u)) = mem (pageNo (pte u))) :
    Stored q pte mem' f F where
  frames u hu hp o ho := by rw [hm u hu hp]; exact h.frames u hu hp o ho
  room := h.room
  slots := h.slots

/-- Entries may change as long as present ones keep their frame. -/
theorem of_pte (h : Stored q pte mem f F)
    (hp : ∀ u < NUSER, has (pte' u) PTE_P = true →
      has (pte u) PTE_P = true ∧ pageNo (pte' u) = pageNo (pte u)) : Stored q pte' mem f F where
  frames u hu hu' o ho := by
    obtain ⟨h1, h2⟩ := hp u hu hu'
    rw [h2]
    exact h.frames u hu h1 o ho
  room := h.room
  slots := h.slots

/-- Slots may be given up. -/
theorem of_slots {q' : Proc} (h : Stored q pte mem f F)
    (hs : ∀ i < MAX_SWAP_PAGES, has (q'.vpaSwap i) SWAP_P = true → q'.vpaSwap i = q.vpaSwap i) :
    Stored q' pte mem f F where
  frames := h.frames
  room i hi ho := h.room i hi (hs i hi ho ▸ ho)
  slots i hi ho := by
    have he := hs i hi ho
    rw [he] at ho ⊢
    exact h.slots i hi ho

theorem map (h : Stored q pte mem f F) (hw : ∀ o < PGSIZE, mem (pageNo w) o = F u o) :
    Stored q (Function.update pte u w) mem f F where
  frames v hv hp o ho := by
    by_cases e : v = u
    · subst e; rw [Function.update_self]; exact hw o ho
    · rw [Function.update_of_ne e] at hp ⊢; exact h.frames v hv hp o ho
  room := h.room
  slots := h.slots

/-- `F` matters only at pages that are present or paged out. -/
theorem of_contents [Build] (h : Stored q pte mem f F) (ha : Agree q pte m)
    (hF : ∀ u < NUSER, (has (pte u) PTE_P = true ∨ has (pte u) PTE_PG = true) →
      ∀ o < PGSIZE, F' u o = F u o) : Stored q pte mem f F' where
  frames u hu hp o ho := by rw [hF u hu (.inl hp) o ho]; exact h.frames u hu hp o ho
  room := h.room
  slots i hi ho o ho' := by
    obtain ⟨u, hu, he, hg⟩ := ha.paged_of_slot hi ho
    have hd : entryAddr (q.vpaSwap i) / PGSIZE = u := by rw [he]; simp
    rw [h.slots i hi ho o ho', hd, hF u hu (.inr hg) o ho']

/-- A slot is written with page `v` and then entered for it. -/
theorem fill {v : Nat} {g : SwapFile} (h : Stored q pte mem f F) (hv : v < NUSER)
    (hsz : f.size ≤ g.size) (hroom : (i + 1) * PGSIZE ≤ g.size)
    (hin : ∀ o < PGSIZE, g.data (i * PGSIZE + o) = F v o)
    (hout : ∀ j ≠ i, ∀ o < PGSIZE, g.data (j * PGSIZE + o) = f.data (j * PGSIZE + o)) :
    Stored (q.fillSlot i v) pte mem g F where
  frames := h.frames
  room j hj ho := by
    by_cases e : j = i
    · subst e; exact hroom
    · dsimp only [Proc.fillSlot] at ho
      rw [Function.update_of_ne e] at ho
      exact Nat.le_trans (h.room j hj ho) hsz
  slots j hj ho o ho' := by
    dsimp only [Proc.fillSlot] at ho ⊢
    by_cases e : j = i
    · subst e
      rw [Function.update_self, (slotEntry (by simp) (page_lt_word hv)).2, hin o ho']
      simp
    · rw [Function.update_of_ne e] at ho ⊢
      rw [hout j e o ho']
      exact h.slots j hj ho o ho'

/-- The first free slot starts inside the file or at its end. -/
theorem slot_start (h : Stored q pte mem f F) (hi : getFreeSwapPageIndex q = some i) :
    i * PGSIZE ≤ f.size := by
  obtain ⟨hlt, -, hocc⟩ := getFreeSwapPageIndex_some hi
  cases i with
  | zero => simp
  | succ j => exact h.room j (by omega) (hocc j (by omega))

end Stored

end Xv6
