import Xv6.User.Umalloc.Model

/-!
# `free` keeps the heap

`Inv` is the shape of the heap: the free list in the order of addresses, and the free and allocated
blocks, which together with `base` cover the regions from `sbrk` once. `free` moves a block from the
allocated to the free ones.
-/

namespace Xv6.Umalloc

open Lib

/-- The second block is above the first, with a gap. -/
def Gap (a b : Nat × Nat) : Prop := a.1 + a.2 < b.1

/-- The heap has the free blocks `L` and the allocated blocks `A` in the regions `R`. -/
structure Inv (base : Nat) (h : Heap) (L A R : List (Nat × Nat)) : Prop where
  pos : 0 < base
  fits : base + HDR ≤ 2 ^ 32
  links : Links h base L base
  baseSize : h.size base = 0
  sorted : ((base, 0) :: L).Pairwise Gap
  freep : h.freep = base ∨ ∃ n, (h.freep, n) ∈ L
  units : ∀ b ∈ L ++ A, HDR ≤ b.2
  alloc : ∀ b ∈ A, HDR * h.size b.1 = b.2
  tiled : ∀ x, times ((base, HDR) :: (L ++ A)) x = times ((base, HDR) :: R) x
  once : Once ((base, HDR) :: R)
  low : ∀ r ∈ R, base + HDR ≤ r.1
  top : ∀ r ∈ R, r.1 + r.2 < 2 ^ 32

variable {base : Nat} {h h' : Heap} {L L1 L2 A R : List (Nat × Nat)} {bp n : Nat}

namespace Inv

theorem disj (hI : Inv base h L A R) : ((base, HDR) :: (L ++ A)).Pairwise Disj := by
  refine Once.pairwise (fun x => ?_) fun b hb => ?_
  · rw [hI.tiled]
    exact hI.once x
  · rcases List.mem_cons.1 hb with rfl | hb
    · exact Nat.succ_pos _
    · exact Nat.lt_of_lt_of_le (Nat.succ_pos _) (hI.units b hb)

/-- A byte of a block is in a region. -/
theorem in_region (hI : Inv base h L A R) {b : Nat × Nat} (hb : b ∈ L ++ A) {x : Nat} (h1 : b.1 ≤ x)
    (h2 : x < b.1 + b.2) : ∃ r ∈ R, r.1 ≤ x ∧ x < r.1 + r.2 := by
  have hpos := times_pos_of_mem hb h1 h2
  have hx := hI.tiled x
  have honce := hI.once x
  rw [times_cons] at hx honce
  rw [times_cons _ R] at hx
  exact exists_of_times_pos (by omega)

theorem bounds (hI : Inv base h L A R) {b : Nat × Nat} (hb : b ∈ L ++ A) :
    base + HDR ≤ b.1 ∧ b.1 + b.2 < 2 ^ 32 := by
  have hlen := hI.units b hb
  unfold HDR at hlen
  obtain ⟨r, hr, h1, -⟩ := hI.in_region hb (Nat.le_refl _) (by omega)
  obtain ⟨r', hr', -, h2⟩ := hI.in_region (x := b.1 + b.2 - 1) hb (by omega) (by omega)
  have := hI.low r hr
  have := hI.top r' hr'
  omega

theorem apart_of_disj {b c : Nat × Nat} (hb : HDR ≤ b.2) (hc : HDR ≤ c.2) (h : Disj b c) : Apart b.1 c.1 := by
  unfold Disj at h
  unfold Apart
  omega

theorem apart (hI : Inv base h L A R) : (base :: (L ++ A).map Prod.fst).Pairwise Apart := by
  have hmap : ((((base, HDR) :: (L ++ A)).map Prod.fst).Pairwise Apart) := by
    refine List.Pairwise.map _ (fun b c hbc => hbc) ?_
    refine hI.disj.imp_of_mem fun {b c} hb hc hd => ?_
    have hunit : ∀ d ∈ (base, HDR) :: (L ++ A), HDR ≤ d.2 := by
      intro d hd
      rcases List.mem_cons.1 hd with rfl | hd
      · exact Nat.le_refl _
      · exact hI.units d hd
    exact apart_of_disj (hunit b hb) (hunit c hc) hd
  exact hmap

end Inv

/-! ## The search -/

/-- A sorted list is cut at an address. -/
theorem exists_cut (bp : Nat) : ∀ {L : List (Nat × Nat)}, L.Pairwise Gap → (∀ b ∈ L, b.1 ≠ bp) →
    ∃ L1 L2, L = L1 ++ L2 ∧ (∀ b ∈ L1, b.1 < bp) ∧ ∀ b ∈ L2, bp < b.1
  | [], _, _ => ⟨[], [], rfl, fun _ h => (nomatch h), fun _ h => (nomatch h)⟩
  | b :: L, hs, hne => by
    obtain ⟨hb, hs'⟩ := List.pairwise_cons.1 hs
    rcases Nat.lt_or_gt_of_ne (hne b List.mem_cons_self) with hlt | hgt
    · obtain ⟨L1, L2, rfl, h1, h2⟩ := exists_cut bp hs' fun c hc => hne c (List.mem_cons_of_mem _ hc)
      refine ⟨b :: L1, L2, rfl, fun c hc => ?_, h2⟩
      rcases List.mem_cons.1 hc with rfl | hc
      · exact hlt
      · exact h1 c hc
    · refine ⟨[], b :: L, rfl, fun _ h => (nomatch h), fun c hc => ?_⟩
      rcases List.mem_cons.1 hc with rfl | hc
      · exact hgt
      · have := hb c hc
        unfold Gap at this
        omega

theorem sorted_start {f n : Nat} (h : ((f, n) :: L).Pairwise Gap) : ((f, 0) :: L).Pairwise Gap := by
  refine List.pairwise_cons.2 ⟨fun c hc => ?_, (List.pairwise_cons.1 h).2⟩
  have := (List.pairwise_cons.1 h).1 c hc
  unfold Gap at this ⊢
  dsimp only at this ⊢
  omega

/-- From a node below the block the search ends at the last such node. -/
theorem search_below (hbase : base < bp) (h2 : ∀ b ∈ L2, bp < b.1) : ∀ (L1 : List (Nat × Nat)) (k a : Nat),
    Links h a (L1 ++ L2) base → a < bp → base ≤ a → (∀ b ∈ L1, b.1 < bp) →
    ((a, 0) :: L1).Pairwise Gap →
    wp (search k bp a) (fun _ => k ≤ L1.length) (fun p h' => p = lastOf a L1 ∧ h' = h) h
  | L1, 0, a, _, _, _, _, _ => Nat.zero_le _
  | [], k + 1, a, hl, ha, hba, _, _ => by
    unfold search
    refine wp_seq (get_wp ?_)
    cases L2 with
    | nil =>
      -- The last node of all: its pointer goes back to `base`.
      have hq : h.ptr a = base := hl
      refine wp_ite.2 ⟨fun _ => ⟨rfl, rfl⟩, fun _ => wp_ite.2 ⟨fun _ => ⟨rfl, rfl⟩, fun hno => ?_⟩⟩
      exact absurd ⟨hq ▸ hba, .inl ha⟩ hno
    | cons f L2 =>
      have hq : h.ptr a = f.1 := hl.1
      have hf := h2 f List.mem_cons_self
      exact wp_ite.2 ⟨fun _ => ⟨rfl, rfl⟩, fun hno => absurd ⟨ha, hq ▸ hf⟩ hno⟩
  | (f, n) :: L1, k + 1, a, hl, ha, hba, h1, hs => by
    obtain ⟨hq, -, hl'⟩ := hl
    have hf : f < bp := h1 (f, n) List.mem_cons_self
    obtain ⟨hgap, hs'⟩ := List.pairwise_cons.1 hs
    have haf : a + 0 < f := hgap (f, n) List.mem_cons_self
    unfold search
    refine wp_seq (get_wp ?_)
    rw [hq]
    refine wp_ite.2 ⟨fun hc => absurd hc.2 (by omega), fun _ => wp_ite.2 ⟨fun hc => absurd hc.1 (by omega), fun _ => ?_⟩⟩
    have hrest := search_below hbase h2 L1 k f hl' hf (by omega) (fun b hb => h1 b (List.mem_cons_of_mem _ hb))
      (sorted_start hs')
    exact wp_mono hrest (fun m hm => Nat.succ_le_succ hm) fun _ _ h => h

/-- From a node above the block the search goes on to `base`. -/
theorem search_above (hbase : base < bp) {Q : Nat → Heap → Prop} {r : Nat}
    (hcont : ∀ k, wp (search k bp base) (fun _ => k ≤ r) Q h) :
    ∀ (K : List (Nat × Nat)) (k a : Nat), Links h a K base → bp < a → ((a, 0) :: K).Pairwise Gap →
    wp (search k bp a) (fun _ => k ≤ r + K.length + 1) Q h
  | _, 0, a, _, _, _ => Nat.zero_le _
  | [], k + 1, a, hl, ha, _ => by
    have hq : h.ptr a = base := hl
    unfold search
    refine wp_seq (get_wp ?_)
    rw [hq]
    refine wp_ite.2 ⟨fun hc => absurd hc.1 (by omega), fun _ => wp_ite.2 ⟨fun hc => absurd hc.2 (by omega), fun _ => ?_⟩⟩
    exact wp_mono (hcont k) (fun m hm => Nat.succ_le_succ hm) fun _ _ h => h
  | (f, n) :: K, k + 1, a, hl, ha, hs => by
    obtain ⟨hq, -, hl'⟩ := hl
    obtain ⟨hgap, hs'⟩ := List.pairwise_cons.1 hs
    have haf : a + 0 < f := hgap (f, n) List.mem_cons_self
    unfold search
    refine wp_seq (get_wp ?_)
    rw [hq]
    refine wp_ite.2 ⟨fun hc => absurd hc.1 (by omega), fun _ => wp_ite.2 ⟨fun hc => absurd hc.1 (by omega), fun _ => ?_⟩⟩
    exact wp_mono (search_above hbase hcont K k f hl' (by omega) (sorted_start hs'))
      (fun m hm => Nat.succ_le_succ hm) fun _ _ h => h

/-- The search finds the node before the block, in two rounds of the list at most. -/
theorem search_wp (hI : Inv base h (L1 ++ L2) A R) (hbase : base < bp) (h1 : ∀ b ∈ L1, b.1 < bp)
    (h2 : ∀ b ∈ L2, bp < b.1) (k : Nat) :
    wp (search k bp h.freep) (fun _ => k ≤ 2 * (L1 ++ L2).length + 1)
      (fun p h' => p = lastOf base L1 ∧ h' = h) h := by
  have hs := hI.sorted
  have hlen : (L1 ++ L2).length = L1.length + L2.length := List.length_append
  have hs1 : ((base, 0) :: L1).Pairwise Gap := hs.sublist (List.cons_sublist_cons.2 (List.sublist_append_left ..))
  have hfrom : ∀ k, wp (search k bp base) (fun _ => k ≤ L1.length) (fun p h' => p = lastOf base L1 ∧ h' = h) h :=
    fun k => search_below hbase h2 L1 k base hI.links hbase (Nat.le_refl _) h1 hs1
  rcases hI.freep with hf | ⟨n, hf⟩
  · rw [hf]
    exact wp_mono (hfrom k) (fun m hm => by omega) fun _ _ h => h
  · generalize h.freep = f at hf
    rcases List.mem_append.1 hf with hf | hf
    · -- The search starts below the block.
      obtain ⟨K, M, rfl⟩ := List.append_of_mem hf
      have hl := hI.links
      rw [List.append_assoc, List.cons_append, links_append] at hl
      rw [lastOf_append]
      have hsM : ((f, n) :: M).Pairwise Gap := hs1.sublist (.cons _ (List.sublist_append_right ..))
      have hfb : base + 0 < f := (List.pairwise_cons.1 hs1).1 (f, n) hf
      refine wp_mono (search_below hbase h2 M k f hl.2.2 (h1 (f, n) hf) (by omega)
        (fun b hb => h1 b (List.mem_append_right _ (List.mem_cons_of_mem _ hb))) (sorted_start hsM)) (fun m hm => ?_)
        fun _ _ h => h
      simp only [List.length_append, List.length_cons] at hlen ⊢
      omega
    · obtain ⟨K, M, rfl⟩ := List.append_of_mem hf
      have hl := hI.links
      rw [← List.append_assoc, links_append] at hl
      have hsM : ((f, n) :: M).Pairwise Gap := hs.sublist (.cons _ (.trans (List.sublist_append_right ..) (List.sublist_append_right ..)))
      refine wp_mono (search_above hbase hfrom M k f hl.2.2 (h2 (f, n) hf) (sorted_start hsM)) (fun m hm => ?_)
        fun _ _ h => h
      simp only [List.length_append, List.length_cons] at hlen ⊢
      omega

/-! ## Joining -/

theorem Inv.apart_block (hI : Inv base h L ((bp, n) :: A) R) : Apart bp base ∧ ∀ b ∈ L ++ A, Apart bp b.1 := by
  obtain ⟨hbase, hrest⟩ := List.pairwise_cons.1 hI.apart
  rw [List.map_append, List.map_cons] at hbase hrest
  obtain ⟨-, hA, hLA⟩ := List.pairwise_append.1 hrest
  refine ⟨(hbase bp (List.mem_append_right _ List.mem_cons_self)).symm, fun b hb => ?_⟩
  rcases List.mem_append.1 hb with hb | hb
  · exact (hLA b.1 (List.mem_map_of_mem hb) bp List.mem_cons_self).symm
  · exact (List.pairwise_cons.1 hA).1 b.1 (List.mem_map_of_mem hb)

theorem Inv.apart_last (hI : Inv base h (L1 ++ L2) ((bp, n) :: A) R) : Apart bp (lastOf base L1) := by
  obtain ⟨hbase, hap⟩ := hI.apart_block
  rcases lastOf_mem base L1 with he | ⟨k, hm⟩
  · rw [he]
    exact hbase
  · exact hap _ (List.mem_append_left _ (List.mem_append_left _ hm))

/-- The blocks below end before the block, and it ends before those above. -/
theorem Inv.around (hI : Inv base h (L1 ++ L2) ((bp, n) :: A) R) (h1 : ∀ b ∈ L1, b.1 < bp) (h2 : ∀ b ∈ L2, bp < b.1) :
    (∀ b ∈ L1, b.1 + b.2 ≤ bp) ∧ ∀ b ∈ L2, bp + n ≤ b.1 := by
  have hd := (List.pairwise_append.1 (List.pairwise_cons.1 hI.disj).2).2.2
  refine ⟨fun b hb => ?_, fun b hb => ?_⟩
  · have hdb : Disj b (bp, n) := hd b (List.mem_append_left _ hb) _ List.mem_cons_self
    have := h1 b hb
    unfold Disj at hdb
    dsimp only at hdb
    omega
  · have hdb : Disj b (bp, n) := hd b (List.mem_append_right _ hb) _ List.mem_cons_self
    have := h2 b hb
    unfold Disj at hdb
    dsimp only at hdb
    omega

/-- What the block and those above it become. -/
structure Up (base : Nat) (h h' : Heap) (bp n : Nat) (L2 : List (Nat × Nat)) (m : Nat) (L2' : List (Nat × Nat)) :
    Prop where
  len : HDR * h'.size bp = m
  ge : n ≤ m
  links : Links h' bp L2' base
  times : ∀ x, times ((bp, m) :: L2') x = times ((bp, n) :: L2) x
  above : ∀ b ∈ L2', bp + m < b.1
  top : bp + m < 2 ^ 32
  sub : L2'.Sublist L2
  same : ∀ q, Apart bp q → Same h h' q
  calls : h'.calls = h.calls

theorem joinUp_spec (hI : Inv base h (L1 ++ L2) ((bp, n) :: A) R) (h1 : ∀ b ∈ L1, b.1 < bp) (h2 : ∀ b ∈ L2, bp < b.1) :
    ∃ m L2', Up base h (joinUp bp (lastOf base L1) h) bp n L2 m L2' := by
  obtain ⟨-, hup⟩ := hI.around h1 h2
  obtain ⟨-, hap⟩ := hI.apart_block
  have hmem : ∀ {b}, b ∈ L2 → b ∈ L1 ++ L2 ++ A := fun hb => List.mem_append_left _ (List.mem_append_right _ hb)
  have hn : HDR * h.size bp = n := hI.alloc (bp, n) List.mem_cons_self
  obtain ⟨hlo, hhi⟩ := hI.bounds (b := (bp, n)) (List.mem_append_right _ List.mem_cons_self)
  have hlen : HDR ≤ n := hI.units (bp, n) (List.mem_append_right _ List.mem_cons_self)
  dsimp only at hlo hhi
  unfold joinUp add
  rw [hn]
  cases L2 with
  | nil =>
    have hl := hI.links
    rw [List.append_nil] at hl
    rw [hl.last]
    have hne : ¬ (bp + n) % 2 ^ 32 = base := by
      have := hI.pos
      unfold HDR at hlo hlen
      omega
    rw [if_neg hne]
    exact ⟨n, [], (congrArg (HDR * ·) (size_setPtr (.inl rfl) base)).trans hn, Nat.le_refl _,
      ptr_setPtr_self (by unfold HDR at hlo; omega), fun x => rfl, fun _ hb => (nomatch hb), hhi, .refl _,
      fun q hq => same_setPtr hq base, rfl⟩
  | cons b L2 =>
    obtain ⟨f, s⟩ := b
    obtain ⟨hl1, hs, hl2⟩ := links_append.1 hI.links
    have hbf : bp + n ≤ f := hup (f, s) List.mem_cons_self
    have hf := (hI.bounds (b := (f, s)) (List.mem_append_left _ (List.mem_append_right _ List.mem_cons_self))).2
    have hs8 := hI.units (f, s) (List.mem_append_left _ (List.mem_append_right _ List.mem_cons_self))
    have hapf : Apart bp f := hap (f, s) (hmem List.mem_cons_self)
    have hsorted : ((f, s) :: L2).Pairwise Gap :=
      (List.pairwise_append.1 (List.pairwise_cons.1 hI.sorted).2).2.1
    dsimp only at hf hs8
    unfold HDR at hs8 hlen hn hs
    rw [hl1.last, Nat.mod_eq_of_lt (by omega)]
    by_cases hjoin : bp + n = f
    · rw [if_pos hjoin]
      dsimp only
      rw [ptr_setSize (.inr hI.apart_last), hl1.last, ptr_setSize (.inr hapf)]
      refine ⟨n + s, L2, ?_, Nat.le_add_right .., ?_, fun x => ?_, fun c hc => ?_, by omega,
        .cons _ (.refl _), fun q hq => ?_, rfl⟩
      · rw [size_setPtr (.inl rfl), size_setSize_self (by omega)]
        unfold HDR
        omega
      · refine hl2.congr (ptr_setPtr_self (ptr_lt h f)) fun c hc => ?_
        have hapc := hap c (hmem (List.mem_cons_of_mem _ hc))
        exact (same_setSize hapc _).trans (same_setPtr hapc _)
      · rw [times_cons (bp, n + s) L2, times_join, hjoin, times_cons (bp, n) ((f, s) :: L2),
          times_cons (f, s) L2, Nat.add_assoc]
      · have hgap := (List.pairwise_cons.1 hsorted).1 c hc
        unfold Gap at hgap
        dsimp only at hgap
        omega
      · exact (same_setSize hq _).trans (same_setPtr hq _)
    · rw [if_neg hjoin]
      refine ⟨n, (f, s) :: L2, (congrArg (HDR * ·) (size_setPtr (.inl rfl) f)).trans hn, Nat.le_refl _, ?_,
        fun x => rfl, ?_, hhi, .refl _, fun q hq => same_setPtr hq f, rfl⟩
      · refine ⟨ptr_setPtr_self (by omega), ?_, hl2.congr (ptr_setPtr hapf f) fun c hc => ?_⟩
        · exact (congrArg (HDR * ·) (size_setPtr (.inr hapf) f)).trans hs
        · exact same_setPtr (hap c (hmem (List.mem_cons_of_mem _ hc))) f
      · intro c hc
        rcases List.mem_cons.1 hc with rfl | hc
        · exact Nat.lt_of_le_of_ne hbf hjoin
        · have hgap := (List.pairwise_cons.1 hsorted).1 c hc
          unfold Gap at hgap
          dsimp only at hgap
          omega

theorem Inv.sorted_parts (hI : Inv base h (L1 ++ L2) A R) : ((base, 0) :: L1).Pairwise Gap ∧ L2.Pairwise Gap ∧
    ∀ b ∈ (base, 0) :: L1, ∀ c ∈ L2, Gap b c := by
  have hs : (((base, 0) :: L1) ++ L2).Pairwise Gap := hI.sorted
  exact List.pairwise_append.1 hs

/-- The nodes below the last one end before it. -/
theorem sorted_last {L : List (Nat × Nat)} {x : Nat × Nat} {c : Nat × Nat} (hs : (L ++ [x]).Pairwise Gap)
    (hc : c ∈ L ++ [x]) : c = x ∨ Gap c x := by
  rcases List.mem_append.1 hc with hc | hc
  · exact .inr ((List.pairwise_append.1 hs).2.2 c hc x List.mem_cons_self)
  · exact .inl (List.mem_singleton.1 hc)

/-- The free list after the second conditional of `free`. -/
structure Down (base : Nat) (h h' : Heap) (p bp m : Nat) (L1 L2' L' : List (Nat × Nat)) : Prop where
  links : Links h' base L' base
  sorted : ((base, 0) :: L').Pairwise Gap
  times : ∀ x, times L' x = times (L1 ++ (bp, m) :: L2') x
  node : p = base ∨ ∃ k, (p, k) ∈ L'
  big : ∃ b ∈ L', m ≤ b.2
  units : ∀ b ∈ L', HDR ≤ b.2
  short : L'.length ≤ L1.length + L2'.length + 1
  same : ∀ q, Apart p q → Same h h' q
  size : p = base → h'.size base = h.size base
  calls : h'.calls = h.calls

section

variable {h₁ : Heap} {m : Nat} {L2' : List (Nat × Nat)}

/-- After the first conditional the list below is as it was. -/
theorem Up.left (hI : Inv base h (L1 ++ L2) ((bp, n) :: A) R) (hU : Up base h h₁ bp n L2 m L2') :
    Links h₁ base L1 (h.ptr (lastOf base L1)) := by
  obtain ⟨hbase, hap⟩ := hI.apart_block
  exact hI.links.left.congr (hU.same base hbase).1 fun c hc =>
    hU.same c.1 (hap c (List.mem_append_left _ (List.mem_append_left _ hc)))

theorem Inv.apart_left (hI : Inv base h (L1 ++ L2) A R) : (base :: L1.map Prod.fst).Pairwise Apart := by
  have hsub : L1.Sublist (L1 ++ L2 ++ A) := (List.sublist_append_left L1 L2).trans (List.sublist_append_left ..)
  exact hI.apart.sublist (List.cons_sublist_cons.2 (hsub.map _))

/-- The last node below is apart from those above. -/
theorem Inv.apart_right (hI : Inv base h (L1 ++ L2) A R) : ∀ c ∈ L2 ++ A, Apart (lastOf base L1) c.1 := by
  intro c hc
  obtain ⟨hbase, hrest⟩ := List.pairwise_cons.1 hI.apart
  rw [List.append_assoc, List.map_append] at hbase hrest
  rcases lastOf_mem base L1 with he | ⟨k, hm⟩
  · rw [he]
    exact hbase c.1 (List.mem_append_right _ (List.mem_map_of_mem hc))
  · exact (List.pairwise_append.1 hrest).2.2 _ (List.mem_map_of_mem hm) c.1 (List.mem_map_of_mem hc)

theorem Up.units (hI : Inv base h (L1 ++ L2) ((bp, n) :: A) R) (hU : Up base h h₁ bp n L2 m L2') :
    HDR ≤ m ∧ (∀ b ∈ L1, HDR ≤ b.2) ∧ ∀ b ∈ L2', HDR ≤ b.2 := by
  have hn : HDR ≤ n := hI.units (bp, n) (List.mem_append_right _ List.mem_cons_self)
  refine ⟨hn.trans hU.ge, fun b hb => ?_, fun b hb => ?_⟩
  · exact hI.units b (List.mem_append_left _ (List.mem_append_left _ hb))
  · exact hI.units b (List.mem_append_left _ (List.mem_append_right _ (hU.sub.subset hb)))

/-- The block is linked to the node below it. -/
theorem linkDown_spec (hI : Inv base h (L1 ++ L2) ((bp, n) :: A) R) (hU : Up base h h₁ bp n L2 m L2')
    (hbelow : ∀ b ∈ (base, 0) :: L1, b.1 + b.2 < bp) :
    Down base h₁ (h₁.setPtr (lastOf base L1) bp) (lastOf base L1) bp m L1 L2' (L1 ++ (bp, m) :: L2') := by
  obtain ⟨hs1, hs2, hs12⟩ := hI.sorted_parts
  obtain ⟨hm8, hu1, hu2⟩ := hU.units hI
  have hhi := (hI.bounds (b := (bp, n)) (List.mem_append_right _ List.mem_cons_self)).2
  have hn : HDR ≤ n := hI.units (bp, n) (List.mem_append_right _ List.mem_cons_self)
  dsimp only at hhi
  unfold HDR at hn
  have hpbp : Apart (lastOf base L1) bp := hI.apart_last.symm
  refine ⟨?_, ?_, fun x => rfl, ?_, ⟨(bp, m), List.mem_append_right _ List.mem_cons_self, Nat.le_refl _⟩, ?_, ?_,
    fun q hq => same_setPtr hq bp, fun hp => size_setPtr (.inl hp) bp, rfl⟩
  · refine links_append.2 ⟨(hU.left hI).setLast hI.apart_left (by omega), ?_, ?_⟩
    · rw [size_setPtr (.inr hpbp)]
      exact hU.len
    · refine hU.links.congr (ptr_setPtr hpbp bp) fun c hc => same_setPtr ?_ bp
      exact hI.apart_right c (List.mem_append_left _ (hU.sub.subset hc))
  · have hup : ((bp, m) :: L2').Pairwise Gap := List.pairwise_cons.2 ⟨hU.above, hs2.sublist hU.sub⟩
    refine List.pairwise_append.2 ⟨hs1, hup, fun b hb c hc => ?_⟩
    rcases List.mem_cons.1 hc with rfl | hc
    · exact hbelow b hb
    · exact hs12 b hb c (hU.sub.subset hc)
  · rcases lastOf_mem base L1 with he | ⟨k, hk⟩
    · exact .inl he
    · exact .inr ⟨k, List.mem_append_left _ hk⟩
  · intro b hb
    rcases List.mem_append.1 hb with hb | hb
    · exact hu1 b hb
    · rcases List.mem_cons.1 hb with rfl | hb
      · exact hm8
      · exact hu2 b hb
  · rw [List.length_append, List.length_cons]
    omega

/-- The block is joined to the one below it. -/
theorem mergeDown_spec {K : List (Nat × Nat)} {g t : Nat} (hI : Inv base h (K ++ [(g, t)] ++ L2) ((bp, n) :: A) R)
    (hU : Up base h h₁ bp n L2 m L2') (hjoin : g + t = bp) :
    Down base h₁ ((h₁.setSize g (h₁.size g + h₁.size bp)).setPtr g (h₁.ptr bp)) g bp m (K ++ [(g, t)]) L2'
      (K ++ (g, t + m) :: L2') := by
  obtain ⟨hs1, hs2, hs12⟩ := hI.sorted_parts
  obtain ⟨hm8, hu1, hu2⟩ := hU.units hI
  have hleft := hI.apart_left
  have hright := hI.apart_right
  rw [lastOf_append, lastOf] at hright
  obtain ⟨hlK, hlen, -⟩ := links_append.1 (hU.left hI)
  have hbp := hU.len
  have htop := hU.top
  rw [← List.cons_append] at hs1
  obtain ⟨hsK, -, hsg⟩ := List.pairwise_append.1 hs1
  have hgbase : base + 0 < g := hsg (base, 0) List.mem_cons_self (g, t) List.mem_cons_self
  have hapK : ∀ a ∈ base :: K.map Prod.fst, Apart g a := by
    intro a ha
    rw [List.map_append, ← List.cons_append] at hleft
    exact ((List.pairwise_append.1 hleft).2.2 a ha g List.mem_cons_self).symm
  refine ⟨?_, ?_, fun x => ?_, .inr ⟨t + m, List.mem_append_right _ List.mem_cons_self⟩,
    ⟨(g, t + m), List.mem_append_right _ List.mem_cons_self, Nat.le_add_left ..⟩, ?_, ?_,
    fun q hq => (same_setSize hq _).trans (same_setPtr hq _), fun hp => absurd hp (by omega), rfl⟩
  · refine links_append.2 ⟨?_, ?_, ?_⟩
    · have hsame : ∀ a ∈ base :: K.map Prod.fst,
          Same h₁ ((h₁.setSize g (h₁.size g + h₁.size bp)).setPtr g (h₁.ptr bp)) a :=
        fun a ha => (same_setSize (hapK a ha) _).trans (same_setPtr (hapK a ha) _)
      exact hlK.congr (hsame base List.mem_cons_self).1 fun c hc =>
        hsame c.1 (List.mem_cons_of_mem _ (List.mem_map_of_mem hc))
    · rw [size_setPtr (.inl rfl), size_setSize_self (by unfold HDR at hbp hlen; omega), Nat.mul_add, hlen, hbp]
    · refine hU.links.congr (ptr_setPtr_self (ptr_lt ..)) fun c hc => ?_
      have hapc := hright c (List.mem_append_left _ (hU.sub.subset hc))
      exact (same_setSize hapc _).trans (same_setPtr hapc _)
  · rw [← List.cons_append]
    refine List.pairwise_append.2 ⟨hsK, List.pairwise_cons.2 ⟨fun c hc => ?_, hs2.sublist hU.sub⟩, fun b hb c hc => ?_⟩
    · have := hU.above c hc
      unfold Gap
      dsimp only
      omega
    · rcases List.mem_cons.1 hc with rfl | hc
      · exact hsg b hb (g, t) List.mem_cons_self
      · exact hs12 b (List.mem_append_left [(g, t)] hb) c (hU.sub.subset hc)
  · rw [times_append, times_cons (g, t + m) L2', times_join, hjoin, times_append, times_append,
      times_cons (bp, m) L2']
    omega
  · intro b hb
    rcases List.mem_append.1 hb with hb | hb
    · exact hu1 b (List.mem_append_left _ hb)
    · rcases List.mem_cons.1 hb with rfl | hb
      · exact hm8.trans (Nat.le_add_left ..)
      · exact hu2 b hb
  · rw [List.length_append, List.length_append, List.length_cons]
    omega

theorem joinDown_spec (hI : Inv base h (L1 ++ L2) ((bp, n) :: A) R)
    (h1 : ∀ b ∈ L1, b.1 < bp) (h2 : ∀ b ∈ L2, bp < b.1) (hU : Up base h h₁ bp n L2 m L2') :
    ∃ L', Down base h₁ (joinDown bp (lastOf base L1) h₁) (lastOf base L1) bp m L1 L2' L' := by
  obtain ⟨hbelow, -⟩ := hI.around h1 h2
  obtain ⟨hs1, hs2, hs12⟩ := hI.sorted_parts
  have hb := hI.bounds (b := (bp, n)) (List.mem_append_right _ List.mem_cons_self)
  dsimp only at hb
  unfold joinDown add
  rcases List.eq_nil_or_concat L1 with rfl | ⟨K, ⟨g, t⟩, rfl⟩
  · have hsize : h₁.size base = 0 := (hU.same base hI.apart_block.1).2.trans hI.baseSize
    have hfits := hI.fits
    have hne : ¬ (base + HDR * 0) % 2 ^ 32 = bp := by
      unfold HDR at *
      omega
    rw [lastOf, hsize, if_neg hne]
    refine ⟨_, linkDown_spec hI hU fun b hb' => ?_⟩
    obtain rfl := List.mem_singleton.1 hb'
    unfold HDR at hb
    dsimp only
    omega
  · rw [List.concat_eq_append] at *
    obtain ⟨-, hlen, -⟩ := links_append.1 (hU.left hI)
    have hgt : g + t ≤ bp := hbelow (g, t) (List.mem_append_right _ List.mem_cons_self)
    have hn : HDR ≤ n := hI.units (bp, n) (List.mem_append_right _ List.mem_cons_self)
    unfold HDR at hn
    have hgbp : Apart g bp := by
      have := hI.apart_last
      rw [lastOf_append] at this
      exact this.symm
    rw [lastOf_append, lastOf, hlen, Nat.mod_eq_of_lt (by omega)]
    by_cases hjoin : g + t = bp
    · rw [if_pos hjoin]
      dsimp only
      rw [ptr_setSize (.inr hgbp)]
      exact ⟨_, mergeDown_spec hI hU hjoin⟩
    · rw [if_neg hjoin]
      have hD := linkDown_spec hI hU fun b hb' => ?_
      · rw [lastOf_append, lastOf] at hD
        exact ⟨_, hD⟩
      · rw [← List.cons_append] at hs1 hb'
        rcases sorted_last hs1 hb' with rfl | hgap
        · exact Nat.lt_of_le_of_ne hgt hjoin
        · unfold Gap at hgap
          dsimp only at hgap
          omega

end

/-! ## `free` -/

/-- The heap after `free` of a block of `n` bytes. -/
structure Freed (base : Nat) (h h' : Heap) (L A R : List (Nat × Nat)) (n : Nat) (L' : List (Nat × Nat)) : Prop where
  inv : Inv base h' L' A R
  big : ∃ b ∈ L', n ≤ b.2
  short : L'.length ≤ L.length + 1
  calls : h'.calls = h.calls

theorem join_spec (hI : Inv base h (L1 ++ L2) ((bp, n) :: A) R) (h1 : ∀ b ∈ L1, b.1 < bp) (h2 : ∀ b ∈ L2, bp < b.1) :
    ∃ L', Freed base h { joinDown bp (lastOf base L1) (joinUp bp (lastOf base L1) h) with freep := lastOf base L1 }
      (L1 ++ L2) A R n L' := by
  obtain ⟨m, L2', hU⟩ := joinUp_spec hI h1 h2
  obtain ⟨L', hD⟩ := joinDown_spec hI h1 h2 hU
  obtain ⟨hbase, hap⟩ := hI.apart_block
  generalize joinUp bp (lastOf base L1) h = h₁ at hU hD
  generalize joinDown bp (lastOf base L1) h₁ = h₂ at hD
  have hlinks : Links { h₂ with freep := lastOf base L1 } base L' base :=
    hD.links.congr rfl fun _ _ => ⟨rfl, rfl⟩
  refine ⟨L', ⟨hI.pos, hI.fits, hlinks, ?_, hD.sorted, hD.node, ?_, fun b hb => ?_, fun x => ?_, hI.once, hI.low, hI.top⟩,
    ?_, ?_, hD.calls.trans hU.calls⟩
  · have hsize : h₂.size base = h₁.size base := by
      rcases lastOf_mem base L1 with he | ⟨k, hk⟩
      · exact hD.size he
      · exact (hD.same base ((List.pairwise_cons.1 hI.apart_left).1 _ (List.mem_map_of_mem hk)).symm).2
    exact hsize.trans ((hU.same base hbase).2.trans hI.baseSize)
  · intro b hb
    rcases List.mem_append.1 hb with hb | hb
    · exact hD.units b hb
    · exact hI.units b (List.mem_append_right _ (List.mem_cons_of_mem _ hb))
  · have hsame : Same h h₂ b.1 := (hU.same b.1 (hap b (List.mem_append_right _ hb))).trans
      (hD.same b.1 (hI.apart_right b (List.mem_append_right _ (List.mem_cons_of_mem _ hb))))
    change HDR * h₂.size b.1 = b.2
    rw [hsame.2]
    exact hI.alloc b (List.mem_cons_of_mem _ hb)
  · have hold := hI.tiled x
    have hL := hD.times x
    have hup := hU.times x
    rw [times_cons _ (L1 ++ L2 ++ _), times_append, times_append, times_cons (bp, n) A] at hold
    rw [times_append, times_cons (bp, m) L2'] at hL
    rw [times_cons (bp, m) L2', times_cons (bp, n) L2] at hup
    rw [← hold, times_cons _ (L' ++ A), times_append, hL]
    omega
  · obtain ⟨b, hb, hm⟩ := hD.big
    exact ⟨b, hb, hU.ge.trans hm⟩
  · have := hU.sub.length_le
    have := hD.short
    rw [List.length_append]
    omega

theorem free_wp (hI : Inv base h L ((bp, n) :: A) R) (k : Nat) :
    wp (free k (bp + HDR)) (fun _ => k ≤ 2 * L.length + 1) (fun _ h' => ∃ L', Freed base h h' L A R n L') h := by
  have hmem : (bp, n) ∈ L ++ (bp, n) :: A := List.mem_append_right _ List.mem_cons_self
  have hb := hI.bounds hmem
  have hn := hI.units _ hmem
  dsimp only at hb hn
  obtain ⟨-, hap⟩ := hI.apart_block
  obtain ⟨L1, L2, rfl, h1, h2⟩ := exists_cut bp (List.pairwise_cons.1 hI.sorted).2 fun b hb' => by
    have := hap b (List.mem_append_left _ hb')
    unfold Apart HDR at this
    omega
  have hbp : (bp + HDR + (2 ^ 32 - HDR)) % 2 ^ 32 = bp := by
    unfold HDR at hn ⊢
    omega
  unfold free
  refine wp_seq (get_wp ?_)
  dsimp only
  rw [hbp]
  refine wp_seq (wp_post (search_wp hI (by unfold HDR at hb; omega) h1 h2 k) ?_)
  rintro _ _ ⟨rfl, rfl⟩
  exact modify_wp (join_spec hI h1 h2)

end Xv6.Umalloc
