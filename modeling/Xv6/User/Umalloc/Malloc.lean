import Xv6.User.Umalloc.Free

/-!
# `malloc` keeps the heap

A block is taken from the free list, or cut from the end of a free block; when none is large enough
`morecore` adds one, and the second walk finds it.
-/

namespace Xv6.Umalloc

open Lib

variable {base : Nat} {h h' : Heap} {L L1 L2 A R : List (Nat × Nat)} {p prevp nu : Nat}

/-- `x` is `base` or the address of a free block. -/
def Node (base : Nat) (L : List (Nat × Nat)) (x : Nat) : Prop := x = base ∨ ∃ n, (x, n) ∈ L

theorem Inv.node_pos (hI : Inv base h L A R) {x : Nat} (hx : Node base L x) : 0 < x := by
  have hpos := hI.pos
  rcases hx with rfl | ⟨n, hn⟩
  · exact hpos
  · have hb := (hI.bounds (List.mem_append_left A hn)).1
    exact Nat.lt_of_lt_of_le hpos ((Nat.le_add_right ..).trans hb)

/-! ## Carving -/

/-- The node before a free block. -/
theorem Inv.cut_node (hI : Inv base h L A R) (hprev : Node base L prevp) (hsize : 0 < h.size (h.ptr prevp)) :
    ∃ L1 s L2, L = L1 ++ (h.ptr prevp, s) :: L2 ∧ prevp = lastOf base L1 := by
  have hl := hI.links
  have hnot : h.ptr prevp ≠ base := by
    intro he
    rw [he, hI.baseSize] at hsize
    exact Nat.lt_irrefl _ hsize
  rcases hprev with rfl | ⟨n, hn⟩
  · cases L with
    | nil => exact absurd hl hnot
    | cons c L2 =>
      refine ⟨[], c.2, L2, ?_, rfl⟩
      rw [hl.1]
      rfl
  · obtain ⟨K, M, rfl⟩ := List.append_of_mem hn
    obtain ⟨-, -, hl'⟩ := links_append.1 hl
    cases M with
    | nil => exact absurd hl' hnot
    | cons c L2 =>
      refine ⟨K ++ [(prevp, n)], c.2, L2, ?_, (lastOf_append base K prevp n []).symm⟩
      rw [hl'.1, List.append_assoc]
      rfl

theorem node_last (base : Nat) (L1 L2 : List (Nat × Nat)) : Node base (L1 ++ L2) (lastOf base L1) :=
  (lastOf_mem base L1).imp_right fun ⟨n, hn⟩ => ⟨n, List.mem_append_left _ hn⟩

theorem Inv.last_base (hI : Inv base h (L1 ++ L2) A R) : lastOf base L1 = base ∨ Apart (lastOf base L1) base := by
  refine (lastOf_mem base L1).imp_right fun ⟨n, hn⟩ => ?_
  exact ((List.pairwise_cons.1 hI.apart_left).1 _ (List.mem_map_of_mem hn)).symm

/-- A free block is away from the others. -/
theorem Inv.disj_block {n : Nat} (hI : Inv base h (L1 ++ (p, n) :: L2) A R) : ∀ c ∈ L1 ++ L2 ++ A, Disj (p, n) c := by
  have hperm : (L1 ++ (p, n) :: L2 ++ A).Perm ((p, n) :: (L1 ++ L2 ++ A)) := by
    rw [List.append_assoc, List.append_assoc]
    exact List.perm_middle
  have hd := (List.pairwise_cons.1 hI.disj).2
  exact (List.pairwise_cons.1 ((hperm.pairwise_iff fun h => Disj.symm h).1 hd)).1

theorem carve_whole (hI : Inv base h (L1 ++ (p, HDR * nu) :: L2) A R) :
    Inv base { h.setPtr (lastOf base L1) (h.ptr p) with freep := lastOf base L1 } (L1 ++ L2) ((p, HDR * nu) :: A) R := by
  obtain ⟨hl1, hsize, hl2⟩ := links_append.1 hI.links
  have hap := hI.apart_right
  have hapL : ∀ c ∈ (p, HDR * nu) :: L2, Apart (lastOf base L1) c.1 := fun c hc => hap c (List.mem_append_left _ hc)
  have hp := hapL (p, HDR * nu) List.mem_cons_self
  have hlinks : Links (h.setPtr (lastOf base L1) (h.ptr p)) base (L1 ++ L2) base := by
    refine Links.join (p := p) ?_ ?_
    · rw [ptr_setPtr hp]
      exact hl1.setLast hI.apart_left (ptr_lt h p)
    · exact hl2.congr (ptr_setPtr hp _) fun c hc => same_setPtr (hapL c (List.mem_cons_of_mem _ hc)) _
  have hmem : ∀ b, b ∈ L1 ++ L2 ++ (p, HDR * nu) :: A → b ∈ L1 ++ (p, HDR * nu) :: L2 ++ A := by
    intro b hb
    simp only [List.mem_append, List.mem_cons] at hb ⊢
    tauto
  refine ⟨hI.pos, hI.fits, hlinks.congr rfl fun _ _ => ⟨rfl, rfl⟩, ?_, ?_, node_last base L1 L2, fun b hb => hI.units b (hmem b hb),
    fun b hb => ?_, fun x => ?_, hI.once, hI.low, hI.top⟩
  · exact (size_setPtr hI.last_base _).trans hI.baseSize
  · exact hI.sorted.sublist (List.cons_sublist_cons.2 ((List.Sublist.refl L1).append (.cons _ (.refl L2))))
  · rcases List.mem_cons.1 hb with rfl | hb
    · exact (congrArg (HDR * ·) (size_setPtr (.inr hp) _)).trans hsize
    · exact (congrArg (HDR * ·) (size_setPtr (.inr (hap b (List.mem_append_right _ hb))) _)).trans (hI.alloc b hb)
  · rw [← hI.tiled x, times_cons _ (L1 ++ L2 ++ _), times_cons _ (L1 ++ _ ++ A)]
    simp only [times_append, times_cons (p, HDR * nu) A, times_cons (p, HDR * nu) L2]
    omega

theorem carve_tail {s : Nat} (hI : Inv base h (L1 ++ (p, HDR * s) :: L2) A R) (hnu : 1 ≤ nu) (hs : nu < s) :
    Inv base { (h.setSize p (s - nu)).setSize (p + HDR * (s - nu)) nu with freep := lastOf base L1 }
      (L1 ++ (p, HDR * (s - nu)) :: L2) ((p + HDR * (s - nu), HDR * nu) :: A) R := by
  obtain ⟨hl1, hsize, hl2⟩ := links_append.1 hI.links
  obtain ⟨hs1, hs2, hs12⟩ := hI.sorted_parts
  have hmem : (p, HDR * s) ∈ L1 ++ (p, HDR * s) :: L2 ++ A :=
    List.mem_append_left _ (List.mem_append_right _ List.mem_cons_self)
  have hb := hI.bounds hmem
  dsimp only at hb
  unfold HDR at hb
  -- The new header is inside the old block, away from every other header.
  have hothers : ∀ c ∈ L1 ++ L2 ++ A, Apart p c.1 ∧ Apart (p + HDR * (s - nu)) c.1 := by
    intro c hc
    have hd := hI.disj_block c hc
    have hc8 : HDR ≤ c.2 := by
      refine hI.units c ?_
      simp only [List.mem_append, List.mem_cons] at hc ⊢
      tauto
    unfold Disj at hd
    unfold Apart
    unfold HDR at hd hc8 ⊢
    dsimp only at hd
    omega
  have hbase : Apart p base ∧ Apart (p + HDR * (s - nu)) base := by
    unfold Apart HDR
    omega
  have hpp : Apart (p + HDR * (s - nu)) p := by
    unfold Apart HDR
    omega
  have hsame : ∀ q, Apart p q → Apart (p + HDR * (s - nu)) q →
      Same h ((h.setSize p (s - nu)).setSize (p + HDR * (s - nu)) nu) q :=
    fun q h1 h2 => (same_setSize h1 _).trans (same_setSize h2 _)
  have hlinks : Links ((h.setSize p (s - nu)).setSize (p + HDR * (s - nu)) nu) base (L1 ++ (p, HDR * (s - nu)) :: L2) base := by
    refine links_append.2 ⟨hl1.congr (hsame base hbase.1 hbase.2).1 fun c hc => ?_, ?_, hl2.congr ?_ fun c hc => ?_⟩
    · obtain ⟨h1, h2⟩ := hothers c (List.mem_append_left _ (List.mem_append_left _ hc))
      exact hsame c.1 h1 h2
    · rw [size_setSize hpp, size_setSize_self (by omega)]
    · rw [ptr_setSize (.inr hpp), ptr_setSize (.inl rfl)]
    · obtain ⟨h1, h2⟩ := hothers c (List.mem_append_left _ (List.mem_append_right _ hc))
      exact hsame c.1 h1 h2
  refine ⟨hI.pos, hI.fits, hlinks.congr rfl fun _ _ => ⟨rfl, rfl⟩, ?_, ?_, node_last base L1 _, fun b hb => ?_,
    fun b hb => ?_, fun x => ?_, hI.once, hI.low, hI.top⟩
  · exact (hsame base hbase.1 hbase.2).2.trans hI.baseSize
  · refine List.pairwise_append.2 ⟨hs1, List.pairwise_cons.2 ⟨fun c hc => ?_, (List.pairwise_cons.1 hs2).2⟩, fun b hb c hc => ?_⟩
    · have hgap := (List.pairwise_cons.1 hs2).1 c hc
      unfold Gap HDR at hgap ⊢
      dsimp only at hgap ⊢
      omega
    · rcases List.mem_cons.1 hc with rfl | hc
      · exact hs12 b hb (p, HDR * s) List.mem_cons_self
      · exact hs12 b hb c (List.mem_cons_of_mem _ hc)
  · have hold : ∀ c ∈ L1 ++ L2 ++ A, HDR ≤ c.2 := by
      intro c hc
      refine hI.units c ?_
      simp only [List.mem_append, List.mem_cons] at hc ⊢
      tauto
    simp only [List.mem_append, List.mem_cons] at hb hold
    rcases hb with (hb | rfl | hb) | rfl | hb
    · exact hold b (.inl (.inl hb))
    · exact Nat.le_mul_of_pos_right HDR (by omega)
    · exact hold b (.inl (.inr hb))
    · exact Nat.le_mul_of_pos_right HDR hnu
    · exact hold b (.inr hb)
  · rcases List.mem_cons.1 hb with rfl | hb
    · exact congrArg (HDR * ·) (size_setSize_self (by omega))
    · obtain ⟨h1, h2⟩ := hothers b (List.mem_append_right _ hb)
      exact (congrArg (HDR * ·) (hsame b.1 h1 h2).2).trans (hI.alloc b hb)
  · have hcut := times_join p (HDR * (s - nu)) (HDR * nu) x
    rw [← Nat.mul_add, Nat.sub_add_cancel (Nat.le_of_lt hs)] at hcut
    rw [← hI.tiled x, times_cons _ (L1 ++ _ ++ _ :: A), times_cons _ (L1 ++ _ ++ A)]
    simp only [times_append, times_cons _ L2, times_cons _ A, hcut]
    omega

theorem carve_spec (hI : Inv base h L A R) (hprev : Node base L prevp) (hnu : 1 ≤ nu)
    (hfit : nu ≤ h.size (h.ptr prevp)) :
    ∃ a L', (carve nu prevp (h.ptr prevp) h).1 = a + HDR ∧
      Inv base (carve nu prevp (h.ptr prevp) h).2 L' ((a, HDR * nu) :: A) R ∧
      (carve nu prevp (h.ptr prevp) h).2.calls = h.calls := by
  obtain ⟨L1, s, L2, rfl, hlast⟩ := hI.cut_node hprev (Nat.lt_of_lt_of_le hnu hfit)
  obtain ⟨-, rfl, -⟩ := links_append.1 hI.links
  generalize hp : h.ptr prevp = p at *
  have hb := hI.bounds (List.mem_append_left A (List.mem_append_right L1 List.mem_cons_self))
  dsimp only at hb
  unfold carve
  by_cases hsize : h.size p = nu
  · rw [if_pos hsize]
    rw [hsize] at hI hb
    refine ⟨p, _, ?_, hlast ▸ carve_whole hI, rfl⟩
    unfold add
    unfold HDR at hb ⊢
    omega
  · have hlt : nu < h.size p := Nat.lt_of_le_of_ne hfit (Ne.symm hsize)
    have hget : (h.setSize p (h.size p - nu)).size p = h.size p - nu := by
      have := size_lt h p
      exact size_setSize_self (by omega)
    have hadd : add p (h.size p - nu) = p + HDR * (h.size p - nu) := by
      unfold add
      unfold HDR at hb ⊢
      exact Nat.mod_eq_of_lt (by omega)
    rw [if_neg hsize]
    dsimp only
    rw [hget, hadd, hlast]
    refine ⟨p + HDR * (h.size p - nu), _, ?_, carve_tail hI hnu hlt, rfl⟩
    unfold add
    unfold HDR at hb ⊢
    omega

/-! ## More core -/

/-- The regions obtained. -/
def regions (calls : List (Int × Nat)) : List (Nat × Nat) :=
  calls.filterMap fun c => if c.2 = 2 ^ 32 - 1 then none else some (c.2, c.1.toNat)

/-- `sbrk` fails, or returns a region above `base` and above those it returned before. -/
def Fresh (base : Nat) (env : Env) : Prop :=
  ∀ (calls : List (Int × Nat)) (n : Nat), 0 < n → env calls n = 2 ^ 32 - 1 ∨
    (base + HDR ≤ env calls n ∧ (∀ r ∈ regions calls, r.1 + r.2 ≤ env calls n) ∧ env calls n + n < 2 ^ 32)

theorem regions_snoc (calls : List (Int × Nat)) (n q : Nat) :
    regions (calls ++ [((n : Int), q)]) = regions calls ++ if q = 2 ^ 32 - 1 then [] else [(q, n)] := by
  unfold regions
  rw [List.filterMap_append]
  refine congrArg _ ?_
  by_cases hq : q = 2 ^ 32 - 1
  · rw [if_pos hq, hq]
    rfl
  · rw [if_neg hq]
    have hc : (fun c : Int × Nat => if c.2 = 2 ^ 32 - 1 then none else some (c.2, c.1.toNat)) ((n : Int), q) =
        some (q, n) := if_neg hq
    exact List.filterMap_cons_some hc

theorem Inv.below (hI : Inv base h L A R) {q : Nat} (hq : ∀ r ∈ R, r.1 + r.2 ≤ q) :
    ∀ b ∈ L ++ A, b.1 + b.2 ≤ q := by
  intro b hb
  have hlen := hI.units b hb
  unfold HDR at hlen
  obtain ⟨r, hr, -, hx⟩ := hI.in_region (x := b.1 + b.2 - 1) hb (by omega) (by omega)
  have := hq r hr
  omega

/-- A new region is a block. -/
theorem Inv.grow {q : Nat} (hI : Inv base h L A R) (calls : List (Int × Nat)) (hlow : base + HDR ≤ q) (hq : ∀ r ∈ R, r.1 + r.2 ≤ q)
    (htop : q + HDR * nu < 2 ^ 32) (hnu : 1 ≤ nu) :
    Inv base { h.setSize q nu with calls := calls } L ((q, HDR * nu) :: A) (R ++ [(q, HDR * nu)]) := by
  have hbelow := hI.below hq
  have hap : ∀ b ∈ L ++ A, Apart q b.1 := by
    intro b hb
    have := hbelow b hb
    have := hI.units b hb
    unfold Apart
    omega
  have hbase : Apart q base := by
    unfold Apart
    omega
  have hlinks : Links (h.setSize q nu) base L base :=
    hI.links.congr (same_setSize hbase nu).1 fun c hc => same_setSize (hap c (List.mem_append_left _ hc)) nu
  refine ⟨hI.pos, hI.fits, hlinks.congr rfl fun _ _ => ⟨rfl, rfl⟩, (size_setSize hbase nu).trans hI.baseSize, hI.sorted,
    hI.freep, fun b hb => ?_, fun b hb => ?_, fun x => ?_, fun x => ?_, fun r hr => ?_, fun r hr => ?_⟩
  · rw [List.mem_append, List.mem_cons] at hb
    rcases hb with hb | rfl | hb
    · exact hI.units b (List.mem_append_left _ hb)
    · exact Nat.le_mul_of_pos_right HDR hnu
    · exact hI.units b (List.mem_append_right _ hb)
  · rcases List.mem_cons.1 hb with rfl | hb
    · exact congrArg (HDR * ·) (size_setSize_self (by unfold HDR at htop; omega))
    · exact (congrArg (HDR * ·) (size_setSize (hap b (List.mem_append_right _ hb)) nu)).trans (hI.alloc b hb)
  · have hold := hI.tiled x
    rw [times_cons _ (L ++ A), times_append] at hold
    rw [times_cons _ (L ++ _ :: A), times_append, times_cons _ A, ← List.cons_append, times_append, ← hold]
    omega
  · have hold := hI.once x
    rw [← List.cons_append, times_append, times_single]
    split
    · next hx =>
      -- A point of the new region is in no old one.
      have hzero : ¬ 0 < times ((base, HDR) :: R) x := by
        intro hpos
        obtain ⟨r, hr, h1, h2⟩ := exists_of_times_pos hpos
        rcases List.mem_cons.1 hr with rfl | hr
        · dsimp only at h2 hx
          omega
        · have := hq r hr
          dsimp only at hx
          omega
      omega
    · omega
  · rcases List.mem_append.1 hr with hr | hr
    · exact hI.low r hr
    · rw [List.mem_singleton.1 hr]
      exact hlow
  · rcases List.mem_append.1 hr with hr | hr
    · exact hI.top r hr
    · rw [List.mem_singleton.1 hr]
      exact htop

theorem Inv.setCalls (hI : Inv base h L A R) (calls : List (Int × Nat)) : Inv base { h with calls := calls } L A R :=
  ⟨hI.pos, hI.fits, hI.links.congr rfl fun _ _ => ⟨rfl, rfl⟩, hI.baseSize, hI.sorted, hI.freep, hI.units, hI.alloc,
    hI.tiled, hI.once, hI.low, hI.top⟩

theorem toInt_of_lt {n : Nat} (hn : n < 2 ^ 31) : toInt n = n := by
  have hval : (BitVec.ofNat 32 n).toNat = n := by
    rw [BitVec.toNat_ofNat]
    omega
  unfold toInt
  rw [BitVec.toInt_eq_toNat_of_lt (by omega), hval]

theorem le_coreUnits (nu : Nat) : nu ≤ coreUnits nu ∧ 4096 ≤ coreUnits nu := by
  unfold coreUnits
  split <;> omega

/-- What a call of `sbrk` leaves. -/
def Asked (h h' : Heap) (nu : Nat) : Prop := ∃ q, h'.calls = h.calls ++ [(((HDR * coreUnits nu : Nat) : Int), q)]

variable {env : Env} {fuel : Nat}

theorem morecore_wp (henv : Fresh base env) (hI : Inv base h L A (regions h.calls)) (hnu : HDR * coreUnits nu < 2 ^ 31) :
    wp (morecore env fuel nu) (fun _ => fuel ≤ 2 * L.length + 1) (fun r h' => Asked h h' nu ∧
      ((r = 0 ∧ Inv base h' L A (regions h'.calls)) ∨
        (r = h'.freep ∧ ∃ L', Inv base h' L' A (regions h'.calls) ∧ (∃ b ∈ L', HDR * coreUnits nu ≤ b.2) ∧
          L'.length ≤ L.length + 1))) h := by
  have hcore := (le_coreUnits nu).2
  unfold morecore
  dsimp only
  rw [Nat.mul_comm, toInt_of_lt hnu]
  unfold sbrk
  refine wp_seq (wp_seq (get_wp (wp_seq (set_wp ?_))))
  have hfresh := henv h.calls (HDR * coreUnits nu) (by unfold HDR; omega)
  generalize env h.calls ((HDR * coreUnits nu : Nat) : Int) = q at hfresh
  refine wp_ite.2 ⟨fun hq => ⟨⟨q, rfl⟩, .inl ⟨rfl, ?_⟩⟩, fun hq => ?_⟩
  · have hR := regions_snoc h.calls (HDR * coreUnits nu) q
    rw [if_pos hq, List.append_nil] at hR
    have hsame := hI.setCalls (h.calls ++ [(((HDR * coreUnits nu : Nat) : Int), q)])
    rwa [← hR] at hsame
  · obtain ⟨hlow, hold, htop⟩ := hfresh.resolve_left hq
    have hR := regions_snoc h.calls (HDR * coreUnits nu) q
    rw [if_neg hq] at hR
    have hgrow := hI.grow (h.calls ++ [(((HDR * coreUnits nu : Nat) : Int), q)]) hlow hold htop (by omega)
    rw [← hR] at hgrow
    have hadd : add q 1 = q + HDR := by
      unfold add
      unfold HDR at htop ⊢
      omega
    refine wp_seq (modify_wp ?_)
    rw [hadd]
    refine wp_seq (wp_post (free_wp hgrow fuel) ?_)
    rintro - h' ⟨L', hF⟩
    refine wp_seq (get_wp ⟨⟨q, hF.calls⟩, .inr ⟨rfl, L', ?_, hF.big, hF.short⟩⟩)
    have hcalls : h'.calls = h.calls ++ [(((HDR * coreUnits nu : Nat) : Int), q)] := hF.calls
    rw [hcalls]
    exact hF.inv

/-! ## The walk -/

/-- The list as seen from `freep`. -/
theorem Inv.rotate (hI : Inv base h L A R) : ∃ C, Links h h.freep C h.freep ∧ C.length = L.length ∧
    (∀ c ∈ C, c.1 ≠ h.freep ∧ Node base L c.1) ∧ ∀ b ∈ L, b.1 = h.freep ∨ ∃ n, (b.1, n) ∈ C := by
  obtain ⟨hbase, hs⟩ := List.pairwise_cons.1 hI.sorted
  have habove : ∀ b ∈ L, base < b.1 := hbase
  rcases hI.freep with hf | ⟨n, hn⟩
  · rw [hf]
    exact ⟨L, hI.links, rfl, fun c hc => ⟨Nat.ne_of_gt (habove c hc), .inr ⟨c.2, hc⟩⟩, fun b hb => .inr ⟨b.2, hb⟩⟩
  · generalize h.freep = f at hn
    have hfb := habove (f, n) hn
    obtain ⟨K, M, rfl⟩ := List.append_of_mem hn
    obtain ⟨hlK, -, hlM⟩ := links_append.1 hI.links
    obtain ⟨-, hsM, hsK⟩ := List.pairwise_append.1 hs
    have hsize : HDR * h.size base = 0 := by rw [hI.baseSize, Nat.mul_zero]
    refine ⟨M ++ (base, 0) :: K, links_append.2 ⟨hlM, hsize, hlK⟩, ?_, fun c hc => ?_, fun b hb => ?_⟩
    · simp only [List.length_append, List.length_cons]
      omega
    · rcases List.mem_append.1 hc with hc | hc
      · have hgap := (List.pairwise_cons.1 hsM).1 c hc
        unfold Gap at hgap
        dsimp only at hgap
        exact ⟨by omega, .inr ⟨c.2, List.mem_append_right _ (List.mem_cons_of_mem _ hc)⟩⟩
      · rcases List.mem_cons.1 hc with rfl | hc
        · exact ⟨Nat.ne_of_lt hfb, .inl rfl⟩
        · have hgap := hsK c hc (f, n) List.mem_cons_self
          unfold Gap at hgap
          dsimp only at hgap
          exact ⟨by omega, .inr ⟨c.2, List.mem_append_left _ hc⟩⟩
    · rcases List.mem_append.1 hb with hb | hb
      · exact .inr ⟨b.2, List.mem_append_right _ (List.mem_cons_of_mem _ hb)⟩
      · rcases List.mem_cons.1 hb with rfl | hb
        · exact .inl rfl
        · exact .inr ⟨b.2, List.mem_append_left _ hb⟩

/-- The rest of the loop of `malloc` after a full round. -/
def more (env : Env) (fuel nunits k : Nat) : U Nat := do
  let p ← morecore env fuel nunits
  if p = 0 then return 0
  else
    let h ← get
    mallocLoop env fuel nunits k p (h.ptr p)

/-- A walk from `prevp` to `freep` stops at the first block that is large enough; without one, there
is more to do. -/
theorem mallocLoop_walk {Q : Nat → Heap → Prop} {r : Nat} {F : Prop}
    (hfit : ∀ prevp, Node base L prevp → nu ≤ h.size (h.ptr prevp) →
      Q (carve nu prevp (h.ptr prevp) h).1 (carve nu prevp (h.ptr prevp) h).2) :
    ∀ (C : List (Nat × Nat)) (k prevp : Nat), Links h prevp C h.freep → Node base L prevp →
    (∀ c ∈ C, c.1 ≠ h.freep ∧ Node base L c.1) →
    ((∀ c ∈ C, h.size c.1 < nu) → h.size h.freep < nu → ∀ k, wp (more env fuel nu k) (fun _ => k ≤ r ∨ F) Q h) →
    wp (mallocLoop env fuel nu k prevp (h.ptr prevp)) (fun _ => k ≤ C.length + 1 + r ∨ F) Q h
  | C, 0, prevp, _, _, _, _ => .inl (Nat.zero_le _)
  | [], k + 1, prevp, hl, hp, _, hmore => by
    have hptr : h.ptr prevp = h.freep := hl
    unfold mallocLoop
    refine wp_seq (get_wp (wp_ite.2 ⟨fun hs => hfit prevp hp hs, fun hs => ?_⟩))
    rw [hptr, if_pos rfl]
    refine wp_mono (hmore (fun _ hc => nomatch hc) (hptr ▸ Nat.lt_of_not_le hs) k) (fun _ hk => ?_) fun _ _ h => h
    exact hk.imp_left fun hk => by omega
  | (f, n) :: C, k + 1, prevp, ⟨hptr, _, hl⟩, hp, hC, hmore => by
    unfold mallocLoop
    refine wp_seq (get_wp (wp_ite.2 ⟨fun hs => hfit prevp hp hs, fun hs => ?_⟩))
    rw [hptr] at hs ⊢
    obtain ⟨hne, hnode⟩ := hC (f, n) List.mem_cons_self
    rw [if_neg hne]
    have hmore' : (∀ c ∈ C, h.size c.1 < nu) → h.size h.freep < nu →
        ∀ k, wp (more env fuel nu k) (fun _ => k ≤ r ∨ F) Q h := by
      refine fun hsmall => hmore fun c hc => ?_
      rcases List.mem_cons.1 hc with rfl | hc
      · exact Nat.lt_of_not_le hs
      · exact hsmall c hc
    refine wp_mono (mallocLoop_walk hfit C k f hl hnode (fun c hc => hC c (List.mem_cons_of_mem _ hc)) hmore')
      (fun _ hk => ?_) fun _ _ h => h
    rw [List.length_cons]
    exact hk.imp_left fun hk => by omega

/-- What `malloc` of `nu` units does to the heap. -/
structure Got (base : Nat) (h : Heap) (A : List (Nat × Nat)) (nu r : Nat) (h' : Heap) : Prop where
  calls : h'.calls = h.calls ∨ Asked h h' nu
  result : (r = 0 ∧ ∃ L', Inv base h' L' A (regions h'.calls)) ∨
    ∃ a L', r = a + HDR ∧ Inv base h' L' ((a, HDR * nu) :: A) (regions h'.calls)

/-- One walk from `freep`. -/
theorem walk_wp {Q : Nat → Heap → Prop} {r : Nat} {F : Prop} (hI : Inv base h L A (regions h.calls)) (hnu : 1 ≤ nu)
    (hQ : ∀ a h', h'.calls = h.calls → (∃ L', Inv base h' L' ((a, HDR * nu) :: A) (regions h'.calls)) → Q (a + HDR) h')
    (hmore : (∀ b ∈ L, h.size b.1 < nu) → ∀ k, wp (more env fuel nu k) (fun _ => k ≤ r ∨ F) Q h) (k : Nat) :
    wp (mallocLoop env fuel nu k h.freep (h.ptr h.freep)) (fun _ => k ≤ L.length + 1 + r ∨ F) Q h := by
  obtain ⟨C, hl, hlen, hC, hL⟩ := hI.rotate
  rw [← hlen]
  refine mallocLoop_walk (fun prevp hp hs => ?_) C k h.freep hl hI.freep hC fun hsmall hfr => hmore fun b hb => ?_
  · obtain ⟨a, L', hr, hI', hcalls⟩ := carve_spec hI hp hnu hs
    rw [hr]
    refine hQ a _ hcalls ⟨L', ?_⟩
    rw [hcalls]
    exact hI'
  · rcases hL b hb with he | ⟨n, hn⟩
    · rw [he]
      exact hfr
    · exact hsmall (b.1, n) hn

theorem Inv.size_free (hI : Inv base h L A R) {b : Nat × Nat} (hb : b ∈ L) : HDR * h.size b.1 = b.2 := by
  obtain ⟨K, M, rfl⟩ := List.append_of_mem hb
  exact (links_append.1 hI.links).2.1

theorem mallocLoop_wp (henv : Fresh base env) (hI : Inv base h L A (regions h.calls)) (hnu : 1 ≤ nu)
    (hmax : HDR * coreUnits nu < 2 ^ 31) (k : Nat) :
    wp (mallocLoop env fuel nu k h.freep (h.ptr h.freep)) (fun _ => k ≤ 2 * L.length + 3 ∨ fuel ≤ 2 * L.length + 1)
      (Got base h A nu) h := by
  have hmore : (∀ b ∈ L, h.size b.1 < nu) → ∀ k, wp (more env fuel nu k)
      (fun _ => k ≤ L.length + 2 ∨ fuel ≤ 2 * L.length + 1) (Got base h A nu) h := by
    intro _ k
    unfold more
    refine wp_seq (wp_mono (morecore_wp henv hI hmax) (fun _ hk => .inr hk) ?_)
    rintro p h' ⟨hasked, ⟨rfl, hI'⟩ | ⟨rfl, L', hI', ⟨b, hb, hbig⟩, hlen⟩⟩
    · exact wp_ite.2 ⟨fun _ => ⟨.inr hasked, .inl ⟨rfl, L, hI'⟩⟩, fun h0 => absurd rfl h0⟩
    · refine wp_ite.2 ⟨fun h0 => absurd h0 (Nat.ne_of_gt (hI'.node_pos hI'.freep)), fun _ => wp_seq (get_wp ?_)⟩
      -- The new block is large enough, so that the second walk does not come here again.
      have hnone : (∀ b ∈ L', h'.size b.1 < nu) → ∀ k, wp (more env fuel nu k) (fun _ => k ≤ 0 ∨ False) (Got base h A nu) h' := by
        intro hsmall
        have hsize := hI'.size_free hb
        have hlt := hsmall b hb
        have hcore := (le_coreUnits nu).1
        unfold HDR at hsize hbig
        omega
      have hfound : ∀ a h'', h''.calls = h'.calls → (∃ L', Inv base h'' L' ((a, HDR * nu) :: A) (regions h''.calls)) →
          Got base h A nu (a + HDR) h'' := by
        rintro a h'' hcalls ⟨L'', hI''⟩
        refine ⟨.inr ?_, .inr ⟨a, L'', rfl, hI''⟩⟩
        unfold Asked
        rw [hcalls]
        exact hasked
      refine wp_mono (walk_wp hI' hnu hfound hnone k) (fun _ hk => ?_) fun _ _ h => h
      exact .inl (hk.elim (fun hk => by omega) False.elim)
  have hfound : ∀ a h', h'.calls = h.calls → (∃ L', Inv base h' L' ((a, HDR * nu) :: A) (regions h'.calls)) →
      Got base h A nu (a + HDR) h' := by
    rintro a h' hcalls ⟨L', hI'⟩
    exact ⟨.inl hcalls, .inr ⟨a, L', rfl, hI'⟩⟩
  refine wp_mono (walk_wp hI hnu hfound hmore k) (fun _ hk => ?_) fun _ _ h => h
  exact hk.imp_left fun hk => by omega

/-! ## `malloc` -/

/-- The heap before the first call of `malloc`, or after it. -/
def Ready (base : Nat) (h : Heap) (A : List (Nat × Nat)) : Prop :=
  (h.freep = 0 ∧ A = [] ∧ h.calls = []) ∨ ∃ L, Inv base h L A (regions h.calls)

theorem init_inv (hbase : 0 < base) (hfits : base + HDR ≤ 2 ^ 32) (hR : Ready base h A) :
    ∃ L, Inv base (init base h) L A (regions (init base h).calls) ∧ (init base h).calls = h.calls := by
  unfold init
  rcases hR with ⟨hf, rfl, hcalls⟩ | ⟨L, hI⟩
  · rw [if_pos hf]
    refine ⟨[], ⟨hbase, hfits, ?_, ?_, List.pairwise_singleton _ _, .inl rfl, fun b hb => (nomatch hb), fun b hb => (nomatch hb),
      fun x => ?_, ?_, ?_, ?_⟩, rfl⟩
    · exact (ptr_setSize (.inl rfl) 0).trans (ptr_setPtr_self (by unfold HDR at hfits; omega))
    · exact size_setSize_self (by decide)
    · change _ = times ((base, HDR) :: regions h.calls) x
      rw [hcalls]
      rfl
    · change Once ((base, HDR) :: regions h.calls)
      rw [hcalls]
      intro x
      change times [(base, HDR)] x ≤ 1
      rw [times_single]
      split <;> omega
    · change ∀ r ∈ regions h.calls, _
      rw [hcalls]
      exact fun r hr => nomatch hr
    · change ∀ r ∈ regions h.calls, _
      rw [hcalls]
      exact fun r hr => nomatch hr
  · rw [if_neg (Nat.ne_of_gt (hI.node_pos hI.freep))]
    exact ⟨L, hI, rfl⟩

theorem malloc_wp {nbytes : BitVec 32} (hbase : 0 < base) (hfits : base + HDR ≤ 2 ^ 32) (henv : Fresh base env)
    (hR : Ready base h A) (hmax : HDR * coreUnits (nunits nbytes) < 2 ^ 31) :
    ∃ b, ∀ fuel, wp (malloc env base fuel nbytes) (fun _ => fuel ≤ b) (Got base h A (nunits nbytes)) h := by
  obtain ⟨L, hI, hcalls⟩ := init_inv hbase hfits hR
  refine ⟨2 * L.length + 3, fun fuel => ?_⟩
  unfold malloc
  refine wp_seq (modify_wp (wp_seq (get_wp ?_)))
  refine wp_mono (mallocLoop_wp henv hI (Nat.le_add_left 1 _) hmax fuel) (fun _ hk => by omega) fun r h' hg => ?_
  refine ⟨?_, hg.result⟩
  have := hg.calls
  unfold Asked at this ⊢
  rwa [hcalls] at this

end Xv6.Umalloc
