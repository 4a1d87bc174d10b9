import Xv6.User.Umalloc.Runs

/-!
# Requests at the top of the range

`malloc` computes the units of a request in 32 bits, and `morecore` passes their length as an `int`.
Both are exact up to `2 ^ 31 - 16` bytes.
-/

namespace Xv6.Umalloc

open Lib

variable {base : Nat} {env : Env} {nbytes : BitVec 32}

/-- What `malloc` of `nbytes` promises, in every heap that programs with modest requests make. -/
def Exact (nbytes : BitVec 32) : Prop :=
  ∀ (base : Nat) (env : Env) (s₀ s : Sys) (t : List Ev) (fuel r : Nat) (h' : Heap), 0 < base → base + HDR ≤ 2 ^ 32 →
    Fresh base env → Start s₀ → Run (Step base env) s₀ t s → (∀ e ∈ t, Modest e) →
    malloc env base fuel nbytes s.heap = .ok (r, h') →
    (r = 0 ∨ nbytes.toNat ≤ HDR * (nunits nbytes - 1)) ∧
    ∀ c ∈ h'.calls.drop s.heap.calls.length, c.2 ≠ 2 ^ 32 - 1 → c.1 = HDR * coreUnits (nunits nbytes)

theorem exact_of_le (h : nbytes.toNat ≤ 2 ^ 31 - 16) : Exact nbytes := by
  intro base env s₀ s t fuel r h' hbase hfits henv h0 hrun ht hr
  have hR := ready_of_run hbase hfits henv h0 hrun ht
  obtain ⟨b, hwp⟩ := malloc_wp hbase hfits henv hR (coreUnits_lt h)
  have hg := of_wp (hwp fuel) hr
  refine ⟨.inr (room (by omega)), fun c hc _ => ?_⟩
  rcases hg.calls with hcalls | ⟨q, hcalls⟩
  · rw [hcalls, List.drop_length] at hc
    cases hc
  · rw [hcalls, List.drop_left] at hc
    obtain rfl := List.mem_singleton.1 hc
    exact Nat.cast_mul ..

/-! ## The first call -/

theorem toInt_lt (n : Nat) : toInt n < 2 ^ 31 := by
  unfold toInt
  have := BitVec.toInt_lt (x := BitVec.ofNat 32 n)
  omega

theorem nunits_le (nbytes : BitVec 32) : nunits nbytes ≤ 2 ^ 29 := by
  have := (nbytes + 7).isLt
  unfold nunits HDR
  omega

theorem apart_first : Apart 4096 4108 := .inl (by decide)

/-- The first region is linked behind `base`. -/
theorem join_first {h : Heap} {cu : Nat} (hptr : h.ptr 4096 = 4096) (hbase : h.size 4096 = 0) (hsize : h.size 4108 = cu) :
    (joinDown 4108 4096 (joinUp 4108 4096 h)).ptr 4096 = 4108 ∧
      (joinDown 4108 4096 (joinUp 4108 4096 h)).size 4108 = cu := by
  have hup : joinUp 4108 4096 h = h.setPtr 4108 4096 := by
    unfold joinUp add
    rw [hptr, hsize]
    exact if_neg (by unfold HDR; omega)
  have hdown : joinDown 4108 4096 (joinUp 4108 4096 h) = (h.setPtr 4108 4096).setPtr 4096 4108 := by
    rw [hup]
    unfold joinDown
    rw [size_setPtr (.inr apart_first.symm), hbase]
    exact if_neg (by decide)
  rw [hdown]
  refine ⟨ptr_setPtr_self (by decide), ?_⟩
  rw [size_setPtr (.inr apart_first), size_setPtr (.inl rfl), hsize]

theorem free_first {h : Heap} {cu : Nat} (hfreep : h.freep = 4096) (hptr : h.ptr 4096 = 4096) (hbase : h.size 4096 = 0)
    (hsize : h.size 4108 = cu) :
    wp (free 2 4116) (fun _ => False)
      (fun _ h' => h'.freep = 4096 ∧ h'.ptr 4096 = 4108 ∧ h'.size 4108 = cu ∧ h'.calls = h.calls) h := by
  have hcalls : (joinDown 4108 4096 (joinUp 4108 4096 h)).calls = h.calls := by
    unfold joinDown joinUp
    split <;> split <;> rfl
  obtain ⟨hp, hs⟩ := join_first hptr hbase hsize
  unfold free
  refine wp_seq (get_wp ?_)
  rw [hfreep]
  unfold search
  refine wp_seq (wp_seq (get_wp ?_))
  rw [hptr, if_neg (by decide), if_pos (by decide)]
  exact (wp_pure 4096 _).2 (modify_wp ⟨rfl, hp, hs, hcalls⟩)

theorem morecore_first {h : Heap} {nu : Nat} (hnu : nu ≤ 2 ^ 29) (hcalls : h.calls = []) (hfreep : h.freep = 4096)
    (hptr : h.ptr 4096 = 4096) (hbase : h.size 4096 = 0) :
    wp (morecore (onceAt 4108) 2 nu) (fun _ => False) (fun p h' => p = 4096 ∧ h'.freep = 4096 ∧ h'.ptr 4096 = 4108 ∧
      h'.size 4108 = coreUnits nu ∧ h'.calls = [(toInt (coreUnits nu * HDR), 4108)]) h := by
  have hgives : onceAt 4108 h.calls (toInt (coreUnits nu * HDR)) = 4108 := if_pos ⟨hcalls, toInt_lt _⟩
  have hcu : coreUnits nu < 2 ^ 32 := by
    unfold coreUnits
    split <;> omega
  unfold morecore sbrk
  refine wp_seq (wp_seq (get_wp (wp_seq (set_wp ?_))))
  rw [hgives]
  refine wp_ite.2 ⟨fun hc => absurd hc (by decide), fun _ => wp_seq (modify_wp ?_)⟩
  refine wp_seq (wp_post (free_first hfreep ?_ ?_ (size_setSize_self hcu)) ?_)
  · exact (ptr_setSize (.inr apart_first.symm) _).trans hptr
  · exact (size_setSize apart_first.symm _).trans hbase
  · rintro - h' ⟨hf, hp, hs, hc⟩
    refine wp_seq (get_wp ⟨hf, hf, hp, hs, hc.trans ?_⟩)
    change h.calls ++ _ = _
    rw [hcalls]
    rfl

theorem carve_first {h : Heap} {nu : Nat} {calls : List (Int × Nat)} (hs : h.size 4108 = coreUnits nu) (hnu : nu ≤ 2 ^ 29)
    (hc : h.calls = calls) :
    (carve nu 4096 4108 h).1 ≠ 0 ∧ (carve nu 4096 4108 h).2.calls = calls := by
  unfold carve
  rw [hs]
  by_cases he : coreUnits nu = nu
  · rw [if_pos he]
    exact ⟨(by decide : add 4108 1 ≠ 0), hc⟩
  · have hrest : coreUnits nu - nu ≤ 4096 := by
      unfold coreUnits
      split <;> omega
    have hget : (h.setSize 4108 (coreUnits nu - nu)).size 4108 = coreUnits nu - nu := size_setSize_self (by omega)
    rw [if_neg he]
    dsimp only
    rw [hget]
    refine ⟨?_, hc⟩
    unfold add HDR
    omega

/-- With one region to get, at an address that is not a multiple of eight, the first call of `malloc`
returns a block, whatever it was asked for. -/
theorem first_malloc (nbytes : BitVec 32) :
    wp (malloc (onceAt 4108) 4096 2 nbytes) (fun _ => False)
      (fun r h' => r ≠ 0 ∧ h'.calls = [(toInt (coreUnits (nunits nbytes) * HDR), 4108)]) emptyHeap.heap := by
  have hptr : (init 4096 emptyHeap.heap).ptr 4096 = 4096 := by decide
  have hsize : (init 4096 emptyHeap.heap).size 4096 = 0 := by decide
  have hnu := nunits_le nbytes
  have hpos : 1 ≤ nunits nbytes := Nat.le_add_left 1 _
  have hcu := (le_coreUnits (nunits nbytes)).1
  unfold malloc
  generalize nunits nbytes = nu at hnu hpos hcu
  refine wp_seq (modify_wp (wp_seq (get_wp ?_)))
  change wp (mallocLoop (onceAt 4108) 2 nu 2 4096 ((init 4096 emptyHeap.heap).ptr 4096)) _ _ _
  unfold mallocLoop
  refine wp_seq (get_wp ?_)
  have hfreep : (init 4096 emptyHeap.heap).freep = 4096 := rfl
  rw [hptr, hsize, hfreep, if_neg (Nat.not_le_of_lt hpos), if_pos rfl]
  refine wp_seq (wp_post (morecore_first hnu rfl rfl hptr hsize) ?_)
  rintro _ h' ⟨rfl, hf, hp, hs, hc⟩
  refine wp_ite.2 ⟨fun h0 => absurd h0 (by decide), fun _ => wp_seq (get_wp ?_)⟩
  unfold mallocLoop
  refine wp_seq (get_wp ?_)
  rw [hp, hs, if_pos hcu]
  exact carve_first hs hnu hc

/-- The promise holds for the requests up to `2 ^ 31 - 16` bytes and for no other. -/
theorem exact_iff (nbytes : BitVec 32) : Exact nbytes ↔ nbytes.toNat ≤ 2 ^ 31 - 16 := by
  refine ⟨fun h => ?_, exact_of_le⟩
  obtain ⟨r, h', hr, hr0, hcalls⟩ := exists_of_wp (first_malloc nbytes)
  obtain ⟨hroom, hasked⟩ := h 4096 (onceAt 4108) emptyHeap emptyHeap [] 2 r h' (by decide) (by decide)
    (fresh_onceAt (by decide) (by decide)) ⟨rfl, rfl, rfl⟩ (.refl _) (fun _ he => nomatch he) hr
  have hexact : toInt (coreUnits (nunits nbytes) * HDR) = HDR * coreUnits (nunits nbytes) :=
    hasked (_, 4108) (hcalls ▸ List.mem_cons_self) (by decide : 4108 ≠ 2 ^ 32 - 1)
  have hlt := toInt_lt (coreUnits (nunits nbytes) * HDR)
  have hle := (le_coreUnits (nunits nbytes)).1
  have hroom := hroom.resolve_left hr0
  rw [hexact] at hlt
  by_contra hbig
  unfold HDR at hlt hroom
  omega

/-- A request for `2 ^ 32 - 1` bytes: the sum wraps, and the block returned is a header with no room
after it. -/
theorem malloc_wraps : ∃ r h', malloc (onceAt 8192) 4096 4 0xFFFFFFFF emptyHeap.heap = .ok (r, h') ∧ r = 40960 ∧
    h'.size (r - HDR) = 1 ∧ ¬ (0xFFFFFFFF#32).toNat ≤ HDR * (h'.size (r - HDR) - 1) := by
  have hok : returns (malloc (onceAt 8192) 4096 4 0xFFFFFFFF emptyHeap.heap)
      (fun r h' => decide (r = 40960 ∧ h'.size (r - HDR) = 1)) = true := by decide +kernel
  obtain ⟨r, h', hr, htest⟩ := of_returns hok
  obtain ⟨hr0, hsize⟩ := of_decide_eq_true htest
  refine ⟨r, h', hr, hr0, hsize, ?_⟩
  rw [hsize]
  decide

end Xv6.Umalloc
