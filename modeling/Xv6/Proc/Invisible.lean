import Xv6.Proc.Flat
import Xv6.Proc.Start

/-!
# Paging is invisible to user programs

Runs of the machine are runs of flat memory (`paging_invisible`). The abstract machine does
not say when an access traps, so this is completed by `Usable`: while there is a free frame,
a fault at a paged-out page brings it back and the repeated access goes through.
-/

namespace Xv6

open Lib

/-- The pages of slot `p` can be used. -/
structure Usable [Build] (s : Kernel) (F : Nat → Nat → Nat → Byte) (p : Nat) : Prop where
  /-- Faults at paged-out pages are recovered. -/
  fault : ∀ va, page va < NUSER → has ((s.dirs (s.proc p).pgdir).pte (page va)) PTE_PG = true →
    wp (turn p (.fault va)) (fun _ => False) (fun out s' => out = .ret 0 ∧ Inv s' Pend.none F ∧
      flats s' F = flats s F ∧ has ((s'.dirs (s'.proc p).pgdir).pte (page va)) PTE_P = true) s
  read : ∀ va w, (flat s F p).view (page va) = some ⟨true, w⟩ →
    wp (access p (.read va) va) (fun _ => False) (fun out s' =>
      out = .byte ((flat s F p).byte (page va) (offset va)) ∧ Inv s' Pend.none F ∧
      flats s' F = flats s F) s
  write : ∀ va b, (flat s F p).view (page va) = some ⟨true, true⟩ →
    wp (access p (.write va b) va) (fun _ => False) (fun out s' => out = .done ∧
      ∃ F', Inv s' Pend.none F' ∧ flats s' F' = Function.update (flats s F) p
        (some ⟨(flat s F p).size, (flat s F p).view,
          pokeByte (page va) (offset va) b (flat s F p).byte⟩)) s

section

variable {s s' : Kernel} {F : Nat → Nat → Nat → Byte} {p : Nat} {va : Word}

theorem flat_view {w w' : Bool} (h : (flat s F p).view (page va) = some ⟨w, w'⟩) :
    page va < NUSER ∧ (s.dirs (s.proc p).pgdir).view (page va) = some ⟨w, w'⟩ := by
  have hu : page va < NUSER := lt_of_userView (D := s.dirs (s.proc p).pgdir)
    (by rw [show userView _ _ = _ from h]; exact Option.some_ne_none _)
  exact ⟨hu, by rw [← h]; exact (userView_of_lt hu).symm⟩

theorem entryView_some {w : Word} {x y : Bool} (h : entryView w = some ⟨x, y⟩) :
    has w PTE_U = x ∧ has w PTE_W = y := by
  unfold entryView at h
  split at h
  · cases h
    exact ⟨rfl, rfl⟩
  · cases h

theorem same_flat (ha : Active s p) (h : flats s' F = flats s F) :
    Active s' p ∧ flat s' F p = flat s F p := by
  obtain ⟨h1, h2⟩ := active_of_flats ((congrFun h p).trans (flats_active ha))
  exact ⟨h1, h2.symm⟩

end

section

variable [Build] {E : String → Prop} {s s' : Kernel} {F : Nat → Nat → Nat → Byte} {p : Nat}
  {va : Word} {op : Op} {t : List Label}

theorem fault_recovers (h : Inv s Pend.none F) (ha : Active s p) (hfree : s.freelist ≠ [])
    (hu : page va < NUSER) (hg : has ((s.dirs (s.proc p).pgdir).pte (page va)) PTE_PG = true) :
    wp (turn p (.fault va)) E (fun out s' => out = .ret 0 ∧ Inv s' Pend.none F ∧
      flats s' F = flats s F ∧ has ((s'.dirs (s'.proc p).pgdir).pte (page va)) PTE_P = true) s := by
  have h1 := h.scheduled p
  refine turn_wp h ha (wp_seq (wp_post (recoverPageFault_inv h1 ha.running va.isLt) ?_))
  rintro r s' ⟨h', hf⟩
  obtain rfl := hf.recovered hu hg hfree
  refine ⟨rfl, h', hf.paging.flats h1 ha.running hf.pages, ?_⟩
  rw [hf.paging.pgdir]
  exact (hf.present rfl).2

/-- An access that traps only at absent pages goes through, if need be after a fault. -/
theorem access_wp {Q : Out → Kernel → Prop} (h : Inv s Pend.none F) (ha : Active s p)
    (hfree : s.freelist ≠ []) (hu : page va < NUSER)
    (hv : (s.dirs (s.proc p).pgdir).view (page va) ≠ none)
    (hop : ∀ s1, Inv s1 Pend.none F → flats s1 F = flats s F → wp (turn p op) E (fun out s' =>
      out ≠ .trapped ∧ Q out s' ∨ out = .trapped ∧ s' = s1.scheduled p ∧
        has ((s1.dirs (s1.proc p).pgdir).pte (page va)) PTE_P = false) s1) :
    wp (access p op va) E Q s := by
  unfold access
  refine wp_seq (wp_post (hop s h rfl) ?_)
  rintro out s1 (⟨hne, hQ⟩ | ⟨rfl, rfl, hp⟩)
  · cases out <;> first | exact hQ | exact absurd rfl hne
  · have hg : has ((s.dirs (s.proc p).pgdir).pte (page va)) PTE_PG = true := by
      obtain hc | hc := entryView_ne_none.1 hv
      · rw [hp] at hc
        cases hc
      · exact hc
    refine wp_seq (wp_post (fault_recovers (h.scheduled p) ha hfree hu hg) ?_)
    rintro _ s2 ⟨rfl, h2, hflats, hp2⟩
    refine wp_post (hop s2 h2 hflats) ?_
    rintro out s3 (⟨-, hQ⟩ | ⟨-, -, hc⟩)
    · exact hQ
    · rw [hp2] at hc
      cases hc

theorem read_turn {w : Bool} (h : Inv s Pend.none F) (ha : Active s p)
    (hv : (flat s F p).view (page va) = some ⟨true, w⟩) :
    wp (turn p (.read va)) E (fun out s' => out ≠ .trapped ∧
        (out = .byte ((flat s F p).byte (page va) (offset va)) ∧ Inv s' Pend.none F ∧
          flats s' F = flats s F) ∨
      out = .trapped ∧ s' = s.scheduled p ∧
        has ((s.dirs (s.proc p).pgdir).pte (page va)) PTE_P = false) s := by
  have h1 := h.scheduled p
  obtain ⟨hu, hv⟩ := flat_view hv
  refine turn_wp h ha (wp_seq (wp_post (userRead_inv h1 ha.running va.isLt) ?_))
  rintro (_ | b) s' ⟨h', hacc, hval, hsame, htrap⟩
  · refine .inr ⟨rfl, hsame rfl, ?_⟩
    by_contra hp
    exact htrap hu (Bool.eq_true_of_not_eq_false hp) (entryView_some hv).1 rfl
  · refine .inl ⟨fun hc => (by cases hc), ?_, h', hacc.paging.flats h1 ha.running hacc.pages⟩
    rw [(hval b rfl).2.2]
    rfl

theorem write_turn {b : Byte} (h : Inv s Pend.none F) (ha : Active s p)
    (hv : (flat s F p).view (page va) = some ⟨true, true⟩) :
    wp (turn p (.write va b)) E (fun out s' => out ≠ .trapped ∧ (out = .done ∧
        ∃ F', Inv s' Pend.none F' ∧ flats s' F' = Function.update (flats s F) p
          (some ⟨(flat s F p).size, (flat s F p).view,
            pokeByte (page va) (offset va) b (flat s F p).byte⟩)) ∨
      out = .trapped ∧ s' = s.scheduled p ∧
        has ((s.dirs (s.proc p).pgdir).pte (page va)) PTE_P = false) s := by
  have h1 := h.scheduled p
  obtain ⟨hu, hv⟩ := flat_view hv
  obtain ⟨hU, hW⟩ := entryView_some hv
  refine turn_wp h ha (wp_seq (wp_post (userWrite_inv (b := b) h1 ha.running va.isLt) ?_))
  rintro (_ | _) s' ⟨hacc, h', htrap⟩
  · refine .inr ⟨rfl, h', ?_⟩
    by_contra hp
    cases htrap hu (Bool.eq_true_of_not_eq_false hp) hU hW
  · refine .inl ⟨fun hc => (by cases hc), rfl, _, h'.1, ?_⟩
    rw [hacc.paging.toLocal.flats h1 ha.running (fun q hq => Function.update_of_ne hq _ _)
      (hacc.paging.fields p).1, hacc.pages.userView, poke, Function.update_self]
    rfl

theorem usable (h : Inv s Pend.none F) (ha : Active s p) (hfree : s.freelist ≠ []) :
    Usable s F p := by
  refine ⟨fun va => fault_recovers h ha hfree, fun va w hv => ?_, fun va b hv => ?_⟩
  all_goals
    obtain ⟨hu, hv'⟩ := flat_view hv
    refine access_wp h ha hfree hu (by rw [hv']; exact Option.some_ne_none _) fun s1 h1 he => ?_
    obtain ⟨ha1, hf⟩ := same_flat ha he
    rw [← he, ← hf]
    rw [← hf] at hv
  · exact read_turn h1 ha1 hv
  · exact write_turn h1 ha1 hv

/-- The programs see the memories `A`. -/
def Shows (s : Kernel) (A : Flats) : Prop := ∃ F, Inv s Pend.none F ∧ A = flats s F

/-- Every step of the machine is one of flat memory. -/
theorem Step.sim {l : Label} {A : Flats} (hs : Shows s A) (hl : Step s l s') :
    ∃ A', FlatStep A l A' ∧ Shows s' A' := by
  obtain ⟨F, h, rfl⟩ := hs
  obtain ⟨F', h', hstep⟩ := of_wp (turn_sim (E := fun _ => True) l.op h hl.1 fun _ _ => trivial) hl.2
  exact ⟨_, hstep, F', h', rfl⟩

/-- From a state whose tables agree with the page tables, every run is a run of flat memory
with the same results. In the state it reaches, pages can be used while there is a free frame;
the next turn stops the machine only for lack of frames, at a `fork` over a hole or when
`init` exits, and changes no other process's memory; and there are no holes unless a process
gave all its pages away. -/
theorem paging_invisible (h : Inv s Pend.none F) (hrun : Run Step s t s') :
    ∃ F', Inv s' Pend.none F' ∧ Run FlatStep (flats s F) t (flats s' F') ∧
      (∀ p, Active s' p → s'.freelist ≠ [] → Usable s' F' p) ∧
      (∀ p op, Active s' p → wp (turn p op) (Stops (flat s' F' p) op) (fun out s'' =>
        ∃ F'', Inv s'' Pend.none F'' ∧ FlatStep (flats s' F') ⟨p, op, out⟩ (flats s'' F'') ∧
          ∀ q, Active s' q → q ≠ p → Active s'' q ∧ flat s'' F'' q = flat s' F' q) s') ∧
      ((∀ p, Active s p → ¬ (flat s F p).Hole) → (∀ l ∈ t, ¬ l.Empties) →
        ∀ p, Active s' p → ¬ (flat s' F' p).Hole) := by
  have hsim : ∃ A', Run FlatStep (flats s F) t A' ∧ Shows s' A' :=
    hrun.simulation (R := Shows) Step.sim ⟨F, h, rfl⟩
  obtain ⟨A', hflat, F', h', rfl⟩ := hsim
  refine ⟨F', h', hflat, fun p ha hfree => usable h' ha hfree, fun p op ha => ?_,
    fun hA ht p ha => ?_⟩
  · refine wp_post (turn_sim op h' ha fun _ hm => hm) ?_
    rintro out s'' ⟨F'', h'', hstep⟩
    refine ⟨F'', h'', hstep, fun q hq hne => ?_⟩
    have hother := hstep.other hne (by rw [flats_active hq]; exact Option.some_ne_none _)
    rw [flats_active hq] at hother
    obtain ⟨h1, h2⟩ := active_of_flats hother
    exact ⟨h1, h2.symm⟩
  · refine hflat.invariant (I := fun A => ∀ p a, A p = some a → ¬ a.Hole)
      (C := fun l => ¬ l.Empties) (fun hl hA hs => hs.noHole hl hA) ht (fun p a hp => ?_) p _
      (flats_active ha)
    obtain ⟨h1, rfl⟩ := active_of_flats hp
    exact hA p h1

end

/-- On the small machine, a byte is written and read back. -/
theorem paging_invisible_small :
    let _ := smallBuild .nfu
    ∃ s' F', Run Step (smallKernel .nfu)
        [⟨0, .write 0x1000#32 7#8, .done⟩, ⟨0, .read 0x1000#32, .byte 7#8⟩] s' ∧
      Run FlatStep (flats (smallKernel .nfu) (frameBytes (smallKernel .nfu)))
        [⟨0, .write 0x1000#32 7#8, .done⟩, ⟨0, .read 0x1000#32, .byte 7#8⟩] (flats s' F') ∧
      Usable s' F' 0 := by
  let _ := smallBuild .nfu
  have hrun : ∃ s', Run Step (smallKernel .nfu)
      [⟨0, .write 0x1000#32 7#8, .done⟩, ⟨0, .read 0x1000#32, .byte 7#8⟩] s' ∧
      Active s' 0 ∧ s'.freelist ≠ [] :=
    ⟨_, .step ⟨by decide, rfl⟩ (.step ⟨by decide, rfl⟩ (.refl _)), by decide, fun h => by cases h⟩
  obtain ⟨s', hrun, ha, hfree⟩ := hrun
  obtain ⟨F', -, hflat, huse, -⟩ := paging_invisible (small_start .nfu).inv hrun
  exact ⟨s', F', hrun, hflat, huse 0 ha hfree⟩

end Xv6
