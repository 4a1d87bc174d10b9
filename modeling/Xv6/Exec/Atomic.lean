import Xv6.Exec.Renew

/-!
# When `exec` fails

`exec` gives the caller empty tables and a new swap file before it reads the first program header, and
no exit behind that point brings the old ones back.
-/

namespace Xv6

open Lib

/-- Size, page table, page contents, tables and swap file of slot `c` are as they were. -/
structure Intact (c : Nat) (s s' : Kernel) : Prop where
  sz : (s'.proc c).sz = (s.proc c).sz
  pgdir : (s'.proc c).pgdir = (s.proc c).pgdir
  dir : s'.dirs (s.proc c).pgdir = s.dirs (s.proc c).pgdir
  bytes : ∀ u < NUSER, has ((s.dirs (s.proc c).pgdir).pte u) PTE_P = true →
    s'.mem (pageNo ((s.dirs (s.proc c).pgdir).pte u)) = s.mem (pageNo ((s.dirs (s.proc c).pgdir).pte u))
  vpaMemory : (s'.proc c).vpaMemory = (s.proc c).vpaMemory
  vpaSwap : (s'.proc c).vpaSwap = (s.proc c).vpaSwap
  sizeMem : (s'.proc c).sizeMem = (s.proc c).sizeMem
  file : s'.files (s.proc c).pid = s.files (s.proc c).pid

/-- `exec` finds no file, no ELF header, or too little memory for the kernel part of a directory. -/
def GivesUp (s : Kernel) : Option ProgFile → Prop
  | none => True
  | some f => ¬ HasHeader f ∨ s.freelist.length < 65

section

variable [Build] {E : String → Prop} {s s' : Kernel} {c : Nat} {f : ProgFile} {file : Option ProgFile}
  {argv : List (List Byte)}

omit [Build] in
theorem Intact.of_proc (hp : s'.proc = s.proc) (hd : s'.dirs = s.dirs) (hm : s'.mem = s.mem)
    (hf : s'.files = s.files) : Intact c s s' := by
  refine ⟨?_, ?_, ?_, fun u _ _ => ?_, ?_, ?_, ?_, ?_⟩
  all_goals simp only [hp, hd, hm, hf]

/-- To reason about an `exec` that gives up, reason about a message and about a directory that could not
be made. -/
theorem exec_givesUp_rule {Q : Option Regs → Kernel → Prop} (hc : Caller s c) (h : GivesUp s file) (hsame : Q none s)
    (hprint : Q none (s.printed "exec: fail\n"))
    (hfull : ∀ d s', Own s' Pend.none → Touches (· ∈ s.freelist) d s s' →
      (∀ p < NPROC, counted s Pend.none.skip p = true → (s.proc p).pgdir ≠ d) → Q none s') :
    wp (exec file argv) E Q s := by
  unfold exec execWith
  cases file with
  | none => exact wp_seq (cprintf_wp hprint)
  | some f =>
    refine wp_seq ?_
    unfold loadFile
    cases hh : readElfhdr f with
    | none => exact hsame
    | some elf =>
      dsimp only
      by_cases hm : elf.magic ≠ ELF_MAGIC
      · rw [if_pos hm]
        exact hsame
      · rw [if_neg hm]
        have hlow : s.freelist.length < 65 := h.resolve_left (not_not.2 ⟨elf, hh, not_not.1 hm⟩)
        refine wp_seq (wp_post (setupkvm_own hc.own) ?_)
        rintro (_ | d) s1 hres
        · obtain ⟨hown, -, d, htouch, hne⟩ := hres
          exact hfull d s1 hown htouch hne
        · obtain ⟨-, -, -, -, -, hlen⟩ := hres
          omega

end

/-! ## A caller with a page in its swap file -/

section

variable [Build]

/-- A page that is nowhere is entered in a free slot. -/
theorem Agree.slot {q : Proc} {pte : Nat → Word} {m : Nat → Nat} {u i : Nat} {w : Word} (h : Agree q pte m)
    (hu : u < NUSER) (hp : has (pte u) PTE_P = false) (hg : has (pte u) PTE_PG = false)
    (hwp : has w PTE_P = false) (hwg : has w PTE_PG = true) (hi : i < MAX_SWAP_PAGES)
    (hfree : has (q.vpaSwap i) SWAP_P = false) : Agree (q.fillSlot i u) (Function.update pte u w) m := by
  have hres : resident (q.fillSlot i u) = resident q := rfl
  refine ⟨⟨h.table.size, h.table.ring⟩, fun v hv => ?_, fun v hv => ?_, fun v hv => ?_, h.memLt, fun j hj ho => ?_⟩
  · rw [hres, h.inMem v hv]
    by_cases e : v = u
    · rw [e, Function.update_self, hp, hwp]
    · rw [Function.update_of_ne e]
  · rw [swapCount_fill hi hfree (page_lt_word hu), h.inSwap v hv, ind_page]
    by_cases e : v = u
    · rw [e, Function.update_self, hg, hwg, ind_true rfl]
      rfl
    · rw [Function.update_of_ne e, ind_false (Ne.symm e), Nat.add_zero]
  · by_cases e : v = u
    · rw [e, Function.update_self, hwp]
      exact nofun
    · rw [Function.update_of_ne e]
      exact h.excl v hv
  · by_cases e : j = i
    · rw [e, show (q.fillSlot i u).vpaSwap i = _ from Function.update_self _ _ _, (slotEntry (by simp) (page_lt_word hu)).2]
      exact page_lt hu
    · rw [show (q.fillSlot i u).vpaSwap j = q.vpaSwap j from Function.update_of_ne e _ _] at ho ⊢
      exact h.swapLt j hj ho

end

end Xv6
