import Xv6.Lib.Run
import Xv6.Swap.Effect
import Xv6.Swap.Compact

/-!
# Swap files are written and read at offsets inside them

`writei` refuses a write that starts behind the end of a file. A slot is chosen first fit, so the
slots before it are occupied and lie inside the file; holes that page-ins and unlinks leave are
filled before the file grows. The steps are the calls of `swap.c` by any number of processes, each
with its own file, and between them anything that leaves these tables and files alone.
-/

namespace Xv6

open Lib

/-- What the calls print when the swap file refuses them. -/
def ioFailMsgs : List String :=
  [errorStr "moveToSwap: writeToSwapFile failed\n", errorStr "moveFromSwap: readFromSwapFile failed\n",
   errorStr "initSwap: readFromParentSwapFile failed\n", errorStr "initSwap: writeToSwapFile failed\n"]

/-- The kernel and the processes that have a swap file. -/
structure Swappers where
  kernel : Kernel
  live : List Nat

/-- A call by a process, or something else the kernel does. -/
inductive SwapCall where
  | initFresh (k : Nat)
  | fork (k c : Nat) (ret : Int)
  | link (p a : Nat)
  | moveFrom (p a mem : Nat)
  | unlink (p a : Nat)
  | destroy (p : Nat)
  | other
  deriving DecidableEq

namespace Swappers

/-- No process with a swap file has the pid of `k`. -/
def FreshPid (x : Swappers) (k : Nat) : Prop :=
  ∀ p ∈ x.live, p ≠ k → (x.kernel.proc p).pid ≠ (x.kernel.proc k).pid

/-- The tables and files of the processes in `live` are the same. -/
def SameSwap (live : List Nat) (s s' : Kernel) : Prop :=
  ∀ p ∈ live, (s'.proc p).vpaSwap = (s.proc p).vpaSwap ∧ (s'.proc p).pid = (s.proc p).pid ∧
    (s'.proc p).swapFile = (s.proc p).swapFile ∧ s'.files (s.proc p).pid = s.files (s.proc p).pid

section

variable [Build]

inductive Step : Swappers → SwapCall → Swappers → Prop
  | initFresh {x : Swappers} {k : Nat} {r : Int} {s' : Kernel} (hpid : x.FreshPid k)
      (h : initFreshSwap k x.kernel = .ok (r, s')) : Step x (.initFresh k) ⟨s', k :: x.live⟩
  | fork {x : Swappers} {k c : Nat} {r : Int} {s' : Kernel} (hpid : x.FreshPid k) (hc : c ∈ x.live)
      (hkc : k ≠ c) (hpar : (x.kernel.proc k).parent = some c)
      (h : initSwap k x.kernel = .ok (r, s')) :
      Step x (.fork k c r) ⟨s', if r < 0 then x.live.filter (· ≠ k) else k :: x.live⟩
  | link {x : Swappers} {p a : Nat} {r : Int} {s' : Kernel} (hp : p ∈ x.live)
      (h : linkNewPage p a x.kernel = .ok (r, s')) : Step x (.link p a) ⟨s', x.live⟩
  | moveFrom {x : Swappers} {p a mem : Nat} {r : Int} {s' : Kernel} (hp : p ∈ x.live)
      (h : moveFromSwap p a mem x.kernel = .ok (r, s')) : Step x (.moveFrom p a mem) ⟨s', x.live⟩
  | unlink {x : Swappers} {p a : Nat} {r : Int} {s' : Kernel} (hp : p ∈ x.live)
      (h : unlinkPage p a x.kernel = .ok (r, s')) : Step x (.unlink p a) ⟨s', x.live⟩
  | destroy {x : Swappers} {p : Nat} {r : Int} {s' : Kernel} (hp : p ∈ x.live)
      (h : destroySwap p x.kernel = .ok (r, s')) :
      Step x (.destroy p) ⟨s', x.live.filter (· ≠ p)⟩
  | other {x : Swappers} {s' : Kernel} (h : SameSwap x.live x.kernel s') : Step x .other ⟨s', x.live⟩

end

/-! ## Slots inside the file -/

/-- The occupied slots of `p` lie inside its file. -/
structure InFile (s : Kernel) (p : Nat) : Prop where
  opened : (s.proc p).swapFile = true
  file : ∃ f, s.files (s.proc p).pid = some f ∧
    ∀ i < MAX_SWAP_PAGES, has ((s.proc p).vpaSwap i) SWAP_P = true → (i + 1) * PGSIZE ≤ f.size

/-- A call of `p` that changes only the tables and the file of `p`, and prints none of the
failures. -/
structure OwnSwap (p : Nat) (s s' : Kernel) : Prop where
  other : ∀ q ≠ p, s'.proc q = s.proc q
  pid : (s'.proc p).pid = (s.proc p).pid
  files : ∀ n ≠ (s.proc p).pid, s'.files n = s.files n
  quiet : ∀ m ∈ ioFailMsgs, s'.cons.count m = s.cons.count m

variable {s s' : Kernel} {p k c a mem : Nat}

theorem InFile.congr (h : InFile s p) (hv : (s'.proc p).vpaSwap = (s.proc p).vpaSwap)
    (hpid : (s'.proc p).pid = (s.proc p).pid) (hsw : (s'.proc p).swapFile = (s.proc p).swapFile)
    (hf : s'.files (s.proc p).pid = s.files (s.proc p).pid) : InFile s' p where
  opened := hsw.trans h.opened
  file := by
    rw [hpid, hf, hv]
    exact h.file

theorem OwnSwap.keeps (h : OwnSwap p s s') {q : Nat} (hq : q ≠ p)
    (hpid : (s.proc q).pid ≠ (s.proc p).pid) (hin : InFile s q) : InFile s' q :=
  hin.congr (by rw [h.other q hq]) (by rw [h.other q hq]) (by rw [h.other q hq]) (h.files _ hpid)

theorem InFile.printed (h : InFile s p) (m : String) : InFile (s.printed m) p :=
  ⟨h.opened, h.file⟩

theorem OwnSwap.trans {s'' : Kernel} (h1 : OwnSwap p s s') (h2 : OwnSwap p s' s'') :
    OwnSwap p s s'' where
  other q hq := (h2.other q hq).trans (h1.other q hq)
  pid := h2.pid.trans h1.pid
  files n hn := (h2.files n (by rwa [h1.pid])).trans (h1.files n hn)
  quiet m hm := (h2.quiet m hm).trans (h1.quiet m hm)

theorem OwnSwap.printed {m : String} (h : m ∉ ioFailMsgs) : OwnSwap p s (s.printed m) := by
  refine ⟨fun _ _ => rfl, rfl, fun _ _ => rfl, fun m' hm' => ?_⟩
  refine List.count_cons_of_ne fun e => h ?_
  rwa [e]

/-- A free slot that is the first one starts inside the file. -/
theorem InFile.first_fit {f : SwapFile} {i : Nat} (h : InFile s p)
    (hf : s.files (s.proc p).pid = some f) (hi : getFreeSwapPageIndex (s.proc p) = some i) :
    i * PGSIZE ≤ f.size := by
  obtain ⟨g, hg, hin⟩ := h.file
  obtain rfl : g = f := Option.some.inj (hg.symm.trans hf)
  obtain ⟨hlt, -, hbefore⟩ := getFreeSwapPageIndex_some hi
  rcases i with _ | i
  · rw [Nat.zero_mul]
    exact Nat.zero_le _
  · exact hin i (by omega) (hbefore i (Nat.lt_succ_self i))

/-- Clearing a slot keeps the others where they are. -/
theorem InFile.clear {i : Nat} (h : InFile s p)
    (hp : s'.proc p = (s.proc p).clearSlot i) (hf : s'.files = s.files) : InFile s' p := by
  obtain ⟨f, hfile, hin⟩ := h.file
  refine ⟨?_, f, ?_, fun j hj ho => ?_⟩
  · rw [hp]
    exact h.opened
  · rw [hp, hf]
    exact hfile
  · rw [hp] at ho
    unfold Proc.clearSlot at ho
    by_cases e : j = i
    · simp only [e, Function.update_self, has_zero] at ho
      cases ho
    · simp only [Function.update_of_ne e] at ho
      exact hin j hj ho

/-- Filling the first free slot with the page that was written there. -/
theorem InFile.fill {i v : Nat} {f g : SwapFile} (h : InFile s p)
    (hf : s.files (s.proc p).pid = some f) (hle : f.size ≤ g.size) (hroom : (i + 1) * PGSIZE ≤ g.size)
    (hv : (s'.proc p).vpaSwap = ((s.proc p).fillSlot i v).vpaSwap)
    (hpid : (s'.proc p).pid = (s.proc p).pid) (hsw : (s'.proc p).swapFile = (s.proc p).swapFile)
    (hfiles : s'.files = Function.update s.files (s.proc p).pid (some g)) : InFile s' p := by
  obtain ⟨f', hf', hin⟩ := h.file
  obtain rfl : f' = f := Option.some.inj (hf'.symm.trans hf)
  refine ⟨hsw.trans h.opened, g, ?_, fun j hj ho => ?_⟩
  · rw [hpid, hfiles, Function.update_self]
  · rw [hv] at ho
    by_cases e : j = i
    · rw [e]
      exact hroom
    · simp only [Proc.fillSlot, Function.update_of_ne e] at ho
      exact (hin j hj ho).trans hle

/-- The file does not refuse the first free slot. -/
theorem InFile.not_refused {i : Nat} (h : InFile s p)
    (hfree : getFreeSwapPageIndex (s.proc p) = some i) (hn : NotMoved p i s s') :
    ∃ m ∉ ioFailMsgs, s' = s.printed m := by
  cases hn with
  | page m hm =>
    refine ⟨m, ?_, rfl⟩
    rcases hm with rfl | rfl <;> decide
  | file hf hoff _ => exact absurd (h.first_fit hf hfree) (Nat.not_le.2 hoff)

section

variable [Build]

/-- The entry that replaces another is not in the swap table. -/
theorem replaced_inFile (a idx : Nat) (h : InFile s p) :
    InFile (s.setProc p (replaceMemory (s.proc p) idx a)) p ∧
      OwnSwap p s (s.setProc p (replaceMemory (s.proc p) idx a)) := by
  obtain ⟨m, b, t, hrep⟩ := replaceMemory_eq (s.proc p) idx a
  have hself : (s.setProc p (replaceMemory (s.proc p) idx a)).proc p =
      (s.proc p).withMem m (s.proc p).sizeMem b t := by
    rw [← hrep]
    exact Function.update_self _ _ _
  refine ⟨h.congr ?_ ?_ ?_ rfl, fun q hq => Function.update_of_ne hq _ _, ?_, fun _ _ => rfl,
    fun _ _ => rfl⟩ <;> rw [hself] <;> rfl

theorem linkNewPage_inFile (h : InFile s p) : wp (linkNewPage p a) (fun _ => True)
    (fun _ s' => InFile s' p ∧ OwnSwap p s s') s := by
  refine linkNewPage_any (fun _ _ => trivial) (fun _ => trivial) (fun _ _ _ => trivial)
    fun r s' hres => ?_
  cases hres with
  | pushed hn =>
    obtain ⟨m, n, b, t, hpush⟩ := pushMemory_eq (s.proc p) a
    have hself : (s.setProc p (pushMemory (s.proc p) a)).proc p = (s.proc p).withMem m n b t := by
      rw [← hpush]
      exact Function.update_self _ _ _
    refine ⟨h.congr ?_ ?_ ?_ rfl, fun q hq => Function.update_of_ne hq _ _, ?_, fun _ _ => rfl,
      fun _ _ => rfl⟩ <;> rw [hself] <;> rfl
  | noSlot hn hfree =>
    exact ⟨h.printed fullMsg, .printed (by decide)⟩
  | @replaced idx i t hn hfree hv hout =>
    obtain ⟨f, g, hf, -, hle, hroom, hfiles⟩ := hout.file
    have ht : t.proc p = (s.proc p).fillSlot i (pageNo ((s.proc p).vpaMemory idx)) := by
      rw [hout.proc, Function.update_self]
    have hin : InFile t p := h.fill hf hle hroom (by rw [ht]) (by rw [ht]; rfl) (by rw [ht]; rfl) hfiles
    have hown : OwnSwap p s t := by
      refine ⟨fun q hq => ?_, by rw [ht]; rfl, fun n hn => ?_, fun _ _ => by rw [hout.cons]⟩
      · rw [hout.proc, Function.update_of_ne hq]
      · rw [hfiles, Function.update_of_ne hn]
    obtain ⟨h1, h2⟩ := replaced_inFile a idx hin
    exact ⟨h1, hown.trans h2⟩
  | @lost i t hpol hn hfree hout =>
    obtain ⟨m, hm, rfl⟩ := h.not_refused hfree hout
    obtain ⟨h1, h2⟩ := replaced_inFile a ((s.printed m).proc p).qHead (h.printed m)
    exact ⟨h1, (OwnSwap.printed hm).trans h2⟩
  | @stuck i t hpol hn hfree hout =>
    obtain ⟨m, hm, rfl⟩ := h.not_refused hfree hout
    exact ⟨(h.printed m).printed _, (OwnSwap.printed hm).trans (OwnSwap.printed (by decide))⟩

omit [Build] in
theorem moveFromSwap_inFile (h : InFile s p) : wp (moveFromSwap p a mem) (fun _ => True)
    (fun _ s' => InFile s' p ∧ OwnSwap p s s') s := by
  refine moveFromSwap_any (fun _ _ => trivial) (fun _ => trivial) fun r s' hres => ?_
  cases hres with
  | missing hs => exact ⟨h, fun _ _ => rfl, rfl, fun _ _ => rfl, fun _ _ => rfl⟩
  | @fetched i f hs hf hroom pg =>
    have hself : ((s.setMem mem pg).setProc p ((s.proc p).clearSlot i)).proc p =
        (s.proc p).clearSlot i := Function.update_self _ _ _
    exact ⟨h.clear hself rfl, fun q hq => Function.update_of_ne hq _ _, by rw [hself]; rfl,
      fun _ _ => rfl, fun _ _ => rfl⟩
  | @short i f hs hf hroom pg =>
    obtain ⟨g, hg, hin⟩ := h.file
    obtain rfl : g = f := Option.some.inj (hg.symm.trans hf)
    obtain ⟨hi, ho, -⟩ := swapSlot_some hs
    exact absurd (hin i hi ho) (Nat.not_le.2 hroom)

theorem unlinkPage_inFile (h : InFile s p) : wp (unlinkPage p a) (fun _ => True)
    (fun _ s' => InFile s' p ∧ OwnSwap p s s') s := by
  unfold unlinkPage
  refine wp_seq (getProc_wp ?_)
  split
  · trivial
  · rename_i r q hq
    refine wp_seq (setProc_wp ?_)
    have hself : (s.setProc p q).proc p = q := Function.update_self _ _ _
    have hown : ∀ b m n c d, q = { (s.proc p).withMem m n c d with vpaSwap := b } →
        OwnSwap p s (s.setProc p q) := by
      intro b m n c d he
      refine ⟨fun q hq => Function.update_of_ne hq _ _, ?_, fun _ _ => rfl, fun _ _ => rfl⟩
      rw [hself, he]
      rfl
    obtain ⟨-, m, n, t, rfl⟩ | ⟨-, i, -, rfl⟩ | ⟨-, rfl⟩ := unlinkTables_cases hq
    · exact ⟨h.congr (by rw [hself]; rfl) (by rw [hself]; rfl) (by rw [hself]; rfl) rfl,
        hown (s.proc p).vpaSwap m n (s.proc p).qHead t rfl⟩
    · exact ⟨h.clear hself rfl, hown _ (s.proc p).vpaMemory (s.proc p).sizeMem (s.proc p).qHead
        (s.proc p).qTail rfl⟩
    · exact ⟨h.congr (by rw [hself]) (by rw [hself]) (by rw [hself]) rfl,
        hown (s.proc p).vpaSwap (s.proc p).vpaMemory (s.proc p).sizeMem (s.proc p).qHead
          (s.proc p).qTail rfl⟩

omit [Build] in
theorem initFreshSwap_inFile : wp (initFreshSwap k) (fun _ => True)
    (fun _ s' => InFile s' k ∧ OwnSwap k s s') s := by
  unfold initFreshSwap
  refine wp_seq (getProc_wp (wp_seq (setProc_wp (createSwapFile_wp fun f => ?_))))
  obtain ⟨t, ht⟩ : ∃ t, t = (s.setProc k (s.proc k).freshTables).withFile k f := ⟨_, rfl⟩
  have hk : t.proc k = { (s.proc k).freshTables with swapFile := true } := by
    simp [ht, Kernel.withFile, Kernel.setProc, Kernel.setFile]
  have hfiles : t.files = Function.update s.files (s.proc k).pid (some f) := by
    simp [ht, Kernel.withFile, Kernel.setProc, Kernel.setFile, Proc.freshTables]
  rw [← ht]
  refine ⟨⟨by rw [hk], f, ?_, fun i _ ho => ?_⟩, fun q hq => ?_, by rw [hk]; rfl, fun n hn => ?_,
    fun _ _ => by rw [ht]; rfl⟩
  · rw [hk, hfiles]
    exact Function.update_self _ _ _
  · rw [hk] at ho
    simp only [Proc.freshTables, has_zero] at ho
    cases ho
  · simp [ht, Kernel.withFile, Kernel.setProc, Kernel.setFile, hq]
  · rw [hfiles, Function.update_of_ne hn]

theorem initSwap_inFile (hpar : (s.proc k).parent = some c) (hkc : k ≠ c)
    (hpid : (s.proc k).pid ≠ (s.proc c).pid) (hc : InFile s c) :
    wp (initSwap k) (fun _ => True) (fun r s' => r = 0 ∧ InFile s' k ∧ OwnSwap k s s') s := by
  obtain ⟨f, hf, hin⟩ := hc.file
  refine wp_post (initSwap_any hpar hkc hpid hf) ?_
  rintro r s' (⟨rfl, ⟨T, hT⟩, hother, hfiles, hcons, g, hg, hcop⟩ | ⟨-, j, hj, ho, hlt⟩)
  · have hkpid : (s'.proc k).pid = (s.proc k).pid := by
      rw [hT]
      rfl
    refine ⟨rfl, ⟨by rw [hT], g, by rw [hkpid, hg], fun i hi ho => ?_⟩, hother, hkpid, hfiles,
      fun _ _ => by rw [hcons]⟩
    -- the occupied slots of the child are the first ones
    have hmem : i ∈ takenBelow (s'.proc k).vpaSwap slotTaken MAX_SWAP_PAGES :=
      mem_takenBelow.2 ⟨hi, ho⟩
    rw [hcop.table.taken_eq (by decide), List.mem_range] at hmem
    exact (Nat.mul_le_mul_right _ hmem).trans hcop.room
  · have := hin j hj ho
    simp only [PGSIZE] at *
    omega

omit [Build] in
theorem destroySwap_own : wp (destroySwap p) (fun _ => True) (fun _ s' => OwnSwap p s s') s := by
  refine removeSwapFile_any (fun _ => trivial) fun r t ht => ?_
  rcases ht with rfl | rfl
  · exact ⟨fun _ _ => rfl, rfl, fun _ _ => rfl, fun _ _ => rfl⟩
  · exact ⟨fun _ _ => rfl, rfl, fun n hn => Function.update_of_ne hn _ _, fun _ _ => rfl⟩

/-! ## Runs -/

/-- Every process with a swap file has its occupied slots inside a file of its own. -/
structure Sound (x : Swappers) : Prop where
  file : ∀ p ∈ x.live, InFile x.kernel p
  pids : ∀ p ∈ x.live, ∀ q ∈ x.live, p ≠ q → (x.kernel.proc p).pid ≠ (x.kernel.proc q).pid

omit [Build] in
/-- A call of `p` that leaves a subset of the old processes, and `p` if it has a file. -/
theorem Sound.own {x : Swappers} {live : List Nat} (h : x.Sound) (hown : OwnSwap p x.kernel s')
    (hpid : x.FreshPid p) (hsub : ∀ q ∈ live, q = p ∨ q ∈ x.live) (hp : p ∈ live → InFile s' p) :
    Sound ⟨s', live⟩ := by
  have hpids : ∀ q, (s'.proc q).pid = (x.kernel.proc q).pid := fun q => by
    by_cases e : q = p
    · rw [e, hown.pid]
    · rw [hown.other q e]
  refine ⟨fun q hq => ?_, fun q hq q' hq' hne => ?_⟩
  · by_cases e : q = p
    · subst e
      exact hp hq
    · have hq' := (hsub q hq).resolve_left e
      exact hown.keeps e (hpid q hq' e) (h.file q hq')
  · rw [hpids, hpids]
    rcases hsub q hq with rfl | hl <;> rcases hsub q' hq' with rfl | hl'
    · exact absurd rfl hne
    · exact (hpid q' hl' hne.symm).symm
    · exact hpid q hl hne
    · exact h.pids q hl q' hl' hne

omit [Build] in
theorem Sound.freshPid {x : Swappers} (h : x.Sound) (hp : p ∈ x.live) : x.FreshPid p :=
  fun q hq hne => h.pids q hq p hp hne

/-- What one step keeps, and that a call prints no failure. -/
theorem Sound.step {x x' : Swappers} {e : SwapCall} (h : x.Sound) (hs : Step x e x') :
    x'.Sound ∧ (e ≠ .other → ∀ m ∈ ioFailMsgs, x'.kernel.cons.count m = x.kernel.cons.count m) ∧
      ∀ k c r, e = .fork k c r → r = 0 := by
  cases hs with
  | @initFresh k r s' hpid hrun =>
    obtain ⟨hin, hown⟩ := of_wp initFreshSwap_inFile hrun
    refine ⟨h.own hown hpid (fun q hq => List.mem_cons.1 hq) fun _ => hin, fun _ => hown.quiet, ?_⟩
    rintro _ _ _ ⟨⟩
  | @fork k c r s' hpid hc hkc hpar hrun =>
    obtain ⟨rfl, hin, hown⟩ := of_wp (initSwap_inFile hpar hkc (hpid c hc hkc.symm).symm
      (h.file c hc)) hrun
    rw [if_neg (by decide)]
    refine ⟨h.own hown hpid (fun q hq => List.mem_cons.1 hq) fun _ => hin, fun _ => hown.quiet, ?_⟩
    rintro _ _ _ ⟨⟩
    rfl
  | @link p a r s' hp hrun =>
    obtain ⟨hin, hown⟩ := of_wp (linkNewPage_inFile (h.file p hp)) hrun
    refine ⟨h.own hown (h.freshPid hp) (fun q hq => .inr hq) fun _ => hin, fun _ => hown.quiet, ?_⟩
    rintro _ _ _ ⟨⟩
  | @moveFrom p a mem r s' hp hrun =>
    obtain ⟨hin, hown⟩ := of_wp (moveFromSwap_inFile (h.file p hp)) hrun
    refine ⟨h.own hown (h.freshPid hp) (fun q hq => .inr hq) fun _ => hin, fun _ => hown.quiet, ?_⟩
    rintro _ _ _ ⟨⟩
  | @unlink p a r s' hp hrun =>
    obtain ⟨hin, hown⟩ := of_wp (unlinkPage_inFile (h.file p hp)) hrun
    refine ⟨h.own hown (h.freshPid hp) (fun q hq => .inr hq) fun _ => hin, fun _ => hown.quiet, ?_⟩
    rintro _ _ _ ⟨⟩
  | @destroy p r s' hp hrun =>
    have hown := of_wp destroySwap_own hrun
    refine ⟨h.own hown (h.freshPid hp) (fun q hq => .inr (List.mem_filter.1 hq).1) fun hq => ?_,
      fun _ => hown.quiet, ?_⟩
    · exact absurd (List.mem_filter.1 hq).2 (by simp)
    · rintro _ _ _ ⟨⟩
  | @other s' hsame =>
    refine ⟨⟨fun p hp => ?_, fun p hp q hq hne => ?_⟩, fun hne => absurd rfl hne, ?_⟩
    · obtain ⟨h1, h2, h3, h4⟩ := hsame p hp
      exact (h.file p hp).congr h1 h2 h3 h4
    · rw [(hsame p hp).2.1, (hsame q hq).2.1]
      exact h.pids p hp q hq hne
    · rintro _ _ _ ⟨⟩

end

end Swappers

open Swappers

/-- In every run of the calls of `swap.c`, from a state in which no process has a swap file yet: the
slot that `moveToSwap` would write starts inside the file and ends below the largest file size, so
that the whole page is accepted; every slot that `moveFromSwap` would read lies inside the file; and
no call reports that the file refused it. -/
theorem swap_offsets_in_file [Build] {s0 : Kernel} {t : List SwapCall} {x : Swappers}
    (hrun : Run Step ⟨s0, []⟩ t x) :
    (∀ p ∈ x.live, ∃ f, x.kernel.files (x.kernel.proc p).pid = some f ∧
      (∀ i, getFreeSwapPageIndex (x.kernel.proc p) = some i →
        i * PGSIZE ≤ f.size ∧ i * PGSIZE + PGSIZE ≤ MAXFILE * BSIZE ∧
        ∀ mem, ∃ s', writeToSwapFile p mem (i * PGSIZE) PGSIZE x.kernel = .ok ((PGSIZE : Int), s')) ∧
      ∀ a i, swapSlot (x.kernel.proc p) a = some i → (i + 1) * PGSIZE ≤ f.size ∧
        ∀ mem, ∃ s', readFromSwapFile p mem (i * PGSIZE) PGSIZE x.kernel = .ok ((PGSIZE : Int), s')) ∧
    ∀ e x', Step x e x' → e ≠ .other →
      (∀ m ∈ ioFailMsgs, x'.kernel.cons.count m = x.kernel.cons.count m) ∧
      ∀ k c r, e = .fork k c r → r = 0 := by
  have h : x.Sound := Run.invariant (C := fun _ => True) (fun _ hx hs => (hx.step hs).1) hrun
    (fun _ _ => trivial) ⟨fun p hp => absurd hp List.not_mem_nil, fun p hp => absurd hp List.not_mem_nil⟩
  refine ⟨fun p hp => ?_, fun e x' hs hne => ⟨(h.step hs).2.1 hne, (h.step hs).2.2⟩⟩
  have hin := h.file p hp
  obtain ⟨f, hf, hslots⟩ := hin.file
  refine ⟨f, hf, fun i hi => ?_, fun a i hi => ?_⟩
  · have hlt := (getFreeSwapPageIndex_some hi).1
    have hoff := hin.first_fit hf hi
    refine ⟨hoff, slot_fits hlt, fun mem => ?_⟩
    have hwp : wp (writeToSwapFile p mem (i * PGSIZE) PGSIZE) (fun _ => False)
        (fun r _ => r = (PGSIZE : Int)) x.kernel := writeToSwapFile_page hin.opened hf hlt hoff rfl
    obtain ⟨r, s', hw, rfl⟩ := exists_of_wp hwp
    exact ⟨s', hw⟩
  · obtain ⟨hlt, ho, -⟩ := swapSlot_some hi
    refine ⟨hslots i hlt ho, fun mem => ?_⟩
    have hwp : wp (readFromSwapFile p mem (i * PGSIZE) PGSIZE) (fun _ => False)
        (fun r _ => r = (PGSIZE : Int)) x.kernel :=
      readFromSwapFile_page hin.opened hf hlt (hslots i hlt ho) rfl
    obtain ⟨r, s', hw, rfl⟩ := exists_of_wp hwp
    exact ⟨s', hw⟩

/-- A process that starts afresh and forks: the child's first slot can be written. -/
theorem swap_offsets_in_file_fork :
    let _ := smallBuild .nfu
    ∃ x s', Run Step ⟨twoSlots, []⟩ [.initFresh 0, .fork 1 0 0] x ∧ x.live = [1, 0] ∧
      writeToSwapFile 1 57141 (0 * PGSIZE) PGSIZE x.kernel = .ok ((PGSIZE : Int), s') := by
  let _ := smallBuild .nfu
  have hok : returns (initFreshSwap 0 twoSlots) (fun _ s1 => returns (initSwap 1 s1) fun r s2 =>
      decide (r = 0 ∧ (s1.proc 1).parent = some 0 ∧ (s1.proc 0).pid = 1 ∧ (s1.proc 1).pid = 2 ∧
        getFreeSwapPageIndex (s2.proc 1) = some 0)) = true := by decide +kernel
  obtain ⟨r1, s1, h1, hnext⟩ := of_returns hok
  obtain ⟨r2, s2, h2, htest⟩ := of_returns hnext
  obtain ⟨rfl, hpar, hpid0, hpid1, hfree⟩ := of_decide_eq_true htest
  have hfresh : FreshPid ⟨s1, [0]⟩ 1 := by
    intro p hp _
    obtain rfl := List.mem_singleton.1 hp
    dsimp only
    rw [hpid0, hpid1]
    decide
  have hrun : Run Step ⟨twoSlots, []⟩ [.initFresh 0, .fork 1 0 0] ⟨s2, [1, 0]⟩ :=
    .step (.initFresh (fun p hp => absurd hp List.not_mem_nil) h1)
      (.step (.fork hfresh List.mem_cons_self (by decide) hpar h2) (.refl _))
  obtain ⟨f, -, hwrite, -⟩ := (swap_offsets_in_file hrun).1 1 List.mem_cons_self
  obtain ⟨s', hs'⟩ := (hwrite 0 hfree).2.2 57141
  exact ⟨_, s', hrun, rfl, hs'⟩

end Xv6
