import Xv6.Exec.Runs
import Xv6.Lib.Load

/-!
# `syscall.c`: fetching the arguments of a system call

The checks compare addresses with `proc->sz` and nothing else, and the kernel then uses the addresses
as they are. `tf->esp` is a parameter. A word is loaded byte by byte.

A process that never gave all its pages away has a page everywhere in `[PGSIZE, sz)`, present or in
its swap file, so what is accepted there can be used (`SoundArgs`). The first page is never mapped,
but accepted as well.
-/

namespace Xv6

open Lib

/-! ## The kernel at user addresses -/

/-- The kernel-mode translation of `va`: both levels present. -/
def kernelPte (D : PageDir) (va : Nat) : Option Word :=
  if has (D.pde (pdx va)) PTE_P && has (D.tab (pdx va) (ptx va)) PTE_P then some (D.tab (pdx va) (ptx va)) else none

/-- A load by the kernel; `none` is a page fault. -/
def kernelLoad (va : Nat) : K (Option Byte) := do
  let s ← get
  match kernelPte (s.dirs s.cr3) va with
  | none => pure none
  | some w => do
    storePte ⟨s.cr3, pdx va, ptx va⟩ (w ||| PTE_A)
    pure (some (s.mem (pageNo w) (va % PGSIZE)))

/-- A store by the kernel, which runs with `CR0_WP`; `none` is a page fault. -/
def kernelStore (va : Nat) (b : Byte) : K (Option Unit) := do
  let s ← get
  match kernelPte (s.dirs s.cr3) va with
  | none => pure none
  | some w =>
    if has (( s.dirs s.cr3).pde (pdx va)) PTE_W && has w PTE_W then do
      storePte ⟨s.cr3, pdx va, ptx va⟩ (w ||| PTE_A ||| PTE_D)
      modify fun s => s.setMem (pageNo w) (Function.update (s.mem (pageNo w)) (va % PGSIZE) b)
      pure (some ())
    else pure none

section

variable [Build]

/-- The access `x` to `va` with `trap` on its page faults: after a recovery it is made again. -/
def withTrap {α : Type} (va : Nat) (x : K (Option α)) : K α := do
  match ← x with
  | some a => pure a
  | none => do
    let r ← recoverPageFault va
    if r = 0 then
      match ← x with
      | some a => pure a
      | none => kpanic "trap"
    else kpanic "trap"

def loadByte (va : Nat) : K Byte := withTrap va (kernelLoad va)

def storeByte (va : Nat) (b : Byte) : K Unit := withTrap va (kernelStore va b)

def loadWord (va : Nat) : K Word := do
  let b0 ← loadByte va
  let b1 ← loadByte (va + 1)
  let b2 ← loadByte (va + 2)
  let b3 ← loadByte (va + 3)
  pure (b3 ++ b2 ++ b1 ++ b0)

/-! ## The checks -/

def fetchint (addr : Word) : K (Option Word) := do
  let s ← get
  let sz := (s.proc s.cur).sz
  if sz ≤ addr.toNat ∨ sz < (addr + 4).toNat then pure none
  else do
    let v ← loadWord addr.toNat
    pure (some v)

/-- The loop of `fetchstr` from `a` on, `n` bytes before the end. -/
def fetchstrLoop (addr : Nat) : Nat → Nat → K (Option Nat)
  | 0, _ => pure none
  | n + 1, a => do
    let b ← loadByte a
    if b = 0 then pure (some (a - addr)) else fetchstrLoop addr n (a + 1)

def fetchstr (addr : Word) : K (Option Nat) := do
  let s ← get
  let sz := (s.proc s.cur).sz
  if sz ≤ addr.toNat then pure none
  else fetchstrLoop addr.toNat (sz - addr.toNat) addr.toNat

def argint (esp n : Word) : K (Option Word) := fetchint (esp + 4 + 4 * n)

/-- The test of `argptr` for a process of `sz` bytes. -/
def PtrOk (sz : Nat) (i size : Word) : Prop := ¬ (size.toInt < 0 ∨ sz ≤ i.toNat ∨ sz < (i + size).toNat)

instance (sz : Nat) (i size : Word) : Decidable (PtrOk sz i size) := inferInstanceAs (Decidable (¬ _))

def argptr (esp n size : Word) : K (Option Word) := do
  match ← argint esp n with
  | none => pure none
  | some i => do
    let s ← get
    if PtrOk (s.proc s.cur).sz i size then pure (some i) else pure none

omit [Build] in
theorem PtrOk.le {sz : Nat} {i size : Word} (h : PtrOk sz i size) (hsz : sz < KERNBASE) :
    i.toNat + size.toNat ≤ sz := by
  obtain ⟨hneg, h⟩ := not_or.1 h
  obtain ⟨hi, hend⟩ := not_or.1 h
  have hpos : size.toNat < 2 ^ 31 := by
    rw [BitVec.toInt_eq_toNat_cond] at hneg
    split at hneg <;> omega
  rw [BitVec.toNat_add, Nat.mod_eq_of_lt (by simp only [KERNBASE] at hsz; omega)] at hend
  exact Nat.le_of_not_lt hend

/-- The string pointer and the length. -/
def argstr (esp n : Word) : K (Option (Word × Nat)) := do
  match ← argint esp n with
  | none => pure none
  | some addr => do
    match ← fetchstr addr with
    | none => pure none
    | some k => pure (some (addr, k))

/-! ## What sound checks are -/

/-- The page of address `a` is present or in the swap file. -/
def Mapped (s : Kernel) (c a : Nat) : Prop :=
  a / PGSIZE < NUSER ∧ (has ((s.dirs (s.proc c).pgdir).pte (a / PGSIZE)) PTE_P = true ∨
    has ((s.dirs (s.proc c).pgdir).pte (a / PGSIZE)) PTE_PG = true)

/-- A use the kernel makes of a user address. -/
inductive Use where
  | load (a : Nat)
  | store (a : Nat) (b : Byte)

def Use.addr : Use → Nat
  | .load a => a
  | .store a _ => a

def Use.run : Use → K Unit
  | .load a => do
    let _ ← loadByte a
    pure ()
  | .store a b => storeByte a b

def useAll : List Use → K Unit
  | [] => pure ()
  | x :: xs => do
    x.run
    useAll xs

/-- The `n` bytes at `a` are mapped, and the kernel can use them as often as it likes. -/
structure Good (s : Kernel) (c a n : Nat) : Prop where
  mapped : ∀ x, a ≤ x → x < a + n → Mapped s c x
  used : ∀ xs : List Use, (∀ x ∈ xs, a ≤ x.addr ∧ x.addr < a + n) → ∃ s', useAll xs s = .ok ((), s')

/-- What is accepted from `lo` on is good. -/
structure SoundArgs (lo : Nat) (s : Kernel) (c : Nat) : Prop where
  fetchint : ∀ addr : Word, lo ≤ addr.toNat → ∃ r s', Xv6.fetchint addr s = .ok (r, s') ∧
    (r ≠ none → Good s' c addr.toNat 4)
  fetchstr : ∀ addr : Word, lo ≤ addr.toNat → ∃ r s', Xv6.fetchstr addr s = .ok (r, s') ∧
    ∀ k, r = some k → Good s' c addr.toNat (k + 1)
  argptr : ∀ esp n size : Word, lo ≤ (esp + 4 + 4 * n).toNat → ∃ r s', Xv6.argptr esp n size s = .ok (r, s') ∧
    ∀ i, r = some i → lo ≤ i.toNat → Good s' c i.toNat size.toNat
  argstr : ∀ esp n : Word, lo ≤ (esp + 4 + 4 * n).toNat → ∃ r s', argint esp n s = .ok (r, s') ∧
    ∀ addr, r = some addr → lo ≤ addr.toNat → ∃ r' s'', Xv6.argstr esp n s = .ok (r', s'') ∧
      ∀ k, r' = some (addr, k) → Good s'' c addr.toNat (k + 1)

/-! ## One access -/

variable {E : String → Prop} {s s' : Kernel} {P : Pend} {F F' : Nat → Nat → Nat → Byte} {c va a n : Nat} {b : Byte}

omit [Build] in
theorem kernelPte_eq {D : PageDir} (hva : va / PGSIZE < NUSER) :
    kernelPte D va = if has (D.pte (va / PGSIZE)) PTE_P = true then some (D.pte (va / PGSIZE)) else none := by
  have hlt : va < 2 ^ 32 := by
    rw [NUSER_eq] at hva
    simp only [PGSIZE] at hva
    omega
  unfold kernelPte
  rw [pdx_eq hlt, ptx_eq]
  cases ht : D.hasTable (va / PGSIZE) with
  | true =>
    rw [PageDir.pte_eq_tab ht]
    unfold PageDir.hasTable at ht
    rw [ht, Bool.true_and]
  | false =>
    rw [PageDir.pte_of_missing ht, has_zero]
    unfold PageDir.hasTable at ht
    rw [ht, Bool.false_and]
    rfl

/-- What an access by the kernel leaves alone. -/
structure Accesses (c : Nat) (s s' : Kernel) : Prop where
  paging : Paging c s s'
  pages : SamePages (s.dirs (s.proc c).pgdir) (s'.dirs (s.proc c).pgdir)
  frames : s.freelist.length + (s.proc c).sizeMem ≤ s'.freelist.length + (s'.proc c).sizeMem

omit [Build] in
theorem Accesses.refl (c : Nat) (s : Kernel) : Accesses c s s := ⟨.refl c s, .refl _, le_rfl⟩

omit [Build] in
theorem Accesses.trans {s'' : Kernel} (h1 : Accesses c s s') (h2 : Accesses c s' s'') : Accesses c s s'' := by
  have hpg : (s'.proc c).pgdir = (s.proc c).pgdir := (h1.paging.fields c).2.1
  refine ⟨h1.paging.trans h2.paging, h1.pages.trans ?_, h1.frames.trans h2.frames⟩
  have := h2.pages
  rwa [hpg] at this

omit [Build] in
theorem Accesses.sz (h : Accesses c s s') : (s'.proc c).sz = (s.proc c).sz := by
  obtain ⟨a, m, k, x, y, hq⟩ := h.paging.self
  rw [hq]
  rfl

theorem kernelLoad_wp (h : Inv s P F) (hr : Running s c) (hva : va / PGSIZE < NUSER) :
    wp (kernelLoad va) E (fun r s' =>
      has ((s.dirs (s.proc c).pgdir).pte (va / PGSIZE)) PTE_P = true ∧
        r = some (F c (va / PGSIZE) (va % PGSIZE)) ∧ Inv s' P F ∧ Accessed c s s' ∧ Accesses c s s' ∨
      has ((s.dirs (s.proc c).pgdir).pte (va / PGSIZE)) PTE_P = false ∧ r = none ∧ s' = s) s := by
  obtain ⟨g, -, hst⟩ := (h.self hr).stored
  have hlt : va < 2 ^ 32 := by
    rw [NUSER_eq] at hva
    simp only [PGSIZE] at hva
    omega
  unfold kernelLoad
  refine wp_seq (get_wp ?_)
  rw [hr.cr3, kernelPte_eq hva, pteAt_eq _ hlt]
  cases hp : has ((s.dirs (s.proc c).pgdir).pte (va / PGSIZE)) PTE_P with
  | true =>
    rw [if_pos rfl]
    obtain ⟨h1, h2⟩ := h.readPage hr hva (PageDir.hasTable_of_has hp)
    refine wp_seq (storePte_wp (.inl ⟨rfl, ?_, h1, h2, h2.paging, h2.pages, le_rfl⟩))
    rw [hst.frames _ hva hp _ (Nat.mod_lt _ (by decide))]
  | false => exact .inr ⟨rfl, rfl, rfl⟩

theorem kernelStore_wp (h : Inv s P F) (hr : Running s c) (hva : va / PGSIZE < NUSER) :
    wp (kernelStore va b) E (fun r s' =>
      has ((s.dirs (s.proc c).pgdir).pte (va / PGSIZE)) PTE_P = true ∧
        r = some () ∧ Inv s' P (poke F c (va / PGSIZE) (va % PGSIZE) b) ∧ Accessed c s s' ∧ Accesses c s s' ∨
      (has ((s.dirs (s.proc c).pgdir).pte (va / PGSIZE)) PTE_P = false ∨
        has ((s.dirs (s.proc c).pgdir).pte (va / PGSIZE)) PTE_W = false) ∧ r = none ∧ s' = s) s := by
  have hdir := h.dirs c hr.lt (h.counted hr.lt hr.active)
  have hlt : va < 2 ^ 32 := by
    rw [NUSER_eq] at hva
    simp only [PGSIZE] at hva
    omega
  unfold kernelStore
  refine wp_seq (get_wp ?_)
  rw [hr.cr3, kernelPte_eq hva, pteAt_eq _ hlt]
  cases hp : has ((s.dirs (s.proc c).pgdir).pte (va / PGSIZE)) PTE_P with
  | true =>
    have hi : va / PGSIZE / 1024 < 512 := by rw [NUSER_eq] at hva; omega
    have hpde := (hdir.userPde _ hi (PageDir.hasTable_of_has hp)).2
    rw [if_pos rfl]
    dsimp only
    rw [pdx_eq hlt, hpde, Bool.true_and]
    cases hw : has ((s.dirs (s.proc c).pgdir).pte (va / PGSIZE)) PTE_W with
    | true =>
      rw [if_pos rfl]
      obtain ⟨h1, h2⟩ := h.writePage hr hva hp (va % PGSIZE) b
      exact wp_seq (storePte_wp (wp_seq (modify_wp (.inl ⟨rfl, rfl, h1, h2, h2.paging, h2.pages, le_rfl⟩))))
    | false => exact .inr ⟨.inr rfl, rfl, rfl⟩
  | false => exact .inr ⟨.inl rfl, rfl, rfl⟩

/-- An access that faults only where the page is absent goes through, if need be after a recovery. -/
theorem withTrap_wp {α : Type} {x : K (Option α)} {Q : α → Kernel → Prop} (h : Inv s Pend.none F) (hr : Running s c)
    (hva : va / PGSIZE < NUSER) (hv : (s.dirs (s.proc c).pgdir).view (va / PGSIZE) ≠ none) (hfree : s.freelist ≠ [])
    (hx : ∀ s1, Inv s1 Pend.none F → Running s1 c → Accesses c s s1 → wp x E (fun r s' =>
      (∃ a, r = some a ∧ Q a s') ∨
        has ((s1.dirs (s1.proc c).pgdir).pte (va / PGSIZE)) PTE_P = false ∧ r = none ∧ s' = s1) s1) :
    wp (withTrap va x) E Q s := by
  have hlt : va < 2 ^ 32 := by
    rw [NUSER_eq] at hva
    simp only [PGSIZE] at hva
    omega
  unfold withTrap
  refine wp_seq (wp_post (hx s h hr (.refl c s)) ?_)
  rintro r s1 (⟨a, rfl, hQ⟩ | ⟨hp, rfl, rfl⟩)
  · exact hQ
  · have hg : has ((s1.dirs (s1.proc c).pgdir).pte (va / PGSIZE)) PTE_PG = true :=
      (entryView_ne_none.1 hv).resolve_left (by rw [hp]; exact Bool.false_ne_true)
    refine wp_seq (wp_post (recoverPageFault_inv h hr hlt) ?_)
    rintro r s2 ⟨h2, hf⟩
    obtain rfl := hf.recovered hva hg hfree
    rw [if_pos rfl]
    refine wp_seq (wp_post (hx s2 h2 (hf.paging.running hr) ⟨hf.paging, hf.pages, hf.frames⟩) ?_)
    rintro r s3 (⟨a, rfl, hQ⟩ | ⟨hp2, -, -⟩)
    · exact hQ
    · rw [(hf.paging.fields c).2.1, (hf.present rfl).2] at hp2
      cases hp2

/-! ## A process whose arguments can be fetched -/

/-- Slot `c` runs, its memory is whole, and there are frames to bring `MAX_PSYC_PAGES` of its pages
into memory. -/
structure Ready (s : Kernel) (F : Nat → Nat → Nat → Byte) (c : Nat) : Prop where
  inv : Inv s Pend.none F
  running : Running s c
  whole : (flat s F c).Whole
  frames : MAX_PSYC_PAGES < s.freelist.length + (s.proc c).sizeMem

/-- The bytes of slot `c` by address. -/
def userMem (F : Nat → Nat → Nat → Byte) (c a : Nat) : Byte := F c (a / PGSIZE) (a % PGSIZE)

namespace Ready

theorem free (h : Ready s F c) : s.freelist ≠ [] := by
  intro hnil
  have h1 := h.frames
  have h2 := (h.inv.self h.running).agree.table.size
  rw [hnil, List.length_nil] at h1
  omega

theorem view (h : Ready s F c) (hlo : PGSIZE ≤ a) (ha : a < (s.proc c).sz) :
    a / PGSIZE < NUSER ∧ ∃ user, (s.dirs (s.proc c).pgdir).view (a / PGSIZE) = some ⟨user, true⟩ := by
  obtain ⟨user, hv⟩ := h.whole (a / PGSIZE) ((Nat.one_le_div_iff (by decide)).2 hlo)
    (lt_pages.2 (lt_of_le_of_lt (Nat.div_mul_le_self _ _) ha))
  have hu := lt_of_userView (D := s.dirs (s.proc c).pgdir) (u := a / PGSIZE) fun hn => by
    rw [show (flat s F c).view = userView (s.dirs (s.proc c).pgdir) from rfl, hn] at hv
    cases hv
  exact ⟨hu, user, (userView_of_lt hu).symm.trans hv⟩

theorem after (h : Ready s F c) (hinv : Inv s' Pend.none F') (ha : Accesses c s s') : Ready s' F' c := by
  have hpg := (ha.paging.fields c).2.1
  have hsz := ha.sz
  refine ⟨hinv, ha.paging.running h.running, fun u h1 h2 => ?_, lt_of_lt_of_le h.frames ha.frames⟩
  rw [show (flat s' F' c).size = (s'.proc c).sz from rfl, hsz] at h2
  rw [show (flat s' F' c).view = userView (s'.dirs (s'.proc c).pgdir) from rfl, hpg, ha.pages.userView]
  exact h.whole u h1 h2

theorem loadByte (h : Ready s F c) (hlo : PGSIZE ≤ a) (ha : a < (s.proc c).sz) :
    wp (loadByte a) E (fun b s' => b = userMem F c a ∧ Ready s' F c ∧ (s'.proc c).sz = (s.proc c).sz) s := by
  obtain ⟨hu, user, hv⟩ := h.view hlo ha
  refine withTrap_wp h.inv h.running hu (by rw [hv]; exact Option.some_ne_none _) h.free fun s1 h1 hr1 ha1 => ?_
  refine wp_post (kernelLoad_wp h1 hr1 hu) ?_
  rintro r s2 (⟨-, rfl, hinv, -, hacc⟩ | hno)
  · exact .inl ⟨_, rfl, rfl, h.after hinv (ha1.trans hacc), (ha1.trans hacc).sz⟩
  · exact .inr hno

theorem storeByte (h : Ready s F c) (hlo : PGSIZE ≤ a) (ha : a < (s.proc c).sz) :
    wp (storeByte a b) E (fun _ s' => (∃ F', Ready s' F' c) ∧ (s'.proc c).sz = (s.proc c).sz) s := by
  obtain ⟨hu, user, hv⟩ := h.view hlo ha
  refine withTrap_wp h.inv h.running hu (by rw [hv]; exact Option.some_ne_none _) h.free fun s1 h1 hr1 ha1 => ?_
  obtain ⟨-, user1, hv1⟩ := (h.after h1 ha1).view hlo (by rw [ha1.sz]; exact ha)
  refine wp_post (kernelStore_wp h1 hr1 hu) ?_
  rintro r s2 (⟨-, rfl, hinv, -, hacc⟩ | ⟨hp | hw, hno⟩)
  · exact .inl ⟨_, rfl, ⟨_, h.after hinv (ha1.trans hacc)⟩, (ha1.trans hacc).sz⟩
  · exact .inr ⟨hp, hno⟩
  · rw [(entryView_some hv1).2] at hw
    cases hw

theorem size (h : Ready s F c) : (s.proc c).sz < KERNBASE := (h.inv.self h.running).size.2

/-- Whatever the kernel does with the bytes of `[PGSIZE, sz)`. -/
theorem useAll (xs : List Use) : ∀ (s : Kernel) (F : Nat → Nat → Nat → Byte), Ready s F c →
    (∀ x ∈ xs, PGSIZE ≤ x.addr ∧ x.addr < (s.proc c).sz) → wp (useAll xs) E (fun _ _ => True) s := by
  induction xs with
  | nil => exact fun _ _ _ _ => trivial
  | cons x xs ih =>
    intro s F h hx
    obtain ⟨hlo, hlt⟩ := hx x List.mem_cons_self
    have hrest : ∀ s' : Kernel, (s'.proc c).sz = (s.proc c).sz → ∀ y ∈ xs, PGSIZE ≤ y.addr ∧ y.addr < (s'.proc c).sz :=
      fun s' hsz y hy => by
        rw [hsz]
        exact hx y (List.mem_cons_of_mem x hy)
    rw [Xv6.useAll]
    cases x with
    | load a =>
      refine wp_seq (wp_seq (wp_post (h.loadByte hlo hlt) ?_))
      rintro _ s1 ⟨-, h1, hsz⟩
      exact ih s1 F h1 (hrest s1 hsz)
    | store a b =>
      refine wp_seq (wp_post (h.storeByte hlo hlt) ?_)
      rintro _ s1 ⟨⟨F1, h1⟩, hsz⟩
      exact ih s1 F1 h1 (hrest s1 hsz)

theorem good (h : Ready s F c) (hlo : PGSIZE ≤ a) (hn : a + n ≤ (s.proc c).sz) : Good s c a n := by
  constructor
  · intro x h1 h2
    obtain ⟨hu, user, hv⟩ := h.view (hlo.trans h1) (lt_of_lt_of_le h2 hn)
    refine ⟨hu, entryView_ne_none.1 ?_⟩
    rw [PageDir.view] at hv
    rw [hv]
    exact Option.some_ne_none _
  · intro xs hxs
    obtain ⟨_, s', hrun, -⟩ := exists_of_wp (useAll xs s F h fun x hx =>
      ⟨hlo.trans (hxs x hx).1, lt_of_lt_of_le (hxs x hx).2 hn⟩)
    exact ⟨s', hrun⟩

/-! ## The fetches -/

theorem loadWord (h : Ready s F c) (hlo : PGSIZE ≤ a) (ha : a + 4 ≤ (s.proc c).sz) :
    wp (loadWord a) E (fun v s' => v = load (userMem F c) a ∧ Ready s' F c ∧ (s'.proc c).sz = (s.proc c).sz) s := by
  unfold Xv6.loadWord
  refine wp_seq (wp_post (h.loadByte hlo (by omega)) ?_)
  rintro _ s1 ⟨rfl, h1, hs1⟩
  refine wp_seq (wp_post (h1.loadByte (by omega) (by omega)) ?_)
  rintro _ s2 ⟨rfl, h2, hs2⟩
  refine wp_seq (wp_post (h2.loadByte (by omega) (by omega)) ?_)
  rintro _ s3 ⟨rfl, h3, hs3⟩
  refine wp_seq (wp_post (h3.loadByte (by omega) (by omega)) ?_)
  rintro _ s4 ⟨rfl, h4, hs4⟩
  exact ⟨rfl, h4, by omega⟩

theorem fetchint {addr : Word} (h : Ready s F c) (hlo : PGSIZE ≤ addr.toNat) :
    wp (fetchint addr) E (fun r s' => Ready s' F c ∧ (s'.proc c).sz = (s.proc c).sz ∧
      r = if addr.toNat + 4 ≤ (s.proc c).sz then some (load (userMem F c) addr.toNat) else none) s := by
  have hsize := h.size
  have hadd : addr.toNat < (s.proc c).sz → (addr + 4).toNat = addr.toNat + 4 := fun hlt => by
    rw [BitVec.toNat_add]
    refine Nat.mod_eq_of_lt ?_
    change addr.toNat + 4 < 2 ^ 32
    simp only [KERNBASE] at hsize
    omega
  unfold Xv6.fetchint
  refine wp_seq (get_wp ?_)
  rw [h.running.cur]
  by_cases hfit : addr.toNat + 4 ≤ (s.proc c).sz
  · have hok : ¬ ((s.proc c).sz ≤ addr.toNat ∨ (s.proc c).sz < (addr + 4).toNat) := by
      rw [hadd (by omega)]
      omega
    dsimp only
    rw [if_neg hok]
    refine wp_seq (wp_post (h.loadWord hlo hfit) ?_)
    rintro _ s1 ⟨rfl, h1, hs1⟩
    exact ⟨h1, hs1, (if_pos hfit).symm⟩
  · have hno : (s.proc c).sz ≤ addr.toNat ∨ (s.proc c).sz < (addr + 4).toNat := by
      by_cases hlt : addr.toNat < (s.proc c).sz
      · rw [hadd hlt]
        omega
      · exact .inl (Nat.le_of_not_lt hlt)
    dsimp only
    rw [if_pos hno]
    exact ⟨h, rfl, (if_neg hfit).symm⟩

theorem fetchstrLoop {addr : Nat} (m : Nat) : ∀ (a : Nat) (s : Kernel), Ready s F c → PGSIZE ≤ a → addr ≤ a →
    a + m ≤ (s.proc c).sz → wp (fetchstrLoop addr m a) E (fun r s' => Ready s' F c ∧
      (s'.proc c).sz = (s.proc c).sz ∧ ∀ k, r = some k → addr + k < (s.proc c).sz ∧ userMem F c (addr + k) = 0) s := by
  induction m with
  | zero => exact fun a s h _ _ _ => ⟨h, rfl, nofun⟩
  | succ m ih =>
    intro a s h hlo hle hend
    rw [Xv6.fetchstrLoop]
    refine wp_seq (wp_post (h.loadByte hlo (by omega)) ?_)
    rintro _ s1 ⟨rfl, h1, hs1⟩
    split
    next h0 =>
      refine ⟨h1, hs1, fun k hk => ?_⟩
      cases hk
      rw [Nat.add_sub_cancel' hle]
      exact ⟨by omega, h0⟩
    next =>
      refine wp_post (ih (a + 1) s1 h1 (by omega) (by omega) (by omega)) ?_
      rintro r s2 ⟨h2, hs2, hk⟩
      rw [hs1] at hs2 hk
      exact ⟨h2, hs2, hk⟩

theorem fetchstr {addr : Word} (h : Ready s F c) (hlo : PGSIZE ≤ addr.toNat) :
    wp (fetchstr addr) E (fun r s' => Ready s' F c ∧ (s'.proc c).sz = (s.proc c).sz ∧
      ∀ k, r = some k → addr.toNat + k < (s.proc c).sz ∧ userMem F c (addr.toNat + k) = 0) s := by
  unfold Xv6.fetchstr
  refine wp_seq (get_wp ?_)
  rw [h.running.cur]
  dsimp only
  split
  next => exact ⟨h, rfl, nofun⟩
  next hlt => exact h.fetchstrLoop _ _ s hlo le_rfl (by omega)

theorem argptr {esp n size : Word} (h : Ready s F c) (hlo : PGSIZE ≤ (esp + 4 + 4 * n).toNat) :
    wp (argptr esp n size) E (fun r s' => Ready s' F c ∧
      ∀ i, r = some i → i.toNat + size.toNat ≤ (s'.proc c).sz) s := by
  unfold Xv6.argptr argint
  refine wp_seq (wp_post (h.fetchint hlo) ?_)
  rintro (_ | i) s1 ⟨h1, hs1, -⟩
  · exact ⟨h1, nofun⟩
  · refine wp_seq (get_wp ?_)
    rw [h1.running.cur]
    split
    next hok =>
      refine ⟨h1, fun j hj => ?_⟩
      cases hj
      exact hok.le h1.size
    next => exact ⟨h1, nofun⟩

/-- From the first page on, what the checks accept can be used. -/
theorem sound (h : Ready s F c) : SoundArgs PGSIZE s c := by
  refine ⟨fun addr hlo => ?_, fun addr hlo => ?_, fun esp n size hlo => ?_, fun esp n hlo => ?_⟩
  · obtain ⟨r, s', hrun, h', hsz, hr⟩ := exists_of_wp (h.fetchint hlo)
    refine ⟨r, s', hrun, fun hne => h'.good hlo ?_⟩
    rw [hsz]
    by_contra hno
    rw [if_neg hno] at hr
    exact hne hr
  · obtain ⟨r, s', hrun, h', hsz, hr⟩ := exists_of_wp (h.fetchstr hlo)
    refine ⟨r, s', hrun, fun k hk => h'.good hlo ?_⟩
    rw [hsz]
    exact (hr k hk).1
  · obtain ⟨r, s', hrun, h', hr⟩ := exists_of_wp (h.argptr hlo)
    exact ⟨r, s', hrun, fun i hi hi' => h'.good hi' (hr i hi)⟩
  · obtain ⟨r, s1, hrun, h1, hsz, -⟩ := exists_of_wp (h.fetchint hlo)
    refine ⟨r, s1, hrun, fun addr hr hlo' => ?_⟩
    subst hr
    obtain ⟨r2, s2, hrun2, h2, hsz2, hr2⟩ := exists_of_wp (h1.fetchstr hlo')
    unfold Xv6.argstr argint
    rw [seq_of_ok hrun]
    dsimp only
    rw [seq_of_ok hrun2]
    cases r2 with
    | none => exact ⟨none, s2, rfl, nofun⟩
    | some k =>
      refine ⟨some (addr, k), s2, rfl, fun k' hk => ?_⟩
      cases hk
      refine h2.good hlo' ?_
      rw [hsz2]
      exact (hr2 k rfl).1

end Ready

/-! ## The first page -/

/-- The first page is not mapped, so the kernel panics where it is accepted. -/
theorem fetchint_zero (h : Inv s Pend.none F) (hr : Running s c) (hsz : 4 ≤ (s.proc c).sz) :
    wp (fetchint 0) (· = "trap") (fun _ _ => False) s := by
  have hun : (0 : Nat) / PGSIZE < NUSER := by decide
  have habsent : ∀ {s1 : Kernel}, Inv s1 Pend.none F → Running s1 c →
      has ((s1.dirs (s1.proc c).pgdir).pte 0) PTE_P ≠ true := fun h1 hr1 hp => by
    have := ((h1.self hr1).below 0 (by decide) (.inl hp)).1
    omega
  unfold fetchint
  refine wp_seq (get_wp ?_)
  rw [hr.cur]
  have hok : ¬ ((s.proc c).sz ≤ (0 : Word).toNat ∨ (s.proc c).sz < ((0 : Word) + 4).toNat) := by
    rw [show (0 : Word).toNat = 0 from rfl, show ((0 : Word) + 4).toNat = 4 from rfl]
    omega
  dsimp only
  rw [if_neg hok]
  refine wp_seq (wp_seq ?_)
  change wp (withTrap 0 (kernelLoad 0)) _ _ _
  unfold withTrap
  refine wp_seq (wp_post (kernelLoad_wp h hr hun) ?_)
  rintro r s1 (⟨hp, -⟩ | ⟨-, rfl, rfl⟩)
  · exact absurd hp (habsent h hr)
  · refine wp_seq (wp_post (recoverPageFault_inv h hr (by decide)) ?_)
    rintro r s2 ⟨h2, hf⟩
    have hne : r ≠ 0 := fun h0 => by
      have hp := (hf.present h0).2
      rw [← (hf.paging.fields c).2.1] at hp
      exact habsent h2 (hf.paging.running hr) hp
    rw [if_neg hne]
    exact rfl

theorem not_soundArgs (h : Inv s Pend.none F) (hr : Running s c) (hsz : 4 ≤ (s.proc c).sz) : ¬ SoundArgs 0 s c := by
  intro hs
  obtain ⟨r, s', hrun, -⟩ := hs.fetchint 0 (Nat.zero_le _)
  exact of_wp (fetchint_zero h hr hsz) hrun

/-- In every run without `growproc(-sz)` whose `exec`s give up early or start an image that fits in
memory, the arguments a process with frames enough passes at or above `PGSIZE` can be used. -/
theorem args_sound {t : List Act} {p : Nat} (h : WholeMem s) (hrun : Run FineStep s t s') (hp : Active s' p)
    (hframes : MAX_PSYC_PAGES < s'.freelist.length + (s'.proc p).sizeMem) :
    SoundArgs PGSIZE (s'.scheduled p) p := by
  obtain ⟨F, hinv, hw⟩ := wholeMem_of_run h hrun
  have hready : Ready (s'.scheduled p) F p :=
    ⟨hinv.scheduled p, hp.running, hw p (flat s' F p) (flats_active hp), hframes⟩
  exact hready.sound

end

theorem small_wholeMem (policy : Policy) : @WholeMem (smallBuild policy) (smallKernel policy) := by
  let _ := smallBuild policy
  refine ⟨_, (small_start policy).inv, fun p a ha => ?_⟩
  obtain ⟨hact, rfl⟩ := active_of_flats ha
  obtain rfl := small_active hact
  intro u h1 h2
  have hu : u < 2 := by
    have hsz : (flat (smallKernel policy) (frameBytes (smallKernel policy)) 0).size = 2 * PGSIZE :=
      (smallProc_fields policy).1
    rwa [hsz, pages_mul] at h2
  obtain rfl : u = 1 := by omega
  refine ⟨true, ?_⟩
  change userView ((smallKernel policy).dirs ((smallKernel policy).proc 0).pgdir) 1 = some ⟨true, true⟩
  obtain ⟨hp, -, hus, hwr⟩ := userEntry_flags 57343
  rw [userView_of_lt (by decide), PageDir.view,
    show (smallKernel policy).dirs _ = smallDir 57342 57343 from rfl, smallDir_pte, Function.update_self, entryView_present hp, hus, hwr]

theorem args_sound_small :
    let _ := smallBuild .fifo
    Active (smallKernel .fifo) 0 ∧ SoundArgs PGSIZE ((smallKernel .fifo).scheduled 0) 0 := by
  let _ := smallBuild .fifo
  have hact : Active (smallKernel .fifo) 0 := by decide
  have hframes : MAX_PSYC_PAGES < (smallKernel .fifo).freelist.length + ((smallKernel .fifo).proc 0).sizeMem :=
    lt_of_lt_of_le (by decide) ((small_plenty .fifo).trans (Nat.le_add_right _ _))
  exact ⟨hact, args_sound (small_wholeMem .fifo) (.refl _) hact hframes⟩

/-- `fetchint(0)` is accepted in a freshly loaded process and panics. -/
theorem args_unsound_zero :
    let _ := smallBuild .fifo
    WholeMem (smallKernel .fifo) ∧ Active (smallKernel .fifo) 0 ∧ ¬ SoundArgs 0 ((smallKernel .fifo).scheduled 0) 0 := by
  let _ := smallBuild .fifo
  have hact : Active (smallKernel .fifo) 0 := by decide
  have hsz : ((smallKernel .fifo).proc 0).sz = 2 * PGSIZE := (smallProc_fields .fifo).1
  refine ⟨small_wholeMem .fifo, hact, not_soundArgs ((small_start .fifo).inv.scheduled 0) hact.running ?_⟩
  change 4 ≤ ((smallKernel .fifo).proc 0).sz
  rw [hsz]
  decide

end Xv6
