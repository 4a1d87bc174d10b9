import Xv6.Exec.Start

/-!
# The stack of the new program

Above an image of `n` pages `exec` allocates page `n`, which it closes to users, and page `n + 1`,
the stack. The argument strings go to the top of the stack, each at a multiple of 4, and below them
the words of `ustack`. A copy that leaves the stack page meets the guard page, page 0 or the kernel
half, and fails there.
-/

namespace Xv6

open Lib

section

variable [Build] {E : String → Prop} {s s' : Kernel} {c d n m u guard sz res : Nat} {L : List Nat}
  {img : Nat → Byte}

/-! ## The guard page -/

/-- `clearpteu` on page `u` of the image. -/
theorem Image.protect (h : Image s c d m 0 res L img) (hlo : 1 ≤ u) (hlt : u < m) :
    Image (s.setDir d ((s.dirs d).setPage u ((s.dirs d).pte u &&& ~~~PTE_U))) c d m u res L img ∧
      Builds c d L s (s.setDir d ((s.dirs d).setPage u ((s.dirs d).pte u &&& ~~~PTE_U))) := by
  have hun := h.lt_user hlt
  obtain ⟨g, hg, hman, hpte⟩ := h.page hlo hlt
  have hpte0 : (s.dirs d).pte u = userEntry g := by rw [hpte, pageEntry, if_neg (by omega)]
  have hnew : (s.dirs d).pte u &&& ~~~PTE_U = pageEntry u u g := by
    rw [hpte0, pageEntry, if_pos rfl]
  obtain ⟨hp, hpg, -, -⟩ := pageEntry_flags u u g
  obtain ⟨hp0, hpg0, -, -⟩ := userEntry_flags g
  have ht : (s.dirs d).hasTable u = true := PageDir.hasTable_of_has (by rw [hpte0]; exact hp0)
  rw [hnew]
  have hdir : (s.setDir d ((s.dirs d).setPage u (pageEntry u u g))).dirs d =
      (s.dirs d).setPage u (pageEntry u u g) := Function.update_self _ _ _
  have hptes : ((s.setDir d ((s.dirs d).setPage u (pageEntry u u g))).dirs d).pte =
      Function.update (s.dirs d).pte u (pageEntry u u g) := by
    rw [hdir, PageDir.pte_setPage ht]
  refine ⟨⟨?_, h.cur, ?_, fun v h1 h2 => ?_, ?_, fun v hv => ?_, ?_, h.size, h.slots,
    fun v hv1 hv2 o ho => ?_, h.zero, h.free, h.left⟩,
    ⟨rfl, rfl, rfl, rfl, rfl, rfl, fun _ _ => rfl, ⟨_, _, _, _, _, rfl⟩,
      fun e he => Function.update_of_ne he _ _, fun _ hg => absurd rfl hg⟩⟩
  · refine h.own.keepPage (holders_withDir s _ d) ht hun fun f => ?_
    rw [hpte0, mapsTo_of_present f hp, mapsTo_of_present f hp0, pageNo_pageEntry u u hman.lt,
      pageNo_userEntry hman.lt]
  · rw [hdir]
    exact h.dir.setPage hun ht _
  · rw [hdir, PageDir.hasTable_setPage]
    exact h.high v h1 h2
  · rw [hdir, PageDir.hasTable_setPage]
    exact h.low
  · rw [hptes]
    by_cases e : v = u
    · rw [e, Function.update_self]
      exact .inl ⟨hlo, hlt, g, hg, hman, rfl⟩
    · rw [Function.update_of_ne e]
      obtain ⟨h1, h2, g', hg', hman', hpte'⟩ | hout := h.entries v hv
      · refine .inl ⟨h1, h2, g', hg', hman', ?_⟩
        rw [hpte', pageEntry, pageEntry, if_neg (by omega), if_neg e]
      · exact .inr hout
  · refine h.agree.of_flags (fun v _ => ?_) fun v _ => ?_ <;> rw [hptes]
    · by_cases e : v = u
      · rw [e, Function.update_self, hp, hpte0, hp0]
      · rw [Function.update_of_ne e]
    · by_cases e : v = u
      · rw [e, Function.update_self, hpg, hpte0, hpg0]
      · rw [Function.update_of_ne e]
  · rw [hptes]
    by_cases e : v = u
    · have hb := h.bytes u hlo hlt o ho
      rw [hpte0, pageNo_userEntry hman.lt] at hb
      rw [e, Function.update_self, pageNo_pageEntry u u hman.lt]
      exact hb
    · rw [Function.update_of_ne e]
      exact h.bytes v hv1 hv2 o ho

/-- The two pages above an image of at most `ROOM` pages. -/
theorem Image.allocStack (h : Image s c d (pages sz) 0 res L img) (hE : ENOUGH ≤ res ∨ ∀ m, E m)
    (hsz : sz < KERNBASE) (hroom : pages sz ≤ ROOM) :
    wp (allocStack d sz) E (fun r s' => r = some ((pages sz + 2) * PGSIZE) ∧
      Image s' c d (pages sz + 2) (pages sz) res L img ∧ Builds c d L s s' ∨ r = none ∧ res < ENOUGH) s := by
  have hsmall : pages sz ≤ 14 := hroom
  have hup : pgroundup sz = pages sz * PGSIZE := pgroundup_eq hsz.le
  have htop : (pages sz * PGSIZE + 2 * PGSIZE) % 2 ^ 32 = (pages sz + 2) * PGSIZE := by
    simp only [PGSIZE]
    omega
  have hmax : max (pages sz * PGSIZE) ((pages sz + 2) * PGSIZE) = (pages sz + 2) * PGSIZE := by
    simp only [PGSIZE]
    omega
  have h0 : Image s c d (pages (pages sz * PGSIZE)) 0 res L img := by rwa [pages_mul]
  unfold Xv6.allocStack
  rw [hup, htop]
  refine wp_seq (wp_post (h0.allocuvm (m := (pages sz + 2) * PGSIZE) hE ?_ ?_ ?_) ?_)
  · simp only [PGSIZE, KERNBASE]
    omega
  · simp only [PGSIZE, KERNBASE]
    omega
  · rw [hmax, pages_mul]
    simp only [MAX_PSYC_PAGES]
    omega
  rintro r s1 (⟨rfl, h1, hb1⟩ | ⟨rfl, hlow⟩)
  swap
  · rw [if_pos rfl]
    exact .inr ⟨rfl, hlow⟩
  rw [hmax, pages_mul] at h1
  have hpos : 1 ≤ pages sz := h.pos
  have hlt : pages sz < pages sz + 2 := by omega
  have hun := h1.lt_user hlt
  have hdiv : pages sz * PGSIZE / PGSIZE = pages sz := Nat.mul_div_cancel _ (by decide)
  have ht : (s1.dirs d).hasTable (pages sz) = true :=
    PageDir.hasTable_of_has (by rw [h1.present hun, decide_eq_true ⟨hpos, hlt⟩])
  rw [hmax, if_neg (by simp only [PGSIZE]; omega),
    show (pages sz + 2) * PGSIZE - 2 * PGSIZE = pages sz * PGSIZE by simp only [PGSIZE]; omega]
  obtain ⟨h2, hb2⟩ := h1.protect hpos hlt
  unfold clearpteu
  refine wp_seq (wp_seq (walkpgdir_found (page_lt_word hun) (by rwa [hdiv]) ?_))
  rw [hdiv]
  exact wp_seq (loadPte_wp ht (storePte_wp (.inl ⟨rfl, h2, hb1.trans hb2⟩)))

/-! ## `copyout` -/

/-- A page of the image that users may access. -/
def Open (m guard u : Nat) : Prop := 1 ≤ u ∧ u < m ∧ u ≠ guard

instance (m guard u : Nat) : Decidable (Open m guard u) := by unfold Open; infer_instance

/-- `uva2ka` below four megabytes and among the devices. -/
theorem Image.uva2ka {a : Nat} (h : Image s c d m guard res L img) (hm : 1 < m) (ha : a < 2 ^ 32)
    (hwhere : a / PGSIZE < 1024 ∨ 0xFE000 ≤ a / PGSIZE) :
    wp (uva2ka d a) E (fun r s' => s' = s ∧
      r = if Open m guard (a / PGSIZE) then some (pageNo ((s.dirs d).pte (a / PGSIZE))) else none) s := by
  have hlt : a / PGSIZE < 2 ^ 20 := by simp only [PGSIZE]; omega
  have ht : (s.dirs d).hasTable (a / PGSIZE) = true := by
    rcases hwhere with hlow | hhigh
    · have h0 := h.low
      rw [decide_eq_true hm] at h0
      unfold PageDir.hasTable at h0 ⊢
      rwa [Nat.div_eq_of_lt hlow]
    · exact h.high _ hhigh hlt
  unfold Xv6.uva2ka
  refine wp_seq (walkpgdir_found ha ht (wp_seq (loadPte_wp ht ?_)))
  rcases hwhere with hlow | hhigh
  · have hun : a / PGSIZE < NUSER := by rw [NUSER_eq]; omega
    obtain ⟨h1, h2, g, -, -, hpte⟩ | ⟨hn, hpte⟩ := h.entries _ hun
    · obtain ⟨hp, -, hu, -⟩ := pageEntry_flags guard (a / PGSIZE) g
      rw [hpte, hp, hu, if_neg (by decide)]
      by_cases e : a / PGSIZE = guard
      · rw [if_pos (by simp [e]), if_neg fun ho => ho.2.2 e]
        exact ⟨rfl, rfl⟩
      · rw [if_neg (by simp [e]), if_pos ⟨h1, h2, e⟩]
        exact ⟨rfl, rfl⟩
    · rw [hpte, has_zero, if_pos (by decide), if_neg fun ho => hn ⟨ho.1, ho.2.1⟩]
      exact ⟨rfl, rfl⟩
  · have hout : ¬ Open m guard (a / PGSIZE) := fun ho => by
      have := h.lt_user ho.2.1
      rw [NUSER_eq] at this
      omega
    have hu := (h.dir.kernelPte _ (by rw [NUSER_eq]; omega) hlt).1
    rw [hu, if_neg hout]
    split
    · exact ⟨rfl, rfl⟩
    · exact ⟨rfl, rfl⟩

/-- A copy that stays in one open page. -/
theorem Image.copyout_fits {va len : Nat} (h : Image s c d m guard res L img) (hu : Open m guard u)
    (hlo : u * PGSIZE ≤ va) (hhi : va + len ≤ (u + 1) * PGSIZE) (hpos : 0 < len) (src : Nat → Byte) :
    wp (copyout d va src len) E (fun r s' => r = 0 ∧ Image s' c d m guard res L (overwrite img va len src) ∧
      Builds c d L s s') s := by
  have hun : u < 1024 := by
    have hcount := h.size
    have htab := h.agree.table.size
    have hlt := hu.2.1
    simp only [MAX_PSYC_PAGES] at htab
    omega
  have hdiv : va / PGSIZE = u := by
    simp only [PGSIZE] at *
    omega
  have hdown : pgrounddown va = u * PGSIZE := by
    unfold pgrounddown
    rw [hdiv]
  obtain ⟨k, rfl⟩ := Nat.exists_eq_succ_of_ne_zero hpos.ne'
  have hroom : ¬ PGSIZE - (va - u * PGSIZE) < k + 1 := by simp only [PGSIZE] at *; omega
  have hn1 : (if PGSIZE - (va - u * PGSIZE) > k + 1 then k + 1 else PGSIZE - (va - u * PGSIZE)) = k + 1 := by
    split <;> omega
  unfold copyout
  rw [copyoutLoop, if_pos hpos, hdown]
  dsimp only
  have hpage : u * PGSIZE / PGSIZE = u := Nat.mul_div_cancel _ (by decide)
  refine wp_seq (wp_post (h.uva2ka (by have := hu.1; have := hu.2.1; omega) (by simp only [PGSIZE]; omega) (.inl (by rw [hpage]; exact hun))) ?_)
  rintro r s1 ⟨rfl, rfl⟩
  rw [hpage, if_pos hu]
  dsimp only
  rw [hn1]
  obtain ⟨himg, hb⟩ := h.fill (o := va - u * PGSIZE) (k := k + 1) hu.1 hu.2.1 (by omega) src
  rw [Nat.add_sub_cancel' hlo] at himg
  refine wp_seq (modify_wp ?_)
  have hend : copyoutLoop d k ((u * PGSIZE + PGSIZE) % 2 ^ 32) (fun j => src (k + 1 + j)) (k + 1 - (k + 1)) = pure 0 := by
    rw [Nat.sub_self]
    cases k with
    | zero => rfl
    | succ k => rw [copyoutLoop, if_neg (Nat.lt_irrefl 0)]
  rw [hend]
  exact ⟨rfl, himg, hb⟩

/-- A copy that starts below the last page and reaches the guard page. -/
theorem Image.copyoutLoop_fails (fuel : Nat) : ∀ (va len : Nat) (src : Nat → Byte) (s : Kernel)
    (img : Nat → Byte), Image s c d (n + 2) n res L img → 0 < len → len ≤ fuel → va < (n + 1) * PGSIZE →
    n * PGSIZE < va + len → wp (copyoutLoop d fuel va src len) E (fun r s' => r = -1 ∧ (∃ img',
      Image s' c d (n + 2) n res L img') ∧ Builds c d L s s') s := by
  induction fuel with
  | zero =>
    intro va len src s img h hpos hlen
    exact absurd hpos (Nat.not_lt.2 hlen)
  | succ fuel ih =>
    intro va len src s img h hpos hlen hva hend
    have hcount := h.size
    have htab := h.agree.table.size
    simp only [MAX_PSYC_PAGES] at htab
    obtain ⟨u, hu⟩ : ∃ u, va / PGSIZE = u := ⟨_, rfl⟩
    have hle : u ≤ n := by
      simp only [PGSIZE] at *
      omega
    have hdown : pgrounddown va = u * PGSIZE := by
      unfold pgrounddown
      rw [hu]
    have hpage : u * PGSIZE / PGSIZE = u := Nat.mul_div_cancel _ (by decide)
    have hun : u < NUSER := h.lt_user (Nat.lt_of_le_of_lt hle (by omega))
    rw [copyoutLoop, if_pos hpos, hdown]
    dsimp only
    refine wp_seq (wp_post (h.uva2ka (by omega) (page_lt_word hun) (.inl (by rw [hpage]; omega))) ?_)
    rintro r s1 ⟨rfl, rfl⟩
    rw [hpage]
    by_cases ho : Open (n + 2) n u
    · rw [if_pos ho]
      dsimp only
      have hn1 : (if PGSIZE - (va - u * PGSIZE) > len then len else PGSIZE - (va - u * PGSIZE)) =
          PGSIZE - (va - u * PGSIZE) := by
        refine if_neg ?_
        have := ho.2.2
        simp only [PGSIZE] at *
        omega
      rw [hn1]
      obtain ⟨himg, hb⟩ := h.fill (o := va - u * PGSIZE) (k := PGSIZE - (va - u * PGSIZE)) ho.1 ho.2.1
        (by simp only [PGSIZE] at *; omega) src
      refine wp_seq (modify_wp (wp_post (ih _ _ _ _ _ himg ?_ ?_ ?_ ?_) ?_))
      · have := ho.2.2
        simp only [PGSIZE] at *
        omega
      · simp only [PGSIZE] at *
        omega
      · have := ho.2.2
        simp only [PGSIZE] at *
        omega
      · have := ho.2.2
        simp only [PGSIZE] at *
        omega
      · rintro r s2 ⟨hr, hi, hb2⟩
        exact ⟨hr, hi, hb.trans hb2⟩
    · rw [if_neg ho]
      exact ⟨rfl, ⟨img, h⟩, .refl c d L _⟩

/-- A copy that leaves the last page at its lower end, or starts among the devices. -/
theorem Image.copyout_fails {va len : Nat} (h : Image s c d (n + 2) n res L img) (hpos : 0 < len)
    (hva : va < (n + 1) * PGSIZE ∧ n * PGSIZE < va + len ∨ 0xFE000 * PGSIZE ≤ va ∧ va < 2 ^ 32)
    (src : Nat → Byte) : wp (copyout d va src len) E (fun r s' => r = -1 ∧ (∃ img',
      Image s' c d (n + 2) n res L img') ∧ Builds c d L s s') s := by
  rcases hva with ⟨hlo, hend⟩ | ⟨hlo, hhi⟩
  · exact Image.copyoutLoop_fails len va len src s img h hpos le_rfl hlo hend
  · obtain ⟨k, rfl⟩ := Nat.exists_eq_succ_of_ne_zero hpos.ne'
    have hge : 0xFE000 ≤ pgrounddown va / PGSIZE := by
      unfold pgrounddown
      simp only [PGSIZE] at *
      omega
    have hout : ¬ Open (n + 2) n (pgrounddown va / PGSIZE) := fun ho => by
      have := h.lt_user ho.2.1
      rw [NUSER_eq] at this
      omega
    unfold copyout
    rw [copyoutLoop, if_pos hpos]
    dsimp only
    refine wp_seq (wp_post (h.uva2ka (by have := h.pos; omega) ?_ (.inr hge)) ?_)
    · unfold pgrounddown
      simp only [PGSIZE]
      omega
    · rintro r s1 ⟨rfl, rfl⟩
      rw [if_neg hout]
      exact ⟨rfl, ⟨img, h⟩, .refl c d L _⟩

/-! ## The argument strings -/

/-- The bytes that a string takes: with its NUL, up to a multiple of 4. -/
def argSize (arg : List Byte) : Nat := (arg.length + 4) / 4 * 4

def argBytes (argv : List (List Byte)) : Nat := (argv.map argSize).sum

/-- The bytes that the strings and the words of `ustack` take. -/
def argRoom (argv : List (List Byte)) : Nat := argBytes argv + 4 * (4 + argv.length)

/-- The longest string in the memory of a process. -/
abbrev MAXSTR : Nat := (MAX_TOTAL_PAGES + 1) * PGSIZE

omit [Build] in
theorem argBytes_cons (arg : List Byte) (argv : List (List Byte)) :
    argBytes (arg :: argv) = argSize arg + argBytes argv := by
  unfold argBytes
  rw [List.map_cons, List.sum_cons]

omit [Build] in
theorem pushed_eq {sp : Nat} {arg : List Byte} (h4 : sp % 4 = 0) (hsp : sp < 2 ^ 32) (hle : argSize arg ≤ sp) :
    pushed sp arg = sp - argSize arg := by
  unfold pushed
  unfold argSize at *
  omega

omit [Build] in
/-- A string that does not fit below `sp` at all starts near the end of the address space. -/
theorem pushed_wraps {sp : Nat} {arg : List Byte} (h4 : sp % 4 = 0) (hlen : arg.length + 1 ≤ MAXSTR)
    (hlt : sp < argSize arg) : 0xFE000 * PGSIZE ≤ pushed sp arg ∧ pushed sp arg < 2 ^ 32 := by
  unfold pushed
  unfold argSize at hlt
  simp only [MAXSTR, MAX_TOTAL_PAGES, PGSIZE] at *
  omega

/-- The strings `argv` are at `ptrs`, between `lo` and `hi`. -/
def StringsAt (m : Nat → Byte) (lo hi : Nat) (argv : List (List Byte)) (ptrs : List Nat) : Prop :=
  List.Forall₂ (fun arg p => lo ≤ p ∧ p + arg.length + 1 ≤ hi ∧ ∀ k ≤ arg.length, m (p + k) = cstring arg k) argv ptrs

omit [Build] in
theorem StringsAt.mono {m m' : Nat → Byte} {lo hi lo' hi' : Nat} {argv : List (List Byte)} {ptrs : List Nat}
    (h : StringsAt m lo hi argv ptrs) (hlo : lo' ≤ lo) (hhi : hi ≤ hi') (hm : ∀ x, lo ≤ x → x < hi → m' x = m x) :
    StringsAt m' lo' hi' argv ptrs := by
  refine List.Forall₂.imp (fun arg p hp => ⟨hlo.trans hp.1, hp.2.1.trans hhi, fun k hk => ?_⟩) h
  obtain ⟨h1, h2, h3⟩ := hp
  rw [hm _ (by omega) (by omega), h3 k hk]

/-- The strings go below `sp`, one after the other, unless the page ends before. -/
theorem Image.pushArgs (argv : List (List Byte)) : ∀ (argc sp : Nat) (ptrs : List Nat) (s : Kernel)
    (img : Nat → Byte), Image s c d (n + 2) n res L img → sp % 4 = 0 → (n + 1) * PGSIZE ≤ sp →
    sp ≤ (n + 2) * PGSIZE → argc + argv.length ≤ MAXARG → (∀ arg ∈ argv, arg.length + 1 ≤ MAXSTR) →
    wp (pushArgs d argv argc sp ptrs) E (fun r s' => Builds c d L s s' ∧
      if (n + 1) * PGSIZE + argBytes argv ≤ sp then
        ∃ qs img', r = some (sp - argBytes argv, ptrs ++ qs) ∧ Image s' c d (n + 2) n res L img' ∧
          StringsAt img' (sp - argBytes argv) sp argv qs ∧
          ∀ x, x < sp - argBytes argv ∨ sp ≤ x → img' x = img x
      else r = none ∧ ∃ img', Image s' c d (n + 2) n res L img') s := by
  induction argv with
  | nil =>
    intro argc sp ptrs s img h h4 hlo hhi _ _
    refine ⟨.refl c d L s, ?_⟩
    rw [show argBytes [] = 0 from rfl, Nat.add_zero, if_pos hlo]
    exact ⟨[], img, by rw [List.append_nil]; rfl, h, .nil, fun _ _ => rfl⟩
  | cons arg argv ih =>
    intro argc sp ptrs s img h h4 hlo hhi hargc hlen
    have hcount := h.size
    have htab := h.agree.table.size
    have hpos := h.pos
    simp only [MAX_PSYC_PAGES] at htab
    have hword : sp < 2 ^ 32 := by
      clear hlo
      simp only [PGSIZE] at hhi
      omega
    have hsize : arg.length + 1 ≤ argSize arg ∧ argSize arg < arg.length + 5 ∧ argSize arg % 4 = 0 := by
      unfold argSize
      omega
    rw [Xv6.pushArgs, if_neg (by rw [List.length_cons] at hargc; clear hlo hhi; omega), argBytes_cons]
    dsimp only
    by_cases hfit : (n + 1) * PGSIZE + argSize arg ≤ sp
    · rw [pushed_eq h4 hword (by omega)]
      refine wp_seq (wp_post (h.copyout_fits (u := n + 1) ⟨by omega, by omega, by omega⟩ (Nat.le_sub_of_add_le hfit)
        (by simp only [PGSIZE] at *; omega) (Nat.succ_pos _) (cstring arg)) ?_)
      rintro r s1 ⟨rfl, h1, hb1⟩
      rw [if_neg (by decide)]
      refine wp_post (ih (argc + 1) (sp - argSize arg) (ptrs ++ [sp - argSize arg]) s1 _ h1 (by omega)
        (Nat.le_sub_of_add_le hfit) ((Nat.sub_le _ _).trans hhi) (by rw [List.length_cons] at hargc; omega) fun a ha => hlen a (List.mem_cons_of_mem _ ha)) ?_
      rintro r s2 ⟨hb2, hres⟩
      refine ⟨hb1.trans hb2, ?_⟩
      have hiff : (n + 1) * PGSIZE + argBytes argv ≤ sp - argSize arg ↔
          (n + 1) * PGSIZE + (argSize arg + argBytes argv) ≤ sp := by
        rw [Nat.le_sub_iff_add_le (by omega), Nat.add_right_comm, Nat.add_assoc]
      by_cases hall : (n + 1) * PGSIZE + (argSize arg + argBytes argv) ≤ sp
      · rw [if_pos (hiff.2 hall)] at hres
        rw [if_pos hall]
        obtain ⟨qs, img', rfl, h2, hstr, hrest⟩ := hres
        have hsub : sp - argSize arg - argBytes argv = sp - (argSize arg + argBytes argv) := Nat.sub_sub ..
        rw [hsub] at hstr hrest ⊢
        refine ⟨(sp - argSize arg) :: qs, img', by rw [List.append_assoc, List.singleton_append], h2,
          .cons ⟨by omega, by omega, fun k hk => ?_⟩ (hstr.mono le_rfl (by omega) fun _ _ _ => rfl), fun x hx => ?_⟩
        · rw [hrest _ (by omega)]
          unfold overwrite
          rw [if_pos (by omega), Nat.add_sub_cancel_left]
        · rw [hrest x (by omega)]
          unfold overwrite
          rw [if_neg (by omega)]
      · rw [if_neg (mt hiff.1 hall)] at hres
        rw [if_neg hall]
        exact hres
    · -- the string reaches into the guard page or beyond
      have hwhere : pushed sp arg < (n + 1) * PGSIZE ∧ n * PGSIZE < pushed sp arg + (arg.length + 1) ∨
          0xFE000 * PGSIZE ≤ pushed sp arg ∧ pushed sp arg < 2 ^ 32 := by
        by_cases hle : argSize arg ≤ sp
        · rw [pushed_eq h4 hword hle]
          simp only [PGSIZE] at *
          omega
        · exact .inr (pushed_wraps h4 (hlen arg List.mem_cons_self) (Nat.lt_of_not_le hle))
      refine wp_seq (wp_post (h.copyout_fails (Nat.succ_pos _) hwhere (cstring arg)) ?_)
      rintro r s1 ⟨rfl, hi1, hb1⟩
      rw [if_pos (by decide)]
      refine ⟨hb1, ?_⟩
      rw [if_neg (by simp only [PGSIZE] at *; omega)]
      exact ⟨rfl, hi1⟩

/-! ## The words below them -/

omit [Build] in
theorem load_overwrite {a i : Nat} {ws : List Word} (m : Nat → Byte) (hi : i < ws.length) :
    load (overwrite m a (4 * ws.length) (wordBytes ws)) (a + 4 * i) = ws.getD i 0 := by
  have hbyte : ∀ r < 4, overwrite m a (4 * ws.length) (wordBytes ws) (a + 4 * i + r) = wordBytes ws (4 * i + r) := by
    intro r hr
    unfold overwrite
    rw [if_pos (by omega), Nat.add_assoc, Nat.add_sub_cancel_left]
  have hword := getWord_ofWords (fun j => ws.getD j 0) i
  unfold load
  rw [hbyte 3 (by omega), hbyte 2 (by omega), hbyte 1 (by omega), show overwrite m a (4 * ws.length) (wordBytes ws)
    (a + 4 * i) = wordBytes ws (4 * i) from hbyte 0 (by omega)]
  exact hword

/-- The stack of a program started with `argv`, between `lo` and `hi`. -/
structure Stacked (m : Nat → Byte) (lo hi esp : Nat) (argv : List (List Byte)) : Prop where
  low : lo ≤ esp
  argc : load m (esp + 4) = BitVec.ofNat 32 argv.length
  array : ∃ av ptrs, load m (esp + 8) = BitVec.ofNat 32 av ∧ lo ≤ av ∧ av + 4 * (argv.length + 1) ≤ hi ∧
    StringsAt m lo hi argv ptrs ∧ (∀ i < argv.length, load m (av + 4 * i) = BitVec.ofNat 32 (ptrs.getD i 0)) ∧
    load m (av + 4 * argv.length) = 0

omit [Build] in
theorem ustack_length (sp : Nat) (ptrs : List Nat) : (ustack sp ptrs).length = 4 + ptrs.length := by
  unfold ustack
  rw [List.length_cons, List.length_cons, List.length_cons, List.length_append, List.length_map, List.length_singleton]
  omega

omit [Build] in
/-- What the program finds below strings that end at `sp`. -/
theorem stacked_overwrite {m : Nat → Byte} {lo hi sp : Nat} {argv : List (List Byte)} {ptrs : List Nat}
    (hs : StringsAt m sp hi argv ptrs) (hlo : lo + 4 * (4 + argv.length) ≤ sp) (hhi : sp ≤ hi) :
    Stacked (overwrite m (sp - 4 * (4 + argv.length)) (4 * (4 + argv.length)) (wordBytes (ustack sp ptrs))) lo hi
      (sp - 4 * (4 + argv.length)) argv := by
  have hlen : argv.length = ptrs.length := hs.length_eq
  have hws : (ustack sp ptrs).length = 4 + argv.length := by rw [ustack_length, hlen]
  have hword : ∀ i < 4 + argv.length, load (overwrite m (sp - 4 * (4 + argv.length)) (4 * (4 + argv.length))
      (wordBytes (ustack sp ptrs))) (sp - 4 * (4 + argv.length) + 4 * i) = (ustack sp ptrs).getD i 0 := by
    intro i hi
    rw [← hws] at hi ⊢
    exact load_overwrite m hi
  refine ⟨by omega, ?_, sp - 4 * (4 + argv.length) + 12, ptrs, ?_, by omega, by omega,
    hs.mono (by omega) le_rfl fun x hx _ => ?_, fun i hi => ?_, ?_⟩
  · have h1 := hword 1 (by omega)
    rw [show (ustack sp ptrs).getD 1 0 = BitVec.ofNat 32 ptrs.length from rfl, ← hlen] at h1
    exact h1
  · have h2 := hword 2 (by omega)
    rw [show (ustack sp ptrs).getD 2 0 = BitVec.ofNat 32 (sp + 2 ^ 32 - (ptrs.length + 1) * 4) from rfl, ← hlen,
      show sp + 2 ^ 32 - (argv.length + 1) * 4 = sp - 4 * (4 + argv.length) + 12 + 2 ^ 32 by omega] at h2
    refine h2.trans (BitVec.eq_of_toNat_eq ?_)
    rw [BitVec.toNat_ofNat, BitVec.toNat_ofNat, Nat.add_mod_right]
  · unfold overwrite
    rw [if_neg (by omega)]
  · have h3 := hword (3 + i) (by omega)
    rw [show sp - 4 * (4 + argv.length) + 4 * (3 + i) = sp - 4 * (4 + argv.length) + 12 + 4 * i by omega,
      Nat.add_comm 3 i] at h3
    rw [h3]
    change (ptrs.map (BitVec.ofNat 32) ++ [0#32]).getD i 0 = _
    rw [List.getD_append _ _ _ _ (by rw [List.length_map]; omega)]
    exact List.getD_map ptrs 0 (BitVec.ofNat 32)
  · have h3 := hword (3 + argv.length) (by omega)
    rw [show sp - 4 * (4 + argv.length) + 4 * (3 + argv.length) =
      sp - 4 * (4 + argv.length) + 12 + 4 * argv.length by omega, Nat.add_comm 3] at h3
    rw [h3]
    change (ptrs.map (BitVec.ofNat 32) ++ [0#32]).getD argv.length 0 = _
    rw [List.getD_append_right _ _ _ _ (by rw [List.length_map]; omega), List.length_map, hlen, Nat.sub_self]
    rfl

theorem Image.buildStack {argv : List (List Byte)} (h : Image s c d (n + 2) n res L img) (hargc : argv.length ≤ MAXARG)
    (hlen : ∀ arg ∈ argv, arg.length + 1 ≤ MAXSTR) :
    wp (buildStack d ((n + 2) * PGSIZE) argv) E (fun r s' => Builds c d L s s' ∧
      if argRoom argv ≤ PGSIZE then
        ∃ img', r = some ((n + 2) * PGSIZE - argRoom argv) ∧ Image s' c d (n + 2) n res L img' ∧
          Stacked img' ((n + 1) * PGSIZE) ((n + 2) * PGSIZE) ((n + 2) * PGSIZE - argRoom argv) argv ∧
          ∀ x < (n + 1) * PGSIZE, img' x = img x
      else r = none ∧ ∃ img', Image s' c d (n + 2) n res L img') s := by
  have hn : 1 ≤ n + 1 ∧ n < 15 := by
    have hcount := h.size
    have htab := h.agree.table.size
    simp only [MAX_PSYC_PAGES] at htab
    omega
  have htop : (n + 2) * PGSIZE = (n + 1) * PGSIZE + PGSIZE := Nat.succ_mul _ _
  have hfull : (n + 2) * PGSIZE % 4 = 0 := by simp only [PGSIZE]; omega
  have hstart := Image.pushArgs (E := E) argv 0 ((n + 2) * PGSIZE) [] s img h hfull
    (Nat.mul_le_mul_right _ (by omega)) le_rfl (by rwa [Nat.zero_add]) hlen
  have hbounds : n * PGSIZE < (n + 1) * PGSIZE ∧ 4096 ≤ (n + 1) * PGSIZE ∧ (n + 1) * PGSIZE ≤ 65536 := by
    simp only [PGSIZE]
    omega
  simp only [MAXARG] at hargc
  unfold Xv6.buildStack
  refine wp_seq (wp_post hstart ?_)
  rintro r s1 ⟨hb1, hres⟩
  by_cases hfit : (n + 1) * PGSIZE + argBytes argv ≤ (n + 2) * PGSIZE
  · rw [if_pos hfit] at hres
    obtain ⟨qs, img1, rfl, h1, hstr, hrest⟩ := hres
    have hqs : qs.length = argv.length := hstr.length_eq.symm
    dsimp only
    rw [List.nil_append, hqs, show (3 + argv.length + 1) * 4 = 4 * (4 + argv.length) by omega]
    obtain ⟨sp, hsp⟩ : ∃ sp, sp = (n + 2) * PGSIZE - argBytes argv := ⟨_, rfl⟩
    rw [← hsp] at hstr hrest ⊢
    have hlo : (n + 1) * PGSIZE ≤ sp := by rw [hsp]; exact Nat.le_sub_of_add_le hfit
    have hhi : sp ≤ (n + 2) * PGSIZE := by rw [hsp]; exact Nat.sub_le _ _
    have hesp : (n + 2) * PGSIZE - argRoom argv = sp - 4 * (4 + argv.length) := by
      rw [hsp, argRoom, Nat.sub_sub]
    have hroom : argRoom argv ≤ PGSIZE ↔ (n + 1) * PGSIZE + 4 * (4 + argv.length) ≤ sp := by
      rw [hsp]
      unfold argRoom
      simp only [PGSIZE] at hfit ⊢
      omega
    rw [show (sp + 2 ^ 32 - 4 * (4 + argv.length)) % 2 ^ 32 = sp - 4 * (4 + argv.length) by
      simp only [PGSIZE] at *
      omega, hesp]
    by_cases hall : argRoom argv ≤ PGSIZE
    · refine wp_seq (wp_post (h1.copyout_fits (u := n + 1) ⟨by omega, by omega, by omega⟩
        (Nat.le_sub_of_add_le (hroom.1 hall)) ?_ (by omega) (wordBytes (ustack sp qs))) ?_)
      · rw [Nat.sub_add_cancel (by have := hroom.1 hall; omega)]
        exact hhi
      rintro r s2 ⟨rfl, h2, hb2⟩
      rw [if_neg (by decide)]
      refine ⟨hb1.trans hb2, ?_⟩
      rw [if_pos hall]
      refine ⟨_, rfl, h2, stacked_overwrite hstr (hroom.1 hall) hhi, fun x hx => ?_⟩
      rw [← hrest x (.inl (Nat.lt_of_lt_of_le hx hlo))]
      unfold overwrite
      have := hroom.1 hall
      rw [if_neg (by omega)]
    · refine wp_seq (wp_post (h1.copyout_fails (by omega) (.inl ⟨?_, ?_⟩) (wordBytes (ustack sp qs))) ?_)
      · have := mt hroom.2 hall
        omega
      · rw [Nat.sub_add_cancel]
        · exact Nat.lt_of_lt_of_le hbounds.1 hlo
        · have := hbounds.2.1.trans hlo
          omega
      rintro r s2 ⟨rfl, hi2, hb2⟩
      rw [if_pos (by decide)]
      refine ⟨hb1.trans hb2, ?_⟩
      rw [if_neg hall]
      exact ⟨rfl, hi2⟩
  · rw [if_neg hfit] at hres
    obtain ⟨rfl, hi⟩ := hres
    refine ⟨hb1, ?_⟩
    rw [if_neg]
    · exact ⟨rfl, hi⟩
    · unfold argRoom
      simp only [PGSIZE] at hfit ⊢
      omega

end

end Xv6
