import Xv6.Lib.CString
import Xv6.User.Shell.Grammar

/-!
# Strings of the parsed command

`nulterminate` ends every string of a command inside the line. A word of the line is followed by a
character that no word has, or by the end of the line, so a NUL after one word is never inside
another.
-/

namespace Xv6.Sh

open Lib

/-- Where the arguments and file names are. -/
def Cmd.strings : Cmd → List (Nat × Nat)
  | .exec args => args
  | .redir cmd file efile _ _ => cmd.strings ++ [(file, efile)]
  | .pipe left right | .list left right => left.strings ++ right.strings
  | .back cmd => cmd.strings

variable {l : Line} {m : Nat → BitVec 8}

/-! ## Words -/

/-- A maximal word of the line. -/
structure IsWord (l : Line) (q eq : Nat) : Prop where
  lt : q < eq
  le : eq ≤ l.es
  inside : ∀ i, q ≤ i → i < eq → wordChar (l.byte i) = true
  after : eq = l.es ∨ wordChar (l.byte eq) = false

theorem takeWhile_getD (p : BitVec 8 → Bool) : ∀ (r : List (BitVec 8)) (j : Nat), j < (r.takeWhile p).length →
    p (r.getD j 0) = true
  | [], j, h => absurd h (Nat.not_lt_zero _)
  | c :: r, j, h => by
    by_cases hc : p c = true
    · cases j with
      | zero => exact hc
      | succ j =>
        rw [List.takeWhile_cons_of_pos hc, List.length_cons] at h
        exact takeWhile_getD p r j (Nat.lt_of_succ_lt_succ h)
    · rw [List.takeWhile_cons_of_neg hc] at h
      exact absurd h (Nat.not_lt_zero _)

/-- The word that `lex` reads at a word character is maximal. -/
theorem isWord_takeWhile {p : Nat} {c : BitVec 8} {cs : List (BitVec 8)} (h : l.text.drop p = c :: cs)
    (hc : wordChar c = true) : IsWord l p (p + 1 + (cs.takeWhile wordChar).length) := by
  obtain ⟨hlt, hbyte, hcs⟩ := byte_of_drop h
  have hn := (List.takeWhile_prefix wordChar (l := cs)).length_le
  have hlen := congrArg List.length hcs
  rw [List.length_drop] at hlen
  change l.es - _ = _ at hlen
  refine ⟨by omega, by omega, fun i hi hie => ?_, ?_⟩
  · by_cases hip : i = p
    · rw [hip, hbyte]
      exact hc
    · obtain ⟨j, rfl⟩ := Nat.exists_eq_add_of_le (Nat.lt_of_le_of_ne hi (Ne.symm hip))
      have hget : l.byte (p.succ + j) = cs.getD j 0 := by
        rw [← hcs]
        unfold Line.byte
        rw [List.getD_eq_getElem?_getD, List.getD_eq_getElem?_getD, List.getElem?_drop]
      rw [hget]
      exact takeWhile_getD wordChar cs j (by omega)
  · cases hd : cs.drop (cs.takeWhile wordChar).length with
    | nil =>
      have := List.drop_eq_nil_iff.1 hd
      exact .inl (by omega)
    | cons x r =>
      have hx := drop_takeWhile_head _ hd
      rw [← hcs, List.drop_drop] at hd
      rw [hcs] at hd
      exact .inr ((byte_of_drop hd).2.1 ▸ hx)

theorem isWord_of_lex {p : Nat} {r : List (BitVec 8)} (hr : l.text.drop p = r) {q eq : Nat}
    (h : .word q eq ∈ lex p r) : IsWord l q eq := by
  fun_induction lex p r with
  | case1 => cases h
  | case2 p c cs hspace ih => exact ih (byte_of_drop hr).2.2 h
  | case3 p cs hhead hspace ih =>
    obtain ⟨cs', rfl⟩ := List.head?_eq_some_iff.1 hhead
    have hr' := (byte_of_drop (byte_of_drop hr).2.2).2.2
    exact ih hr' (by simpa using h)
  | case4 p cs hhead hspace ih =>
    exact ih (byte_of_drop hr).2.2 (by simpa using h)
  | case5 p c cs hspace hgt o hop ih =>
    exact ih (byte_of_drop hr).2.2 (by simpa using h)
  | case6 p c cs hspace hgt hop n ih =>
    rcases List.mem_cons.1 h with he | h
    · cases he
      exact isWord_takeWhile hr (wordChar_of (Bool.eq_false_iff.2 hspace) hgt hop)
    · refine ih ?_ h
      rw [← List.drop_drop, (byte_of_drop hr).2.2]

/-! ## The strings are words -/

theorem strings_wrap (rs : List Redir) (cmd : Cmd) :
    (wrap rs cmd).strings = cmd.strings ++ rs.map fun r => (r.q, r.eq) := by
  induction rs generalizing cmd with
  | nil => exact (List.append_nil _).symm
  | cons r rs ih => exact (ih _).trans (List.append_assoc ..)

theorem strings_back (n : Nat) (cmd : Cmd) : (Cmd.back^[n] cmd).strings = cmd.strings := by
  induction n generalizing cmd with
  | zero => rfl
  | succ n ih => exact ih _

theorem Redirs.words {ts : List Tok} {rs : List Redir} (h : Redirs ts rs) : ∀ r ∈ rs, .word r.q r.eq ∈ ts := by
  induction h with
  | nil => exact fun r hr => nomatch hr
  | cons ho _ ih =>
    intro r hr
    rcases List.mem_cons.1 hr with rfl | hr
    · exact List.mem_cons_of_mem _ List.mem_cons_self
    · exact List.mem_cons_of_mem _ (List.mem_cons_of_mem _ (ih r hr))

theorem Words.words {ts : List Tok} {ws : List (Nat × Nat)} {rs : List Redir} (h : Words ts ws rs) :
    (∀ w ∈ ws, .word w.1 w.2 ∈ ts) ∧ ∀ r ∈ rs, .word r.q r.eq ∈ ts := by
  induction h with
  | nil => exact ⟨fun w hw => (nomatch hw), fun r hr => nomatch hr⟩
  | cons hr _ ih =>
    refine ⟨fun w hw => ?_, fun r hm => ?_⟩
    · rcases List.mem_cons.1 hw with rfl | hw
      · exact List.mem_cons_self
      · exact List.mem_cons_of_mem _ (List.mem_append_right _ (ih.1 w hw))
    · refine List.mem_cons_of_mem _ (List.mem_append.2 ?_)
      exact (List.mem_append.1 hm).imp (hr.words r) (ih.2 r)

theorem mem_strings_wrap {rs : List Redir} {cmd : Cmd} {a : Nat × Nat} (h : a ∈ (wrap rs cmd).strings) :
    a ∈ cmd.strings ∨ ∃ r ∈ rs, a = (r.q, r.eq) := by
  rw [strings_wrap, List.mem_append, List.mem_map] at h
  exact h.imp_right fun ⟨r, hr, he⟩ => ⟨r, hr, he.symm⟩

theorem Derives.strings {nt : Nonterminal} {ts : List Tok} {cmd : Cmd} (h : Derives nt ts cmd) :
    ∀ a ∈ cmd.strings, .word a.1 a.2 ∈ ts := by
  induction h with
  | line n _ ih =>
    intro a ha
    rw [strings_back] at ha
    exact List.mem_append_left _ (ih a ha)
  | list n _ _ ih ih' =>
    intro a ha
    rcases List.mem_append.1 ha with ha | ha
    · rw [strings_back] at ha
      exact List.mem_append_left _ (ih a ha)
    · exact List.mem_append_right _ (List.mem_append_right _ (List.mem_cons_of_mem _ (ih' a ha)))
  | one _ ih => exact ih
  | pipe _ _ ih ih' =>
    intro a ha
    rcases List.mem_append.1 ha with ha | ha
    · exact List.mem_append_left _ (ih a ha)
    · exact List.mem_append_right _ (List.mem_cons_of_mem _ (ih' a ha))
  | block _ hr ih =>
    intro a ha
    refine List.mem_cons_of_mem _ (List.mem_append.2 ?_)
    rcases mem_strings_wrap ha with ha | ⟨r, hm, rfl⟩
    · exact .inl (ih a ha)
    · exact .inr (List.mem_cons_of_mem _ (hr.words r hm))
  | exec hr hw _ =>
    intro a ha
    refine List.mem_append.2 ?_
    rcases mem_strings_wrap ha with ha | ⟨r, hm, rfl⟩
    · exact .inr (hw.words.1 a ha)
    · exact (List.mem_append.1 hm).imp (hr.words r) (hw.words.2 r)

/-! ## The NULs -/

theorem foldl_update_zero (args : List (Nat × Nat)) (m : Nat → BitVec 8) (i : Nat) :
    args.foldl (fun m arg => Function.update m arg.2 0) m i = if i ∈ args.map Prod.snd then 0 else m i := by
  induction args generalizing m with
  | nil => rfl
  | cons a args ih =>
    rw [List.foldl_cons, ih, List.map_cons]
    by_cases hi : i ∈ args.map Prod.snd
    · rw [if_pos hi, if_pos (List.mem_cons_of_mem _ hi)]
    · rw [if_neg hi]
      by_cases hia : i = a.2
      · rw [hia, Function.update_self, if_pos List.mem_cons_self]
      · rw [Function.update_of_ne hia, if_neg fun h => (List.mem_cons.1 h).elim hia hi]

/-- A NUL after every string, and nothing else. -/
theorem nulterminate_apply (cmd : Cmd) (m : Nat → BitVec 8) (i : Nat) :
    nulterminate cmd m i = if i ∈ cmd.strings.map Prod.snd then 0 else m i := by
  have happ : ∀ {a b : List (Nat × Nat)} {x : BitVec 8},
      (if i ∈ b.map Prod.snd then 0 else if i ∈ a.map Prod.snd then 0 else x) =
        if i ∈ (a ++ b).map Prod.snd then 0 else x := by
    intro a b x
    simp only [List.map_append, List.mem_append]
    split_ifs <;> simp_all
  induction cmd generalizing m with
  | exec args => exact foldl_update_zero args m i
  | redir cmd file efile mode fd ih =>
    unfold Cmd.strings
    rw [← happ, ← ih]
    exact foldl_update_zero [(file, efile)] _ i
  | pipe left right ih ih' | list left right ih ih' =>
    unfold Cmd.strings
    rw [← happ, ← ih, ← ih']
    rfl
  | back cmd ih => exact ih m

/-- No word ends inside another. -/
theorem IsWord.disjoint {q eq q' eq' : Nat} (h : IsWord l q eq) (h' : IsWord l q' eq') (hq : q ≤ eq') : eq ≤ eq' := by
  by_contra hlt
  have hin := h.inside eq' hq (Nat.lt_of_not_le hlt)
  have hle := h.le
  rcases h'.after with he | he
  · omega
  · rw [hin] at he
    cases he

/-- A word keeps its text, and ends. -/
theorem IsWord.str {q eq : Nat} {ends : List Nat} (h : IsWord l q eq) (hm : Str m 0 l.text) (heq : eq ∈ ends)
    (hends : ∀ e ∈ ends, ∃ q', IsWord l q' e) :
    Str (fun i => if i ∈ ends then 0 else m i) q ((l.text.drop q).take (eq - q)) := by
  have hlt := h.lt
  have hle := h.le
  unfold Line.es at hle
  have hlen : ((l.text.drop q).take (eq - q)).length = eq - q := by
    rw [List.length_take, List.length_drop]
    omega
  refine ⟨fun i hi => ?_, ?_, fun h0 => l.nul (List.mem_of_mem_drop (List.mem_of_mem_take h0))⟩
  · rw [hlen] at hi
    have hnot : q + i ∉ ends := by
      intro hin
      obtain ⟨q', hq'⟩ := hends _ hin
      have := h.disjoint hq' (Nat.le_add_right q i)
      omega
    have hbyte := hm.byte (q + i) (by omega)
    rw [Nat.zero_add] at hbyte
    rw [if_neg hnot, hbyte, List.getD_eq_getElem?_getD, List.getD_eq_getElem?_getD, List.getElem?_take_of_lt hi,
      List.getElem?_drop]
  · rw [hlen, Nat.add_sub_cancel' (Nat.le_of_lt hlt)]
    exact if_pos heq

/-- Every string is the text of its token, and NULs are written into the line only. -/
theorem nulterminate_harmless {cmd : Cmd} {m' : Nat → BitVec 8} (hm : Str m 0 l.text)
    (h : parsecmd l m = .ok (cmd, m')) :
    (∀ a ∈ cmd.strings, .word a.1 a.2 ∈ l.tokens ∧
      ∀ k, l.es < k → cstr m' k a.1 = (l.text.drop a.1).take (a.2 - a.1)) ∧
    ∀ i, m' i ≠ m i → i ≤ l.es ∧ m' i = 0 := by
  obtain ⟨hd, rfl⟩ := parsecmd_ok h
  have hword : ∀ a ∈ cmd.strings, IsWord l a.1 a.2 := fun a ha => isWord_of_lex rfl (hd.strings a ha)
  have hends : ∀ e ∈ cmd.strings.map Prod.snd, ∃ q', IsWord l q' e := by
    intro e he
    obtain ⟨a, ha, rfl⟩ := List.mem_map.1 he
    exact ⟨a.1, hword a ha⟩
  have hm' : nulterminate cmd m = fun i => if i ∈ cmd.strings.map Prod.snd then 0 else m i :=
    funext (nulterminate_apply cmd m)
  rw [hm']
  refine ⟨fun a ha => ⟨hd.strings a ha, fun k hk => ?_⟩, fun i hi => ?_⟩
  · refine cstr_of_str ((hword a ha).str hm (List.mem_map_of_mem ha) hends) ?_
    have hle := (hword a ha).le
    rw [List.length_take]
    omega
  · have hin : i ∈ cmd.strings.map Prod.snd := by
      by_contra hno
      exact hi (if_neg hno)
    obtain ⟨q', hq'⟩ := hends i hin
    exact ⟨hq'.le, if_pos hin⟩

/-- `a>b;c`: the strings touch operators on both sides. -/
theorem nulterminate_touching :
    parsecmd ⟨[97, 62, 98, 59, 99], by decide⟩ (fun i => [97, 62, 98, 59, 99].getD i 0) =
      .ok (.list (.redir (.exec [(0, 1)]) 2 3 0x201 1) (.exec [(4, 5)]),
        nulterminate (.list (.redir (.exec [(0, 1)]) 2 3 0x201 1) (.exec [(4, 5)]))
          fun i => [97, 62, 98, 59, 99].getD i 0) ∧
    cstr (nulterminate (.list (.redir (.exec [(0, 1)]) 2 3 0x201 1) (.exec [(4, 5)]))
      fun i => [97, 62, 98, 59, 99].getD i 0) 6 2 = [98] := by
  have hp : parsecmd ⟨[97, 62, 98, 59, 99], by decide⟩ (fun i => [97, 62, 98, 59, 99].getD i 0) =
      .ok (.list (.redir (.exec [(0, 1)]) 2 3 0x201 1) (.exec [(4, 5)]), _) := rfl
  have hm : Str (fun i => [97, 62, 98, 59, 99].getD i 0) 0 [97, 62, 98, 59, 99] := by
    refine ⟨fun i _ => ?_, rfl, by decide⟩
    rw [Nat.zero_add]
  exact ⟨hp, ((nulterminate_harmless hm hp).1 (2, 3) (by decide)).2 6 (by decide)⟩

end Xv6.Sh
