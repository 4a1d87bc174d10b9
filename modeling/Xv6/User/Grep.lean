import Mathlib.Data.List.GetD
import Xv6.Lib.CString
import Xv6.User.Match

/-!
# The loop of `grep`

The buffer keeps the part of a line that a read ended in. A read that brings no newline at all is
taken for a line that does not fit, and everything up to there is dropped. So the output is right
for every pattern exactly when every read brings a newline.
-/

namespace Xv6.Grep

open Lib

abbrev nl : BitVec 8 := 10

/-- `sizeof(buf)`. -/
abbrev BUF : Nat := 1024

/-- `strchr`, with `k` bytes left to the end of the buffer. -/
def strchr (b : Nat → BitVec 8) (c : BitVec 8) : Nat → Nat → Option Nat
  | 0, _ => none
  | k + 1, s => if b s = 0 then none else if b s = c then some s else strchr b c k (s + 1)

/-- The bytes that `write` is given. -/
def bytesAt (b : Nat → BitVec 8) (p n : Nat) : List (BitVec 8) := (List.range n).map fun i => b (p + i)

/-- The loop over the lines in the buffer: the buffer, `p`, and what was written. -/
def lineLoop (pattern : List (BitVec 8)) : Nat → (Nat → BitVec 8) → Nat →
    (Nat → BitVec 8) × Nat × List (BitVec 8)
  | 0, b, p => (b, p, [])
  | k + 1, b, p =>
    match strchr b nl BUF p with
    | none => (b, p, [])
    | some q =>
      let b := Function.update b q 0
      if matchText pattern (cstr b BUF p) then
        let b := Function.update b q nl
        let r := lineLoop pattern k b (q + 1)
        (r.1, r.2.1, bytesAt b p (q + 1 - p) ++ r.2.2)
      else lineLoop pattern k b (q + 1)

/-- `buf` and `m`. -/
structure State where
  buf : Nat → BitVec 8
  m : Nat

/-- The body of the loop, for a read that returned `chunk`: the state, and what was written. -/
def step (pattern : List (BitVec 8)) (s : State) (chunk : List (BitVec 8)) : State × List (BitVec 8) :=
  let b := fun i => if s.m ≤ i ∧ i < s.m + chunk.length then chunk.getD (i - s.m) 0 else s.buf i
  let m := s.m + chunk.length
  let r := lineLoop pattern BUF (Function.update b m 0) 0
  let m := if r.2.1 = 0 then 0 else m
  if 0 < m then
    (⟨fun i => if i < m - r.2.1 then r.1 (r.2.1 + i) else r.1 i, m - r.2.1⟩, r.2.2)
  else (⟨r.1, m⟩, r.2.2)

/-- `grep`, when the reads return `chunks` and then 0. -/
def grep (pattern : List (BitVec 8)) : State → List (List (BitVec 8)) → List (BitVec 8)
  | _, [] => []
  | s, c :: cs => (step pattern s c).2 ++ grep pattern (step pattern s c).1 cs

/-- Each read returns at least a byte, and not more than it is asked for. -/
def Offered (pattern : List (BitVec 8)) : State → List (List (BitVec 8)) → Prop
  | _, [] => True
  | s, c :: cs => 0 < c.length ∧ c.length ≤ BUF - s.m - 1 ∧ Offered pattern (step pattern s c).1 cs

/-- The lines of a text, and what follows the last of them. -/
def cut : List (BitVec 8) → List (List (BitVec 8)) × List (BitVec 8)
  | [] => ([], [])
  | x :: t =>
    if x = nl then ([] :: (cut t).1, (cut t).2)
    else match (cut t).1 with
      | [] => ([], x :: (cut t).2)
      | l :: ls => ((x :: l) :: ls, (cut t).2)

/-- Lines with their newlines. -/
def unlines (ls : List (List (BitVec 8))) : List (BitVec 8) := ls.flatMap fun l => l ++ [nl]

/-! ## Lines -/

variable {pattern t l r c : List (BitVec 8)} {ls : List (List (BitVec 8))} {b : Nat → BitVec 8} {p k : Nat}

theorem cut_of_not_mem (h : nl ∉ t) : cut t = ([], t) := by
  induction t with
  | nil => rfl
  | cons x t ih =>
    rw [List.mem_cons, not_or] at h
    rw [cut, if_neg (Ne.symm h.1), ih h.2]

theorem cut_line (h : nl ∉ l) : cut (l ++ nl :: t) = (l :: (cut t).1, (cut t).2) := by
  induction l with
  | nil => rw [List.nil_append, cut, if_pos rfl]
  | cons x l ih =>
    rw [List.mem_cons, not_or] at h
    rw [List.cons_append, cut, if_neg (Ne.symm h.1), ih h.2]

/-- A text is its first line and the rest, or has no newline. -/
theorem exists_line (h : nl ∈ t) : ∃ l u, nl ∉ l ∧ t = l ++ nl :: u := by
  obtain ⟨l, u, rfl, hl⟩ := List.eq_append_cons_of_mem h
  exact ⟨l, u, hl, rfl⟩

theorem unlines_cons : unlines (l :: ls) = l ++ nl :: unlines ls := by
  unfold unlines
  rw [List.flatMap_cons, List.append_assoc, List.singleton_append]

theorem unlines_append (ls ls' : List (List (BitVec 8))) : unlines (ls ++ ls') = unlines ls ++ unlines ls' :=
  List.flatMap_append

/-- Nothing is lost by the cut. -/
theorem unlines_cut (t : List (BitVec 8)) : unlines (cut t).1 ++ (cut t).2 = t := by
  induction t with
  | nil => rfl
  | cons x t ih =>
    rw [cut]
    split
    · next hx =>
      rw [unlines_cons, List.nil_append, List.cons_append, ih, hx]
    · split
      · next hnil =>
        rw [hnil] at ih
        exact congrArg (x :: ·) ih
      · next l ls hcons =>
        rw [hcons, unlines_cons] at ih
        rw [unlines_cons, List.cons_append, List.cons_append, ih]

theorem not_mem_cut (t : List (BitVec 8)) : nl ∉ (cut t).2 := by
  induction t with
  | nil => exact List.not_mem_nil
  | cons x t ih =>
    rw [cut]
    split
    · exact ih
    · next hx =>
      split
      · exact fun h => (List.mem_cons.1 h).elim (fun he => hx he.symm) ih
      · exact ih

theorem cut_unlines_append (h : ∀ l ∈ ls, nl ∉ l) : cut (unlines ls ++ t) = (ls ++ (cut t).1, (cut t).2) := by
  induction ls with
  | nil => rfl
  | cons l ls ih =>
    rw [List.forall_mem_cons] at h
    rw [unlines_cons, List.append_assoc, List.cons_append, cut_line h.1, ih h.2]
    rfl

theorem not_mem_of_mem_cut (hl : l ∈ (cut t).1) : nl ∉ l := by
  induction t generalizing l with
  | nil => exact absurd hl List.not_mem_nil
  | cons x t ih =>
    rw [cut] at hl
    split at hl
    · rcases List.mem_cons.1 hl with rfl | hl
      · exact List.not_mem_nil
      · exact ih hl
    · next hx =>
      split at hl
      · exact absurd hl List.not_mem_nil
      · next l' ls hcons =>
        rw [hcons] at ih
        rcases List.mem_cons.1 hl with rfl | hl
        · exact fun h => (List.mem_cons.1 h).elim (fun he => hx he.symm) (ih List.mem_cons_self)
        · exact ih (List.mem_cons_of_mem _ hl)

/-- The lines of a text read in two parts. -/
theorem cut_append (a t : List (BitVec 8)) :
    cut (a ++ t) = ((cut a).1 ++ (cut ((cut a).2 ++ t)).1, (cut ((cut a).2 ++ t)).2) := by
  conv => lhs; rw [← unlines_cut a, List.append_assoc]
  exact cut_unlines_append fun l hl => not_mem_of_mem_cut hl

/-! ## The buffer -/

/-- No newline in the string. -/
theorem strchr_none (h : Str b p t) (hnl : nl ∉ t) (k : Nat) : strchr b nl k p = none := by
  induction t generalizing p k with
  | nil =>
    cases k with
    | zero => rfl
    | succ k => exact if_pos h.nul
  | cons x t ih =>
    cases k with
    | zero => rfl
    | succ k =>
      rw [List.mem_cons, not_or] at hnl
      have hx : x ≠ 0 := fun h0 => h.text (h0 ▸ List.mem_cons_self)
      rw [strchr, h.head, if_neg hx, if_neg (Ne.symm hnl.1), ih h.tail hnl.2]

/-- The first newline. -/
theorem strchr_line (h : Str b p (l ++ nl :: t)) (hnl : nl ∉ l) (hk : l.length < k) :
    strchr b nl k p = some (p + l.length) := by
  induction l generalizing p k with
  | nil =>
    obtain ⟨k, rfl⟩ := Nat.exists_eq_succ_of_ne_zero (Nat.ne_of_gt hk)
    rw [strchr, h.head, if_neg (by decide), if_pos rfl]
    rfl
  | cons x l ih =>
    obtain ⟨k, rfl⟩ := Nat.exists_eq_succ_of_ne_zero (Nat.ne_of_gt (Nat.lt_of_le_of_lt (Nat.zero_le _) hk))
    rw [List.mem_cons, not_or] at hnl
    have hx : x ≠ 0 := fun h0 => h.text (h0 ▸ List.mem_cons_self)
    rw [strchr, Str.head h, if_neg hx, if_neg (Ne.symm hnl.1), ih h.tail hnl.2 (Nat.lt_of_succ_lt_succ hk),
      List.length_cons, Nat.add_assoc, Nat.add_comm 1]

/-- The line, once its newline is overwritten. -/
theorem cutLine (h : Str b p (l ++ nl :: t)) : Str (Function.update b (p + l.length) 0) p l := by
  refine ⟨fun i hi => ?_, Function.update_self .., fun h0 => h.text (List.mem_append_left _ h0)⟩
  rw [Function.update_of_ne (by omega), h.byte i (by rw [List.length_append]; omega),
    List.getD_append _ _ _ _ hi]

/-- What follows the line is not touched. -/
theorem afterLine (h : Str b p (l ++ nl :: t)) {b' : Nat → BitVec 8}
    (hb : ∀ i, p + l.length < i → b' i = b i) : Str b' (p + l.length + 1) t := by
  refine ⟨fun i hi => ?_, ?_, fun h0 => h.text (List.mem_append_right _ (List.mem_cons_of_mem _ h0))⟩
  · have hlen : l.length + 1 + i < (l ++ nl :: t).length := by
      rw [List.length_append, List.length_cons]
      omega
    rw [hb _ (by omega), show p + l.length + 1 + i = p + (l.length + 1 + i) by omega, h.byte _ hlen,
      List.getD_append_right _ _ _ _ (by omega), show l.length + 1 + i - l.length = i + 1 by omega,
      List.getD_cons_succ]
  · have := h.nul
    rw [List.length_append, List.length_cons] at this
    rw [hb _ (by omega), show p + l.length + 1 + t.length = p + (l.length + (t.length + 1)) by omega, this]

theorem bytesAt_line (h : Str b p (l ++ nl :: t)) (b' : Nat → BitVec 8)
    (hb : ∀ i, p ≤ i → i ≤ p + l.length → b' i = b i) : bytesAt b' p (p + l.length + 1 - p) = l ++ [nl] := by
  rw [show p + l.length + 1 - p = l.length + 1 by omega]
  unfold bytesAt
  refine List.ext_getElem (by simp) fun i hi hi' => ?_
  rw [List.length_map, List.length_range] at hi
  rw [List.getElem_map, List.getElem_range, hb _ (by omega) (by omega), h.byte i (by
    rw [List.length_append, List.length_cons]
    omega), ← List.getD_eq_getElem _ 0 hi']
  by_cases hlt : i < l.length
  · rw [List.getD_append _ _ _ _ hlt, List.getD_append _ _ _ _ hlt]
  · rw [List.getD_append_right _ _ _ _ (Nat.le_of_not_lt hlt), List.getD_append_right _ _ _ _ (Nat.le_of_not_lt hlt),
      show i - l.length = 0 by omega]
    rfl

/-- The loop writes the lines that match, and stops at the rest. -/
theorem lineLoop_spec (pattern : List (BitVec 8)) : ∀ (k : Nat) (b : Nat → BitVec 8) (p : Nat) (t : List (BitVec 8)),
    Str b p t → p + t.length < BUF → t.length < k →
    (lineLoop pattern k b p).2.2 = unlines ((cut t).1.filter (matchText pattern)) ∧
    (lineLoop pattern k b p).2.1 + (cut t).2.length = p + t.length ∧
    Str (lineLoop pattern k b p).1 (lineLoop pattern k b p).2.1 (cut t).2 := by
  intro k
  induction k with
  | zero => exact fun _ _ t _ _ hk => absurd hk (Nat.not_lt_zero _)
  | succ k ih =>
    intro b p t h hbuf hk
    rw [lineLoop]
    by_cases hmem : nl ∈ t
    · obtain ⟨l, u, hl, rfl⟩ := exists_line hmem
      rw [List.length_append, List.length_cons] at hbuf hk
      rw [strchr_line h hl (by omega), cut_line hl]
      dsimp only
      rw [cstr_of_str (cutLine h) (by omega), List.filter_cons]
      split
      · next hm =>
        -- The newline is put back before the line is written.
        have hsame : ∀ i, Function.update (Function.update b (p + l.length) 0) (p + l.length) nl i = b i := by
          intro i
          by_cases hi : i = p + l.length
          · rw [hi, Function.update_self, h.byte _ (by rw [List.length_append, List.length_cons]; omega),
              List.getD_append_right _ _ _ _ (Nat.le_refl _), Nat.sub_self]
            rfl
          · rw [Function.update_of_ne hi, Function.update_of_ne hi]
        obtain ⟨hout, hlen, hstr⟩ := ih _ _ u (afterLine h fun i _ => hsame i) (by omega) (by omega)
        refine ⟨?_, ?_, hstr⟩
        · rw [hout, bytesAt_line h _ fun i _ _ => hsame i, unlines_cons, List.append_assoc, List.singleton_append]
        · rw [hlen, List.length_append, List.length_cons]
          omega
      · next hm =>
        have hafter : Str (Function.update b (p + l.length) 0) (p + l.length + 1) u :=
          afterLine h fun i hi => Function.update_of_ne (Nat.ne_of_gt hi) ..
        obtain ⟨hout, hlen, hstr⟩ := ih _ _ u hafter (by omega) (by omega)
        refine ⟨hout, ?_, hstr⟩
        rw [hlen, List.length_append, List.length_cons]
        omega
    · rw [strchr_none h hmem, cut_of_not_mem hmem]
      exact ⟨rfl, rfl, h⟩

/-- The carried part of a line. -/
structure Holds (s : State) (r : List (BitVec 8)) : Prop where
  m : s.m = r.length
  byte : ∀ i, i < r.length → s.buf i = r.getD i 0

/-- What one read does: the lines that match are written, and the rest is carried over if there was
a line, and dropped if not. -/
theorem step_spec {s : State} (pattern : List (BitVec 8)) (h : Holds s r) (hr : nl ∉ r) (htext : 0 ∉ r ++ c) (hfit : r.length + c.length < BUF) :
    (step pattern s c).2 = unlines ((cut (r ++ c)).1.filter (matchText pattern)) ∧
    Holds (step pattern s c).1 (if nl ∈ c then (cut (r ++ c)).2 else []) := by
  have hstr : Str (Function.update (fun i => if s.m ≤ i ∧ i < s.m + c.length then c.getD (i - s.m) 0 else s.buf i)
      (s.m + c.length) 0) 0 (r ++ c) := by
    refine ⟨fun i hi => ?_, ?_, htext⟩
    · rw [List.length_append, ← h.m] at hi
      rw [Nat.zero_add, Function.update_of_ne (Nat.ne_of_lt hi)]
      by_cases hlt : i < s.m
      · rw [if_neg (by omega), h.byte i (h.m ▸ hlt), List.getD_append _ _ _ _ (h.m ▸ hlt)]
      · rw [if_pos ⟨Nat.le_of_not_lt hlt, hi⟩, h.m,
          List.getD_append_right _ _ _ _ (h.m ▸ Nat.le_of_not_lt hlt)]
    · rw [List.length_append, Nat.zero_add, ← h.m]
      exact Function.update_self ..
  have hlen : (r ++ c).length = r.length + c.length := List.length_append
  obtain ⟨hout, hp, hrest⟩ := lineLoop_spec pattern BUF _ 0 (r ++ c) hstr (by omega) (by omega)
  rw [Nat.zero_add, hlen] at hp
  unfold step
  dsimp only
  generalize lineLoop pattern BUF _ 0 = res at *
  by_cases hmem : nl ∈ c
  · have hlines : (cut (r ++ c)).2.length < r.length + c.length := by
      obtain ⟨l, u, -, he⟩ := exists_line (List.mem_append_right r hmem)
      have hcut := congrArg List.length (unlines_cut (r ++ c))
      rw [List.length_append, hlen] at hcut
      have hne : (cut (r ++ c)).1 ≠ [] := by
        intro hnil
        have heq := unlines_cut (r ++ c)
        rw [hnil] at heq
        have hno := not_mem_cut (r ++ c)
        rw [show (cut (r ++ c)).2 = r ++ c from heq] at hno
        exact hno (List.mem_append_right r hmem)
      obtain ⟨l, ls, hcons⟩ := List.exists_cons_of_ne_nil hne
      rw [hcons, unlines_cons, List.length_append, List.length_cons] at hcut
      omega
    have hpos : res.2.1 ≠ 0 := by omega
    have hm : 0 < s.m + c.length := by
      rw [h.m]
      omega
    rw [if_neg hpos, if_pos hm, if_pos hmem]
    refine ⟨hout, ?_, fun i hi => ?_⟩
    · change s.m + c.length - res.2.1 = _
      rw [h.m]
      omega
    · change (if i < s.m + c.length - res.2.1 then res.1 (res.2.1 + i) else res.1 i) = _
      rw [if_pos (by rw [h.m]; omega), hrest.byte i hi]
  · have hnone : nl ∉ r ++ c := fun hc => (List.mem_append.1 hc).elim hr hmem
    rw [cut_of_not_mem hnone] at hout hp
    rw [hlen] at hp
    have hzero : res.2.1 = 0 := by omega
    rw [if_pos hzero, if_neg (Nat.lt_irrefl 0), if_neg hmem, cut_of_not_mem hnone]
    exact ⟨hout, rfl, fun i hi => absurd hi (Nat.not_lt_zero i)⟩

/-! ## All reads -/

theorem Offered.fits {s : State} {cs : List (List (BitVec 8))} (h : Offered pattern s (c :: cs)) (hs : Holds s r) :
    r.length + c.length < BUF := by
  obtain ⟨hpos, hle, -⟩ := h
  rw [hs.m] at hle
  omega

/-- With a newline in every read, the output is that of the whole text. -/
theorem grep_of_newlines : ∀ (cs : List (List (BitVec 8))) (s : State) (r : List (BitVec 8)), Holds s r → nl ∉ r →
    0 ∉ r ++ cs.flatten → Offered pattern s cs → (∀ c ∈ cs, nl ∈ c) →
    grep pattern s cs = unlines ((cut (r ++ cs.flatten)).1.filter (matchText pattern))
  | [], s, r, _, hr, _, _, _ => by
    rw [List.flatten_nil, List.append_nil, cut_of_not_mem hr]
    rfl
  | c :: cs, s, r, h, hr, htext, hoff, hnl => by
    rw [List.flatten_cons, ← List.append_assoc] at htext ⊢
    rw [List.forall_mem_cons] at hnl
    obtain ⟨hout, hnext⟩ := step_spec pattern h hr (fun h0 => htext (List.mem_append_left _ h0)) (hoff.fits h)
    rw [if_pos hnl.1] at hnext
    have hrest : 0 ∉ (cut (r ++ c)).2 ++ cs.flatten := by
      rw [← unlines_cut (r ++ c), List.append_assoc] at htext
      exact fun h0 => htext (List.mem_append_right _ h0)
    rw [grep, hout, grep_of_newlines cs _ _ hnext (not_mem_cut _) hrest hoff.2.2 hnl.2, cut_append (r ++ c),
      List.filter_append, unlines_append]

theorem matchText_nil (text : List (BitVec 8)) : matchText [] text = true := by
  cases text with
  | nil => rfl
  | cons x text => rfl

/-- The empty pattern writes what is not dropped. -/
theorem length_grep_nil : ∀ (cs : List (List (BitVec 8))) (s : State) (r : List (BitVec 8)), Holds s r → nl ∉ r →
    0 ∉ r ++ cs.flatten → Offered [] s cs →
    (grep [] s cs).length ≤ r.length + cs.flatten.length ∧
      ((∃ c ∈ cs, nl ∉ c) → (grep [] s cs).length < r.length + cs.flatten.length)
  | [], _, _, _, _, _, _ => ⟨Nat.zero_le _, fun ⟨_, hc, _⟩ => absurd hc List.not_mem_nil⟩
  | c :: cs, s, r, h, hr, htext, hoff => by
    rw [List.flatten_cons, ← List.append_assoc] at htext
    obtain ⟨hout, hnext⟩ := step_spec [] h hr (fun h0 => htext (List.mem_append_left _ h0)) (hoff.fits h)
    have hall : (cut (r ++ c)).1.filter (matchText []) = (cut (r ++ c)).1 :=
      List.filter_eq_self.2 fun l _ => matchText_nil l
    have hcut := congrArg List.length (unlines_cut (r ++ c))
    rw [List.length_append, List.length_append] at hcut
    rw [hall] at hout
    rw [grep, hout, List.length_append, List.flatten_cons, List.length_append]
    by_cases hmem : nl ∈ c
    · rw [if_pos hmem] at hnext
      have hrest : 0 ∉ (cut (r ++ c)).2 ++ cs.flatten := by
        rw [← unlines_cut (r ++ c), List.append_assoc] at htext
        exact fun h0 => htext (List.mem_append_right _ h0)
      obtain ⟨hle, hlt⟩ := length_grep_nil cs _ _ hnext (not_mem_cut _) hrest hoff.2.2
      refine ⟨by omega, ?_⟩
      rintro ⟨d, hd, hdnl⟩
      rcases List.mem_cons.1 hd with rfl | hd
      · exact absurd hmem hdnl
      · have := hlt ⟨d, hd, hdnl⟩
        omega
    · rw [if_neg hmem] at hnext
      have hnone : nl ∉ r ++ c := fun hc => (List.mem_append.1 hc).elim hr hmem
      have hpos := hoff.1
      obtain ⟨hle, -⟩ := length_grep_nil cs _ _ hnext List.not_mem_nil
        (fun h0 => htext (List.mem_append_right _ h0)) hoff.2.2
      rw [cut_of_not_mem hnone, show unlines [] = [] from rfl, List.length_nil]
      rw [List.length_nil] at hle
      exact ⟨by omega, fun _ => by omega⟩

/-- For a text of lines in any reads: every pattern gets its lines exactly when each read brings a
newline. -/
theorem grep_lines_iff (b : Nat → BitVec 8) (lines chunks : List (List (BitVec 8)))
    (hlines : ∀ l ∈ lines, nl ∉ l ∧ 0 ∉ l) (hchunks : chunks.flatten = unlines lines)
    (hread : ∀ pattern, Offered pattern ⟨b, 0⟩ chunks) :
    (∀ pattern, grep pattern ⟨b, 0⟩ chunks = unlines (lines.filter (matchText pattern))) ↔
      ∀ c ∈ chunks, nl ∈ c := by
  have hstart : Holds ⟨b, 0⟩ [] := ⟨rfl, fun i hi => absurd hi (Nat.not_lt_zero i)⟩
  have htext : 0 ∉ [] ++ chunks.flatten := by
    rw [List.nil_append, hchunks]
    intro h0
    obtain ⟨l, hl, h0⟩ := List.mem_flatMap.1 h0
    rcases List.mem_append.1 h0 with h0 | h0
    · exact (hlines l hl).2 h0
    · exact absurd (List.mem_singleton.1 h0) (by decide)
  constructor
  · intro hall c hc
    by_contra hnl
    have hshort := (length_grep_nil chunks _ [] hstart List.not_mem_nil htext (hread [])).2 ⟨c, hc, hnl⟩
    rw [hall [], List.filter_eq_self.2 fun l _ => matchText_nil l, List.length_nil, Nat.zero_add, hchunks] at hshort
    exact Nat.lt_irrefl _ hshort
  · intro hnl pattern
    have hcut := cut_unlines_append (t := []) fun l hl => (hlines l hl).1
    rw [List.append_nil] at hcut
    rw [grep_of_newlines chunks _ [] hstart List.not_mem_nil htext (hread pattern) hnl, List.nil_append, hchunks, hcut]
    exact congrArg (fun ls => unlines (ls.filter (matchText pattern))) (List.append_nil lines)

/-- Two reads of a line `ab`: the first is dropped, and the pattern `a` is not found. -/
theorem grep_drops_read : grep [97] ⟨fun _ => 0, 0⟩ [[97], [98, nl]] = [] ∧
    Offered [97] ⟨fun _ => 0, 0⟩ [[97], [98, nl]] ∧
    unlines ([[97, 98]].filter (matchText [97])) = [97, 98, nl] := by
  refine ⟨by decide, ?_, by decide⟩
  simp only [Offered]
  decide

/-- Two reads that end inside the second line. -/
theorem grep_two_reads : grep [98] ⟨fun _ => 0, 0⟩ [[97, nl, 97], [98, nl]] = [97, 98, nl] := by
  have hread : ∀ pattern, Offered pattern ⟨fun _ => 0, 0⟩ [[97, nl, 97], [98, nl]] := by
    intro pattern
    have hstart : Holds ⟨fun _ => 0, 0⟩ [] := ⟨rfl, fun i hi => absurd hi (Nat.not_lt_zero i)⟩
    have hstep := (step_spec pattern (c := [97, nl, 97]) hstart (by decide) (by decide) (by decide)).2
    simp only [Offered]
    refine ⟨by decide, by decide, by decide, ?_, trivial⟩
    rw [hstep.m]
    decide
  exact (grep_lines_iff (fun _ => 0) [[97], [97, 98]] [[97, nl, 97], [98, nl]] (by decide) (by decide) hread).2
    (by decide) [98]

end Xv6.Grep
