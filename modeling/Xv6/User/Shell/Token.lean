import Mathlib.Data.List.GetD
import Mathlib.Data.List.TakeDrop
import Mathlib.Data.List.TakeWhile
import Xv6.Lib.Wp

/-!
# The tokens of a command line

`gettoken` and `peek` move a cursor over the line. `lex` reads a text from left to right, and `At`
says which tokens are ahead of the cursor; `gettoken_at` and `peek_at` are all that the parser needs
of the two functions.
-/

namespace Xv6.Sh

open Lib

abbrev bar : BitVec 8 := 124
abbrev lpar : BitVec 8 := 40
abbrev rpar : BitVec 8 := 41
abbrev semi : BitVec 8 := 59
abbrev amp : BitVec 8 := 38
abbrev lt : BitVec 8 := 60
abbrev gt : BitVec 8 := 62
/-- The plus sign, returned for two greater-than signs. -/
abbrev plus : BitVec 8 := 43
/-- The letter a, returned for a word. -/
abbrev word : BitVec 8 := 97

/-- Space, tab, carriage return, newline, vertical tab. -/
def whitespace : List (BitVec 8) := [32, 9, 13, 10, 11]

def symbols : List (BitVec 8) := [lt, bar, gt, amp, semi, lpar, rpar]

/-- Whether `c` is in a string; a NUL never is. -/
def strchr (t : List (BitVec 8)) (c : BitVec 8) : Bool := t.contains c

/-- A line, without the NUL that ends it. Pointers into it are offsets. -/
structure Line where
  text : List (BitVec 8)
  nul : 0 ∉ text

namespace Line

variable (l : Line)

def es : Nat := l.text.length

/-- The byte that `s` points to. -/
def byte (s : Nat) : BitVec 8 := l.text.getD s 0

/-- The loop `while(s < es && p(*s)) s++`, with `k` characters to go until `es`. -/
def scan (p : BitVec 8 → Bool) : Nat → Nat → Nat
  | 0, s => s
  | k + 1, s => if s < l.es ∧ p (l.byte s) = true then scan p k (s + 1) else s

def skip (s : Nat) : Nat := l.scan (strchr whitespace) (l.es - s) s

end Line

/-- The characters of words. -/
def wordChar (c : BitVec 8) : Bool := !strchr whitespace c && !strchr symbols c

/-- The monad of the parser: the state is the cursor. -/
abbrev P (α : Type) : Type := Prog Nat α

variable (l : Line)

local instance lawfulBEq_byte : LawfulBEq (BitVec 8) := inferInstance

/-- The switch of `gettoken`: the token at `s` and where it ends. -/
def tokenAt (s : Nat) : BitVec 8 × Nat :=
  if l.byte s = 0 then (0, s)
  else if l.byte s ∈ [bar, lpar, rpar, semi, amp, lt] then (l.byte s, s + 1)
  else if l.byte s = gt then if l.byte (s + 1) = gt then (plus, s + 2) else (gt, s + 1)
  else (word, l.scan wordChar (l.es - s) s)

/-- The token, and where it is. -/
def gettoken : P (BitVec 8 × Nat × Nat) :=
  modifyGet fun s =>
    let q := l.skip s
    let (ret, eq) := tokenAt l q
    ((ret, q, eq), l.skip eq)

def peek (toks : List (BitVec 8)) : P Bool :=
  modifyGet fun s =>
    let s := l.skip s
    (decide (l.byte s ≠ 0) && strchr toks (l.byte s), s)

/-! ## Tokens -/

inductive Op where
  | bar | lpar | rpar | semi | amp | lt | gt | gtgt
  deriving DecidableEq, Repr

namespace Op

/-- The first character. -/
def char : Op → BitVec 8
  | bar => Sh.bar
  | lpar => Sh.lpar
  | rpar => Sh.rpar
  | semi => Sh.semi
  | amp => Sh.amp
  | lt => Sh.lt
  | gt | gtgt => Sh.gt

/-- What `gettoken` returns. -/
def code : Op → BitVec 8
  | gtgt => plus
  | o => o.char

end Op

/-- The operators of one character. -/
def opOf (c : BitVec 8) : Option Op := [Op.bar, .lpar, .rpar, .semi, .amp, .lt].find? (·.char = c)

inductive Tok where
  | op (o : Op)
  | word (q eq : Nat)
  deriving DecidableEq, Repr

/-- The tokens of a text that starts at `p`. -/
def lex : Nat → List (BitVec 8) → List Tok
  | _, [] => []
  | p, c :: cs =>
    if strchr whitespace c then lex (p + 1) cs
    else if c = gt then
      if cs.head? = some gt then .op .gtgt :: lex (p + 2) cs.tail else .op .gt :: lex (p + 1) cs
    else match opOf c with
      | some o => .op o :: lex (p + 1) cs
      | none =>
        let n := (cs.takeWhile wordChar).length
        .word p (p + 1 + n) :: lex (p + 1 + n) (cs.drop n)
  termination_by _ cs => cs.length
  decreasing_by all_goals simp only [List.length_cons, List.length_tail, List.length_drop]; omega

def Line.tokens : List Tok := lex 0 l.text

/-- The tokens `ts` are ahead of the cursor `s`. -/
structure At (s : Nat) (ts : List Tok) : Prop where
  le : s ≤ l.es
  lex : lex s (l.text.drop s) = ts

variable {l} {s : Nat} {c : BitVec 8} {r : List (BitVec 8)} {ts : List Tok}

theorem byte_of_drop (h : l.text.drop s = c :: r) : s < l.es ∧ l.byte s = c ∧ l.text.drop (s + 1) = r := by
  have hlt : s < l.text.length := by
    by_contra hge
    rw [List.drop_eq_nil_of_le (Nat.le_of_not_lt hge)] at h
    cases h
  rw [List.drop_eq_getElem_cons hlt] at h
  obtain ⟨hc, hr⟩ := List.cons.inj h
  exact ⟨hlt, (List.getD_eq_getElem _ _ hlt).trans hc, hr⟩

theorem byte_of_nil (h : l.text.drop s = []) : l.byte s = 0 :=
  List.getD_eq_default _ _ (List.drop_eq_nil_iff.1 h)

theorem scan_eq (p : BitVec 8 → Bool) : ∀ (r : List (BitVec 8)) (s : Nat), l.text.drop s = r →
    l.scan p r.length s = s + (r.takeWhile p).length
  | [], s, _ => rfl
  | c :: r, s, h => by
    obtain ⟨hlt, hc, hr⟩ := byte_of_drop h
    rw [List.length_cons, Line.scan, hc]
    by_cases hp : p c = true
    · rw [if_pos ⟨hlt, hp⟩, scan_eq p r (s + 1) hr, List.takeWhile_cons_of_pos hp, List.length_cons]
      omega
    · rw [if_neg fun h => hp h.2, List.takeWhile_cons_of_neg hp]
      rfl

theorem scan_drop (p : BitVec 8 → Bool) (s : Nat) :
    l.scan p (l.es - s) s = s + ((l.text.drop s).takeWhile p).length := by
  have h := scan_eq p _ s (rfl : l.text.drop s = _)
  rwa [List.length_drop] at h

theorem skip_eq (s : Nat) : l.skip s = s + ((l.text.drop s).takeWhile (strchr whitespace)).length := scan_drop _ s

/-- White space before a token does not matter. -/
theorem lex_space (p : Nat) : ∀ r : List (BitVec 8), lex p r =
    lex (p + (r.takeWhile (strchr whitespace)).length) (r.drop (r.takeWhile (strchr whitespace)).length) := by
  intro r
  induction r generalizing p with
  | nil => rfl
  | cons c r ih =>
    by_cases hc : strchr whitespace c = true
    · rw [List.takeWhile_cons_of_pos hc, List.length_cons, List.drop_succ_cons, Nat.add_comm _ 1, ← Nat.add_assoc,
        ← ih (p + 1), lex, if_pos hc]
    · rw [List.takeWhile_cons_of_neg hc]
      rfl

theorem drop_takeWhile_head (p : BitVec 8 → Bool) : ∀ {r : List (BitVec 8)} {c : BitVec 8} {r' : List (BitVec 8)},
    r.drop (r.takeWhile p).length = c :: r' → p c = false := by
  intro r
  induction r with
  | nil => exact fun h => nomatch h
  | cons x r ih =>
    intro c r' h
    by_cases hx : p x = true
    · rw [List.takeWhile_cons_of_pos hx, List.length_cons, List.drop_succ_cons] at h
      exact ih h
    · rw [List.takeWhile_cons_of_neg hx] at h
      obtain rfl := (List.cons.inj h).1
      exact Bool.eq_false_iff.2 hx

theorem skip_at (h : At l s ts) : At l (l.skip s) ts ∧
    ∀ c r, l.text.drop (l.skip s) = c :: r → strchr whitespace c = false := by
  have hle := (List.takeWhile_prefix (strchr whitespace) (l := l.text.drop s)).length_le
  rw [List.length_drop] at hle
  have hs := h.le
  unfold Line.es at hs
  rw [skip_eq]
  refine ⟨⟨by unfold Line.es; omega, ?_⟩, fun c r hd => ?_⟩
  · rw [← List.drop_drop, ← lex_space, h.lex]
  · rw [← List.drop_drop] at hd
    exact drop_takeWhile_head _ hd

theorem opOf_some {o : Op} (h : opOf c = some o) :
    c ∈ [bar, lpar, rpar, semi, amp, lt] ∧ o.char = c ∧ o.code = c := by
  have hfound := List.find?_some h
  have hchar : o.char = c := of_decide_eq_true hfound
  have hmem := List.mem_of_find?_eq_some h
  subst hchar
  revert hmem
  cases o <;> decide

theorem opOf_none (h : opOf c = none) : c ∉ [bar, lpar, rpar, semi, amp, lt] := by
  intro hc
  have hall := List.find?_eq_none.1 h
  simp only [List.mem_cons, List.not_mem_nil, or_false] at hc
  rcases hc with rfl | rfl | rfl | rfl | rfl | rfl
  all_goals revert hall; decide

theorem wordChar_of (hspace : strchr whitespace c = false) (hgt : c ≠ gt) (hop : opOf c = none) : wordChar c = true := by
  have hnot := opOf_none hop
  have hsym : c ∉ symbols := by
    intro hm
    simp only [symbols, List.mem_cons, List.not_mem_nil, or_false, not_or] at hm hnot
    tauto
  have hstr : strchr symbols c = false := (List.contains_eq_mem ..).trans (decide_eq_false hsym)
  unfold wordChar
  rw [hspace, hstr]
  rfl

theorem byte_ne_zero (h : l.text.drop s = c :: r) : c ≠ 0 := by
  rintro rfl
  exact l.nul (List.mem_of_mem_drop (h ▸ List.mem_cons_self))

/-- The first of these tokens starts at `s`. -/
def Found (l : Line) (s : Nat) : List Tok → Prop
  | [] => tokenAt l s = (0, s) ∧ s = l.es
  | .op o :: ts => l.byte s = o.char ∧ ∃ eq, tokenAt l s = (o.code, eq) ∧ At l eq ts
  | .word q eq :: ts => q = s ∧ wordChar (l.byte s) = true ∧ tokenAt l s = (word, eq) ∧ At l eq ts

theorem token_at (h : At l s ts) (hspace : ∀ c r, l.text.drop s = c :: r → strchr whitespace c = false) :
    Found l s ts := by
  obtain ⟨hle, hlex⟩ := h
  cases hd : l.text.drop s with
  | nil =>
    rw [hd, lex] at hlex
    subst hlex
    have hes : s = l.es := Nat.le_antisymm hle (List.drop_eq_nil_iff.1 hd)
    exact ⟨if_pos (byte_of_nil hd), hes⟩
  | cons c r =>
    obtain ⟨hlt, hc, hr⟩ := byte_of_drop hd
    have h0 := byte_ne_zero hd
    have hsp := hspace c r hd
    rw [hd, lex, if_neg (Bool.eq_false_iff.1 hsp)] at hlex
    by_cases hgt : c = gt
    · subst hgt
      rw [if_pos rfl] at hlex
      have htok : tokenAt l s = if l.byte (s + 1) = gt then (plus, s + 2) else (gt, s + 1) := by
        unfold tokenAt
        rw [hc, if_neg h0, if_neg (by decide), if_pos rfl]
      by_cases hhead : r.head? = some gt
      · obtain ⟨r', rfl⟩ := List.head?_eq_some_iff.1 hhead
        obtain ⟨hlt', hc', hr'⟩ := byte_of_drop hr
        rw [if_pos hhead] at hlex
        rw [← hlex]
        refine ⟨hc, s + 2, htok.trans (if_pos hc'), hlt', ?_⟩
        rw [hr']
        rfl
      · have hc' : l.byte (s + 1) ≠ gt := by
          cases r with
          | nil =>
            rw [byte_of_nil hr]
            decide
          | cons x r' => exact fun hx => hhead (congrArg some ((byte_of_drop hr).2.1.symm.trans hx))
        rw [if_neg hhead] at hlex
        rw [← hlex]
        refine ⟨hc, s + 1, htok.trans (if_neg hc'), hlt, ?_⟩
        rw [hr]
    · rw [if_neg hgt] at hlex
      cases hop : opOf c with
      | some o =>
        obtain ⟨hmem, hchar, hcode⟩ := opOf_some hop
        rw [hop] at hlex
        subst hlex
        refine ⟨hc.trans hchar.symm, s + 1, ?_, hlt, ?_⟩
        · unfold tokenAt
          rw [hc, if_neg h0, if_pos hmem, hcode]
        · rw [hr]
      | none =>
        rw [hop] at hlex
        subst hlex
        have hw := wordChar_of hsp hgt hop
        refine ⟨rfl, hc ▸ hw, ?_, ?_, ?_⟩
        · unfold tokenAt
          rw [hc, if_neg h0, if_neg (opOf_none hop), if_neg hgt, scan_drop, hd, List.takeWhile_cons_of_pos hw, List.length_cons]
          congr 1
          omega
        · have := (List.takeWhile_prefix wordChar (l := r)).length_le
          have := congrArg List.length hr
          rw [List.length_drop] at this
          unfold Line.es at *
          omega
        · rw [← List.drop_drop, hr]

/-- The code of the first token. -/
def codeOf : List Tok → BitVec 8
  | [] => 0
  | .op o :: _ => o.code
  | .word .. :: _ => word

/-- Whether the first token is an operator that starts with one of `toks`. -/
def starts (toks : List (BitVec 8)) : List Tok → Bool
  | .op o :: _ => strchr toks o.char
  | _ => false

theorem gettoken_at (h : At l s ts) : ∃ q eq s', gettoken l s = .ok ((codeOf ts, q, eq), s') ∧ At l s' ts.tail ∧
    ∀ q' eq' ts', ts = .word q' eq' :: ts' → q = q' ∧ eq = eq' := by
  obtain ⟨hat, hspace⟩ := skip_at h
  have htok := token_at hat hspace
  have hget : ∀ {ret eq}, tokenAt l (l.skip s) = (ret, eq) →
      gettoken l s = .ok ((ret, l.skip s, eq), l.skip eq) := by
    intro ret eq he
    change Except.ok (((tokenAt l (l.skip s)).1, l.skip s, (tokenAt l (l.skip s)).2),
      l.skip (tokenAt l (l.skip s)).2) = _
    rw [he]
  match ts, htok, hat with
  | [], ⟨htok, hes⟩, hat => exact ⟨_, _, _, hget htok, (skip_at hat).1, fun _ _ _ h => nomatch h⟩
  | .op o :: ts, ⟨_, eq, htok, hat'⟩, _ => exact ⟨_, _, _, hget htok, (skip_at hat').1, fun _ _ _ h => nomatch h⟩
  | .word q eq :: ts, ⟨hq, _, htok, hat'⟩, _ =>
    refine ⟨_, _, _, hget htok, (skip_at hat').1, fun q' eq' ts' he => ?_⟩
    cases he
    exact ⟨hq.symm, rfl⟩

theorem peek_at {toks : List (BitVec 8)} (htoks : ∀ c ∈ toks, c ∈ symbols) (h : At l s ts) :
    ∃ s', peek l toks s = .ok (starts toks ts, s') ∧ At l s' ts := by
  obtain ⟨hat, hspace⟩ := skip_at h
  have htok := token_at hat hspace
  have hpeek : ∀ {x}, (decide (l.byte (l.skip s) ≠ 0) && strchr toks (l.byte (l.skip s))) = x →
      peek l toks s = .ok (x, l.skip s) := by
    rintro x rfl
    rfl
  refine ⟨l.skip s, hpeek ?_, hat⟩
  match ts, htok, hat with
  | [], ⟨htok, hes⟩, _ =>
    rw [hes, byte_of_nil (List.drop_eq_nil_of_le (Nat.le_refl l.es))]
    rfl
  | .op o :: ts, ⟨hbyte, _⟩, _ =>
    have h0 : o.char ≠ 0 := by cases o <;> decide
    rw [hbyte, decide_eq_true h0]
    rfl
  | .word q eq :: ts, ⟨_, hword, _⟩, _ =>
    -- A word does not start with a symbol.
    have hnot : strchr toks (l.byte (l.skip s)) = false := by
      refine (List.contains_eq_mem ..).trans (decide_eq_false fun hm => ?_)
      have hsym : strchr symbols (l.byte (l.skip s)) = true := List.contains_iff_mem.2 (htoks _ hm)
      unfold wordChar at hword
      rw [hsym, Bool.and_comm] at hword
      cases hword
    rw [hnot, Bool.and_false]
    rfl

/-- Each token takes a character at least. -/
theorem length_lex_le (p : Nat) (r : List (BitVec 8)) : (lex p r).length ≤ r.length := by
  fun_induction lex p r with
  | case1 => exact Nat.le_refl _
  | case2 p c cs hspace ih => exact Nat.le_succ_of_le ih
  | case3 p cs hhead hspace ih =>
    have htail := cs.length_tail
    rw [List.length_cons, List.length_cons]
    omega
  | case4 p cs hhead hspace ih => exact Nat.succ_le_succ ih
  | case5 p c cs hspace hgt o hop ih => exact Nat.succ_le_succ ih
  | case6 p c cs hspace hgt hop n ih =>
    rw [List.length_drop] at ih
    exact Nat.succ_le_succ (ih.trans (Nat.sub_le ..))

theorem length_at (h : At l s ts) : ts.length ≤ l.es := by
  have hle := length_lex_le s (l.text.drop s)
  rw [h.lex, List.length_drop] at hle
  exact hle.trans (Nat.sub_le ..)

theorem at_start (l : Line) : At l 0 l.tokens := ⟨Nat.zero_le _, rfl⟩

end Xv6.Sh
