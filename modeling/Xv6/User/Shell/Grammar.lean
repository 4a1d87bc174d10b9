import Mathlib.Logic.Function.Iterate
import Xv6.User.Shell.Parse

/-!
# The grammar of the shell

`Derives` is the grammar, with the tree of each derivation. What the parser returns is derivable
(`parseline_wp`, which also says that it always returns or panics), and what is derivable it returns
(`parse_complete`).
-/

namespace Xv6.Sh

open Lib

namespace Op

def isRedir : Op → Bool
  | lt | gt | gtgt => true
  | _ => false

def mode : Op → Nat
  | lt => O_RDONLY
  | _ => O_WRONLY ||| O_CREATE

def fd : Op → Nat
  | lt => 0
  | _ => 1

end Op

structure Redir where
  op : Op
  q : Nat
  eq : Nat

/-- Later redirections are outermost. -/
def wrap (rs : List Redir) (cmd : Cmd) : Cmd :=
  rs.foldl (fun cmd r => .redir cmd r.q r.eq r.op.mode r.op.fd) cmd

/-- `redir*`. -/
inductive Redirs : List Tok → List Redir → Prop
  | nil : Redirs [] []
  | cons {o : Op} {q eq : Nat} {ts : List Tok} {rs : List Redir} (ho : o.isRedir = true) (h : Redirs ts rs) :
      Redirs (.op o :: .word q eq :: ts) (⟨o, q, eq⟩ :: rs)

/-- `(word redir*)*`. -/
inductive Words : List Tok → List (Nat × Nat) → List Redir → Prop
  | nil : Words [] [] []
  | cons {q eq : Nat} {ts ts' : List Tok} {rs rs' : List Redir} {ws : List (Nat × Nat)} (h : Redirs ts rs)
      (h' : Words ts' ws rs') : Words (.word q eq :: (ts ++ ts')) ((q, eq) :: ws) (rs ++ rs')

inductive Nonterminal where
  | line | pipe | exec

inductive Derives : Nonterminal → List Tok → Cmd → Prop
  | line {ts : List Tok} {cmd : Cmd} (n : Nat) (h : Derives .pipe ts cmd) :
      Derives .line (ts ++ List.replicate n (.op .amp)) (Cmd.back^[n] cmd)
  | list {ts ts' : List Tok} {cmd right : Cmd} (n : Nat) (h : Derives .pipe ts cmd) (h' : Derives .line ts' right) :
      Derives .line (ts ++ (List.replicate n (.op .amp) ++ .op .semi :: ts')) (.list (Cmd.back^[n] cmd) right)
  | one {ts : List Tok} {cmd : Cmd} (h : Derives .exec ts cmd) : Derives .pipe ts cmd
  | pipe {ts ts' : List Tok} {cmd right : Cmd} (h : Derives .exec ts cmd) (h' : Derives .pipe ts' right) :
      Derives .pipe (ts ++ .op .bar :: ts') (.pipe cmd right)
  | block {ts ts' : List Tok} {cmd : Cmd} {rs : List Redir} (h : Derives .line ts cmd) (h' : Redirs ts' rs) :
      Derives .exec (.op .lpar :: (ts ++ .op .rpar :: ts')) (wrap rs cmd)
  | exec {ts ts' : List Tok} {ws : List (Nat × Nat)} {rs rs' : List Redir} (h : Redirs ts rs) (h' : Words ts' ws rs')
      (hmax : ws.length < MAXARGS) : Derives .exec (ts ++ ts') (wrap (rs ++ rs') (.exec ws))

/-- The texts that the parser panics with. -/
def IsPanic (m : String) : Prop :=
  m ∈ ["syntax", "missing file for redirection", "parseblock", "syntax - missing )", "too many args"]

theorem panic_syntax : IsPanic "syntax" := .head _

theorem panic_file : IsPanic "missing file for redirection" := .tail _ (.head _)

theorem panic_rpar : IsPanic "syntax - missing )" := .tail _ (.tail _ (.tail _ (.head _)))

theorem panic_args : IsPanic "too many args" := .tail _ (.tail _ (.tail _ (.tail _ (.head _))))

/-! ## Reading a token -/

theorem Op.char_mem (o : Op) : o.char ∈ symbols := by cases o <;> decide

theorem op_symbols (o : Op) : ∀ c ∈ [o.char], c ∈ symbols := List.forall_mem_singleton.2 o.char_mem

theorem redir_symbols : ∀ c ∈ [lt, gt], c ∈ symbols :=
  List.forall_mem_cons.2 ⟨Op.lt.char_mem, op_symbols .gt⟩

theorem end_symbols : ∀ c ∈ [bar, rpar, amp, semi], c ∈ symbols :=
  List.forall_mem_cons.2 ⟨Op.bar.char_mem, List.forall_mem_cons.2 ⟨Op.rpar.char_mem,
    List.forall_mem_cons.2 ⟨Op.amp.char_mem, op_symbols .semi⟩⟩⟩

variable {l : Line} {s : Nat} {ts : List Tok} {E : String → Prop}

theorem peek_wp {toks : List (BitVec 8)} (htoks : ∀ c ∈ toks, c ∈ symbols) {Q : Bool → Nat → Prop} (h : At l s ts)
    (hQ : ∀ s', At l s' ts → Q (starts toks ts) s') : wp (peek l toks) E Q s := by
  obtain ⟨s', hp, hat⟩ := peek_at htoks h
  exact wp_ok hp (hQ s' hat)

theorem gettoken_wp {Q : BitVec 8 × Nat × Nat → Nat → Prop} (h : At l s ts)
    (hQ : ∀ q eq s', At l s' ts.tail → (∀ q' eq' ts', ts = .word q' eq' :: ts' → q = q' ∧ eq = eq') →
      Q (codeOf ts, q, eq) s') : wp (gettoken l) E Q s := by
  obtain ⟨q, eq, s', hg, hat, hw⟩ := gettoken_at h
  exact wp_ok hg (hQ q eq s' hat hw)

theorem starts_true {toks : List (BitVec 8)} (h : starts toks ts = true) : ∃ o r, ts = .op o :: r ∧ o.char ∈ toks := by
  match ts, h with
  | .op o :: r, h => exact ⟨o, r, rfl, List.contains_iff_mem.1 h⟩

theorem Op.eq_of_char {o o' : Op} (ho : o'.isRedir = false) (h : o.char = o'.char) : o = o' := by
  revert ho h
  cases o <;> cases o' <;> decide

/-- The operators that are not redirections are known by their character. -/
theorem starts_op {o : Op} (ho : o.isRedir = false) (h : starts [o.char] ts = true) : ∃ r, ts = .op o :: r := by
  obtain ⟨o', r, rfl, hm⟩ := starts_true h
  obtain rfl := Op.eq_of_char ho (List.mem_singleton.1 hm)
  exact ⟨r, rfl⟩

theorem isRedir_of_char {o : Op} (h : o.char ∈ [lt, gt]) : o.isRedir = true := by
  revert h
  cases o <;> decide

theorem redircmd_code {o : Op} (ho : o.isRedir = true) (cmd : Cmd) (q eq : Nat) :
    redircmd o.code cmd q eq = .redir cmd q eq o.mode o.fd := by
  match o, ho with
  | .lt, _ | .gt, _ | .gtgt, _ => rfl

theorem Op.code_ne (o : Op) : o.code ≠ word ∧ o.code ≠ 0 := by cases o <;> decide

theorem code_eq_word {ts : List Tok} (h : codeOf ts = word) : ∃ q eq r, ts = .word q eq :: r := by
  match ts, h with
  | .word q eq :: r, _ => exact ⟨q, eq, r, rfl⟩
  | .op o :: r, h => exact absurd h o.code_ne.1

theorem code_eq_zero {ts : List Tok} (h : codeOf ts = 0) : ts = [] := by
  match ts, h with
  | [], _ => rfl
  | .op o :: r, h => exact absurd h o.code_ne.2

theorem wrap_append (rs rs' : List Redir) (cmd : Cmd) : wrap (rs ++ rs') cmd = wrap rs' (wrap rs cmd) := List.foldl_append

theorem addArg_wrap (q eq : Nat) (ws : List (Nat × Nat)) : ∀ (rs : List Redir),
    (wrap rs (.exec ws)).addArg q eq = wrap rs (.exec (ws ++ [(q, eq)])) := by
  suffices hgen : ∀ (rs : List Redir) (c d : Cmd), c.addArg q eq = d → (wrap rs c).addArg q eq = wrap rs d from
    fun rs => hgen rs _ _ rfl
  intro rs
  induction rs with
  | nil => exact fun c d h => h
  | cons r rs ih => exact fun c d h => ih _ _ (congrArg (Cmd.redir · r.q r.eq r.op.mode r.op.fd) h)

/-! ## What is returned is derivable -/

theorem parseredirs_wp : ∀ (k s : Nat) (ts : List Tok) (cmd : Cmd), At l s ts → ts.length < k →
    wp (parseredirs l k cmd) IsPanic
      (fun c s' => ∃ u v rs, ts = u ++ v ∧ At l s' v ∧ Redirs u rs ∧ c = wrap rs cmd) s
  | 0, _, _, _, _, hk => absurd hk (Nat.not_lt_zero _)
  | k + 1, s, ts, cmd, h, hk => by
    unfold parseredirs
    refine wp_seq (peek_wp redir_symbols h fun s₁ h₁ => ?_)
    refine wp_ite.2 ⟨fun hstart => ?_, fun _ => ⟨[], ts, [], rfl, h₁, .nil, rfl⟩⟩
    obtain ⟨o, r, rfl, ho⟩ := starts_true hstart
    refine wp_seq (gettoken_wp h₁ fun _ _ s₂ h₂ _ => wp_seq (gettoken_wp h₂ fun q eq s₃ h₃ hword => ?_))
    refine wp_ite.2 ⟨fun _ => panic_file, fun hcode => ?_⟩
    obtain ⟨q', eq', r, rfl⟩ := code_eq_word (not_not.1 hcode)
    obtain ⟨rfl, rfl⟩ := hword q' eq' r rfl
    have hlen : r.length < k := by
      rw [List.length_cons, List.length_cons] at hk
      omega
    refine wp_post (parseredirs_wp k s₃ r _ h₃ hlen) fun c s' ⟨u, v, rs, hr, hat, hrs, hc⟩ => ?_
    have hredir := isRedir_of_char ho
    refine ⟨.op o :: .word q eq :: u, v, ⟨o, q, eq⟩ :: rs, ?_, hat, .cons hredir hrs, ?_⟩
    · rw [hr]
      rfl
    · rw [hc, codeOf, redircmd_code hredir]
      rfl

theorem argLoop_wp : ∀ (k s argc : Nat) (ts : List Tok) (ws : List (Nat × Nat)) (rs : List Redir), At l s ts →
    ts.length < k → ws.length = argc → argc < MAXARGS →
    wp (argLoop l k argc (wrap rs (.exec ws))) IsPanic
      (fun c s' => ∃ u v ws' rs', ts = u ++ v ∧ At l s' v ∧ Words u ws' rs' ∧ (ws ++ ws').length < MAXARGS ∧
        c = wrap (rs ++ rs') (.exec (ws ++ ws'))) s
  | 0, _, _, _, _, _, _, hk, _, _ => absurd hk (Nat.not_lt_zero _)
  | k + 1, s, argc, ts, ws, rs, h, hk, hws, hmax => by
    have hstop : ∀ s', At l s' ts → ∃ u v ws' rs', ts = u ++ v ∧ At l s' v ∧ Words u ws' rs' ∧
        (ws ++ ws').length < MAXARGS ∧ wrap rs (.exec ws) = wrap (rs ++ rs') (.exec (ws ++ ws')) := by
      intro s' h'
      refine ⟨[], ts, [], [], rfl, h', .nil, ?_, ?_⟩
      · rwa [List.append_nil, hws]
      · rw [List.append_nil, List.append_nil]
    unfold argLoop
    refine wp_seq (peek_wp end_symbols h fun s₁ h₁ => wp_ite.2 ⟨fun _ => hstop s₁ h₁, fun _ => ?_⟩)
    refine wp_seq (gettoken_wp h₁ fun q eq s₂ h₂ hword => ?_)
    refine wp_ite.2 ⟨fun hcode => ?_, fun _ => ?_⟩
    · -- No token is left.
      obtain rfl := code_eq_zero hcode
      exact hstop s₂ h₂
    refine wp_ite.2 ⟨fun _ => panic_syntax, fun hcode => ?_⟩
    obtain ⟨q', eq', r, rfl⟩ := code_eq_word (not_not.1 hcode)
    obtain ⟨rfl, rfl⟩ := hword q' eq' r rfl
    refine wp_ite.2 ⟨fun _ => panic_args, fun hargc => ?_⟩
    have hes := length_at h₂
    refine wp_seq (wp_post (parseredirs_wp (l.es + 1) s₂ r _ h₂ (Nat.lt_succ_of_le hes)) ?_)
    rintro _ s₃ ⟨u, v, rs₁, rfl, h₃, hrs, rfl⟩
    rw [addArg_wrap, ← wrap_append]
    have hlen : v.length < k := by
      rw [List.length_cons, List.length_append] at hk
      omega
    have hws' : (ws ++ [(q, eq)]).length = argc + 1 := by rw [List.length_append, hws, List.length_singleton]
    refine wp_post (argLoop_wp k s₃ (argc + 1) v _ _ h₃ hlen hws' (Nat.lt_of_not_le hargc)) ?_
    rintro c s' ⟨u', v', ws', rs', rfl, hat, hw, hlt, rfl⟩
    refine ⟨.word q eq :: (u ++ u'), v', (q, eq) :: ws', rs₁ ++ rs', ?_, hat, .cons hrs hw, ?_, ?_⟩
    · rw [List.cons_append, List.append_assoc]
    · rwa [List.append_assoc] at hlt
    · rw [List.append_assoc, List.append_assoc]
      rfl

theorem backLoop_wp : ∀ (k s : Nat) (ts : List Tok) (cmd : Cmd), At l s ts → ts.length < k →
    wp (backLoop l k cmd) IsPanic
      (fun c s' => ∃ n v, ts = List.replicate n (.op .amp) ++ v ∧ At l s' v ∧ c = Cmd.back^[n] cmd) s
  | 0, _, _, _, _, hk => absurd hk (Nat.not_lt_zero _)
  | k + 1, s, ts, cmd, h, hk => by
    unfold backLoop
    refine wp_seq (peek_wp (op_symbols .amp) h fun s₁ h₁ => ?_)
    refine wp_ite.2 ⟨fun hstart => ?_, fun _ => ⟨0, ts, rfl, h₁, rfl⟩⟩
    obtain ⟨r, rfl⟩ := starts_op (o := .amp) rfl hstart
    refine wp_seq (gettoken_wp h₁ fun _ _ s₂ h₂ _ => ?_)
    refine wp_post (backLoop_wp k s₂ r _ h₂ (Nat.lt_of_succ_lt_succ hk)) ?_
    rintro c s' ⟨n, v, hr, hat, hc⟩
    refine ⟨n + 1, v, ?_, hat, hc⟩
    rw [hr]
    rfl

/-- A prefix of `ts` is derivable, and the rest is ahead. -/
def Parsed (l : Line) (nt : Nonterminal) (ts : List Tok) (cmd : Cmd) (s' : Nat) : Prop :=
  ∃ u v, ts = u ++ v ∧ At l s' v ∧ Derives nt u cmd

/-- The calls that the parser makes before it takes a token are four at most. -/
structure ParseWp (l : Line) (f : Nat) : Prop where
  line : ∀ {s ts}, At l s ts → 4 * ts.length + 3 ≤ f → wp (parseline l f) IsPanic (Parsed l .line ts) s
  pipe : ∀ {s ts}, At l s ts → 4 * ts.length + 2 ≤ f → wp (parsepipe l f) IsPanic (Parsed l .pipe ts) s
  exec : ∀ {s ts}, At l s ts → 4 * ts.length + 1 ≤ f → wp (parseexec l f) IsPanic (Parsed l .exec ts) s
  block : ∀ {s ts}, At l s (.op .lpar :: ts) → 4 * ts.length + 4 ≤ f →
    wp (parseblock l f) IsPanic (Parsed l .exec (.op .lpar :: ts)) s

theorem parseline_wp {f : Nat} (ih : ParseWp l f) (h : At l s ts) (hf : 4 * ts.length + 3 ≤ f + 1) :
    wp (parseline l (f + 1)) IsPanic (Parsed l .line ts) s := by
  unfold parseline
  refine wp_seq (wp_post (ih.pipe h (by omega)) ?_)
  rintro cmd s₁ ⟨u, v, rfl, h₁, hpipe⟩
  refine wp_seq (wp_post (backLoop_wp (l.es + 1) s₁ v cmd h₁ (Nat.lt_succ_of_le (length_at h₁))) ?_)
  rintro _ s₂ ⟨n, w, rfl, h₂, rfl⟩
  refine wp_seq (peek_wp (op_symbols .semi) h₂ fun s₃ h₃ => ?_)
  refine wp_ite.2 ⟨fun hstart => ?_, fun _ => ⟨_, w, (List.append_assoc ..).symm, h₃, .line n hpipe⟩⟩
  obtain ⟨r, rfl⟩ := starts_op (o := .semi) rfl hstart
  refine wp_seq (gettoken_wp h₃ fun _ _ s₄ h₄ _ => ?_)
  have hlen : 4 * r.length + 3 ≤ f := by
    simp only [List.length_append, List.length_replicate, List.length_cons] at hf
    omega
  refine wp_seq (wp_post (ih.line h₄ hlen) ?_)
  rintro right s' ⟨u', v', hr, hat, hline⟩
  refine ⟨_, v', ?_, hat, .list n hpipe hline⟩
  change r = u' ++ v' at hr
  rw [hr]
  simp only [List.append_assoc, List.cons_append]

theorem parsepipe_wp {f : Nat} (ih : ParseWp l f) (h : At l s ts) (hf : 4 * ts.length + 2 ≤ f + 1) :
    wp (parsepipe l (f + 1)) IsPanic (Parsed l .pipe ts) s := by
  unfold parsepipe
  refine wp_seq (wp_post (ih.exec h (by omega)) ?_)
  rintro cmd s₁ ⟨u, v, rfl, h₁, hexec⟩
  refine wp_seq (peek_wp (op_symbols .bar) h₁ fun s₂ h₂ => ?_)
  refine wp_ite.2 ⟨fun hstart => ?_, fun _ => ⟨u, v, rfl, h₂, .one hexec⟩⟩
  obtain ⟨r, rfl⟩ := starts_op (o := .bar) rfl hstart
  refine wp_seq (gettoken_wp h₂ fun _ _ s₃ h₃ _ => ?_)
  have hlen : 4 * r.length + 2 ≤ f := by
    simp only [List.length_append, List.length_cons] at hf
    omega
  refine wp_seq (wp_post (ih.pipe h₃ hlen) ?_)
  rintro right s' ⟨u', v', hr, hat, hpipe⟩
  refine ⟨_, v', ?_, hat, .pipe hexec hpipe⟩
  change r = u' ++ v' at hr
  rw [hr]
  simp only [List.append_assoc, List.cons_append]

theorem parseexec_wp {f : Nat} (ih : ParseWp l f) (h : At l s ts) (hf : 4 * ts.length + 1 ≤ f + 1) :
    wp (parseexec l (f + 1)) IsPanic (Parsed l .exec ts) s := by
  unfold parseexec
  refine wp_seq (peek_wp (op_symbols .lpar) h fun s₁ h₁ => wp_ite.2 ⟨fun hstart => ?_, fun _ => ?_⟩)
  · obtain ⟨r, rfl⟩ := starts_op (o := .lpar) rfl hstart
    refine ih.block h₁ ?_
    rw [List.length_cons] at hf
    omega
  · refine wp_seq (wp_post (parseredirs_wp (l.es + 1) s₁ ts _ h₁ (Nat.lt_succ_of_le (length_at h₁))) ?_)
    rintro _ s₂ ⟨u, v, rs, rfl, h₂, hrs, rfl⟩
    refine wp_post (argLoop_wp (l.es + 1) s₂ 0 v [] rs h₂ (Nat.lt_succ_of_le (length_at h₂)) rfl (by decide)) ?_
    rintro _ s' ⟨u', v', ws, rs', rfl, hat, hw, hmax, rfl⟩
    exact ⟨u ++ u', v', (List.append_assoc ..).symm, hat, .exec hrs hw hmax⟩

theorem parseblock_wp {f : Nat} (ih : ParseWp l f) (h : At l s (.op .lpar :: ts)) (hf : 4 * ts.length + 4 ≤ f + 1) :
    wp (parseblock l (f + 1)) IsPanic (Parsed l .exec (.op .lpar :: ts)) s := by
  unfold parseblock
  refine wp_seq (peek_wp (op_symbols .lpar) h fun s₁ h₁ => wp_ite.2 ⟨fun _ => ?_, fun hno => absurd rfl hno⟩)
  refine wp_seq (gettoken_wp h₁ fun _ _ s₂ h₂ _ => ?_)
  change At l s₂ ts at h₂
  refine wp_seq (wp_post (ih.line h₂ (by omega)) ?_)
  rintro cmd s₃ ⟨u, v, rfl, h₃, hline⟩
  refine wp_seq (peek_wp (op_symbols .rpar) h₃ fun s₄ h₄ => ?_)
  refine wp_ite.2 ⟨fun hstart => ?_, fun _ => panic_rpar⟩
  obtain ⟨r, rfl⟩ := starts_op (o := .rpar) rfl hstart
  refine wp_seq (gettoken_wp h₄ fun _ _ s₅ h₅ _ => ?_)
  refine wp_post (parseredirs_wp (l.es + 1) s₅ r cmd h₅ (Nat.lt_succ_of_le (length_at h₅))) ?_
  rintro _ s' ⟨u', v', rs, rfl, hat, hrs, rfl⟩
  refine ⟨_, v', ?_, hat, .block hline hrs⟩
  simp only [List.append_assoc, List.cons_append]

theorem parseWp (l : Line) : ∀ f, ParseWp l f
  | 0 => ⟨fun _ hf => absurd hf (by omega), fun _ hf => absurd hf (by omega), fun _ hf => absurd hf (by omega),
      fun _ hf => absurd hf (by omega)⟩
  | f + 1 =>
    have ih := parseWp l f
    ⟨parseline_wp ih, parsepipe_wp ih, parseexec_wp ih, parseblock_wp ih⟩

/-- The parser returns a tree of the whole line, or panics. -/
theorem parseAll_wp (l : Line) : wp (parseAll l) IsPanic (fun cmd _ => Derives .line l.tokens cmd) 0 := by
  have hstart := at_start l
  have hlen := length_at hstart
  unfold parseAll
  refine wp_seq (wp_post ((parseWp l _).line hstart (by omega)) ?_)
  rintro cmd s₁ ⟨u, v, hts, h₁, hline⟩
  refine wp_seq (peek_wp (fun _ h => absurd h List.not_mem_nil) h₁ fun s₂ h₂ => wp_seq (get_wp ?_))
  refine wp_ite.2 ⟨fun _ => panic_syntax, fun hs => ?_⟩
  obtain rfl := not_not.1 hs
  have hv : v = [] := by
    rw [← h₂.lex, List.drop_eq_nil_of_le (Nat.le_refl l.es), lex]
  rw [hts, hv, List.append_nil]
  exact hline

/-! ## What is derivable is returned -/

namespace Nonterminal

/-- The operators that may come after. -/
def follows : Nonterminal → List Op
  | line => [.rpar]
  | pipe => [.rpar, .amp, .semi]
  | exec => [.rpar, .amp, .semi, .bar]

def parse (l : Line) : Nonterminal → Nat → P Cmd
  | line => parseline l
  | pipe => parsepipe l
  | exec => parseexec l

def level : Nonterminal → Nat
  | line => 3
  | pipe => 2
  | exec => 1

end Nonterminal

/-- Nothing, or an operator that ends `nt`. -/
inductive Follow (nt : Nonterminal) : List Tok → Prop
  | nil : Follow nt []
  | op {o : Op} (ho : o ∈ nt.follows) (ts : List Tok) : Follow nt (.op o :: ts)

theorem Follow.no_start {nt : Nonterminal} {v : List Tok} {toks : List (BitVec 8)} (h : Follow nt v)
    (hno : ∀ o ∈ nt.follows, o.char ∉ toks) : starts toks v = false := by
  cases h with
  | nil => rfl
  | op ho ts => exact (List.contains_eq_mem ..).trans (decide_eq_false (hno _ ho))

theorem Redirs.no_start {u v : List Tok} {rs : List Redir} {toks : List (BitVec 8)} (h : Redirs u rs)
    (hno : ∀ o : Op, o.isRedir = true → o.char ∉ toks) (hv : starts toks v = false) : starts toks (u ++ v) = false := by
  cases h with
  | nil => exact hv
  | cons ho _ => exact (List.contains_eq_mem ..).trans (decide_eq_false (hno _ ho))

theorem Words.no_start {u v : List Tok} {ws : List (Nat × Nat)} {rs : List Redir} {toks : List (BitVec 8)}
    (h : Words u ws rs) (hv : starts toks v = false) : starts toks (u ++ v) = false := by
  cases h with
  | nil => exact hv
  | cons _ _ => rfl

/-- From the tokens `u ++ v` the program returns `cmd` and leaves `v`. -/
abbrev Gives (l : Line) (x : P Cmd) (s : Nat) (cmd : Cmd) (v : List Tok) : Prop :=
  wp x (fun _ => False) (fun c s' => c = cmd ∧ At l s' v) s

theorem Redirs.complete {u v : List Tok} {rs : List Redir} (hr : Redirs u rs) : ∀ {k s : Nat} {cmd : Cmd},
    At l s (u ++ v) → starts [lt, gt] v = false → (u ++ v).length < k →
    Gives l (parseredirs l k cmd) s (wrap rs cmd) v := by
  induction hr with
  | nil =>
    intro k s cmd h hv hk
    obtain ⟨k, rfl⟩ := Nat.exists_eq_succ_of_ne_zero (Nat.ne_of_gt (Nat.lt_of_le_of_lt (Nat.zero_le _) hk))
    unfold parseredirs
    refine wp_seq (peek_wp redir_symbols h fun s₁ h₁ => ?_)
    exact wp_ite.2 ⟨fun hs => Bool.noConfusion (hv.symm.trans hs), fun _ => ⟨rfl, h₁⟩⟩
  | @cons o q eq ts rs ho _ ih =>
    intro k s cmd h hv hk
    obtain ⟨k, rfl⟩ := Nat.exists_eq_succ_of_ne_zero (Nat.ne_of_gt (Nat.lt_of_le_of_lt (Nat.zero_le _) hk))
    unfold parseredirs
    refine wp_seq (peek_wp redir_symbols h fun s₁ h₁ => wp_ite.2 ⟨fun _ => ?_, fun hs => ?_⟩)
    · refine wp_seq (gettoken_wp h₁ fun _ _ s₂ h₂ _ => wp_seq (gettoken_wp h₂ fun q' eq' s₃ h₃ hword => ?_))
      obtain ⟨rfl, rfl⟩ := hword q eq _ rfl
      refine wp_ite.2 ⟨fun hc => absurd rfl hc, fun _ => ?_⟩
      change Gives l (parseredirs l k (redircmd o.code cmd q' eq')) s₃ _ v
      rw [redircmd_code ho]
      refine ih h₃ hv ?_
      simp only [List.cons_append, List.length_cons] at hk
      omega
    · refine absurd ?_ hs
      match o, ho with
      | .lt, _ | .gt, _ | .gtgt, _ => rfl

theorem Words.complete {u v : List Tok} {ws' : List (Nat × Nat)} {rs' : List Redir} (hw : Words u ws' rs') :
    ∀ {k s argc : Nat} {ws : List (Nat × Nat)} {rs : List Redir}, At l s (u ++ v) → Follow .exec v →
    (u ++ v).length < k → argc + ws'.length < MAXARGS →
    Gives l (argLoop l k argc (wrap rs (.exec ws))) s (wrap (rs ++ rs') (.exec (ws ++ ws'))) v := by
  induction hw with
  | nil =>
    intro k s argc ws rs h hv hk hmax
    obtain ⟨k, rfl⟩ := Nat.exists_eq_succ_of_ne_zero (Nat.ne_of_gt (Nat.lt_of_le_of_lt (Nat.zero_le _) hk))
    rw [List.append_nil, List.append_nil]
    unfold argLoop
    refine wp_seq (peek_wp end_symbols h fun s₁ h₁ => wp_ite.2 ⟨fun _ => ⟨rfl, h₁⟩, fun hs => ?_⟩)
    refine wp_seq (gettoken_wp h₁ fun q eq s₂ h₂ _ => ?_)
    cases hv with
    | nil => exact wp_ite.2 ⟨fun _ => ⟨rfl, h₂⟩, fun hc => absurd rfl hc⟩
    | op ho ts =>
      refine absurd ?_ hs
      simp only [Nonterminal.follows, List.mem_cons, List.not_mem_nil, or_false] at ho
      rcases ho with rfl | rfl | rfl | rfl <;> rfl
  | @cons q eq ts ts' rs₁ rs₂ ws' hr hw ih =>
    intro k s argc ws rs h hv hk hmax
    obtain ⟨k, rfl⟩ := Nat.exists_eq_succ_of_ne_zero (Nat.ne_of_gt (Nat.lt_of_le_of_lt (Nat.zero_le _) hk))
    rw [List.length_cons] at hmax
    unfold argLoop
    refine wp_seq (peek_wp end_symbols h fun s₁ h₁ => wp_ite.2 ⟨fun hs => (nomatch hs), fun _ => ?_⟩)
    refine wp_seq (gettoken_wp h₁ fun q' eq' s₂ h₂ hword => ?_)
    obtain ⟨rfl, rfl⟩ := hword q eq _ rfl
    refine wp_ite.2 ⟨fun hc => absurd hc (by decide : word ≠ 0), fun _ => wp_ite.2 ⟨fun hc => absurd rfl hc, fun _ => ?_⟩⟩
    refine wp_ite.2 ⟨fun hc => absurd hc (by omega), fun _ => ?_⟩
    change At l s₂ (ts ++ ts' ++ v) at h₂
    rw [List.append_assoc] at h₂
    have hno : starts [lt, gt] (ts' ++ v) = false := hw.no_start (hv.no_start (by decide))
    refine wp_seq (wp_post (hr.complete h₂ hno (Nat.lt_succ_of_le (length_at h₂))) ?_)
    rintro _ s₃ ⟨rfl, h₃⟩
    rw [addArg_wrap, ← wrap_append]
    have hlen : (ts' ++ v).length < k := by
      simp only [List.cons_append, List.append_assoc, List.length_cons, List.length_append] at hk ⊢
      omega
    have hrest : Gives l (argLoop l k (argc + 1) (wrap (rs ++ rs₁) (.exec (ws ++ [(q', eq')])))) s₃
        (wrap (rs ++ rs₁ ++ rs₂) (.exec (ws ++ [(q', eq')] ++ ws'))) v := ih h₃ hv hlen (by omega)
    rwa [List.append_assoc, List.append_assoc] at hrest

theorem backLoop_complete {v : List Tok} (hv : starts [amp] v = false) : ∀ {n k s : Nat} {cmd : Cmd},
    At l s (List.replicate n (.op .amp) ++ v) → (List.replicate n (Tok.op .amp) ++ v).length < k →
    Gives l (backLoop l k cmd) s (Cmd.back^[n] cmd) v := by
  intro n
  induction n with
  | zero =>
    intro k s cmd h hk
    obtain ⟨k, rfl⟩ := Nat.exists_eq_succ_of_ne_zero (Nat.ne_of_gt (Nat.lt_of_le_of_lt (Nat.zero_le _) hk))
    unfold backLoop
    refine wp_seq (peek_wp (op_symbols .amp) h fun s₁ h₁ => ?_)
    exact wp_ite.2 ⟨fun hs => Bool.noConfusion (hv.symm.trans hs), fun _ => ⟨rfl, h₁⟩⟩
  | succ n ih =>
    intro k s cmd h hk
    obtain ⟨k, rfl⟩ := Nat.exists_eq_succ_of_ne_zero (Nat.ne_of_gt (Nat.lt_of_le_of_lt (Nat.zero_le _) hk))
    unfold backLoop
    refine wp_seq (peek_wp (op_symbols .amp) h fun s₁ h₁ => wp_ite.2 ⟨fun _ => ?_, fun hs => absurd rfl hs⟩)
    refine wp_seq (gettoken_wp h₁ fun _ _ s₂ h₂ _ => ?_)
    exact ih h₂ (Nat.lt_of_succ_lt_succ hk)

/-- With enough calls, the function for `nt` returns `cmd` on `u`. -/
def Complete (l : Line) (nt : Nonterminal) (u : List Tok) (cmd : Cmd) : Prop :=
  ∀ {v : List Tok} {s f : Nat}, At l s (u ++ v) → Follow nt v → 4 * (u ++ v).length + nt.level ≤ f + 1 →
    Gives l (nt.parse l (f + 1)) s cmd v

theorem Complete.gives {nt : Nonterminal} {u v : List Tok} {cmd : Cmd} {f : Nat} (hc : Complete l nt u cmd)
    (h : At l s (u ++ v)) (hv : Follow nt v) (hf : 4 * (u ++ v).length + nt.level ≤ f) :
    Gives l (nt.parse l f) s cmd v := by
  cases f with
  | zero => cases nt <;> exact absurd hf (Nat.not_succ_le_zero _)
  | succ f => exact hc h hv hf

theorem Follow.mono {nt nt' : Nonterminal} {v : List Tok} (h : Follow nt v) (hsub : nt.follows ⊆ nt'.follows) :
    Follow nt' v := by
  cases h with
  | nil => exact .nil
  | op ho ts => exact .op (hsub ho) ts

theorem Follow.amps {v : List Tok} (h : Follow .pipe v) (n : Nat) : Follow .pipe (List.replicate n (.op .amp) ++ v) := by
  cases n with
  | zero => exact h
  | succ n => exact .op (by decide) _

/-- The loop of `parseline` and what comes before it. -/
theorem Complete.amps {u v : List Tok} {cmd : Cmd} {n f : Nat} (hc : Complete l .pipe u cmd)
    (h : At l s (u ++ (List.replicate n (.op .amp) ++ v))) (hv : Follow .pipe v) (hamp : starts [amp] v = false)
    (hf : 4 * (u ++ (List.replicate n (Tok.op .amp) ++ v)).length + 2 ≤ f) :
    Gives l (parsepipe l f >>= fun cmd => backLoop l (l.es + 1) cmd) s (Cmd.back^[n] cmd) v := by
  refine wp_seq (wp_post (hc.gives h (hv.amps n) hf) ?_)
  rintro _ s₁ ⟨rfl, h₁⟩
  exact backLoop_complete hamp h₁ (Nat.lt_succ_of_le (length_at h₁))

theorem Complete.line {u : List Tok} {cmd : Cmd} (hc : Complete l .pipe u cmd) (n : Nat) :
    Complete l .line (u ++ List.replicate n (.op .amp)) (Cmd.back^[n] cmd) := by
  intro v s f h hv hf
  rw [List.append_assoc] at h hf
  change Gives l (parseline l (f + 1)) _ _ _
  unfold parseline
  refine wp_seq_assoc (wp_post (hc.amps h (hv.mono (by decide)) (hv.no_start (by decide)) (Nat.le_of_succ_le_succ hf)) ?_)
  rintro _ s₂ ⟨rfl, h₂⟩
  refine wp_seq (peek_wp (op_symbols .semi) h₂ fun s₃ h₃ => ?_)
  exact wp_ite.2 ⟨fun hs => Bool.noConfusion ((hv.no_start (by decide)).symm.trans hs), fun _ => ⟨rfl, h₃⟩⟩

theorem Complete.list {u u' : List Tok} {cmd right : Cmd} (hc : Complete l .pipe u cmd) (n : Nat)
    (hc' : Complete l .line u' right) :
    Complete l .line (u ++ (List.replicate n (.op .amp) ++ .op .semi :: u')) (.list (Cmd.back^[n] cmd) right) := by
  intro v s f h hv hf
  rw [List.append_assoc, List.append_assoc] at h hf
  change Gives l (parseline l (f + 1)) _ _ _
  unfold parseline
  refine wp_seq_assoc (wp_post (hc.amps h (.op (by decide) _) rfl (Nat.le_of_succ_le_succ hf)) ?_)
  rintro _ s₂ ⟨rfl, h₂⟩
  refine wp_seq (peek_wp (op_symbols .semi) h₂ fun s₃ h₃ => wp_ite.2 ⟨fun _ => ?_, fun hs => absurd rfl hs⟩)
  refine wp_seq (gettoken_wp h₃ fun _ _ s₄ h₄ _ => ?_)
  have hlen : 4 * (u' ++ v).length + 3 ≤ f := by
    simp only [List.length_append, List.length_cons, List.cons_append, Nonterminal.level] at hf ⊢
    omega
  refine wp_seq (wp_post (hc'.gives h₄ hv hlen) ?_)
  rintro _ s' ⟨rfl, h'⟩
  exact ⟨rfl, h'⟩

theorem Complete.one {u : List Tok} {cmd : Cmd} (hc : Complete l .exec u cmd) : Complete l .pipe u cmd := by
  intro v s f h hv hf
  change Gives l (parsepipe l (f + 1)) _ _ _
  unfold parsepipe
  refine wp_seq (wp_post (hc.gives h (hv.mono (by decide)) (Nat.le_of_succ_le_succ hf)) ?_)
  rintro _ s₁ ⟨rfl, h₁⟩
  refine wp_seq (peek_wp (op_symbols .bar) h₁ fun s₂ h₂ => ?_)
  exact wp_ite.2 ⟨fun hs => Bool.noConfusion ((hv.no_start (by decide)).symm.trans hs), fun _ => ⟨rfl, h₂⟩⟩

theorem Complete.pipe {u u' : List Tok} {cmd right : Cmd} (hc : Complete l .exec u cmd)
    (hc' : Complete l .pipe u' right) : Complete l .pipe (u ++ .op .bar :: u') (.pipe cmd right) := by
  intro v s f h hv hf
  rw [List.append_assoc] at h hf
  change Gives l (parsepipe l (f + 1)) _ _ _
  unfold parsepipe
  refine wp_seq (wp_post (hc.gives h (.op (by decide) _) (Nat.le_of_succ_le_succ hf)) ?_)
  rintro _ s₁ ⟨rfl, h₁⟩
  refine wp_seq (peek_wp (op_symbols .bar) h₁ fun s₂ h₂ => wp_ite.2 ⟨fun _ => ?_, fun hs => absurd rfl hs⟩)
  refine wp_seq (gettoken_wp h₂ fun _ _ s₃ h₃ _ => ?_)
  have hlen : 4 * (u' ++ v).length + 2 ≤ f := by
    simp only [List.length_append, List.length_cons, List.cons_append, Nonterminal.level] at hf ⊢
    omega
  refine wp_seq (wp_post (hc'.gives h₃ hv hlen) ?_)
  rintro _ s' ⟨rfl, h'⟩
  exact ⟨rfl, h'⟩

theorem Complete.block {u u' : List Tok} {cmd : Cmd} {rs : List Redir} (hc : Complete l .line u cmd)
    (hr : Redirs u' rs) : Complete l .exec (.op .lpar :: (u ++ .op .rpar :: u')) (wrap rs cmd) := by
  intro v s f h hv hf
  change At l s (.op .lpar :: (u ++ .op .rpar :: u' ++ v)) at h
  have hf' : 4 * (u ++ (.op .rpar :: (u' ++ v))).length + 4 ≤ f := by
    simp only [List.length_append, List.length_cons, List.cons_append, Nonterminal.level] at hf ⊢
    omega
  rw [List.append_assoc] at h
  obtain ⟨f, rfl⟩ := Nat.exists_eq_succ_of_ne_zero (Nat.ne_of_gt (Nat.lt_of_lt_of_le (Nat.succ_pos _) hf'))
  change Gives l (parseexec l (f + 1 + 1)) _ _ _
  unfold parseexec
  refine wp_seq (peek_wp (op_symbols .lpar) h fun s₁ h₁ => wp_ite.2 ⟨fun _ => ?_, fun hs => absurd rfl hs⟩)
  unfold parseblock
  refine wp_seq (peek_wp (op_symbols .lpar) h₁ fun s₂ h₂ => wp_ite.2 ⟨fun _ => ?_, fun hs => absurd rfl hs⟩)
  refine wp_seq (gettoken_wp h₂ fun _ _ s₃ h₃ _ => ?_)
  refine wp_seq (wp_post (hc.gives h₃ (.op (by decide) _) (Nat.le_of_succ_le_succ hf')) ?_)
  rintro _ s₄ ⟨rfl, h₄⟩
  refine wp_seq (peek_wp (op_symbols .rpar) h₄ fun s₅ h₅ => wp_ite.2 ⟨fun _ => ?_, fun hs => absurd rfl hs⟩)
  refine wp_seq (gettoken_wp h₅ fun _ _ s₆ h₆ _ => ?_)
  exact hr.complete h₆ (hv.no_start (by decide)) (Nat.lt_succ_of_le (length_at h₆))

theorem Complete.exec {u u' : List Tok} {ws : List (Nat × Nat)} {rs rs' : List Redir} (hr : Redirs u rs)
    (hw : Words u' ws rs') (hmax : ws.length < MAXARGS) :
    Complete l .exec (u ++ u') (wrap (rs ++ rs') (.exec ws)) := by
  intro v s f h hv _
  rw [List.append_assoc] at h
  change Gives l (parseexec l (f + 1)) _ _ _
  unfold parseexec
  have hnot : starts [lpar] (u ++ (u' ++ v)) = false := by
    refine hr.no_start (fun o ho => ?_) (hw.no_start (hv.no_start (by decide)))
    revert ho
    cases o <;> decide
  refine wp_seq (peek_wp (op_symbols .lpar) h fun s₁ h₁ => ?_)
  refine wp_ite.2 ⟨fun hs => Bool.noConfusion (hnot.symm.trans hs), fun _ => ?_⟩
  have hno : starts [lt, gt] (u' ++ v) = false := hw.no_start (hv.no_start (by decide))
  refine wp_seq (wp_post (hr.complete h₁ hno (Nat.lt_succ_of_le (length_at h₁))) ?_)
  rintro _ s₂ ⟨rfl, h₂⟩
  exact hw.complete h₂ hv (Nat.lt_succ_of_le (length_at h₂)) (by rwa [Nat.zero_add])

theorem Derives.complete {nt : Nonterminal} {u : List Tok} {cmd : Cmd} (h : Derives nt u cmd) :
    Complete l nt u cmd := by
  induction h with
  | line n _ ih => exact Complete.line ih n
  | list n _ _ ih ih' => exact Complete.list ih n ih'
  | one _ ih => exact Complete.one ih
  | pipe _ _ ih ih' => exact Complete.pipe ih ih'
  | block _ hr ih => exact Complete.block ih hr
  | exec hr hw hmax => exact Complete.exec hr hw hmax

/-- With no token ahead `peek` moves to the end of the line. -/
theorem peek_end {toks : List (BitVec 8)} {Q : Bool → Nat → Prop} (h : At l s []) (hQ : ∀ x, Q x l.es) :
    wp (peek l toks) E Q s := by
  obtain ⟨hat, hspace⟩ := skip_at h
  obtain ⟨-, hes⟩ : Found l (l.skip s) [] := token_at hat hspace
  refine wp_ok (rfl : peek l toks s = .ok (_, l.skip s)) ?_
  rw [hes]
  exact hQ _

theorem parseAll_complete {cmd : Cmd} (h : Derives .line l.tokens cmd) :
    wp (parseAll l) (fun _ => False) (fun c _ => c = cmd) 0 := by
  have hstart : At l 0 (l.tokens ++ []) := by
    rw [List.append_nil]
    exact at_start l
  have hlen := length_at hstart
  have hline : Complete l .line l.tokens cmd := h.complete
  have hgives : Gives l (Nonterminal.line.parse l (4 * l.es + 3)) 0 cmd [] := by
    refine hline.gives hstart .nil ?_
    change _ + 3 ≤ _
    omega
  unfold parseAll
  refine wp_seq (wp_post hgives ?_)
  rintro _ s₁ ⟨rfl, h₁⟩
  refine wp_seq (peek_end h₁ fun _ => ?_)
  exact wp_seq (get_wp (wp_ite.2 ⟨fun hs => absurd rfl hs, fun _ => rfl⟩))

theorem parsecmd_ok {m m' : Nat → BitVec 8} {cmd : Cmd} (h : parsecmd l m = .ok (cmd, m')) :
    Derives .line l.tokens cmd ∧ nulterminate cmd m = m' := by
  unfold parsecmd at h
  cases hp : parseAll l 0 with
  | error e =>
    rw [hp] at h
    cases h
  | ok r =>
    rw [hp] at h
    cases h
    exact ⟨of_wp (parseAll_wp l) hp, rfl⟩

/-- The parser accepts the lines of the grammar, with their trees, and panics on the others. -/
theorem parsecmd_iff (l : Line) (m : Nat → BitVec 8) :
    (∀ cmd, (∃ m', parsecmd l m = .ok (cmd, m')) ↔ Derives .line l.tokens cmd) ∧
      ∀ e, parsecmd l m = .error e → IsPanic e := by
  refine ⟨fun cmd => ⟨fun ⟨m', h⟩ => (parsecmd_ok h).1, fun h => ?_⟩, fun e h => ?_⟩
  · obtain ⟨c, s, hp, rfl⟩ := exists_of_wp (parseAll_complete h)
    unfold parsecmd
    rw [hp]
    exact ⟨_, rfl⟩
  · unfold parsecmd at h
    cases hp : parseAll l 0 with
    | error e' =>
      rw [hp] at h
      cases h
      exact stop_of_wp (parseAll_wp l) hp
    | ok r =>
      rw [hp] at h
      cases h

end Xv6.Sh
