import Xv6.Lib.Interval
import Xv6.Lib.Load
import Xv6.Lib.Wp

/-!
# The user's memory allocator

`malloc` and `free` over a byte memory. A header is two words, a pointer and a size in units of a
header. The static header `base` is at a fixed address. Loops take a number of rounds they may make.
`sbrk` is given by the environment, which sees the calls made so far.
-/

namespace Xv6.Umalloc

open Lib

/-- `sizeof(Header)`. -/
abbrev HDR : Nat := 8

structure Heap where
  mem : Nat → BitVec 8
  /-- Null at first. -/
  freep : Nat
  /-- The calls of `sbrk`: what was asked, what was returned. -/
  calls : List (Int × Nat)

namespace Heap

variable (h : Heap) (p v : Nat)

/-- `p->s.ptr`. -/
def ptr : Nat := (load h.mem p).toNat

/-- `p->s.size`. -/
def size : Nat := (load h.mem (p + 4)).toNat

def setPtr : Heap := { h with mem := store h.mem p (BitVec.ofNat 32 v) }

def setSize : Heap := { h with mem := store h.mem (p + 4) (BitVec.ofNat 32 v) }

end Heap

abbrev U (α : Type) : Type := Prog Heap α

/-- More rounds were needed than there are. -/
def outOfFuel : String := "fuel"

/-- `p + n` of a pointer to headers. -/
def add (p n : Nat) : Nat := (p + HDR * n) % 2 ^ 32

/-- A `uint` passed as an `int`. -/
def toInt (n : Nat) : Int := (BitVec.ofNat 32 n).toInt

/-- The loop of `free`. -/
def search : Nat → Nat → Nat → U Nat
  | 0, _, _ => throw outOfFuel
  | k + 1, bp, p => do
    let h ← get
    if p < bp ∧ bp < h.ptr p then return p
    else if h.ptr p ≤ p ∧ (p < bp ∨ bp < h.ptr p) then return p
    else search k bp (h.ptr p)

/-- The block is joined to the one above it, or linked to it. -/
def joinUp (bp p : Nat) (h : Heap) : Heap :=
  if add bp (h.size bp) = h.ptr p then
    let h := h.setSize bp (h.size bp + h.size (h.ptr p))
    h.setPtr bp (h.ptr (h.ptr p))
  else h.setPtr bp (h.ptr p)

/-- The block below is joined to it, or linked to it. -/
def joinDown (bp p : Nat) (h : Heap) : Heap :=
  if add p (h.size p) = bp then
    let h := h.setSize p (h.size p + h.size bp)
    h.setPtr p (h.ptr bp)
  else h.setPtr p bp

def free (fuel ap : Nat) : U Unit := do
  let h ← get
  let bp := (ap + (2 ^ 32 - HDR)) % 2 ^ 32
  let p ← search fuel bp h.freep
  modify fun h => { joinDown bp p (joinUp bp p h) with freep := p }

/-- What `sbrk` returns, after some calls, for a number of bytes. -/
abbrev Env : Type := List (Int × Nat) → Int → Nat

section

variable (env : Env)

def sbrk (n : Int) : U Nat := do
  let h ← get
  let p := env h.calls n
  set { h with calls := h.calls ++ [(n, p)] }
  return p

/-- The units that `morecore` gets. -/
def coreUnits (nu : Nat) : Nat := if nu < 4096 then 4096 else nu

def morecore (fuel nu : Nat) : U Nat := do
  let nu := coreUnits nu
  let p ← sbrk env (toInt (nu * HDR))
  if p = 2 ^ 32 - 1 then return 0
  else
    modify fun h => h.setSize p nu
    free fuel (add p 1)
    let h ← get
    return h.freep

/-- A block is taken out of the list, or cut from its end. -/
def carve (nunits prevp p : Nat) (h : Heap) : Nat × Heap :=
  if h.size p = nunits then (add p 1, { h.setPtr prevp (h.ptr p) with freep := prevp })
  else
    let h := h.setSize p (h.size p - nunits)
    let p := add p (h.size p)
    let h := h.setSize p nunits
    (add p 1, { h with freep := prevp })

/-- The loop of `malloc`. -/
def mallocLoop (fuel nunits : Nat) : Nat → Nat → Nat → U Nat
  | 0, _, _ => throw outOfFuel
  | k + 1, prevp, p => do
    let h ← get
    if nunits ≤ h.size p then modifyGet (carve nunits prevp p)
    else if p = h.freep then
      let p ← morecore env fuel nunits
      if p = 0 then return 0
      else
        let h ← get
        mallocLoop fuel nunits k p (h.ptr p)
    else mallocLoop fuel nunits k p (h.ptr p)

def nunits (nbytes : BitVec 32) : Nat := (nbytes + 7).toNat / HDR + 1

/-- The first call makes a list of `base` alone. -/
def init (base : Nat) (h : Heap) : Heap :=
  if h.freep = 0 then { (h.setPtr base base).setSize base 0 with freep := base } else h

def malloc (base fuel : Nat) (nbytes : BitVec 32) : U Nat := do
  modify (init base)
  let h ← get
  mallocLoop env fuel (nunits nbytes) fuel h.freep (h.ptr h.freep)

end

/-! ## Headers -/

variable {h h' : Heap} {a b p q v : Nat}

theorem ptr_lt (h : Heap) (p : Nat) : h.ptr p < 2 ^ 32 := BitVec.isLt _

theorem size_lt (h : Heap) (p : Nat) : h.size p < 2 ^ 32 := BitVec.isLt _

theorem ptr_setPtr_self (hv : v < 2 ^ 32) : (h.setPtr p v).ptr p = v := by
  unfold Heap.ptr Heap.setPtr
  rw [load_store_self, BitVec.toNat_ofNat, Nat.mod_eq_of_lt hv]

theorem size_setSize_self (hv : v < 2 ^ 32) : (h.setSize p v).size p = v := by
  unfold Heap.size Heap.setSize
  rw [load_store_self, BitVec.toNat_ofNat, Nat.mod_eq_of_lt hv]

/-- Two headers apart from each other. -/
def Apart (p q : Nat) : Prop := p + HDR ≤ q ∨ q + HDR ≤ p

theorem Apart.symm (h : Apart p q) : Apart q p := Or.symm h

theorem ptr_setPtr (hpq : Apart p q) (v : Nat) : (h.setPtr p v).ptr q = h.ptr q := by
  unfold Apart HDR at hpq
  exact congrArg BitVec.toNat (load_store_of_disjoint (by omega) _)

theorem size_setPtr (hpq : p = q ∨ Apart p q) (v : Nat) : (h.setPtr p v).size q = h.size q := by
  unfold Apart HDR at hpq
  exact congrArg BitVec.toNat (load_store_of_disjoint (by omega) _)

theorem ptr_setSize (hpq : p = q ∨ Apart p q) (v : Nat) : (h.setSize p v).ptr q = h.ptr q := by
  unfold Apart HDR at hpq
  exact congrArg BitVec.toNat (load_store_of_disjoint (by omega) _)

theorem size_setSize (hpq : Apart p q) (v : Nat) : (h.setSize p v).size q = h.size q := by
  unfold Apart HDR at hpq
  exact congrArg BitVec.toNat (load_store_of_disjoint (by omega) _)

/-- The header at `q` is the same. -/
def Same (h h' : Heap) (q : Nat) : Prop := h'.ptr q = h.ptr q ∧ h'.size q = h.size q

theorem same_of_bytes (hm : ∀ x, q ≤ x → x < q + HDR → h'.mem x = h.mem x) : Same h h' q := by
  unfold HDR at hm
  exact ⟨congrArg BitVec.toNat (load_congr fun x h1 h2 => hm x h1 (by omega)),
    congrArg BitVec.toNat (load_congr fun x h1 h2 => hm x (by omega) (by omega))⟩

theorem same_setPtr (hpq : Apart p q) (v : Nat) : Same h (h.setPtr p v) q := ⟨ptr_setPtr hpq v, size_setPtr (.inr hpq) v⟩

theorem same_setSize (hpq : Apart p q) (v : Nat) : Same h (h.setSize p v) q :=
  ⟨ptr_setSize (.inr hpq) v, size_setSize hpq v⟩

theorem Same.trans {h'' : Heap} (h1 : Same h h' q) (h2 : Same h' h'' q) : Same h h'' q :=
  ⟨h2.1.trans h1.1, h2.2.trans h1.2⟩

/-! ## The free list -/

/-- From the node `a` the pointers lead through the blocks `L` to `b`. A block is its address and its
length in bytes. -/
def Links (h : Heap) : Nat → List (Nat × Nat) → Nat → Prop
  | a, [], b => h.ptr a = b
  | a, (f, n) :: L, b => h.ptr a = f ∧ HDR * h.size f = n ∧ Links h f L b

/-- The last node. -/
def lastOf : Nat → List (Nat × Nat) → Nat
  | a, [] => a
  | _, (f, _) :: L => lastOf f L

variable {L L1 L2 : List (Nat × Nat)} {f n : Nat}

theorem links_append : ∀ {a : Nat} {L1 : List (Nat × Nat)}, Links h a (L1 ++ (f, n) :: L2) b ↔
    Links h a L1 f ∧ HDR * h.size f = n ∧ Links h f L2 b
  | a, [] => Iff.rfl
  | a, (g, k) :: L1 => by
    change h.ptr a = g ∧ HDR * h.size g = k ∧ Links h g (L1 ++ (f, n) :: L2) b ↔
      (h.ptr a = g ∧ HDR * h.size g = k ∧ Links h g L1 f) ∧ HDR * h.size f = n ∧ Links h f L2 b
    rw [links_append]
    tauto

/-- The same blocks after another node, in another heap. -/
theorem Links.congr : ∀ {a a' : Nat} {L : List (Nat × Nat)}, Links h a L b → h'.ptr a' = h.ptr a →
    (∀ c ∈ L, Same h h' c.1) → Links h' a' L b
  | _, _, [], hl, ha, _ => ha.trans hl
  | _, _, (g, k) :: L, ⟨hg, hk, hl⟩, ha, hsame => by
    have hgs := hsame (g, k) List.mem_cons_self
    refine ⟨ha.trans hg, ?_, Links.congr hl hgs.1 fun c hc => hsame c (List.mem_cons_of_mem _ hc)⟩
    rw [hgs.2]
    exact hk

theorem Links.last : ∀ {a : Nat} {L : List (Nat × Nat)}, Links h a L b → h.ptr (lastOf a L) = b
  | _, [], hl => hl
  | _, (f, _) :: L, ⟨_, _, hl⟩ => (Links.last hl : h.ptr (lastOf f L) = b)

theorem lastOf_append (a : Nat) (L : List (Nat × Nat)) (f n : Nat) (M : List (Nat × Nat)) :
    lastOf a (L ++ (f, n) :: M) = lastOf f M := by
  induction L generalizing a with
  | nil => rfl
  | cons g L ih => exact ih g.1

theorem lastOf_mem (a : Nat) (L : List (Nat × Nat)) : lastOf a L = a ∨ ∃ n, (lastOf a L, n) ∈ L := by
  rcases List.eq_nil_or_concat L with rfl | ⟨L, ⟨f, n⟩, rfl⟩
  · exact .inl rfl
  · rw [List.concat_eq_append, lastOf_append, lastOf]
    exact .inr ⟨n, List.mem_append_right _ List.mem_cons_self⟩

theorem Links.left : ∀ {a : Nat} {L1 : List (Nat × Nat)}, Links h a (L1 ++ L2) b → Links h a L1 (h.ptr (lastOf a L1))
  | _, [], _ => rfl
  | _, (_, _) :: _, ⟨hg, hk, hl⟩ => ⟨hg, hk, Links.left hl⟩

/-- The blocks after `p`, linked to other blocks. -/
theorem Links.join (hl : Links h a L1 (h.ptr p)) (hl' : Links h p L2 b) : Links h a (L1 ++ L2) b := by
  cases L2 with
  | nil =>
    rw [List.append_nil, ← show h.ptr p = b from hl']
    exact hl
  | cons c L2 => exact links_append.2 ⟨hl'.1 ▸ hl, hl'.2⟩

/-- The last pointer is moved. -/
theorem Links.setLast : ∀ {a : Nat} {L : List (Nat × Nat)}, Links h a L b →
    (a :: L.map Prod.fst).Pairwise Apart → v < 2 ^ 32 → Links (h.setPtr (lastOf a L) v) a L v
  | a, [], _, _, hv => ptr_setPtr_self hv
  | a, (g, k) :: L, ⟨hg, hk, hl⟩, hap, hv => by
    have hne : Apart (lastOf g L) a := by
      have := (List.pairwise_cons.1 hap).1
      rcases lastOf_mem g L with he | ⟨n, hm⟩
      · rw [he]
        exact (this g List.mem_cons_self).symm
      · exact (this _ (List.mem_cons_of_mem _ (List.mem_map_of_mem hm))).symm
    have hself : lastOf g L = g ∨ Apart (lastOf g L) g := by
      rcases lastOf_mem g L with he | ⟨n, hm⟩
      · exact .inl he
      · exact .inr ((List.pairwise_cons.1 (List.pairwise_cons.1 hap).2).1 _ (List.mem_map_of_mem hm)).symm
    refine ⟨?_, ?_, Links.setLast hl (List.pairwise_cons.1 hap).2 hv⟩
    · exact (ptr_setPtr hne v).trans hg
    · rw [← hk]
      exact congrArg (HDR * ·) (size_setPtr hself v)

end Xv6.Umalloc
