import NonlinearOpt.LinearSolver.Dense

/-!
Dense factorizations `P A Pᵀ = L B Lᵀ` of symmetric matrices with blocks of size one and two on the
diagonal of `B`. The pivot of each step is chosen from the diagonal entry at hand and the largest
entry below it (Bunch and Kaufman), so that every symmetric matrix can be factored.
-/

namespace NonlinearOpt

namespace Symmetric

variable {α : Type} [Scalar α]

def ofFn (size : Nat) (f : Nat → Nat → α) : Symmetric α :=
  ⟨size, Array.ofFn fun i : Fin size => Array.ofFn fun j : Fin (i + 1) => f i j⟩

def column (a : Symmetric α) (first j : Nat) : Array α :=
  Array.ofFn fun i : Fin (a.size - first) => a.get (first + i) j

def swap (a : Symmetric α) (p q : Nat) : Symmetric α :=
  let turn (i : Nat) := if i = p then q else if i = q then p else i
  ofFn a.size fun i j => a.get (turn i) (turn j)

def largest (a : Symmetric α) (first j : Nat) : Nat × α :=
  ((List.range' first (a.size - first)).filter (· ≠ j)).foldl (fun (k, m) i =>
    let v := Scalar.abs (a.get i j)
    if Scalar.lt m v then (i, v) else (k, m)) (first, 0)

end Symmetric

/-- One elimination step: the index that is exchanged with the first one that the block leaves to
choose, the block, and the columns of `L` below it. -/
structure BlockStep (α : Type) where
  exchange : Nat
  block : Block α
  below : List (Array α)

namespace Block

variable {α : Type} [Scalar α]

def diag : Block α → List α
  | single d => [d]
  | double a _ c => [a, c]

def subdiag : Block α → List α
  | single _ => [0]
  | double _ b _ => [b, 0]

end Block

namespace BlockLdl

variable {α : Type} [Scalar α]

/-- The ratio `(1 + √17) / 8` that balances the growth of both kinds of steps. -/
def balance : α := (1 + Scalar.sqrt (Scalar.ofNat 17)) / Scalar.ofNat 8

/-- Eliminates the first index. A column without entries below the diagonal stays as it is. -/
def single (a : Symmetric α) : Block α × List (Array α) × Symmetric α :=
  let d := a.get 0 0
  let u := a.column 1 0
  let scale := 1 / d
  let l := if u.all (Scalar.eq · 0) then u else u.map (· * scale)
  (.single d, [l],
    .ofFn (a.size - 1) fun i j => a.get (i + 1) (j + 1) - l.getD i 0 * u.getD j 0)

/-- The solution of the system with a block `p, q, s` and the right hand side `x, y`. Everything is
divided by `q` first, so that no product of two entries leaves the range of numbers. -/
def solveDouble (p q s x y : α) : α × α :=
  let scale := 1 / q
  let p := scale * p
  let s := scale * s
  let t := 1 / (p * s - 1)
  let x := x * scale
  let y := y * scale
  ((s * x - y) * t, (p * y - x) * t)

def double (a : Symmetric α) : Block α × List (Array α) × Symmetric α :=
  let (p, q, s) := (a.get 0 0, a.get 1 0, a.get 1 1)
  let u := a.column 2 0
  let v := a.column 2 1
  let l := Array.zipWith (fun x y => (solveDouble p q s x y).1) u v
  let m := Array.zipWith (fun x y => (solveDouble p q s x y).2) u v
  (.double p q s, [l, m],
    .ofFn (a.size - 2) fun i j =>
      a.get (i + 2) (j + 2) - l.getD i 0 * u.getD j 0 - m.getD i 0 * v.getD j 0)

/-- The index to bring to the front, and whether it is coupled with the first one. A single index
has none to be coupled with. -/
def choose (a : Symmetric α) : Bool × Nat :=
  let diagonal := Scalar.abs (a.get 0 0)
  let (r, columnMax) := a.largest 1 0
  if a.size = 1 ∨ Scalar.le (balance * columnMax) diagonal then (false, 0)
  else
    let rowMax := (a.largest 0 r).2
    if Scalar.le (balance * columnMax * (columnMax / rowMax)) diagonal then (false, 0)
    else if Scalar.le (balance * rowMax) (Scalar.abs (a.get r r)) then (false, r)
    else (true, r)

def factor : Nat → Symmetric α → List (BlockStep α)
  | 0, _ => []
  | fuel + 1, a =>
    if a.size = 0 then []
    else
      let (coupled, r) := choose a
      let (block, below, rest) :=
        if coupled then double (a.swap 1 r) else single (a.swap 0 r)
      ⟨r, block, below⟩ :: factor fuel rest

def blocks (steps : List (BlockStep α)) : List (Block α) := steps.map (·.block)

def exchange (p q : Nat) (x : Array α) : Array α :=
  (x.setIfInBounds p (x.getD q 0)).setIfInBounds q (x.getD p 0)

def reduce (c : α) (l x : Array α) : Array α := Array.zipWith (fun xi li => xi - c * li) x l

def dot (l x : Array α) : α := (Array.zipWith (· * ·) l x).foldl (· + ·) 0

def solve : List (BlockStep α) → Array α → Array α
  | [], b => b
  | ⟨r, .single d, below⟩ :: steps, b =>
    let b := exchange 0 r b
    let l := below.headD #[]
    let b₀ := b.getD 0 0
    let x := solve steps (reduce b₀ l (b.extract 1 b.size))
    exchange 0 r (#[b₀ * (1 / d) - dot l x] ++ x)
  | ⟨r, .double p q s, below⟩ :: steps, b =>
    let b := exchange 1 r b
    let l := below.headD #[]
    let m := below.tail.headD #[]
    let b₀ := b.getD 0 0
    let b₁ := b.getD 1 0
    let x := solve steps (reduce b₁ m (reduce b₀ l (b.extract 2 b.size)))
    let (x₀, x₁) := solveDouble p q s b₀ b₁
    exchange 1 r (#[x₀ - dot l x, x₁ - dot m x] ++ x)

def decompose (a : Symmetric α) : Decomposition α :=
  let steps := factor a.size a
  ⟨(blocks steps).flatMap Block.diag, (blocks steps).flatMap Block.subdiag, solve steps⟩

theorem size_exchange (p q : Nat) (x : Array α) : (exchange p q x).size = x.size := by
  simp [exchange]

theorem size_reduce (c : α) (l x : Array α) (h : l.size = x.size) :
    (reduce c l x).size = x.size := by
  simp [reduce, h]

theorem size_of_choose {a : Symmetric α} {r : Nat} (h : choose a = (true, r)) : a.size ≠ 1 := by
  unfold choose at h
  intro hsize
  simp only [hsize, true_or, if_true] at h
  cases h

section Sizes

variable {steps : List (BlockStep α)} {b l m : Array α} {r : Nat}

theorem size_solve_single {d : α} (hl : l.size + 1 = b.size)
    (h : ∀ c : Array α, c.size = l.size → (solve steps c).size = l.size) :
    (solve (⟨r, .single d, [l]⟩ :: steps) b).size = b.size := by
  have hrest : ∀ c : Array α, c.size = b.size → ∀ t : α,
      (solve steps (reduce t l (c.extract 1 c.size))).size = l.size := by
    intro c hc t
    have hextract : (c.extract 1 c.size).size = l.size := by
      simp
      omega
    exact h _ ((size_reduce t l _ hextract.symm).trans hextract)
  rw [solve, size_exchange, Array.size_append]
  simp only [List.headD_cons]
  rw [hrest _ (size_exchange 0 r b)]
  simp
  omega

theorem size_solve_double {p q s : α} (hl : l.size + 2 = b.size) (hm : m.size = l.size)
    (h : ∀ c : Array α, c.size = l.size → (solve steps c).size = l.size) :
    (solve (⟨r, .double p q s, [l, m]⟩ :: steps) b).size = b.size := by
  have hrest : ∀ c : Array α, c.size = b.size → ∀ t u : α,
      (solve steps (reduce u m (reduce t l (c.extract 2 c.size)))).size = l.size := by
    intro c hc t u
    have hextract : (c.extract 2 c.size).size = l.size := by
      simp
      omega
    have hfirst := (size_reduce t l _ hextract.symm).trans hextract
    exact h _ ((size_reduce u m _ (hm.trans hfirst.symm)).trans hfirst)
  rw [solve]
  simp only [List.headD_cons, List.tail_cons]
  rw [size_exchange, Array.size_append, hrest _ (size_exchange 1 r b)]
  simp
  omega

theorem exists_single (a : Symmetric α) : ∃ d l rest, single a = (.single d, [l], rest) ∧
    l.size = a.size - 1 ∧ rest.size = a.size - 1 := by
  refine ⟨_, _, _, rfl, ?_, rfl⟩
  split <;> simp [Symmetric.column]

theorem exists_double (a : Symmetric α) : ∃ p q s l m rest,
    double a = (.double p q s, [l, m], rest) ∧ l.size = a.size - 2 ∧ m.size = l.size ∧
      rest.size = a.size - 2 :=
  ⟨_, _, _, _, _, _, rfl, by simp [Symmetric.column], by simp [Symmetric.column], rfl⟩

theorem size_solve (fuel : Nat) (a : Symmetric α) {b : Array α} (hb : b.size = a.size) :
    (solve (factor fuel a) b).size = b.size := by
  induction fuel generalizing a b with
  | zero => rfl
  | succ fuel ih =>
    rw [factor]
    split
    · rfl
    · rcases hchoose : choose a with ⟨coupled, r⟩
      cases coupled with
      | false =>
        obtain ⟨d, l, rest, hsingle, hl, hrest⟩ := exists_single (a.swap 0 r)
        have hl : l.size = a.size - 1 := hl
        have hrest : rest.size = a.size - 1 := hrest
        simp only [Bool.false_eq_true, if_false, hsingle]
        refine size_solve_single (by omega) fun c hc => ?_
        rw [ih rest (by omega), hc]
      | true =>
        obtain ⟨p, q, s, l, m, rest, hdouble, hl, hm, hrest⟩ := exists_double (a.swap 1 r)
        have hl : l.size = a.size - 2 := hl
        have hrest : rest.size = a.size - 2 := hrest
        have hsize := size_of_choose hchoose
        simp only [if_true, hdouble]
        refine size_solve_double (by omega) hm fun c hc => ?_
        rw [ih rest (by omega), hc]

end Sizes

instance decomposer : Decomposer α := ⟨decompose, fun a _ hb => size_solve a.size a hb⟩

end BlockLdl

end NonlinearOpt
