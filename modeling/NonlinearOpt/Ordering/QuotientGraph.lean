/-!
The quotient graph of a symmetric elimination. Eliminated variables become elements, which stand for
the cliques they leave behind; variables with the same neighbours are merged into one that carries
their number as its weight. `eliminateNext` takes out a variable of least approximate degree.
-/

namespace NonlinearOpt

/-- The state of an elimination on variables `0 … n - 1`. Every index is a variable until it is
eliminated, and an element from then on. -/
structure QuotientGraph where
  size : Nat
  /-- Elements next to a variable. -/
  elements : Array (List Nat)
  /-- Variables next to a variable or an element. -/
  neighbours : Array (List Nat)
  /-- How many variables an index stands for, none once it is merged into another. -/
  weight : Array Nat
  degree : Array Nat
  /-- The element or variable that took an index in. -/
  parent : Array (Option Nat)
  /-- Weight of an element and of its neighbours when it was made. -/
  frontSize : Array Nat
  /-- Whether an element was taken in by another. -/
  absorbed : Array Bool
  /-- Variables by degree, the last one entered first. -/
  buckets : Array (List Nat)
  minDegree : Nat
  eliminated : Nat

namespace QuotientGraph

def total : List Nat → Nat
  | [] => 0
  | w :: ws => w + total ws

/-- The graph with the given edges. Variables without neighbours count as eliminated, and so do those
with more than `dense` neighbours, which are left for the end of the order. -/
def ofEdges (n dense : Nat) (edges : List (Nat × Nat)) : QuotientGraph :=
  let link (adjacent : Array (List Nat)) (e : Nat × Nat) :=
    (adjacent.modify e.1 (e.2 :: ·)).modify e.2 (e.1 :: ·)
  let adjacent := (edges.foldl link (Array.replicate n [])).map List.reverse
  let degree := adjacent.map List.length
  let g : QuotientGraph :=
    { size := n, elements := Array.replicate n [], neighbours := adjacent
      weight := Array.replicate n 1, degree, parent := Array.replicate n none
      frontSize := Array.replicate n 1, absorbed := Array.replicate n false
      buckets := Array.replicate n [], minDegree := 0, eliminated := 0 }
  (List.range n).foldl (fun g i =>
    let d := degree.getD i 0
    if d = 0 then { g with eliminated := g.eliminated + 1, absorbed := g.absorbed.setIfInBounds i true }
    else if dense < d then
      { g with eliminated := g.eliminated + 1, weight := g.weight.setIfInBounds i 0 }
    else { g with buckets := g.buckets.modify d (i :: ·) }) g

def lowest? (buckets : Array (List Nat)) : Nat → Nat → Option (Nat × Nat)
  | 0, _ => none
  | fuel + 1, d =>
    match buckets[d]? with
    | some (i :: _) => some (d, i)
    | _ => lowest? buckets fuel (d + 1)

def front (g : QuotientGraph) (me : Nat) : List Nat :=
  ((g.elements.getD me [] ++ [me]).flatMap fun e => g.neighbours.getD e []).filter
    (fun i => i != me && 0 < g.weight.getD i 0) |>.eraseDups

def absorb (g : QuotientGraph) (child parent : Nat) : QuotientGraph :=
  { g with
    parent := g.parent.setIfInBounds child (some parent)
    absorbed := g.absorbed.setIfInBounds child true }

def outside (g : QuotientGraph) (front : List Nat) : Array (Option Nat) :=
  front.foldl (fun out i =>
    let w := g.weight.getD i 0
    (g.elements.getD i []).foldl (fun out e =>
      if g.absorbed.getD e true then out
      else out.modify e fun o => some (o.getD (g.degree.getD e 0) - w)) out)
    (Array.replicate g.size none)

structure Pass where
  graph : QuotientGraph
  pivotWeight : Nat
  frontWeight : Nat
  /-- Front variables by hash of their neighbours, the last one entered first. -/
  hashed : Array (List Nat)

/-- Prunes the neighbours of a front variable. Elements without variables outside the front are taken
in by the new element. A variable with no neighbour but the new element is eliminated with it; any
other gets a new bound on its degree and is hashed by what is left. -/
def prune (me : Nat) (inFront : Array Bool) (outside : Array (Option Nat)) (p : Pass) (i : Nat) :
    Pass :=
  let g := p.graph
  let live := (g.elements.getD i []).filter fun e => !g.absorbed.getD e true
  let reach (e : Nat) := ((outside.getD e none).getD 0)
  let kept := live.filter fun e => 0 < reach e
  let g := (live.filter fun e => reach e == 0).foldl (fun g e => g.absorb e me) g
  let vars := (g.neighbours.getD i []).filter fun j =>
    j != me && !inFront.getD j false && 0 < g.weight.getD j 0
  let w := g.weight.getD i 0
  if kept.isEmpty && vars.isEmpty then
    { p with
      graph :=
        { g with
          parent := g.parent.setIfInBounds i (some me)
          weight := g.weight.setIfInBounds i 0
          eliminated := g.eliminated + w }
      pivotWeight := p.pivotWeight + w
      frontWeight := p.frontWeight - w }
  else
    let d := total (kept.map reach) + total (vars.map fun j => g.weight.getD j 0)
    { p with
      graph :=
        { g with
          degree := g.degree.modify i (Nat.min d)
          elements := g.elements.setIfInBounds i (me :: kept.rotateLeft)
          neighbours := g.neighbours.setIfInBounds i vars.rotateLeft }
      hashed := p.hashed.modify ((total kept + total vars) % g.size) (i :: ·) }

def indistinguishable (g : QuotientGraph) (i j : Nat) : Bool :=
  let elements (k : Nat) := (g.elements.getD k []).tail
  let near (k : Nat) := g.neighbours.getD k []
  (elements i).length == (elements j).length && (near i).length == (near j).length &&
    (elements j ++ near j).all (elements i ++ near i).contains

def merge (g : QuotientGraph) : Nat → List Nat → QuotientGraph
  | 0, _ => g
  | _, [] => g
  | fuel + 1, i :: rest =>
    let (same, other) := rest.partition (g.indistinguishable i)
    let g := same.foldl (fun g j =>
      { g with
        parent := g.parent.setIfInBounds j (some i)
        weight := (g.weight.modify i (· + g.weight.getD j 0)).setIfInBounds j 0 }) g
    merge g fuel other

def reenter (frontWeight remaining : Nat) (g : QuotientGraph) (i : Nat) : QuotientGraph :=
  let w := g.weight.getD i 0
  let d := Nat.min (g.degree.getD i 0 + frontWeight - w) (remaining - w)
  { g with
    buckets := g.buckets.modify d (i :: ·)
    degree := g.degree.setIfInBounds i d
    minDegree := Nat.min g.minDegree d }

def eliminateNext (g : QuotientGraph) : Option QuotientGraph := do
  let (d, me) ← lowest? g.buckets (g.size + 1) g.minDegree
  let front := g.front me
  let pivotWeight := g.weight.getD me 0
  let frontWeight := total (front.map fun i => g.weight.getD i 0)
  let buckets := front.foldl (fun b i => b.modify (g.degree.getD i 0) (List.erase · i))
    (g.buckets.modify d List.tail)
  -- the new element stands for all that `me` was in
  let g := (g.elements.getD me []).foldl (fun g e => g.absorb e me)
    { g with
      buckets, minDegree := d, eliminated := g.eliminated + pivotWeight
      frontSize := g.frontSize.setIfInBounds me (pivotWeight + frontWeight) }
  let inFront := front.foldl (fun marks i => marks.setIfInBounds i true)
    (Array.replicate g.size false)
  let p := front.foldl (prune me inFront (g.outside front))
    { graph := g, pivotWeight, frontWeight, hashed := Array.replicate g.size [] }
  -- variables with the same neighbours have the same hash
  let g := p.hashed.foldl (fun g chain => g.merge chain.length chain) p.graph
  let kept := front.filter fun i => 0 < g.weight.getD i 0
  let g := kept.foldl (reenter p.frontWeight (g.size - g.eliminated)) g
  return { g with
    degree := g.degree.setIfInBounds me p.frontWeight
    weight := g.weight.setIfInBounds me p.pivotWeight
    elements := g.elements.setIfInBounds me []
    neighbours := g.neighbours.setIfInBounds me kept
    absorbed := g.absorbed.setIfInBounds me kept.isEmpty }

def eliminateAll (g : QuotientGraph) : Nat → QuotientGraph
  | 0 => g
  | fuel + 1 =>
    if g.eliminated < g.size then
      match g.eliminateNext with
      | some g => eliminateAll g fuel
      | none => g
    else g

end QuotientGraph

end NonlinearOpt
