import Dataflow.Graph.Validity
import Dataflow.Word

/-!
# Balanced firing counts

Over one period every edge must gain what it loses: `production * count source` equals
`consumption * count target`. `solve` finds the least positive counts of each connected component. It
gives the lowest node of the component the ratio 1, carries ratios along the edges in breadth-first
order, and at last clears the denominators and divides by the common factor. All products stay in
machine words; one that does not fit is an error at the node it was meant for.
-/

namespace Dataflow

/-- How often a node fires relative to the first node of its component, in lowest terms. A rate of
zero leads to a zero in `den` or `num`, which no positive ratio equals. -/
structure Ratio where
  num : Nat
  den : Nat
  deriving DecidableEq, Repr

namespace Ratio

def one : Ratio := ⟨1, 1⟩

/-- The common divisor of two words, where nothing divides but 1 if both are zero. -/
def divisor (a b : Nat) : Nat := max (Nat.gcd a b) 1

def reduced (num den : Nat) : Ratio := ⟨num / divisor num den, den / divisor num den⟩

/-- The ratio times `mul` over `div`, with common factors taken out before the products are. -/
def scale? (r : Ratio) (mul div : Nat) : Option Ratio := do
  let outer := divisor r.num div
  let inner := divisor mul r.den
  let num ← Word.checked (r.num / outer * (mul / inner))
  let den ← Word.checked (r.den / inner * (div / outer))
  return reduced num den

end Ratio

/-- Firings of each node in one period, by node index. -/
structure Repetitions where
  counts : List Nat
  deriving DecidableEq, Repr

namespace Repetitions

/-- The count of a node; 0 for an unknown one. -/
def get (r : Repetitions) (n : NodeId) : Nat := r.counts[n]?.getD 0

def total (r : Repetitions) : Nat := r.counts.foldr (· + ·) 0

end Repetitions

/-! ## Ratios of one component -/

/-- The ratios found so far, and the nodes of the component at hand in the order they were reached. -/
structure Spread where
  ratios : List (Option Ratio)
  reached : List NodeId
  deriving DecidableEq, Repr

namespace Spread

def ratio? (s : Spread) (n : NodeId) : Option Ratio := s.ratios[n]?.join

def reach (s : Spread) (n : NodeId) (r : Ratio) : Spread :=
  ⟨s.ratios.set n (some r), s.reached ++ [n]⟩

end Spread

namespace Graph

/-- The node at the other end of an edge seen from `n`, and the ratio it needs for balance when `n`
has the ratio `r`. A self-loop is seen from its source. -/
def implied (e : Edge) (n : NodeId) (r : Ratio) : NodeId × Option Ratio :=
  if e.source.node = n then (e.target.node, r.scale? e.production.toNat e.consumption.toNat)
  else (e.source.node, r.scale? e.consumption.toNat e.production.toNat)

/-- Carries the ratio `r` of node `n` over one of its edges. -/
def carry (g : Graph) (n : NodeId) (r : Ratio) (s : Spread) (id : EdgeId) :
    Except GraphError Spread :=
  match g.edges[id]? with
  | none => .ok s
  | some e =>
    match implied e n r with
    | (other, none) => .error (.rateOverflow other)
    | (other, some needed) =>
      match s.ratio? other with
      | none => .ok (s.reach other needed)
      | some known => if known = needed then .ok s else .error (.inconsistent id)

/-- Carries the ratio of a reached node over all its edges, outputs first. -/
def expand (g : Graph) (s : Spread) (n : NodeId) : Except GraphError Spread :=
  (g.outputEdges n ++ g.inputEdges n).foldlM (g.carry n ((s.ratio? n).getD .one)) s

/-- Reaches the whole component of `seed`. The node reached at position `i` is expanded in round `i`,
and a graph has no more rounds than nodes. -/
def component (g : Graph) (ratios : List (Option Ratio)) (seed : NodeId) :
    Except GraphError Spread :=
  (List.range g.nodes.length).foldlM
    (fun s round ↦ match s.reached[round]? with
      | none => .ok s
      | some n => g.expand s n)
    (Spread.reach ⟨ratios, []⟩ seed .one)

end Graph

/-! ## Counts of one component -/

namespace Spread

/-- The least common denominator of the component. -/
def denominator (s : Spread) : Except GraphError Nat :=
  s.reached.foldlM
    (fun (acc : Nat) n ↦
      match Word.checked (Nat.lcm acc ((s.ratio? n).getD .one).den) with
      | none => .error (.rateOverflow n)
      | some l => .ok l)
    1

/-- The numerator of a node over the common denominator `d`. -/
def scaled (s : Spread) (d : Nat) (n : NodeId) : Nat :=
  let r := (s.ratio? n).getD .one
  r.num * (d / r.den)

/-- The common factor of all numerators over the common denominator `d`. -/
def factor (s : Spread) (d : Nat) : Except GraphError Nat :=
  s.reached.foldlM
    (fun (acc : Nat) n ↦
      match Word.checked (s.scaled d n) with
      | none => .error (.rateOverflow n)
      | some v => .ok (Nat.gcd acc v))
    0

/-- One more than the largest count of a node. -/
def countLimit : Nat := 4294967296

/-- Writes the counts of the component into `counts`. -/
def settle (s : Spread) (counts : List Nat) : Except GraphError (List Nat) := do
  let d ← s.denominator
  let f ← s.factor d
  s.reached.foldlM
    (fun (acc : List Nat) n ↦
      let count := s.scaled d n / max f 1
      if count < countLimit then .ok (acc.set n count) else .error (.rateOverflow n))
    counts

end Spread

/-! ## All components -/

/-- Ratios of all nodes reached by now, and the counts of their components. -/
structure Balance where
  ratios : List (Option Ratio)
  counts : List Nat
  deriving DecidableEq, Repr

namespace Graph

/-- Settles the component of `seed`, unless that has been done. -/
def balanceFrom (g : Graph) (b : Balance) (seed : NodeId) : Except GraphError Balance :=
  match b.ratios[seed]?.join with
  | some _ => .ok b
  | none => do
    let s ← g.component b.ratios seed
    let counts ← s.settle b.counts
    return ⟨s.ratios, counts⟩

/-- The least positive counts that balance every edge. -/
def solve (g : Graph) : Except GraphError Repetitions := do
  let size := g.nodes.length
  let b ← (List.range size).foldlM g.balanceFrom ⟨List.replicate size none, List.replicate size 0⟩
  return ⟨b.counts⟩

end Graph

end Dataflow
