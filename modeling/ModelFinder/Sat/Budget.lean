import ModelFinder.Data.Ascending
import ModelFinder.Sat.Weights
import Std.Data.HashMap

/-! Bounds on the weight of true literals as clauses. Weighted literals are looked at one after the
other, and an auxiliary variable stands for a budget that is left at some point: if it is true, the
literals from there on do not weigh more. The clauses say what a budget leaves for the literals
after the next one, whether that is true or false. So they allow every assignment of the other
variables, with auxiliary variables that are all false, and where the variable of the first budget
is true exactly those within it. Literals that weigh more than any budget in question are assumed to
be false instead. -/
namespace ModelFinder

structure Stage where
  item : Int
  weight : Nat
  /-- The weight of all literals from here on. -/
  total : Nat
  /-- All weights that literals from here on can have together, in ascending order, if few. -/
  sums : Option (Array Nat)

namespace Stage

/-- Up to how many different weights are kept at hand. -/
def maxSums : Nat := 1024

def extendSums (weight : Nat) (sums : Array Nat) : Option (Array Nat) :=
  let sums := (sums.toList.merge (sums.toList.map (· + weight)) Nat.ble).eraseReps
  if sums.length ≤ maxSums then some sums.toArray else none

def precede : Int × Nat → Nat × Option (Array Nat) × List Stage →
    Nat × Option (Array Nat) × List Stage
  | (item, weight), (total, sums, stages) =>
      let total := weight + total
      let sums := sums.bind (extendSums weight)
      (total, sums, ⟨item, weight, total, sums⟩ :: stages)

def ofItems (items : List (Int × Nat)) : List Stage :=
  (items.foldr precede (0, some #[0], [])).2.2

/-- The last of the ascending numbers at positions `low` to `high - 1` that is at most `budget`,
provided that the first is. -/
def lastWithin (sums : Array Nat) (budget : Nat) : (steps low high : Nat) → Nat
  | 0, low, _ => sums.getD low 0
  | steps + 1, low, high =>
      if high ≤ low + 1 then sums.getD low 0
      else
        let middle := (low + high) / 2
        if sums.getD middle 0 ≤ budget then lastWithin sums budget steps middle high
        else lastWithin sums budget steps low middle

/-- The least budget that allows the same literals. -/
def tighten (stage : Stage) (budget : Nat) : Nat :=
  match stage.sums with
  | none => budget
  | some sums => lastWithin sums budget sums.size 0 sums.size

end Stage

structure Auxiliaries where
  nodes : Std.HashMap (Nat × Nat) Nat
  /-- The latest auxiliary variable, or the last variable before all of them. -/
  last : Nat
  /-- The weighted variables above that one, in ascending order. -/
  claimed : List Nat

/-- Weighted literals of which some are within the means of no budget, the stages of the other ones,
and the auxiliary variables in use. -/
structure Budgets where
  excluded : List Int
  stages : List Stage
  auxiliaries : Auxiliaries

namespace Budgets

def unclaimed : List Nat → Nat → Nat × List Nat
  | [], n => (n, [])
  | v :: rest, n =>
      if v < n then unclaimed rest n else if v = n then unclaimed rest (n + 1) else (n, v :: rest)

/-- Weighted literals of which the true ones are to weigh at most `budget`, or less. Auxiliary
variables come after the variable `last`. -/
def make (items : List (Int × Nat)) (last budget : Nat) : Budgets :=
  let (payable, excessive) := items.partition (·.2 ≤ budget)
  let claimed := (items.map (·.1.natAbs)).mergeSort Nat.ble
  ⟨excessive.map (-·.1), Stage.ofItems payable, ⟨∅, last, claimed⟩⟩

structure Walk where
  auxiliaries : Auxiliaries
  clauses : Array Clause
  fresh : List Nat

/-- The literal of a budget at a stage. A budget that pays for all that is left needs none, and for
the last literal it is the negation of that literal. -/
def Walk.node (w : Walk) (number : Nat) (stage : Option Stage) (budget : Nat) : Option Int × Walk :=
  match stage with
  | none => (none, w)
  | some stage =>
      if stage.total ≤ budget then (none, w)
      else if stage.total = stage.weight then (some (-stage.item), w)
      else
        let budget := stage.tighten budget
        let ⟨nodes, last, claimed⟩ := w.auxiliaries
        match nodes[(number, budget)]? with
        | some node => (some node, w)
        | none =>
            let (node, claimed) := unclaimed claimed (last + 1)
            (some node, { w with
              auxiliaries := ⟨nodes.insert (number, budget) node, node, claimed⟩
              fresh := budget :: w.fresh })

def Walk.pass (w : Walk) (number : Nat) (stage : Option Stage) (budget : Nat) (premise : Clause) :
    Walk :=
  match w.node number stage budget with
  | (none, w) => w
  | (some node, w) => { w with clauses := w.clauses.push (premise ++ [node]) }

/-- The clauses of a budget at a stage: it is passed on, less the weight of the literal where that
is true; where it cannot pay for the literal, the literal is false. -/
def Walk.expand (number : Nat) (stage : Stage) (after : Option Stage) (w : Walk) (budget : Nat) :
    Walk :=
  let here : Int := -(w.auxiliaries.nodes.getD (number, budget) 0 : Int)
  let w := w.pass (number + 1) after budget [here]
  if stage.weight ≤ budget then
    w.pass (number + 1) after (budget - stage.weight) [here, -stage.item]
  else { w with clauses := w.clauses.push [here, -stage.item] }

def walk : (number : Nat) → List Stage → Walk → Walk
  | _, [], w => w
  | number, stage :: rest, w =>
      walk (number + 1) rest
        (w.fresh.foldl (Walk.expand number stage rest.head?) { w with fresh := [] })

def enforce (b : Budgets) (budget : Nat) : List Int × Array Clause × Budgets :=
  let (root, start) := (⟨b.auxiliaries, #[], []⟩ : Walk).node 0 b.stages.head? budget
  let w := walk 0 b.stages start
  (b.excluded ++ root.toList, w.clauses, { b with auxiliaries := w.auxiliaries })

instance : WeightEncoder Budgets where
  start := make
  enforce b budget := .ok (b.enforce budget)
  last b := b.auxiliaries.last

end Budgets

end ModelFinder
