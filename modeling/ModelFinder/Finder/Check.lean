import ModelFinder.Data.Instance
import ModelFinder.Encoding.Evaluate

/-! Checks of an answer against its problem: what a model costs, and whether it could do without one
of its tuples. -/
namespace ModelFinder

def Instance.extras (m : Instance) (r : Relation) (range : Range) : Nat :=
  match m.tuples? r with
  | none => 0
  | some tuples => (tuples.indices.diff range.lower.indices).size

def Instance.cost (m : Instance) (b : Bounds) (weight : Relation → Nat) : Nat :=
  (b.relations.entries.map fun entry => weight entry.1 * m.extras entry.1 entry.2).foldr (· + ·) 0

def Instance.dropOne (m : Instance) (b : Bounds) : List Instance :=
  b.relations.entries.flatMap fun (r, range) =>
    match m.tuples? r with
    | none => []
    | some tuples =>
        (tuples.indices.diff range.lower.indices).toList.map fun index =>
          let smaller := { tuples with indices := tuples.indices.erase index }
          { m with relations := m.relations.insert r smaller }

def Formula.tight (f : Formula) (m : Instance) (b : Bounds) : Except Error Bool := do
  let values ← (m.dropOne b).mapM fun smaller => f.evaluate smaller true
  return !values.any id

end ModelFinder
