import ModelFinder.Cnf.Encoder
import ModelFinder.Encoding.Grounding
import ModelFinder.Encoding.Log

/-! From a formula and bounds to clauses. The conjuncts of the formula are grounded in order over
one circuit. If their conjunction folds to a constant there is nothing to search for; otherwise it
is asserted, or, when a log is wanted, every conjunct is defined and becomes an assumption. -/
namespace ModelFinder

/-- A formula with its clauses: an assignment of the numbered tuples extends to a model of the
clauses and the assumptions exactly when the formula is true in the instance it stands for. -/
structure Encoding where
  numbering : Numbering
  bounds : Bounds
  log : Option Log
  cnf : Cnf
  assumptions : List Int

structure Folded where
  value : Bool
  formula : Formula
  bounds : Bounds
  log : Option Log

inductive Encoded where
  | folded (result : Folded)
  | clauses (result : Encoding)

def Encoder.defineAll (c : Circuit) : Encoder → List Value → List Int × Encoder
  | e, [] => ([], e)
  | e, v :: rest =>
      let (literal, e) := e.define c v
      let (literals, e) := defineAll c e rest
      (literal.toList ++ literals, e)

def groundConjuncts (leaves : Leaves) (conjuncts : List Formula) : Build (List Value × Value) := do
  let values ← Formula.groundAll leaves conjuncts .empty
  return (values, ← Circuit.all values)

/-- Encodes a formula within bounds. Faults of the input come first: an unbound relation, then what
grounding finds. -/
def Formula.encode (f : Formula) (b : Bounds) (sharing logged : Bool) : Except Error Encoded := do
  b.covers f
  let leaves := Leaves.ofBounds b
  let conjuncts := f.conjuncts
  let ((values, root), circuit) ← (groundConjuncts leaves conjuncts).run (leaves.circuit sharing)
  let log := if logged then some (List.zipWith (fun f v => ⟨f, v.label⟩) conjuncts values) else none
  match root with
  | .const value => return .folded ⟨value, f, b, log⟩
  | .lit _ =>
      let start := Encoder.empty circuit
      let (assumptions, encoder) :=
        if logged then start.defineAll circuit values else ([], start.assert circuit root)
      return .clauses ⟨leaves.numbering, b, log, encoder.cnf, assumptions⟩

end ModelFinder
