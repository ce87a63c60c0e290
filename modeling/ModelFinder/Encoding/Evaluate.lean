import ModelFinder.Encoding.Grounding

/-! Evaluation in an instance: grounding over bounds that leave no choice. -/
namespace ModelFinder

def Formula.evaluate (f : Formula) (m : Instance) (sharing : Bool) : Except Error Bool := do
  let b ← m.toBounds
  b.covers f
  let leaves := Leaves.ofBounds b
  let (value, _) ← (f.ground leaves .empty).run (leaves.circuit sharing)
  match value.const? with
  | some truth => return truth
  | none => throw (.notConstant f.render)

def Expr.evaluate (e : Expr) (m : Instance) (sharing : Bool) : Except Error TupleSet := do
  let b ← m.toBounds
  let leaves := Leaves.ofBounds b
  let (matrix, _) ← (e.ground leaves .empty).run (leaves.circuit sharing)
  if matrix.cells.values.any (·.const?.isNone) then throw (.notConstant e.render)
  TupleSet.ofIndices b.univ e.arity matrix.trueIndices

end ModelFinder
