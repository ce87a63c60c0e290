import ModelFinder.Circuit.Relational
import ModelFinder.Encoding.Numbering
import ModelFinder.Logic.Expr

/-! The leaves of expressions as symbolic relations, and the scope of variables. -/
namespace ModelFinder

structure Leaves where
  bounds : Bounds
  numbering : Numbering

namespace Leaves

def ofBounds (b : Bounds) : Leaves := ⟨b, .ofBounds b⟩

def circuit (l : Leaves) (sharing : Bool) : Circuit := .empty l.numbering.count sharing

/-- A bound relation: true at the tuples it must have, a variable at those it may have. -/
def relation (l : Leaves) (r : Relation) : Build Matrix := do
  let some range := l.bounds.range? r | throw (.unboundRelation r.name)
  let dims ← Dims.make l.bounds.univ.size r.arity
  let (first, _) := l.numbering.range r
  let circuit ← get
  let unknown ← ((l.numbering.unknowns r).zipIdx first).mapM fun (index, var) =>
    (circuit.input var).map (index, ·)
  let known := range.lower.indices.toList.map (·, Value.const true)
  return .ofCells dims (known ++ unknown)

def const (l : Leaves) : ConstExpr → Except Error Matrix
  | .univ => do
      let n := l.bounds.univ.size
      return .ofIndices (← Dims.make n 1) (List.range n)
  | .none => do return .empty (← Dims.make l.bounds.univ.size 1)
  | .iden => Matrix.identity l.bounds.univ.size

end Leaves

/-- The symbolic relations of the variables in scope, innermost first. -/
structure Scope where
  bindings : List (Variable × Matrix)

namespace Scope

def empty : Scope := ⟨[]⟩

def push (scope : Scope) (v : Variable) (m : Matrix) : Scope := ⟨(v, m) :: scope.bindings⟩

def pop (scope : Scope) : Scope := ⟨scope.bindings.tail⟩

def find? (scope : Scope) (v : Variable) : Option Matrix := scope.bindings.lookup v

def replaceFirst (v : Variable) (m : Matrix) : List (Variable × Matrix) → List (Variable × Matrix)
  | [] => []
  | (w, old) :: rest => if w = v then (w, m) :: rest else (w, old) :: replaceFirst v m rest

def replace (scope : Scope) (v : Variable) (m : Matrix) : Scope :=
  ⟨replaceFirst v m scope.bindings⟩

end Scope

end ModelFinder
