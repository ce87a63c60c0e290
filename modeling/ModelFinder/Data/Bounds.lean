import ModelFinder.Data.SortedTable
import ModelFinder.Data.Table
import ModelFinder.Data.TupleSet
import ModelFinder.Logic.Leaf

/-! Bounds: for each relation the tuples it must have and the tuples it may have, and for some
integers the atom that stands for each. Relations keep the order in which they were first bound;
a failed binding changes nothing. -/
namespace ModelFinder

structure Range where
  lower : TupleSet
  upper : TupleSet
deriving DecidableEq

def Range.unknowns (range : Range) : List Nat :=
  (range.upper.indices.diff range.lower.indices).toList

structure Bounds where
  univ : Universe
  relations : Table Relation Range
  ints : SortedTable Int TupleSet

namespace Bounds

def empty (u : Universe) : Bounds := ⟨u, .empty, .empty⟩

def range? (b : Bounds) (r : Relation) : Option Range := b.relations.find? r

def contains (b : Bounds) (r : Relation) : Bool := b.relations.contains r

def bind (b : Bounds) (r : Relation) (lower upper : TupleSet) : Except Error Bounds :=
  if lower.univ ≠ b.univ ∨ upper.univ ≠ b.univ then .error .foreignBound
  else if lower.arity ≠ r.arity ∨ upper.arity ≠ r.arity then
    .error (.relationArity lower.arity r.arity)
  else if lower.subset upper then .ok { b with relations := b.relations.insert r ⟨lower, upper⟩ }
  else .error (.lowerNotInUpper r.name)

def bindExactly (b : Bounds) (r : Relation) (tuples : TupleSet) : Except Error Bounds :=
  b.bind r tuples tuples

def bindUpper (b : Bounds) (r : Relation) (upper : TupleSet) : Except Error Bounds :=
  b.bind r (.empty b.univ r.arity) upper

def bindInt (b : Bounds) (value : Int) (tuples : TupleSet) : Except Error Bounds :=
  if tuples.univ ≠ b.univ then .error .foreignBound
  else if tuples.arity ≠ 1 ∨ tuples.size ≠ 1 then .error (.integerBound value tuples.render)
  else .ok { b with ints := b.ints.insert value tuples }

def unknownCount (b : Bounds) : Nat :=
  (b.relations.entries.map fun (_, range) => range.upper.size - range.lower.size).foldr (· + ·) 0

def freshId (b : Bounds) : Nat := (b.relations.keys.map (·.id + 1)).foldl max 0

def describe (b : Bounds) : String :=
  let entry := fun ((r, range) : Relation × Range) =>
    Text.quote r.name ++ ": [" ++ range.lower.render ++ ", " ++ range.upper.render ++ "]"
  "\x7b" ++ ", ".intercalate (b.relations.entries.map entry) ++ "\x7d"

end Bounds

end ModelFinder
