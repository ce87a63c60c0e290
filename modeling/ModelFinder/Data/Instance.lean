import ModelFinder.Data.Bounds

/-! Instances: a value for each of some relations, and the atoms of some integers. Relations keep
the order in which they were first given a value. -/
namespace ModelFinder

structure Instance where
  univ : Universe
  relations : Table Relation TupleSet
  ints : SortedTable Int TupleSet

namespace Instance

def empty (u : Universe) : Instance := ⟨u, .empty, .empty⟩

def tuples? (m : Instance) (r : Relation) : Option TupleSet := m.relations.find? r

def contains (m : Instance) (r : Relation) : Bool := m.relations.contains r

def insert (m : Instance) (r : Relation) (tuples : TupleSet) : Except Error Instance :=
  if tuples.univ ≠ m.univ then .error .foreignValue
  else if tuples.arity ≠ r.arity then .error (.relationArity tuples.arity r.arity)
  else .ok { m with relations := m.relations.insert r tuples }

def insertInt (m : Instance) (value : Int) (tuples : TupleSet) : Except Error Instance :=
  if tuples.univ ≠ m.univ ∨ tuples.arity ≠ 1 ∨ tuples.size ≠ 1 then .error (.integerValue value)
  else .ok { m with ints := m.ints.insert value tuples }

/-- Whether two instances give the same relations the same values, in whatever order, and the
same integers the same atoms. -/
def agrees (m other : Instance) : Bool :=
  m.univ == other.univ
    && m.relations.entries.length == other.relations.entries.length
    && m.relations.entries.all (fun (r, tuples) => other.tuples? r == some tuples)
    && m.ints == other.ints

def render (m : Instance) : String :=
  let relation := fun ((r, tuples) : Relation × TupleSet) => r.name ++ "=" ++ tuples.render
  let integer := fun ((value, tuples) : Int × TupleSet) => s!"{value}=" ++ tuples.render
  let relations := ", ".intercalate (m.relations.entries.map relation)
  let ints := ", ".intercalate (m.ints.entries.map integer)
  "relations: \x7b" ++ relations ++ "\x7d"
    ++ (if m.ints.entries.isEmpty then "" else " ints: \x7b" ++ ints ++ "\x7d")

def describe (m : Instance) : String := "Instance(" ++ m.render ++ ")"

def pad (m : Instance) (b : Bounds) : Except Error Instance := do
  let padded ← b.relations.entries.foldlM (fun m (r, range) =>
    if m.contains r then .ok m else m.insert r range.lower) m
  b.ints.entries.foldlM (fun m (value, tuples) => m.insertInt value tuples) padded

def ofLower (b : Bounds) : Except Error Instance :=
  (empty b.univ).pad b

def toBounds (m : Instance) : Except Error Bounds :=
  m.relations.entries.foldlM (fun b (r, tuples) => b.bindExactly r tuples) (.empty m.univ)

end Instance

end ModelFinder
