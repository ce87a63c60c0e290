import ModelFinder.Data.Instance

/-! Order on instances: which lie within bounds, and which are part of which. -/
namespace ModelFinder

def TupleSet.Le (s other : TupleSet) : Prop := s.subset other = true

def Instance.Within (m : Instance) (b : Bounds) : Prop :=
  m.univ = b.univ ∧ ∀ r range, b.range? r = some range →
    ∃ tuples, m.tuples? r = some tuples ∧ range.lower.Le tuples ∧ tuples.Le range.upper

def Instance.PartOf (b : Bounds) (m other : Instance) : Prop :=
  ∀ r ∈ b.relations.keys, ∀ tuples larger,
    m.tuples? r = some tuples → other.tuples? r = some larger → tuples.Le larger

/-- What every sequence of bindings keeps true of bounds. -/
structure Bounds.WellFormed (b : Bounds) : Prop where
  distinct : b.relations.keys.Nodup
  ranges : ∀ r range, b.range? r = some range →
    range.lower.univ = b.univ ∧ range.upper.univ = b.univ ∧
    range.lower.arity = r.arity ∧ range.upper.arity = r.arity ∧ range.lower.Le range.upper
  ints : ∀ value tuples, b.ints.find? value = some tuples →
    tuples.univ = b.univ ∧ tuples.arity = 1 ∧ tuples.size = 1

end ModelFinder
