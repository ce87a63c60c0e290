import ModelFinder.Data.Containment
import ModelFinder.Logic.Semantics

/-! Models and minimal models of a formula within bounds, by meaning alone. -/
namespace ModelFinder

def Instance.interpretation (m : Instance) : Interpretation where
  size := m.univ.size
  tuples r t := ∃ set, m.tuples? r = some set ∧ ∃ tuple ∈ set.tuples, tuple.positions = t

def Assignment.none : Assignment := fun _ _ => False

def Formula.IsModel (f : Formula) (b : Bounds) (m : Instance) : Prop :=
  m.Within b ∧ f.holds m.interpretation .none

def Formula.IsMinimalModel (f : Formula) (b : Bounds) (m : Instance) : Prop :=
  f.IsModel b m ∧ ∀ other, f.IsModel b other → Instance.PartOf b other m → Instance.PartOf b m other

end ModelFinder
