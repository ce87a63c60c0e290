import ModelFinder.Cnf.Basic

/-! Weights of true literals, and what a search for a light model asks of an encoder that bounds them
by clauses. -/
namespace ModelFinder

def weigh (s : Nat → Bool) (items : List (Int × Nat)) : Nat :=
  ((items.filter fun item => litHolds s item.1).map (·.2)).foldr (· + ·) 0

/-- A way to bound the weight of true literals by clauses. The state `β` tells which clauses were
given before. -/
class WeightEncoder (β : Type) where
  /-- Starts with literals over the variables up to `last`. No budget will exceed the one given. -/
  start : (items : List (Int × Nat)) → (last budget : Nat) → β
  /-- The literals that enforce a budget and the clauses they need beyond those given before, or why
  there are none. -/
  enforce : β → (budget : Nat) → Except String (List Int × Array Clause × β)
  /-- The latest variable in use. -/
  last : β → Nat

end ModelFinder
