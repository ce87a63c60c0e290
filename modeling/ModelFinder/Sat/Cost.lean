import ModelFinder.Data.Capacity
import ModelFinder.Sat.Budget
import ModelFinder.Sat.Store

/-! Models of least weight: after a first model, cheaper ones are asked for until there is none. Any
encoder can bound the weight; the search as it is run uses budgets. -/
namespace ModelFinder

namespace Store

variable {σ : Type} [Backend σ]

def setCost (s : Store σ) (var weight : Nat) : Store σ :=
  { s with costs := if weight = 0 then s.costs.erase var else s.costs.insert var weight }

def costOf (s : Store σ) (model : Nat → Bool) : Nat :=
  ((s.costs.entries.filter fun entry => model entry.1).map (·.2)).foldr (· + ·) 0

def items (s : Store σ) : List (Int × Nat) :=
  s.costs.entries.map fun entry => (signedWord entry.1, entry.2)

def hideAbove (s : Store σ) (limit : Nat) : Store σ :=
  { s with model := fun v => decide (v ≤ limit) && s.model v }

def pushAll (s : Store σ) (clauses : Array Clause) : Bool × Store σ :=
  clauses.foldl (fun (accepted, s) clause => if accepted then s.push clause else (accepted, s))
    (true, s)

section Encoder

variable {β : Type} [WeightEncoder β]

def addBudget (s : Store σ) (encoder : β) (budget : Nat) :
    Except Failure (List Int × β) × Store σ :=
  match WeightEncoder.enforce encoder budget with
  | .error message => (.error (.backend message), s)
  | .ok (roots, clauses, encoder) =>
      let s := s.addAuxiliaries (WeightEncoder.last encoder - s.numVars)
      let (accepted, s) := s.pushAll clauses
      (if accepted then .ok (roots, encoder) else .error (.backend "clause rejected"), s)

/-- Improves on a model until no cheaper one is left. The weight goes down in every round, so it
bounds their number. Variables above `limit` are no part of a model. -/
def improve (limit : Nat) : (rounds : Nat) → Store σ → (encoder : β) → (model : Nat → Bool) →
    Except Failure Bool × Store σ
  | 0, s, _, model => (.ok true, { s with model })
  | rounds + 1, s, encoder, model =>
      let best := s.costOf model
      if best = 0 then (.ok true, { s with model })
      else
        match s.addBudget encoder (best - 1) with
        | (.error failure, s) => (.error failure, s)
        | (.ok (roots, encoder), s) =>
            match s.solve roots with
            | (.error failure, s) => (.error failure, s)
            | (.ok false, s) => (.ok true, { s with model })
            | (.ok true, s) =>
                let s := s.hideAbove limit
                improve limit rounds s encoder s.model

variable (β) in
/-- Looks for a model of the clauses and the live constraints of least weight. A weighted variable
that is not in use counts as false. -/
def solveMinCostBy (s : Store σ) : Except Failure Bool × Store σ :=
  match s.solve [] with
  | (.ok true, s) =>
      let best := s.costOf s.model
      improve s.numVars (best + 1) s (WeightEncoder.start s.items s.numVars (best - 1) : β) s.model
  | answer => answer

end Encoder

def solveMinCost (s : Store σ) : Except Failure Bool × Store σ := s.solveMinCostBy Budgets

end Store

end ModelFinder
