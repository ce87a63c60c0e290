import ModelFinder.Cnf.Basic
import ModelFinder.Error

/-! What the search for models asks of a satisfiability solver, and how such a search can fail. -/
namespace ModelFinder

/-- The answer of a solver to a call under assumptions. A core is a list of assumptions that cannot
hold together with the clauses; it is worked out only when it is read. -/
inductive Answer where
  | sat (model : Nat → Bool)
  | unsat (core : Thunk (List Int))
  | interrupted
  | failed (message : String)

class Backend (σ : Type) where
  /-- Forgets all clauses and variables. -/
  reset : σ → σ
  /-- Makes the variables up to a number known. -/
  reserve : σ → Nat → σ
  /-- Adds a clause for good, or refuses it. -/
  add : σ → Clause → Bool × σ
  /-- Looks for a model of the clauses and the assumptions. -/
  solve : σ → List Int → Answer × σ

inductive Failure where
  | aborted
  | timedOut
  | backend (message : String)
deriving DecidableEq, Repr

namespace Failure

def message : Failure → String
  | aborted => "solver call aborted"
  | timedOut => "solver deadline exceeded"
  | backend message => s!"backend failure: {message}"

def toError : Failure → Error
  | aborted => .aborted
  | timedOut => .timedOut
  | backend message => .backend message

end Failure

end ModelFinder
