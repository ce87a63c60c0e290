import ModelFinder.Data.Ascending
import ModelFinder.Data.Table
import ModelFinder.Sat.Backend

/-! A clause store with constraints that can be taken back, over a solver that only ever adds. A
constraint gets a selector variable of its own: its clause is added together with the negated
selector, and the selector is assumed in every search while the constraint is live. Taking it back
adds the negated selector as a clause. Selectors and other auxiliary variables share one numbering
with the variables handed out, but are left out of the counts. -/
namespace ModelFinder

structure Store (σ : Type) where
  backend : σ
  /-- All variables in use, auxiliary ones included. -/
  numVars : Nat
  auxVars : Nat
  /-- How many permanent clauses were offered, refused ones included. -/
  numClauses : Nat
  /-- The latest model; false beyond the variables it was found for. -/
  model : Nat → Bool
  /-- The selectors of the live constraints. -/
  selectors : IndexSet
  /-- The assumptions that failed in the latest answered search. -/
  failed : Thunk (List Int)
  /-- The weight of each weighted variable, never zero. -/
  costs : Table Nat Nat

namespace Store

variable {σ : Type}

def empty (backend : σ) : Store σ :=
  ⟨backend, 0, 0, 0, fun _ => false, .empty, .pure [], .empty⟩

def numVariables (s : Store σ) : Nat := s.numVars - s.auxVars

def numConstraints (s : Store σ) : Nat := s.selectors.size

variable [Backend σ]

def addVariables (s : Store σ) (count : Nat) : Store σ :=
  if count = 0 then s
  else
    let numVars := s.numVars + count
    { s with numVars, backend := Backend.reserve s.backend numVars }

def newVariable (s : Store σ) : Nat × Store σ :=
  let s := s.addVariables 1
  (s.numVars, s)

def addAuxiliaries (s : Store σ) (count : Nat) : Store σ :=
  { s.addVariables count with auxVars := s.auxVars + count }

def push (s : Store σ) (clause : Clause) : Bool × Store σ :=
  let (accepted, backend) := Backend.add s.backend clause
  (accepted, { s with backend })

def addClause (s : Store σ) (clause : Clause) : Bool × Store σ :=
  { s with numClauses := s.numClauses + 1 }.push clause

/-- Adds a constraint and gives its selector as a handle, or nothing if the clause was refused. The
selector is used up in either case. -/
def addConstraint (s : Store σ) (clause : Clause) : Option Nat × Store σ :=
  let s := s.addAuxiliaries 1
  let selector := s.numVars
  let (accepted, s) := s.push (clause ++ [-(selector : Int)])
  if accepted then (some selector, { s with selectors := s.selectors.insert selector })
  else (none, s)

/-- Takes a constraint back. A handle that is not live is ignored, and so is a refusal of the
clause that frees the selector: the constraint is no longer enforced either way. -/
def removeConstraint (s : Store σ) (handle : Nat) : Store σ :=
  if s.selectors.contains handle then
    ({ s with selectors := s.selectors.erase handle }.push [-(handle : Int)]).2
  else s

/-- Looks for a model of the clauses, the live constraints and the assumptions. A model found
replaces the latest one; without a model the failed assumptions are those of the core that were
asked for; a failed call changes neither. -/
def solve (s : Store σ) (assumptions : List Int) : Except Failure Bool × Store σ :=
  let selected := s.selectors.toList.map Int.ofNat
  let (answer, backend) := Backend.solve s.backend (selected ++ assumptions)
  let s := { s with backend }
  match answer with
  | .sat model =>
      let known := fun v => decide (0 < v) && decide (v ≤ s.numVars) && model v
      (.ok true, { s with model := known, failed := .pure [] })
  | .unsat core => (.ok false, { s with failed := core.map (·.filter assumptions.contains) })
  | .interrupted => (.error .aborted, s)
  | .failed message => (.error (.backend message), s)

def free (s : Store σ) : Store σ :=
  { s with
    backend := Backend.reset s.backend, model := fun _ => false, selectors := .empty,
    failed := .pure [] }

end Store

end ModelFinder
