import ModelFinder.Search.Session

/-! Solutions: the outcome of a request with the instance or the refutation that comes with it, and
the size of what was searched. -/
namespace ModelFinder

/-- Sizes of the searched clauses and times in microseconds. -/
structure Statistics where
  primary : Nat
  numVars : Nat
  numClauses : Nat
  encodingUs : Nat
  solvingUs : Nat
deriving DecidableEq, Repr

namespace Statistics

def encodingMs (s : Statistics) : Nat := s.encodingUs / 1000

def solvingMs (s : Statistics) : Nat := s.solvingUs / 1000

def totalMs (s : Statistics) : Nat := s.encodingMs + s.solvingMs

def render (s : Statistics) : String :=
  s!"p cnf {s.numVars} {s.numClauses}\n" ++
  s!"primary variables: {s.primary}\n" ++
  s!"translation time: {s.encodingMs} ms\n" ++
  s!"solving time: {s.solvingMs} ms"

/-- The sizes of a loaded formula; a computation measures no times. -/
def ofLoaded {σ : Type} (l : Loaded σ) : Statistics :=
  ⟨l.numPrimary, l.store.numVariables, l.store.numClauses, 0, 0⟩

end Statistics

inductive Outcome where
  | satisfiable
  | unsatisfiable
  | triviallySatisfiable
  | triviallyUnsatisfiable
deriving DecidableEq, Repr

def Outcome.render : Outcome → String
  | satisfiable => "SATISFIABLE"
  | unsatisfiable => "UNSATISFIABLE"
  | triviallySatisfiable => "TRIVIALLY_SATISFIABLE"
  | triviallyUnsatisfiable => "TRIVIALLY_UNSATISFIABLE"

inductive Solution where
  | sat (model : Instance) (stats : Statistics)
  | unsat (proof : Option Refutation) (stats : Statistics)
  | triviallySat (model : Instance) (stats : Statistics)
  | triviallyUnsat (proof : Option Refutation) (stats : Statistics)

namespace Solution

def outcome : Solution → Outcome
  | sat .. => .satisfiable
  | unsat .. => .unsatisfiable
  | triviallySat .. => .triviallySatisfiable
  | triviallyUnsat .. => .triviallyUnsatisfiable

def isSat : Solution → Bool
  | sat .. | triviallySat .. => true
  | _ => false

def isTrivial : Solution → Bool
  | triviallySat .. | triviallyUnsat .. => true
  | _ => false

def model? : Solution → Option Instance
  | sat model _ | triviallySat model _ => some model
  | _ => none

def refutation? : Solution → Option Refutation
  | unsat proof _ | triviallyUnsat proof _ => proof
  | _ => none

def stats : Solution → Statistics
  | sat _ stats | unsat _ stats | triviallySat _ stats | triviallyUnsat _ stats => stats

def render (s : Solution) : String :=
  s!"---OUTCOME---\n{s.outcome.render}\n" ++
  (match s.model? with
    | some model => s!"---INSTANCE---\n{model.render}\n"
    | none => "") ++
  s!"---STATS---\n{s.stats.render}"

variable {σ : Type}

/-- The solution given by the latest model of a loaded formula. Relations of the bounds that the
formula does not know get their lower bounds. -/
def ofModel (l : Loaded σ) (b : Bounds) : Except Error Solution := do
  return sat (← (← l.interpret).pad b) (.ofLoaded l)

def ofFailure (l : Loaded σ) : Solution :=
  unsat (l.encoding.log.map fun log => .ofFailed log l.store.failed.get) (.ofLoaded l)

def ofFolded (f : Folded) (b : Bounds) : Except Error Solution := do
  let stats := ⟨f.bounds.unknownCount, 0, 0, 0, 0⟩
  if f.value then return triviallySat (← (← Instance.ofLower f.bounds).pad b) stats
  else return triviallyUnsat (f.log.map .ofFolded) stats

end Solution

end ModelFinder
