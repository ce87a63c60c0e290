import ModelFinder.Search.Session

/-! How a request is to be carried out. -/
namespace ModelFinder

structure SolverKind where
  name : String
  incremental : Bool
  minimizer : Bool
  prover : Bool
deriving DecidableEq, Repr

namespace SolverKind

def standard : SolverKind := ⟨"batsat", true, true, true⟩

def plain (name : String) : SolverKind := ⟨name, false, false, false⟩

def describe (k : SolverKind) : String :=
  s!"SATFactory \x7b name: {Text.quote k.name}, incremental: {k.incremental}, " ++
  s!"minimizer: {k.minimizer}, prover: {k.prover} \x7d"

end SolverKind

structure Options where
  sharing : Bool
  solver : SolverKind
  /-- Above zero, conjuncts are logged and refutations are given. -/
  logLevel : Nat
  timeoutMs : Option Nat
  aborted : Bool
deriving DecidableEq, Repr

namespace Options

def standard : Options := ⟨true, .standard, 0, none, false⟩

def logged (o : Options) : Bool := 0 < o.logLevel

def control (o : Options) : Control := (Control.make o.aborted o.timeoutMs).arm

def requireIncremental (o : Options) : Except Error Unit :=
  if o.solver.incremental then .ok () else .error (.enumerationUnsupported o.solver.name)

def describe (o : Options) : String :=
  let timeout := match o.timeoutMs with
    | some ms => s!"Some({ms})"
    | none => "None"
  s!"Options \x7b bool_options: Options \x7b sharing: {o.sharing} \x7d, " ++
  s!"solver: {o.solver.describe}, log_translation: {o.logLevel}, " ++
  s!"timeout_ms: {timeout}, aborted: {o.aborted} \x7d"

end Options

structure Announcement where
  primary : Nat
  numVars : Nat
  numClauses : Nat
deriving DecidableEq, Repr

def Loaded.announcement {σ : Type} (l : Loaded σ) : Announcement :=
  ⟨l.numPrimary, l.store.numVariables, l.store.numClauses⟩

end ModelFinder
