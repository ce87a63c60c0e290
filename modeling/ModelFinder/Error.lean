/-! What can go wrong, as causes. The wording of every cause is decided in `Error.message` alone and
the broad class a caller may dispatch on in `Error.kind`. A broken promise of the caller (`Misuse`)
is a cause of its own and carries no text. -/
namespace ModelFinder

inductive Misuse where
  | zeroArity
  | incompatibleArities
  | notBinary
  | noOperands
  | noDeclarations
  | dimensionMismatch
  | noRows
  | noSuchVariable
deriving DecidableEq, Repr

/-- Causes of failure. Pieces of a problem that a message quotes are carried as their text. -/
inductive Error where
  | unboundRelation (name : String)
  | unboundVariable (name : String)
  | higherOrder (declaration : String)
  | aborted
  | timedOut
  | exhausted
  | notConstant (text : String)
  | costUnsupported (solver : String) (logLevel : Nat)
  | enumerationUnsupported (solver : String)
  | noLiveModel
  | tupleCapacity (arity size : Nat)
  | matrixCapacity (arity size : Nat)
  | emptyUniverse
  | repeatedAtom (atom : String)
  | emptyTuple
  | unknownAtom (atom : String)
  | noTuples
  | mixedArities
  | indexOutOfRange (index arity : Nat)
  | foreignTuple
  | unexpectedArity (expected actual : Nat)
  | foreignFactor
  | foreignBound
  | foreignValue
  | relationArity (actual expected : Nat)
  | lowerNotInUpper (relation : String)
  | integerBound (value : Int) (tuples : String)
  | integerValue (value : Int)
  | arityMismatch (text : String)
  | outsideUpper (tuple relation : String)
  | contradiction
  | backend (message : String)
  | misuse (promise : Misuse)
deriving DecidableEq, Repr

namespace Error

inductive Kind where
  | unboundLeaf
  | higherOrderDecl
  | aborted
  | timeout
  | noMoreSolutions
  | illegalState
  | capacityExceeded
  | invalidArgument
  | solverFailure
  | misuse
deriving DecidableEq, Repr

def kind : Error → Kind
  | unboundRelation _ | unboundVariable _ => .unboundLeaf
  | higherOrder _ => .higherOrderDecl
  | aborted => .aborted
  | timedOut => .timeout
  | exhausted => .noMoreSolutions
  | notConstant _ | costUnsupported .. | enumerationUnsupported _ | noLiveModel => .illegalState
  | tupleCapacity .. | matrixCapacity .. => .capacityExceeded
  | contradiction | backend _ => .solverFailure
  | misuse _ => .misuse
  | _ => .invalidArgument

def detail : Error → String
  | unboundRelation name => s!"relation {name}"
  | unboundVariable name => s!"variable {name}"
  | higherOrder declaration => declaration
  | aborted | timedOut | exhausted => ""
  | notConstant text => s!"{text} did not evaluate to a constant"
  | costUnsupported solver level =>
      "cost minimization needs a minimizing solver and no translation log " ++
        s!"({solver}, log level {level})"
  | enumerationUnsupported solver =>
      s!"cannot enumerate solutions without an incremental solver ({solver})"
  | noLiveModel => "lifters need a solution from a live translation"
  | tupleCapacity arity size => s!"arity {arity} over {size} atoms"
  | matrixCapacity arity size => s!"a relation of arity {arity} over {size} atoms"
  | emptyUniverse => "Cannot create an empty universe"
  | repeatedAtom atom => s!"{atom} appears multiple times"
  | emptyTuple => "Cannot create empty tuple"
  | unknownAtom atom => s!"Atom {atom} not in universe"
  | noTuples => "Cannot create tuple set from empty array"
  | mixedArities => "All tuples must have the same arity"
  | indexOutOfRange index arity => s!"Index {index} out of range for arity {arity}"
  | foreignTuple => "Tuple from different universe"
  | unexpectedArity expected actual => s!"Expected arity {expected}, got {actual}"
  | foreignFactor => "Tuple sets from different universes"
  | foreignBound => "Tuple sets must be from the same universe"
  | foreignValue => "Tuple set from different universe"
  | relationArity actual expected =>
      s!"Tuple set arity {actual} does not match relation arity {expected}"
  | lowerNotInUpper relation => s!"lower bound of {relation} is not a subset of its upper bound"
  | integerBound value tuples =>
      s!"integer {value} must be bound to a single unary tuple, got {tuples}"
  | integerValue value => s!"integer {value} must map to a single unary tuple"
  | arityMismatch text => s!"arity mismatch in {text}"
  | outsideUpper tuple relation => s!"{tuple} is outside the upper bound of {relation}"
  | contradiction => "constraint contradicts the clauses already in the solver"
  | backend message => message
  | misuse _ => ""

def message (error : Error) : String :=
  match error.kind with
  | .unboundLeaf => s!"unbound leaf: {error.detail}"
  | .higherOrderDecl => s!"higher-order declaration: {error.detail}"
  | .aborted => "solving aborted"
  | .timeout => "solver timed out"
  | .noMoreSolutions => "no more solutions"
  | .illegalState => s!"illegal state: {error.detail}"
  | .capacityExceeded => s!"capacity exceeded: {error.detail}"
  | .invalidArgument => s!"invalid argument: {error.detail}"
  | .solverFailure => s!"solver failure: {error.detail}"
  | .misuse => "a precondition does not hold"

end Error

end ModelFinder
