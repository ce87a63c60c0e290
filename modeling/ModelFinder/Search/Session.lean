import ModelFinder.Encoding.Basic
import ModelFinder.Search.Ledger

/-! Sessions: an encoded formula loaded into a store, with the ledger of excluded cones and the
checks made before each search. -/
namespace ModelFinder

structure Loaded (σ : Type) where
  encoding : Encoding
  store : Store σ

/-- Cancellation and time limit. No time passes inside a computation, so a limit that has been set
running is over at once if it is zero, and never otherwise. -/
structure Control where
  aborted : Bool
  limitMs : Option Nat
  running : Bool

namespace Control

def make (aborted : Bool) (limitMs : Option Nat) : Control := ⟨aborted, limitMs, false⟩

def arm (c : Control) : Control := { c with running := true }

def check (c : Control) : Except Failure Unit :=
  if c.aborted then .error .aborted
  else if c.running ∧ c.limitMs = some 0 then .error .timedOut
  else .ok ()

end Control

structure Session (σ : Type) where
  loaded : Loaded σ
  ledger : Ledger
  control : Control
  calls : Nat

variable {σ : Type}

namespace Loaded

def numPrimary (l : Loaded σ) : Nat := l.encoding.numbering.count

def interpret (l : Loaded σ) : Except Error Instance :=
  l.encoding.numbering.interpret l.encoding.bounds l.store.model

end Loaded

/-- Loads the clauses of an encoding into a store. A clause that the solver refuses is passed
over. -/
def Encoding.load [Backend σ] (e : Encoding) (backend : σ) : Loaded σ :=
  let store := (Store.empty backend).addVariables e.cnf.numVars
  ⟨e, e.cnf.clauses.toList.foldl (fun s clause => (s.addClause clause).2) store⟩

namespace Session

def start (loaded : Loaded σ) (control : Control) : Session σ := ⟨loaded, .empty, control, 0⟩

@[inline] def store (s : Session σ) : Store σ := s.loaded.store

@[inline] def withStore (s : Session σ) (store : Store σ) : Session σ :=
  { s with loaded := { s.loaded with store } }

def numPrimary (s : Session σ) : Nat := s.loaded.numPrimary

def value (s : Session σ) (var : Nat) : Bool := s.store.model var

def truePrimaries (s : Session σ) : List Nat := (List.range' 1 s.numPrimary).filter s.value

def arm (s : Session σ) : Session σ := { s with control := s.control.arm }

variable [Backend σ]

def solve (s : Session σ) (assumptions : List Int) : Except Failure Bool × Session σ :=
  match s.control.check with
  | .error failure => (.error failure, s)
  | .ok _ =>
      let (answer, store) := s.store.solve (s.loaded.encoding.assumptions ++ assumptions)
      (answer, { s.withStore store with calls := s.calls + 1 })

def addConstraint (s : Session σ) (clause : Clause) : Option Nat × Session σ :=
  let (handle, store) := s.store.addConstraint clause
  (handle, s.withStore store)

def removeConstraint (s : Session σ) (handle : Nat) : Session σ :=
  s.withStore (s.store.removeConstraint handle)

@[inline] def onLedger (s : Session σ) (action : Ledger → Store σ → Ledger × Store σ) : Session σ :=
  let (ledger, store) := action s.ledger s.store
  { s.withStore store with ledger }

def excludeCone (s : Session σ) : Session σ :=
  let clause := Ledger.coneClause s.truePrimaries
  s.onLedger fun l store => l.record store clause

def ensureAsserted (s : Session σ) : Session σ := s.onLedger Ledger.ensureAsserted

def clear (s : Session σ) : Session σ := s.onLedger Ledger.clear

end Session

end ModelFinder
