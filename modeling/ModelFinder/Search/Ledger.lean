import ModelFinder.Data.Capacity
import ModelFinder.Sat.Store

/-! The cones that an enumeration has excluded. A cone is a model with everything above it, excluded
by the clause of its negated true variables. The ledger remembers the clauses for good, and with
each the handle of its constraint while it is live. -/
namespace ModelFinder

structure LedgerEntry where
  clause : Clause
  handle : Option Nat
deriving DecidableEq, Repr

structure Ledger where
  entries : List LedgerEntry

def sortLiterals (lits : List Int) : List Int := lits.mergeSort (· ≤ ·)

namespace Ledger

def empty : Ledger := ⟨[]⟩

def coneClause (vars : List Nat) : Clause := vars.map fun (v : Nat) => -signedWord v

def size (l : Ledger) : Nat := l.entries.length

def numAsserted (l : Ledger) : Nat := (l.entries.filter (·.handle.isSome)).length

def clauses (l : Ledger) : List Clause := l.entries.map (·.clause)

variable {σ : Type} [Backend σ]

def assertEntry (s : Store σ) (e : LedgerEntry) : LedgerEntry × Store σ :=
  match e.handle with
  | some _ => (e, s)
  | none =>
      let (handle, s) := s.addConstraint e.clause
      ({ e with handle }, s)

def assertWhere (p : LedgerEntry → Bool) (s : Store σ) :
    List LedgerEntry → List LedgerEntry × Store σ
  | [] => ([], s)
  | e :: rest =>
      let (e, s) := if p e then assertEntry s e else (e, s)
      let (rest, s) := assertWhere p s rest
      (e :: rest, s)

/-- Records a clause in ascending order and makes it live. A clause recorded before is not recorded
again. -/
def record (l : Ledger) (s : Store σ) (clause : Clause) : Ledger × Store σ :=
  let clause := sortLiterals clause
  let entries := if l.clauses.contains clause then l.entries else l.entries ++ [⟨clause, none⟩]
  let (entries, s) := assertWhere (·.clause == clause) s entries
  (⟨entries⟩, s)

def ensureAsserted (l : Ledger) (s : Store σ) : Ledger × Store σ :=
  let (entries, s) := assertWhere (fun _ => true) s l.entries
  (⟨entries⟩, s)

def clear (l : Ledger) (s : Store σ) : Ledger × Store σ :=
  (⟨l.entries.map fun e => { e with handle := none }⟩,
    (l.entries.filterMap (·.handle)).foldl Store.removeConstraint s)

end Ledger

end ModelFinder
