import Std.Data.HashMap

/-! Clauses over signed literals and clause lists with a number of variables. A literal is a
non-zero integer: its absolute value is the variable, a negative sign negates. -/
namespace ModelFinder

abbrev Clause := List Int

def litHolds (s : Nat → Bool) (l : Int) : Bool := if 0 < l then s l.natAbs else !s l.natAbs

def Clause.holds (s : Nat → Bool) (c : Clause) : Bool := c.any (litHolds s)

def maxVar (lits : List Int) : Nat := lits.foldl (fun v l => max v l.natAbs) 0

structure Cnf where
  numVars : Nat
  clauses : Array Clause

namespace Cnf

def empty : Cnf := ⟨0, #[]⟩

def add (cnf : Cnf) (clause : Clause) : Cnf :=
  { numVars := max cnf.numVars (maxVar clause), clauses := cnf.clauses.push clause }

def addAll (cnf : Cnf) (clauses : List Clause) : Cnf := clauses.foldl add cnf

/-- How many variables were mentioned before each one. -/
def ranks (cnf : Cnf) : Std.HashMap Nat Nat :=
  cnf.clauses.foldl (fun ranks clause =>
    clause.foldl (fun ranks l => ranks.insertIfNew l.natAbs ranks.size) ranks) ∅

end Cnf

end ModelFinder
