import ModelFinder.Sat.Backend
import ModelFinder.Sat.Learning

/-! A complete solver with predictable answers. Assignments are compared at the lowest variable
where they differ, and the one that has the preferred value there comes first; the solver answers
with the first model in this order. Its cores cannot lose any member. Failures can be scheduled
ahead. -/
namespace ModelFinder

inductive Preference where
  | low
  | high
  | alternating
deriving DecidableEq, Repr

def Preference.value : Preference → Nat → Bool
  | low, _ => false
  | high, _ => true
  | alternating, v => v % 2 = 1

inductive SolveFault where
  | none
  | error
  | interrupt
deriving DecidableEq, Repr

/-- The state of the solver: clauses, the failures ahead, one per addition (refused if true) and one
per search, and what follows from the first clauses, `loaded` in number. -/
structure Lexicographic where
  preference : Preference
  clauses : Array Clause
  addFaults : List Bool
  solveFaults : List SolveFault
  consequences : Propagator
  loaded : Nat

namespace Lexicographic

def empty (preference : Preference) : Lexicographic := ⟨preference, #[], [], [], .empty, 0⟩

def load (s : Lexicographic) : Lexicographic :=
  { s with
    consequences := s.clauses.foldl Propagator.add s.consequences s.loaded
    loaded := s.clauses.size }

/-- Drops members of `rest` from the front as long as the clauses exclude `kept` together with what
follows. Members outside `known`, a core of all that is left, are dropped without a search. -/
def shrink (prefer : Nat → Bool) (p : Propagator) (kept known : List Int) :
    (rest : List Int) → List Int
  | [] => kept
  | l :: rest =>
      if known.contains l then
        match p.solve prefer (kept ++ rest) with
        | (.core known, p) => shrink prefer p kept known rest
        | (_, p) => shrink prefer p (kept ++ [l]) known rest
      else shrink prefer p kept known rest

/-- The value of a variable in a model; where the clauses say nothing it is the preferred one. -/
def modelValue (prefer : Nat → Bool) (chosen : Array Int) (v : Nat) : Bool :=
  let l := chosen.getD v 0
  if l = 0 then prefer v else 0 < l

def faultText : String := "injected"

def solve (s : Lexicographic) (assumptions : List Int) : Answer × Lexicographic :=
  match s.solveFaults with
  | .error :: faults => (.failed faultText, { s with solveFaults := faults })
  | .interrupt :: faults => (.interrupted, { s with solveFaults := faults })
  | faults =>
      let s := { s with solveFaults := faults.tail }.load
      let prefer := s.preference.value
      match s.consequences.solve prefer assumptions with
      | (.model chosen, p) => (.sat (modelValue prefer chosen), { s with consequences := p })
      | (.core known, p) =>
          let core := Thunk.mk fun _ => shrink prefer p [] known assumptions.eraseDups
          (.unsat core, { s with consequences := p })
      | (.undecided, p) => (.interrupted, { s with consequences := p })

def add (s : Lexicographic) (clause : Clause) : Bool × Lexicographic :=
  match s.addFaults with
  | true :: faults => (false, { s with addFaults := faults })
  | faults => (true, { s with clauses := s.clauses.push clause, addFaults := faults.tail })

instance : Backend Lexicographic where
  reset s := empty s.preference
  reserve s _ := s
  add := add
  solve := solve

end Lexicographic

end ModelFinder
