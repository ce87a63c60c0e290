import ModelFinder.Cnf.Basic

/-! Assignments under construction and what the clauses force under them. Literals are made true one
after the other; each decision opens a level, and a literal that a clause forces remembers that
clause. A clause with two or more literals is looked at only when one of its first two literals
becomes false: as long as neither is, the clause forces nothing. -/
namespace ModelFinder

/-- Clauses and a partial assignment of the variables below the size of `chosen`. -/
structure Propagator where
  /-- The literals of all clauses, one clause after the other. -/
  literals : Array Int
  /-- Where each clause starts, and at the end where the next one will. -/
  starts : Array Nat
  /-- Where in each clause the next literal to watch is looked for first. -/
  resume : Array Nat
  /-- For each literal the clauses that have it among their first two. -/
  watches : Array (List Nat)
  /-- The true literal of each variable, or zero. -/
  chosen : Array Int
  /-- The level at which each assigned variable got its value. -/
  levels : Array Nat
  /-- The clause that forced each assigned variable, counted from 1; zero if none did. -/
  reasons : Array Nat
  /-- The true literals in the order of their coming. -/
  trail : Array Int
  /-- For each decision the number of literals that were true before it. -/
  marks : Array Nat
  /-- How many literals of the trail have been followed up. -/
  head : Nat
  /-- No variable below this one is without a value. -/
  lowest : Nat
  /-- Whether the clauses are known to have no model. -/
  broken : Bool

namespace Propagator

def empty : Propagator := ⟨#[], #[0], #[], #[], #[], #[], #[], #[], #[], 0, 1, false⟩

def place (l : Int) : Nat := if 0 < l then 2 * l.natAbs else 2 * l.natAbs + 1

def valueOf (chosen : Array Int) (l : Int) : Int := chosen.getD l.natAbs 0

def isFalse (chosen : Array Int) (l : Int) : Bool := valueOf chosen l == -l

def isTrue (chosen : Array Int) (l : Int) : Bool := valueOf chosen l == l

def level (p : Propagator) : Nat := p.marks.size

def numClauses (p : Propagator) : Nat := p.starts.size - 1

def reserve (p : Propagator) (n : Nat) : Propagator :=
  let more := n + 1 - p.chosen.size
  if more = 0 then p
  else
    { p with
      watches := p.watches ++ Array.replicate (2 * more) []
      chosen := p.chosen ++ Array.replicate more 0
      levels := p.levels ++ Array.replicate more 0
      reasons := p.reasons ++ Array.replicate more 0 }

def assign (p : Propagator) (l : Int) (reason : Nat) : Propagator :=
  { p with
    chosen := p.chosen.setIfInBounds l.natAbs l
    levels := p.levels.setIfInBounds l.natAbs p.marks.size
    reasons := p.reasons.setIfInBounds l.natAbs reason
    trail := p.trail.push l }

def branch (p : Propagator) (l : Int) : Propagator :=
  { p with marks := p.marks.push p.trail.size }.assign l 0

def openLevel (p : Propagator) : Propagator := { p with marks := p.marks.push p.trail.size }

def retract : (count : Nat) → Propagator → Propagator
  | 0, p => p
  | count + 1, p =>
      let v := (p.trail.getD (p.trail.size - 1) 0).natAbs
      retract count { p with
        chosen := p.chosen.setIfInBounds v 0
        trail := p.trail.pop
        lowest := min p.lowest v }

def undo (p : Propagator) (level : Nat) : Propagator :=
  if level < p.marks.size then
    let kept := p.marks.getD level 0
    let p := retract (p.trail.size - kept) p
    { p with marks := p.marks.shrink level, head := min p.head kept }
  else p

def store (p : Propagator) (first second : Int) (rest : List Int) : Nat × Propagator :=
  let number := p.numClauses
  let resume := p.resume.push (p.literals.size + 2)
  let literals := rest.foldl Array.push ((p.literals.push first).push second)
  (number, { p with
    literals
    starts := p.starts.push literals.size
    resume
    watches := (p.watches.modify (place first) (number :: ·)).modify (place second) (number :: ·) })

/-- The literals of a clause by descending variable, each once. Lower variables get their values
earlier, so the first literals are likely to be open for long. -/
def arrange (clause : Clause) : Clause :=
  (clause.mergeSort fun l m =>
    m.natAbs < l.natAbs || (m.natAbs == l.natAbs && l ≤ m)).eraseReps

/-- Adds a clause while no decision is open. Literals that are false for good do not matter, and a
clause with a literal that is true for good says nothing new. -/
def add (p : Propagator) (clause : Clause) : Propagator :=
  let p := p.reserve (maxVar clause)
  if clause.any (isTrue p.chosen) then p
  else
    match arrange (clause.filter (!isFalse p.chosen ·)) with
    | [] => { p with broken := true }
    | [l] => p.assign l 0
    | first :: second :: rest => (p.store first second rest).2

def findOpen (literals chosen : Array Int) : (count i : Nat) → Nat
  | 0, i => i
  | count + 1, i =>
      if isFalse chosen (literals.getD i 0) then findOpen literals chosen count (i + 1) else i

/-- A position from `first` up to `stop` whose literal is not false, or `stop`. The positions from
`resume` on come before the other ones, so that a clause that loses its literals one after the other
is not searched from its start each time. -/
def nextOpen (literals chosen : Array Int) (first stop resume : Nat) : Nat :=
  let found := findOpen literals chosen (stop - resume) resume
  if found < stop then found
  else
    let found := findOpen literals chosen (resume - first) first
    if found < resume then found else stop

/-- Looks at clauses that watch a literal that has become false. Each goes on to watch another
literal, or is satisfied, or forces its other watched literal, or has become false altogether, which
ends the visit with its number. A clause satisfied for good is not looked at again. `kept` are
clauses that go on watching the literal. -/
def visit (falsified : Int) : List Nat → Propagator → (kept : List Nat) → Option Nat × Propagator
  | [], p, kept =>
      (none, { p with watches := p.watches.setIfInBounds (place falsified) kept })
  | clause :: rest, p, kept =>
      let first := p.starts.getD clause 0
      let p := if p.literals.getD first 0 = falsified then
          { p with literals := p.literals.swapIfInBounds first (first + 1) }
        else p
      let other := p.literals.getD first 0
      if isTrue p.chosen other then
        visit falsified rest p (if p.levels.getD other.natAbs 0 = 0 then kept else clause :: kept)
      else
        let stop := p.starts.getD (clause + 1) 0
        let found := nextOpen p.literals p.chosen (first + 2) stop (p.resume.getD clause stop)
        if found < stop then
          let next := p.literals.getD found 0
          visit falsified rest { p with
            literals := p.literals.swapIfInBounds (first + 1) found
            resume := p.resume.setIfInBounds clause found
            watches := p.watches.modify (place next) (clause :: ·) } kept
        else if isFalse p.chosen other then
          let kept := rest.reverseAux (clause :: kept)
          (some clause, { p with watches := p.watches.setIfInBounds (place falsified) kept })
        else visit falsified rest (p.assign other (clause + 1)) (clause :: kept)

def propagate : (count : Nat) → Propagator → Option Nat × Propagator
  | 0, p => (none, p)
  | count + 1, p =>
      if p.head < p.trail.size then
        let falsified := -(p.trail.getD p.head 0)
        let watching := p.watches.getD (place falsified) []
        match visit falsified watching { p with head := p.head + 1 } [] with
        | (none, p) => propagate count p
        | conflict => conflict
      else (none, p)

def firstOpen (chosen : Array Int) : (count v : Nat) → Option Nat
  | 0, _ => none
  | count + 1, v => if chosen.getD v 0 = 0 then some v else firstOpen chosen count (v + 1)

end Propagator

end ModelFinder
