import ModelFinder.Sat.Propagator

/-! Search with learned clauses. The search decides variables from the lowest to the highest and
follows up every decision. When a clause becomes false it is resolved with the clauses that forced
its literals, until one literal of the current level is left; the clause so learned follows from the
clauses alone, and at an earlier level it forces the opposite of that literal. Since decisions take
the lowest variable and its preferred value, and all else is forced, the model found is the first
one: compared at the lowest variable where they differ, no model has the preferred value there and
this one not. -/
namespace ModelFinder

/-- Which literals a resolution has met: their variables, how many of them are of the current level
and not yet resolved, and those of earlier levels. -/
structure Resolvent where
  seen : Array Bool
  pending : Nat
  earlier : List Int

namespace Propagator

def absorb (p : Propagator) : (count i : Nat) → Resolvent → Resolvent
  | 0, _, r => r
  | count + 1, i, r =>
      let l := p.literals.getD i 0
      let v := l.natAbs
      let level := p.levels.getD v 0
      if r.seen.getD v true || level == 0 then absorb p count (i + 1) r
      else
        let ⟨seen, pending, earlier⟩ := r
        let seen := seen.setIfInBounds v true
        if level = p.marks.size then absorb p count (i + 1) ⟨seen, pending + 1, earlier⟩
        else absorb p count (i + 1) ⟨seen, pending, l :: earlier⟩

def absorbClause (p : Propagator) (clause : Nat) (r : Resolvent) : Resolvent :=
  let first := p.starts.getD clause 0
  absorb p (p.starts.getD (clause + 1) 0 - first) first r

/-- Goes back over the first `count` literals of the trail and resolves on those met, until one of
the current level is left. Gives its negation and the literals of earlier levels. -/
def resolve (p : Propagator) : (count : Nat) → Resolvent → Int × Resolvent
  | 0, r => (0, r)
  | count + 1, r =>
      let l := p.trail.getD count 0
      if r.seen.getD l.natAbs false then
        if r.pending ≤ 1 then (-l, r)
        else
          let ⟨seen, pending, earlier⟩ := r
          resolve p count
            (absorbClause p (p.reasons.getD l.natAbs 0 - 1) ⟨seen, pending - 1, earlier⟩)
      else resolve p count r

def allSeen (p : Propagator) (seen : Array Bool) : (count i : Nat) → Bool
  | 0, _ => true
  | count + 1, i =>
      let v := (p.literals.getD i 0).natAbs
      (seen.getD v false || p.levels.getD v 0 == 0) && allSeen p seen count (i + 1)

def redundant (p : Propagator) (seen : Array Bool) (l : Int) : Bool :=
  match p.reasons.getD l.natAbs 0 with
  | 0 => false
  | clause + 1 =>
      let first := p.starts.getD clause 0
      allSeen p seen (p.starts.getD (clause + 1) 0 - first) first

def splitHighest (levels : Array Nat) : Int → List Int → List Int → Int × List Int
  | highest, [], others => (highest, others)
  | highest, l :: rest, others =>
      if levels.getD highest.natAbs 0 < levels.getD l.natAbs 0 then
        splitHighest levels l rest (highest :: others)
      else splitHighest levels highest rest (l :: others)

/-- Learns from a clause that has become false, goes back to the earliest level at which the learned
clause forces a literal, and makes it true. -/
def learn (p : Propagator) (conflict : Nat) : Propagator :=
  let start : Resolvent := ⟨Array.replicate p.chosen.size false, 0, []⟩
  let (forced, r) := resolve p p.trail.size (absorbClause p conflict start)
  match r.earlier.filter (!redundant p r.seen ·) with
  | [] => (p.undo 0).assign forced 0
  | l :: rest =>
      let (second, others) := splitHighest p.levels l rest []
      let p := p.undo (p.levels.getD second.natAbs 0)
      let (number, p) := p.store forced second others
      p.assign forced (number + 1)

def traceBack (p : Propagator) : (count : Nat) → Array Bool → List Int → List Int
  | 0, _, decisions => decisions
  | count + 1, seen, decisions =>
      let l := p.trail.getD count 0
      let v := l.natAbs
      if seen.getD v false && p.levels.getD v 0 != 0 then
        match p.reasons.getD v 0 with
        | 0 => traceBack p count seen (l :: decisions)
        | clause + 1 =>
            let first := p.starts.getD clause 0
            let seen := (List.range' first (p.starts.getD (clause + 1) 0 - first)).foldl
              (fun seen i => seen.setIfInBounds (p.literals.getD i 0).natAbs true) seen
            traceBack p count seen decisions
      else traceBack p count seen decisions

def failure (p : Propagator) (l : Int) : List Int :=
  let seen := (Array.replicate p.chosen.size false).setIfInBounds l.natAbs true
  l :: traceBack p p.trail.size seen []

inductive Descent where
  | conflict (clause : Nat)
  | refuted (assumption : Int)
  | complete

/-- Follows up what is forced and decides, at most `count` times: first the assumptions in order,
one level for each, then the variables from the lowest on. -/
def descend (prefer : Nat → Bool) (assumptions : Array Int) :
    (count : Nat) → Propagator → Descent × Propagator
  | 0, p => (.complete, p)
  | count + 1, p =>
      match p.propagate (p.chosen.size + 1) with
      | (some clause, p) => (.conflict clause, p)
      | (none, p) =>
          if p.marks.size < assumptions.size then
            let l := assumptions.getD p.marks.size 0
            if isTrue p.chosen l then descend prefer assumptions count p.openLevel
            else if isFalse p.chosen l then (.refuted l, p)
            else descend prefer assumptions count (p.branch l)
          else
            match firstOpen p.chosen (p.chosen.size - p.lowest) p.lowest with
            | none => (.complete, p)
            | some v =>
                descend prefer assumptions count
                  ({ p with lowest := v + 1 }.branch (if prefer v then v else -v))

inductive Verdict where
  | model (chosen : Array Int)
  | core (assumptions : List Int)
  | undecided

def search (prefer : Nat → Bool) (assumptions : Array Int) :
    (conflicts : Nat) → Propagator → Verdict × Propagator
  | 0, p => (.undecided, p)
  | conflicts + 1, p =>
      match p.descend prefer assumptions (p.chosen.size + assumptions.size + 1) with
      | (.complete, p) => (.model p.chosen, p)
      | (.refuted l, p) => (.core (p.failure l), p)
      | (.conflict clause, p) =>
          if p.marks.isEmpty then (.core [], { p with broken := true })
          else search prefer assumptions conflicts (p.learn clause)

/-- The first model of the clauses under assumptions, or a core of the assumptions. A conflict turns
a decision on the trail into a forced literal and keeps what comes before it, so there are fewer
conflicts than sequences of decided and forced literals. -/
def solve (p : Propagator) (prefer : Nat → Bool) (assumptions : List Int) : Verdict × Propagator :=
  if p.broken then (.core [], p)
  else
    let p := p.reserve (maxVar assumptions)
    let (verdict, p) := p.search prefer assumptions.toArray (Nat.pow 2 p.chosen.size)
    (verdict, p.undo 0)

end Propagator

end ModelFinder
