import ModelFinder.Finder.Options
import ModelFinder.Finder.Solution
import ModelFinder.Search.Lifters
import ModelFinder.Search.Minimize

/-! Enumeration of minimal models. After each model its cone is excluded, so that no model comes
twice and no larger one comes at all; one unsatisfiable solution ends the sequence. A formula that
folds to true is answered by its lower bounds and goes on as a formula that asks for a change. -/
namespace ModelFinder

variable {σ : Type}

/-- Where an enumeration stands. A live one has the true primary variables of the model delivered
last. -/
inductive Phase (σ : Type) where
  | pending (formula : Formula) (bounds : Bounds)
  | live (session : Session σ) (bounds : Bounds) (model : Option (List Nat))
  | exhausted

structure Enumeration (σ : Type) where
  backend : σ
  options : Options
  assumptions : List Int
  phase : Phase σ
  trivialCount : Nat
  announcements : List Announcement

/-- Asks for a model other than the lower bounds of a formula that holds whatever is chosen: some
relation is not its lower bound. A non-empty lower bound is named by a marker relation that is bound
to it exactly. -/
structure Residue where
  bounds : Bounds
  changes : List Formula

namespace Residue

def add (round : Nat) (residue : Residue) (r : Relation) (range : Range) : Except Error Residue :=
  if range.lower = range.upper then .ok residue
  else if range.lower.isEmpty then
    .ok { residue with changes := residue.changes ++ [.multiplicity .some (.rel r)] }
  else do
    let name := s!"{r.name}_trivial{round}"
    let marker : Relation := ⟨residue.bounds.freshId, name, r.arity, r.arity_pos⟩
    let bounds ← residue.bounds.bindExactly marker range.lower
    let change := Formula.not (.compare .equals (.rel r) (.rel marker))
    return ⟨bounds, residue.changes ++ [change]⟩

def ofFolded (round : Nat) (f : Folded) : Except Error (Formula × Bounds) := do
  let residue ← f.bounds.relations.entries.foldlM
    (fun (residue : Residue) (r, range) => residue.add round r range) ⟨f.bounds, []⟩
  let formula := if residue.changes.isEmpty then .const false
    else .binary .and f.formula (.orAll residue.changes)
  return (formula, residue.bounds)

end Residue

namespace Enumeration

def make (backend : σ) (f : Formula) (b : Bounds) (o : Options) (assumptions : List Int) :
    Enumeration σ :=
  ⟨backend, o, assumptions, .pending f b, 0, []⟩

def hasNext (e : Enumeration σ) : Bool :=
  match e.phase with
  | .exhausted => false
  | _ => true

def loaded? (e : Enumeration σ) : Option (Loaded σ) :=
  match e.phase with
  | .live session _ _ => some session.loaded
  | _ => none

def setAborted (e : Enumeration σ) (aborted : Bool) : Enumeration σ :=
  let phase := match e.phase with
    | .live s b model => .live { s with control := { s.control with aborted } } b model
    | phase => phase
  { e with options := { e.options with aborted }, phase }

variable [Backend σ]

/-- Asks a live session for the next minimal model. An aborted call leaves everything as it was; any
other failure ends the sequence, and so does the answer that there is no model. -/
def advance (e : Enumeration σ) (s : Session σ) (b : Bounds) (previous : Option (List Nat)) :
    Except Error Solution × Enumeration σ :=
  let s := s.arm.ensureAsserted
  let e := { e with announcements := e.announcements ++ [s.loaded.announcement] }
  match s.findMinimal e.assumptions with
  | (.error .aborted, s) => (.error .aborted, { e with phase := .live s b previous })
  | (.error failure, _) => (.error failure.toError, { e with phase := .exhausted })
  | (.ok true, s) =>
      (Solution.ofModel s.loaded b,
        { e with phase := .live s.excludeCone b (some s.truePrimaries) })
  | (.ok false, s) => (.ok (Solution.ofFailure s.loaded), { e with phase := .exhausted })

def answerFolded (e : Enumeration σ) (f : Folded) (b : Bounds) :
    Except Error Solution × Enumeration σ :=
  let e := { e with trivialCount := e.trivialCount + 1, phase := .exhausted }
  match Solution.ofFolded f b with
  | .error error => (.error error, e)
  | .ok solution =>
      if f.value then
        match Residue.ofFolded e.trivialCount f with
        | .error error => (.error error, e)
        | .ok (formula, bounds) => (.ok solution, { e with phase := .pending formula bounds })
      else (.ok solution, e)

def next (e : Enumeration σ) : Except Error Solution × Enumeration σ :=
  match e.phase with
  | .exhausted => (.error .exhausted, e)
  | .live s b model => e.advance s b model
  | .pending f b =>
      match f.encode b e.options.sharing e.options.logged with
      | .error error => (.error error, { e with phase := .exhausted })
      | .ok (.folded result) => e.answerFolded result b
      | .ok (.clauses encoding) =>
          e.advance (Session.start (encoding.load e.backend) e.options.control) b none

/-- The next solution as a member of a finite sequence: nothing once it is exhausted, and a failure
of whatever kind is the last member. -/
def next? (e : Enumeration σ) : Option (Except Error Solution) × Enumeration σ :=
  if e.hasNext then
    match e.next with
    | (.error error, e) => (some (.error error), { e with phase := .exhausted })
    | (answer, e) => (some answer, e)
  else (none, e)

/-- The tuples that some model has on top of the model delivered last. Excluded cones play no part;
they are made live again by the next call for a solution. -/
def lifters (e : Enumeration σ) : Except Error Instance × Enumeration σ :=
  match e.phase with
  | .live s b (some model) =>
      let (answer, s) := s.arm.lifters model
      let e := { e with phase := .live s b (some model) }
      match answer with
      | .error failure => (.error failure.toError, e)
      | .ok vars => (s.loaded.encoding.numbering.instanceOf vars, e)
  | _ => (.error .noLiveModel, e)

/-- The answers to the next calls, `limit` of them or as many as there are. With `lifting`, each
model that a search found comes with the answer to a call for its lifters. -/
def take (e : Enumeration σ) (lifting : Bool) :
    (limit : Nat) → List (Except Error Solution × Option (Except Error Instance)) × Enumeration σ
  | 0 => ([], e)
  | limit + 1 =>
      if e.hasNext then
        let (answer, e) := e.next
        let (lifted, e) := match lifting, answer with
          | true, .ok (.sat _ _) =>
              let (lifted, e) := e.lifters
              (some lifted, e)
          | _, _ => (none, e)
        let (answers, e) := e.take lifting limit
        ((answer, lifted) :: answers, e)
      else ([], e)

end Enumeration

def solveAll (backend : σ) (f : Formula) (b : Bounds) (o : Options) :
    Except Error (Enumeration σ) := do
  o.requireIncremental
  return .make backend f b o []

/-- The assumption that makes a tuple of a relation true; none is needed for a tuple of the lower
bound or of a relation that is not bound. -/
def liftAssumption (n : Numbering) (b : Bounds) (r : Relation) (t : Tuple) :
    Except Error (List Int) :=
  match n.var? r t with
  | some var => .ok [var]
  | none =>
      match b.range? r with
      | none => .ok []
      | some range =>
          if range.lower.contains t then .ok [] else .error (.outsideUpper t.render r.name)

/-- The sequence of the minimal models that have all tuples of a solution and of `lifters`. The
numbering is that of the formula within the bounds. -/
def lift (backend : σ) (f : Formula) (b : Bounds) (o : Options) (n : Numbering)
    (solution : Solution) (lifters : Instance) : Except Error (Enumeration σ) := do
  o.requireIncremental
  let given := (solution.model?.map (·.relations.entries)).getD [] ++ lifters.relations.entries
  let assumptions ← (given.flatMap fun (r, set) => set.tuples.map (r, ·)).mapM fun (r, t) =>
    liftAssumption n b r t
  return .make backend f b o (Ascending.sort assumptions.flatten)

end ModelFinder
