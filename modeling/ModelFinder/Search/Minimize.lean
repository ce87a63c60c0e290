import ModelFinder.Search.Session

/-! Shrinking the latest model until no model has fewer true primary variables. Each round asks for
a model in which one of the true variables is false and those that are false already stay so. -/
namespace ModelFinder.Session

variable {σ : Type} [Backend σ]

/-- What a run of rounds ends with: the number of successful ones, or the failure that stopped it,
and the handles of the constraints to take back. -/
structure Rounds where
  result : Except Failure Nat
  handles : List Nat

/-- Runs at most `limit` rounds. `units` are the literals assumed; primary variables outside `free`
are assumed to be false already. -/
def shrinkModel : (limit : Nat) → Session σ → (units : List Int) → (free handles : List Nat) →
    (rounds : Nat) → Rounds × Session σ
  | 0, s, _, _, handles, rounds => (⟨.ok rounds, handles⟩, s)
  | limit + 1, s, units, free, handles, rounds =>
      let trues := s.truePrimaries
      let (free, fresh) := free.partition s.value
      let units := units ++ fresh.map fun (v : Nat) => -(v : Int)
      if trues.isEmpty then (⟨.ok rounds, handles⟩, s)
      else
        match s.addConstraint (Ledger.coneClause trues) with
        | (none, s) => (⟨.ok rounds, handles⟩, s)
        | (some handle, s) =>
            let handles := handles ++ [handle]
            match s.solve units with
            | (.ok true, s) => shrinkModel limit s units free handles (rounds + 1)
            | (.ok false, s) => (⟨.ok rounds, handles⟩, s)
            | (.error failure, s) => (⟨.error failure, handles⟩, s)

/-- Minimizes the latest model under assumptions and gives the number of rounds that made it
smaller. Every round turns a true primary variable false for good, so their number bounds the
rounds. The constraints of the rounds are taken back on every path. -/
def minimize (s : Session σ) (assumptions : List Int) : Except Failure Nat × Session σ :=
  let limit := s.truePrimaries.length + 1
  let (rounds, s) := shrinkModel limit s assumptions (List.range' 1 s.numPrimary) [] 0
  (rounds.result, rounds.handles.foldl removeConstraint s)

def findMinimal (s : Session σ) (assumptions : List Int) : Except Failure Bool × Session σ :=
  match s.solve assumptions with
  | (.ok true, s) =>
      match s.minimize assumptions with
      | (.ok _, s) => (.ok true, s)
      | (.error failure, s) => (.error failure, s)
  | answer => answer

end ModelFinder.Session
