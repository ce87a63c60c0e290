import ModelFinder.Finder.Options
import ModelFinder.Finder.Solution
import ModelFinder.Sat.Cost
import ModelFinder.Search.Minimize

/-! Single answers: some minimal model of a formula within bounds, or a model of least cost. -/
namespace ModelFinder

variable {σ : Type} [Backend σ]

structure Reported (α : Type) where
  result : Except Error α
  announcements : List Announcement

def Loaded.finish (l : Loaded σ) (b : Bounds) (sat : Bool) : Except Error Solution :=
  if sat then Solution.ofModel l b else .ok (Solution.ofFailure l)

def Loaded.conclude (l : Loaded σ) (b : Bounds) : Except Failure Bool → Except Error Solution
  | .ok sat => l.finish b sat
  | .error failure => .error failure.toError

def withEncoding (f : Formula) (b : Bounds) (o : Options)
    (search : Encoding → Reported Solution) : Reported Solution :=
  match f.encode b o.sharing o.logged with
  | .error error => ⟨.error error, []⟩
  | .ok (.folded result) => ⟨Solution.ofFolded result b, []⟩
  | .ok (.clauses encoding) => search encoding

/-- Solves a formula within bounds. An incremental solver gives a minimal model, a plain one the
model it finds first. -/
def solve (backend : σ) (f : Formula) (b : Bounds) (o : Options) : Reported Solution :=
  withEncoding f b o fun encoding =>
    let loaded := encoding.load backend
    let result :=
      if o.solver.incremental then
        let (answer, s) := (Session.start loaded o.control).findMinimal []
        s.loaded.conclude b answer
      else
        match o.control.check with
        | .error failure => .error failure.toError
        | .ok _ =>
            let (answer, store) := loaded.store.solve encoding.assumptions
            { loaded with store }.conclude b answer
    ⟨result, [loaded.announcement]⟩

structure RelationCost where
  costs : Table Relation Nat
  default : Nat

def RelationCost.of (c : RelationCost) (r : Relation) : Nat := (c.costs.find? r).getD c.default

def Loaded.weights (l : Loaded σ) (b : Bounds) (cost : Relation → Nat) : List (Nat × Nat) :=
  b.relations.keys.flatMap fun r =>
    let (first, stop) := l.encoding.numbering.range r
    (List.range' first (stop - first)).map (·, cost r)

/-- Weighs every unknown tuple of every bound relation with the cost of the relation. Variables that
the clauses mention together are looked at together. -/
def Loaded.setCosts (l : Loaded σ) (b : Bounds) (cost : Relation → Nat) : Loaded σ :=
  let ranks := l.encoding.cnf.ranks
  let rank := fun ((var, _) : Nat × Nat) => ranks.getD var (l.encoding.cnf.numVars + 1)
  let weights := ((l.weights b cost).filter (·.2 ≠ 0)).mergeSort fun x y => rank x ≤ rank y
  { l with store := { l.store with costs := ⟨weights⟩ } }

def solveWithCostBy (β : Type) [WeightEncoder β] (backend : σ) (f : Formula) (b : Bounds)
    (o : Options) (cost : Relation → Nat) : Reported Solution :=
  if o.logged ∨ ¬ o.solver.minimizer then
    ⟨.error (.costUnsupported o.solver.name o.logLevel), []⟩
  else
    withEncoding f b o fun encoding =>
      let loaded := (encoding.load backend).setCosts b cost
      let result :=
        match o.control.check with
        | .error failure => .error failure.toError
        | .ok _ =>
            let (answer, store) := loaded.store.solveMinCostBy β
            { loaded with store }.conclude b answer
      ⟨result, [{ loaded.announcement with primary := 0 }]⟩

def solveWithCost (backend : σ) (f : Formula) (b : Bounds) (o : Options) (cost : Relation → Nat) :
    Reported Solution :=
  solveWithCostBy Budgets backend f b o cost

end ModelFinder
