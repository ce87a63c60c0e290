import ModelFinder.Sat.Store
import ModelFinder.Sat.Weights

/-! What makes the answers of a solver trustworthy, said of the clauses it holds and not of the way
it searches, and what makes an encoder of weights trustworthy, said of the clauses it gives. -/
namespace ModelFinder

def Satisfies (s : Nat → Bool) (clauses : List Clause) : Prop :=
  ∀ clause ∈ clauses, clause.holds s = true

def Meets (s : Nat → Bool) (literals : List Int) : Prop := ∀ l ∈ literals, litHolds s l = true

def Satisfiable (clauses : List Clause) (literals : List Int) : Prop :=
  ∃ s, Satisfies s clauses ∧ Meets s literals

/-- A solver keeps the clauses it accepts, which `held` lists, and answers by them: a model
satisfies them and the assumptions, and a core consists of assumptions that they exclude. A solver
may still refuse clauses and fail to answer. -/
structure Faithful (σ : Type) [Backend σ] (held : σ → List Clause) : Prop where
  reset : ∀ b : σ, held (Backend.reset b) = []
  reserve : ∀ (b : σ) n, held (Backend.reserve b n) = held b
  accept : ∀ (b : σ) clause next,
    Backend.add b clause = (true, next) → ∀ s, Satisfies s (held next) ↔
      Satisfies s (held b) ∧ clause.holds s = true
  refuse : ∀ (b : σ) clause next,
    Backend.add b clause = (false, next) → held next = held b
  keep : ∀ (b : σ) assumptions, held (Backend.solve b assumptions).2 = held b
  sat : ∀ (b : σ) assumptions model, (Backend.solve b assumptions).1 = .sat model →
    Satisfies model (held b) ∧ Meets model assumptions
  unsat : ∀ (b : σ) assumptions core, (Backend.solve b assumptions).1 = .unsat core →
    core.get ⊆ assumptions ∧ ¬ Satisfiable (held b) core.get

structure Reliable (σ : Type) [Backend σ] : Prop where
  accepts : ∀ (b : σ) clause, (Backend.add b clause).1 = true
  answers : ∀ (b : σ) assumptions,
    (∃ model, (Backend.solve b assumptions).1 = .sat model) ∨
      ∃ core, (Backend.solve b assumptions).1 = .unsat core

structure Weighted (limit : Nat) (items : List (Int × Nat)) : Prop where
  known : ∀ item ∈ items, item.1 ≠ 0 ∧ item.1.natAbs ≤ limit
  distinct : (items.map fun item => item.1.natAbs).Nodup

/-- Clauses and literals bound a weight: the clauses leave the variables up to the limit free, and
together with the literals they admit exactly the assignments of these variables within the budget. -/
structure Enforces (items : List (Int × Nat)) (limit budget : Nat) (clauses : List Clause)
    (roots : List Int) : Prop where
  completes : ∀ s, ∃ t, (∀ v, 1 ≤ v → v ≤ limit → t v = s v) ∧ Satisfies t clauses ∧
    (weigh s items ≤ budget → Meets t roots)
  confines : ∀ t, Satisfies t clauses → Meets t roots → weigh t items ≤ budget

namespace WeightEncoder

variable {β : Type} [WeightEncoder β]

/-- An encoder comes to a state by enforcing budgets none of which exceeds the one before, the latest
of them being `budget`, and has given the clauses `given` on the way. -/
inductive Reaches (items : List (Int × Nat)) (limit : Nat) : Nat → List Clause → β → Prop
  | start (budget : Nat) : Reaches items limit budget [] (start items limit budget)
  | enforce {budget : Nat} {given : List Clause} {encoder next : β} {less : Nat} {roots : List Int}
      {clauses : Array Clause} (reached : Reaches items limit budget given encoder)
      (within : less ≤ budget) (ok : enforce encoder less = .ok (roots, clauses, next)) :
      Reaches items limit less (given ++ clauses.toList) next

variable (β) in
/-- An encoder never fails and enforces every budget that does not exceed the one before, whatever it
has given already. -/
def Exact : Prop :=
  ∀ {items : List (Int × Nat)} {limit budget less : Nat} {given : List Clause} {encoder : β},
    Weighted limit items → Reaches items limit budget given encoder → less ≤ budget →
      ∃ roots clauses next, enforce encoder less = .ok (roots, clauses, next) ∧
        Enforces items limit less (given ++ clauses.toList) roots

variable (β) in
def Confined : Prop :=
  ∀ {items : List (Int × Nat)} {limit budget : Nat} {given : List Clause} {encoder : β},
    Weighted limit items → Reaches items limit budget given encoder → ∀ clause ∈ given, ∀ l ∈ clause,
      l.natAbs ∈ items.map (·.1.natAbs) ∨ limit < l.natAbs ∧ l.natAbs ≤ last encoder

end WeightEncoder

end ModelFinder
