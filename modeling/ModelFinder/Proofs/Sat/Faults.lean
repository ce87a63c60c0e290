import ModelFinder.Proofs.Sat.Refinement

/-! What a solver does to its clients when it refuses clauses. Refusals leave no trace in the answers,
so they are counted: a count that no call makes smaller tells whether one happened between two states
of the solver. -/
namespace ModelFinder

structure Gauge (σ : Type) [Backend σ] (count : σ → Nat) : Prop where
  reserved : ∀ (solver : σ) n, count solver ≤ count (Backend.reserve solver n)
  added : ∀ (solver : σ) clause, count solver ≤ count (Backend.add solver clause).2
  searched : ∀ (solver : σ) assumptions, count solver ≤ count (Backend.solve solver assumptions).2

structure Counts (σ : Type) [Backend σ] (kind : Clause → Bool) (refusals : σ → Nat) : Prop where
  reserved : ∀ (solver : σ) n, refusals (Backend.reserve solver n) = refusals solver
  added : ∀ (solver : σ) clause, refusals (Backend.add solver clause).2 =
    refusals solver + if (Backend.add solver clause).1 = false ∧ kind clause = true then 1 else 0
  searched : ∀ (solver : σ) assumptions,
    refusals (Backend.solve solver assumptions).2 = refusals solver

/-- A clause of more than one literal, as that of a constraint is; the clause that frees a selector has
only one. -/
def Clause.compound (clause : Clause) : Bool := decide (1 < clause.length)

def Refused {σ : Type} [Backend σ] (kind : Clause → Bool) (count : σ → Nat) (first last : σ) : Prop :=
  ∃ solver clause, kind clause = true ∧ (Backend.add solver clause).1 = false ∧
    count first ≤ count solver ∧ count (Backend.add solver clause).2 ≤ count last

section

variable {σ : Type} [Backend σ] {kind : Clause → Bool} {count refusals : σ → Nat}
  {first last : σ}

theorem Gauge.zero : Gauge σ fun _ => 0 :=
  ⟨fun _ _ => Nat.le_refl 0, fun _ _ => Nat.le_refl 0, fun _ _ => Nat.le_refl 0⟩

theorem Counts.gauge (counts : Counts σ kind refusals) : Gauge σ refusals where
  reserved solver n := Nat.le_of_eq (counts.reserved solver n).symm
  added solver clause := counts.added solver clause ▸ Nat.le_add_right ..
  searched solver assumptions := Nat.le_of_eq (counts.searched solver assumptions).symm

theorem Counts.lt_of_refused (counts : Counts σ kind refusals)
    (refused : Refused kind refusals first last) : refusals first < refusals last := by
  obtain ⟨solver, clause, isKind, rejected, before, after⟩ := refused
  have grown := counts.added solver clause
  rw [if_pos ⟨rejected, isKind⟩] at grown
  omega

theorem Refused.widen (refused : Refused kind count first last) {earlier later : σ}
    (before : count earlier ≤ count first) (after : count last ≤ count later) :
    Refused kind count earlier later := by
  obtain ⟨solver, clause, isKind, rejected, lower, upper⟩ := refused
  exact ⟨solver, clause, isKind, rejected, Nat.le_trans before lower, Nat.le_trans upper after⟩

end

namespace Store

variable {σ : Type} {st next last : Store σ} {clause : Clause}

/-- The later store has as many variables and permanent clauses as the earlier one; auxiliary
variables and constraints do not count. -/
structure Conserves (st next : Store σ) : Prop where
  numVariables : next.numVariables = st.numVariables
  numClauses : next.numClauses = st.numClauses

theorem Conserves.refl (st : Store σ) : st.Conserves st := ⟨rfl, rfl⟩

theorem Conserves.trans (first : st.Conserves next) (second : next.Conserves last) :
    st.Conserves last :=
  ⟨second.numVariables.trans first.numVariables, second.numClauses.trans first.numClauses⟩

variable [Backend σ] {count : σ → Nat}

theorem addConstraint_conserves : st.Conserves (st.addConstraint clause).2 := by
  rw [addConstraint_eq]
  exact ⟨Nat.add_sub_add_right .., rfl⟩

theorem removeConstraint_conserves (handle : Nat) : st.Conserves (st.removeConstraint handle) := by
  unfold removeConstraint
  split <;> exact ⟨rfl, rfl⟩

theorem solve_fields (assumptions : List Int) :
    (st.solve assumptions).2.numVars = st.numVars ∧
      (st.solve assumptions).2.auxVars = st.auxVars ∧
      (st.solve assumptions).2.numClauses = st.numClauses ∧
      (st.solve assumptions).2.selectors = st.selectors ∧
      (st.solve assumptions).2.backend =
        (Backend.solve st.backend (st.selectors.toList.map Int.ofNat ++ assumptions)).2 := by
  cases answer : (Backend.solve st.backend (st.selectors.toList.map Int.ofNat ++ assumptions)).1 <;>
    simp only [solve, answer, and_self]

theorem solve_conserves (assumptions : List Int) : st.Conserves (st.solve assumptions).2 := by
  obtain ⟨numVars, auxVars, numClauses, -, -⟩ := @solve_fields σ st _ assumptions
  refine ⟨?_, numClauses⟩
  rw [numVariables, numVars, auxVars]
  rfl

theorem addConstraint_count (gauge : Gauge σ count) :
    count st.backend ≤ count (st.addConstraint clause).2.backend := by
  rw [addConstraint_eq]
  exact Nat.le_trans (gauge.reserved ..) (gauge.added ..)

theorem removeConstraint_count (gauge : Gauge σ count) (handle : Nat) :
    count st.backend ≤ count (st.removeConstraint handle).backend := by
  unfold removeConstraint
  split
  · exact gauge.added ..
  · exact Nat.le_refl _

theorem solve_count (gauge : Gauge σ count) (assumptions : List Int) :
    count st.backend ≤ count (st.solve assumptions).2.backend := by
  obtain ⟨-, -, -, -, backend⟩ := @solve_fields σ st _ assumptions
  rw [backend]
  exact gauge.searched ..

theorem addConstraint_refused (gauge : Gauge σ count) {kind : Clause → Bool}
    (isKind : ∀ guard : Int, kind (clause ++ [guard]) = true)
    (none : (st.addConstraint clause).1 = none) :
    Refused kind count st.backend (st.addConstraint clause).2.backend := by
  rw [addConstraint_eq] at none ⊢
  simp only [ite_eq_right_iff, reduceCtorEq, imp_false, Bool.not_eq_true] at none
  exact ⟨_, _, isKind _, none, gauge.reserved .., Nat.le_refl _⟩

end Store

/-- A solver with the clauses that it has refused so far, the latest first. -/
structure Recording (σ : Type) where
  solver : σ
  refused : List Clause

namespace Recording

variable {σ : Type} [Backend σ]

instance : Backend (Recording σ) where
  reset recording := { recording with solver := Backend.reset recording.solver }
  reserve recording n := { recording with solver := Backend.reserve recording.solver n }
  add recording clause :=
    let (accepted, solver) := Backend.add recording.solver clause
    (accepted, ⟨solver, if accepted then recording.refused else clause :: recording.refused⟩)
  solve recording assumptions :=
    let (answer, solver) := Backend.solve recording.solver assumptions
    (answer, { recording with solver })

theorem faithful {held : σ → List Clause} (faithful : Faithful σ held) :
    Faithful (Recording σ) (held ·.solver) where
  reset recording := faithful.reset recording.solver
  reserve recording := faithful.reserve recording.solver
  accept recording clause next added :=
    faithful.accept recording.solver clause next.solver
      (Prod.ext (congrArg (·.1) added :) (congrArg (·.2.solver) added :))
  refuse recording clause next added :=
    faithful.refuse recording.solver clause next.solver
      (Prod.ext (congrArg (·.1) added :) (congrArg (·.2.solver) added :))
  keep recording := faithful.keep recording.solver
  sat recording := faithful.sat recording.solver
  unsat recording := faithful.unsat recording.solver

theorem counts (kind : Clause → Bool) :
    Counts (Recording σ) kind fun recording => recording.refused.countP kind where
  reserved _ _ := rfl
  added recording clause := by
    simp only [Backend.add]
    cases (Backend.add recording.solver clause).1 with
    | true => simp
    | false => simp [List.countP_cons]
  searched _ _ := rfl

end Recording

end ModelFinder
