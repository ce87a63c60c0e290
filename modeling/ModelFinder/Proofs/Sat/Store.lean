import ModelFinder.Proofs.Sat.Faults
import ModelFinder.Search.Session

/-! Constraints that can be taken back. However many constraints a store has seen, what it holds says
no more about the variables up to the limit than the permanent clauses and the clauses of the live
constraints: an assignment of these variables can always be completed by making the selectors of the
live constraints true and all other selectors false. -/
namespace ModelFinder

/-- A solver that keeps what it accepts, accepts every clause and never breaks down. It may be
interrupted; `interruptions` counts how often it was. -/
structure Oracle (σ : Type) [Backend σ] (held : σ → List Clause) (interruptions : σ → Nat) :
    Prop where
  faithful : Faithful σ held
  accepts : ∀ (solver : σ) clause, (Backend.add solver clause).1 = true
  steady : ∀ (solver : σ) assumptions message, (Backend.solve solver assumptions).1 ≠ .failed message
  reserved : ∀ (solver : σ) n, interruptions (Backend.reserve solver n) = interruptions solver
  added : ∀ (solver : σ) clause, interruptions (Backend.add solver clause).2 = interruptions solver
  answered : ∀ (solver : σ) assumptions, (Backend.solve solver assumptions).1 ≠ .interrupted →
    interruptions (Backend.solve solver assumptions).2 = interruptions solver
  interrupted : ∀ (solver : σ) assumptions, (Backend.solve solver assumptions).1 = .interrupted →
    interruptions solver < interruptions (Backend.solve solver assumptions).2

theorem Oracle.gauge {σ : Type} [Backend σ] {held : σ → List Clause} {interruptions : σ → Nat}
    (oracle : Oracle σ held interruptions) : Gauge σ interruptions where
  reserved solver n := Nat.le_of_eq (oracle.reserved solver n).symm
  added solver clause := Nat.le_of_eq (oracle.added solver clause).symm
  searched solver assumptions := by
    by_cases stopped : (Backend.solve solver assumptions).1 = .interrupted
    · exact Nat.le_of_lt (oracle.interrupted solver assumptions stopped)
    · exact Nat.le_of_eq (oracle.answered solver assumptions stopped).symm

theorem Oracle.not_refused {σ : Type} [Backend σ] {held : σ → List Clause} {interruptions : σ → Nat}
    (oracle : Oracle σ held interruptions) {kind : Clause → Bool} {count : σ → Nat}
    {first last : σ} : ¬ Refused kind count first last := by
  rintro ⟨solver, clause, -, rejected, -⟩
  rw [oracle.accepts solver clause] at rejected
  cases rejected

theorem Reliable.oracle {σ : Type} [Backend σ] {held : σ → List Clause} (reliable : Reliable σ)
    (faithful : Faithful σ held) : Oracle σ held fun _ => 0 where
  faithful := faithful
  accepts := reliable.accepts
  steady solver assumptions message failed := by
    rcases reliable.answers solver assumptions with ⟨model, sat⟩ | ⟨core, unsat⟩
    · rw [sat] at failed
      cases failed
    · rw [unsat] at failed
      cases failed
  reserved _ _ := rfl
  added _ _ := rfl
  answered _ _ _ := rfl
  interrupted solver assumptions stopped := by
    rcases reliable.answers solver assumptions with ⟨model, sat⟩ | ⟨core, unsat⟩
    · rw [sat] at stopped
      cases stopped
    · rw [unsat] at stopped
      cases stopped

namespace Store

variable {σ : Type} {held : σ → List Clause} {interruptions : σ → Nat} {base : List Clause}
  {limit : Nat} {live : List (Nat × Clause)} {st : Store σ} {clause : Clause}

theorem knows_iff {clauses : List Clause} {literals : List Int} :
    PlainStore.Knows ⟨List.range' 1 limit, clauses, live⟩ literals ↔ Mentions limit literals := by
  apply forall₂_congr
  intro l _
  rw [List.mem_range'_1]
  omega

/-- The store holds permanent clauses over the variables up to a limit and live constraints with
selectors beyond it. What it holds implies the clause of a live constraint whose selector is true,
and it allows every assignment in which the only true selectors are those of live constraints whose
clauses hold. -/
structure Guards (held : σ → List Clause) (base : List Clause) (limit : Nat)
    (live : List (Nat × Clause)) (st : Store σ) : Prop where
  enough : limit ≤ st.numVars
  selectors : ∀ selector, selector ∈ st.selectors ↔ selector ∈ live.map Prod.fst
  ranges : ∀ selector ∈ live.map Prod.fst, limit < selector ∧ selector ≤ st.numVars
  permanent : ∀ clause ∈ base, Mentions limit clause
  mentions : ∀ entry ∈ live, Mentions limit entry.2
  implied : ∀ a, Satisfies a (held st.backend) →
    Satisfies a base ∧ ∀ entry ∈ live, a entry.1 = true → entry.2.holds a = true
  allowed : ∀ a, Satisfies a base →
    (∀ selector, limit < selector → selector ≤ st.numVars → a selector = true →
      ∃ clause, (selector, clause) ∈ live ∧ clause.holds a = true) → Satisfies a (held st.backend)

theorem Guards.congr (guards : st.Guards held base limit live) {same : List (Nat × Clause)}
    (equal : ∀ entry, entry ∈ live ↔ entry ∈ same) : st.Guards held base limit same := by
  have keys : ∀ selector, selector ∈ live.map Prod.fst ↔ selector ∈ same.map Prod.fst := by
    intro selector
    simp only [List.mem_map, equal]
  refine ⟨guards.enough, ?_, ?_, guards.permanent, ?_, ?_, ?_⟩
  · exact fun selector => (guards.selectors selector).trans (keys selector)
  · exact fun selector member => guards.ranges selector ((keys selector).mpr member)
  · exact fun entry member => guards.mentions entry ((equal entry).mpr member)
  · intro a satisfied
    obtain ⟨permanent, constraints⟩ := guards.implied a satisfied
    exact ⟨permanent, fun entry member => constraints entry ((equal entry).mpr member)⟩
  · intro a permanent selected
    apply guards.allowed a permanent
    intro selector above known holds
    obtain ⟨clause, member, isTrue⟩ := selected selector above known holds
    exact ⟨clause, (equal _).mpr member, isTrue⟩

/-- A store that guards is one that realizes the plain store of the variables up to the limit. -/
theorem guards_iff : st.Guards held base limit live ↔
    limit ≤ st.numVars ∧ st.Realizes held ⟨List.range' 1 limit, base, live⟩ := by
  have range : ∀ v, v ∈ List.range' 1 limit ↔ 1 ≤ v ∧ v ≤ limit := by
    intro v
    rw [List.mem_range'_1]
    omega
  constructor
  · intro guards
    have enough := guards.enough
    refine ⟨enough, ⟨?_, guards.selectors, ?_, ?_, ?_, guards.implied, ?_⟩⟩
    · intro v member
      have bound := (range v).mp member
      omega
    · intro selector member
      have bound := guards.ranges selector member
      refine ⟨by omega, bound.2, fun handed => ?_⟩
      have small := (range selector).mp handed
      omega
    · exact fun clause member => knows_iff.mpr (guards.permanent clause member)
    · exact fun entry member => knows_iff.mpr (guards.mentions entry member)
    · intro a permanent selected
      apply guards.allowed a permanent
      intro selector above known
      exact selected selector (by omega) known fun handed => by
        have small := (range selector).mp handed
        omega
  · rintro ⟨enough, realizes⟩
    refine ⟨enough, realizes.selectors, ?_, ?_, ?_, realizes.implied, ?_⟩
    · intro selector member
      obtain ⟨positive, known, apart⟩ := realizes.apart selector member
      have above : ¬ selector ≤ limit := fun small => apart ((range selector).mpr ⟨positive, small⟩)
      omega
    · exact fun clause member => knows_iff.mp (realizes.clauses clause member)
    · exact fun entry member => knows_iff.mp (realizes.constraints entry member)
    · intro a permanent selected
      apply realizes.allowed a permanent
      intro v positive known apart
      have above : ¬ v ≤ limit := fun small => apart ((range v).mpr ⟨positive, small⟩)
      exact selected v (by omega) known

variable [Backend σ]

theorem addConstraint_guarded (faithful : Faithful σ held)
    (guards : st.Guards held base limit live) (fits : Mentions limit clause) :
    (st.addConstraint clause).2.model = st.model ∧
      match (st.addConstraint clause).1 with
      | some handle => handle = st.numVars + 1 ∧
          (st.addConstraint clause).2.Guards held base limit (live ++ [(handle, clause)])
      | none => (st.addConstraint clause).2.Guards held base limit live := by
  obtain ⟨enough, realizes⟩ := guards_iff.mp guards
  obtain ⟨next, isNext, model⟩ := addConstraint_realizes faithful realizes (knows_iff.mpr fits)
  have more : limit ≤ (st.addConstraint clause).2.numVars := by
    rw [addConstraint_eq]
    exact Nat.le_succ_of_le enough
  refine ⟨model, ?_⟩
  split
  · rename_i handle given
    rw [given] at next
    exact ⟨isNext handle given, guards_iff.mpr ⟨more, next⟩⟩
  · rename_i refused
    rw [refused] at next
    exact guards_iff.mpr ⟨more, next⟩

theorem removeConstraint_guarded (faithful : Faithful σ held)
    (guards : st.Guards held base limit live) (handle : Nat) :
    (st.removeConstraint handle).Guards held base limit (live.filter (·.1 ≠ handle)) ∧
      (st.removeConstraint handle).model = st.model := by
  obtain ⟨enough, realizes⟩ := guards_iff.mp guards
  obtain ⟨next, model⟩ := removeConstraint_realizes faithful realizes handle
  have numVars : (st.removeConstraint handle).numVars = st.numVars := by
    unfold removeConstraint
    split <;> rfl
  exact ⟨guards_iff.mpr ⟨numVars.symm ▸ enough, next⟩, model⟩

theorem solve_guarded (faithful : Faithful σ held) (guards : st.Guards held base limit live)
    (assumptions : List Int) : (st.solve assumptions).2.Guards held base limit live := by
  obtain ⟨enough, realizes⟩ := guards_iff.mp guards
  obtain ⟨numVars, -, -, selectors, backend⟩ := @solve_fields σ st _ assumptions
  refine guards_iff.mpr ⟨numVars.symm ▸ enough, realizes.widen (Nat.le_of_eq numVars.symm) selectors ?_⟩
  rw [backend]
  exact faithful.keep _ _

/-- A search that gives an answer answers for the permanent clauses, the live constraints and the
assumptions. -/
theorem solve_decides (faithful : Faithful σ held) (guards : st.Guards held base limit live)
    {assumptions : List Int} (fit : Mentions limit assumptions) :
    ((st.solve assumptions).1 ≠ .ok true → (st.solve assumptions).2.model = st.model) ∧
      match (st.solve assumptions).1 with
      | .ok true => Allows base live assumptions (st.solve assumptions).2.model
      | .ok false => ∀ a, ¬ Allows base live assumptions a
      | .error _ => True := by
  obtain ⟨-, answers⟩ :=
    solve_realizes faithful (guards_iff.mp guards).2 (knows_iff.mpr fit)
  refine ⟨answers.kept, ?_⟩
  split
  · rename_i found
    exact answers.model found
  · rename_i refuted
    intro a allowed
    cases (answers.exact false refuted).mpr ⟨a, allowed⟩
  · trivial

/-- The failed assumptions of a search without a model are among those made, and already exclude what
the store guards. -/
theorem solve_failed (faithful : Faithful σ held) (guards : st.Guards held base limit live)
    {assumptions : List Int} (fit : Mentions limit assumptions)
    (refuted : (st.solve assumptions).1 = .ok false) :
    (st.solve assumptions).2.failed.get ⊆ assumptions ∧
      ∀ a, ¬ Allows base live (st.solve assumptions).2.failed.get a :=
  (solve_realizes faithful (guards_iff.mp guards).2 (knows_iff.mpr fit)).2.failed refuted

/-- A search of a solver that never breaks down gives an answer or is interrupted. -/
theorem solve_interruptions (oracle : Oracle σ held interruptions) (assumptions : List Int) :
    (st.solve assumptions).2.numVars = st.numVars ∧
      match (st.solve assumptions).1 with
      | .ok _ => interruptions (st.solve assumptions).2.backend = interruptions st.backend
      | .error failure => failure = .aborted ∧
          interruptions st.backend < interruptions (st.solve assumptions).2.backend := by
  have answered := oracle.answered st.backend (st.selectors.toList.map Int.ofNat ++ assumptions)
  unfold solve
  cases answer : (Backend.solve st.backend (st.selectors.toList.map Int.ofNat ++ assumptions)).1 with
  | sat model =>
    simp only [answer]
    exact ⟨trivial, answered (by simp [answer])⟩
  | unsat core =>
    simp only [answer]
    exact ⟨trivial, answered (by simp [answer])⟩
  | interrupted =>
    simp only [answer]
    exact ⟨trivial, trivial, oracle.interrupted _ _ answer⟩
  | failed message => exact absurd answer (oracle.steady _ _ message)

end Store

section Load

variable {σ : Type} [Backend σ] {held : σ → List Clause} {interruptions : σ → Nat} {e : Encoding}
  {solver : σ}

/-- The clauses that are accepted when a store is offered them in order. -/
def Store.accepted (st : Store σ) : List Clause → List Clause
  | [] => []
  | clause :: rest =>
      let (accepted, next) := st.addClause clause
      if accepted then clause :: next.accepted rest else next.accepted rest

def Encoding.accepted (e : Encoding) (solver : σ) : List Clause :=
  ((Store.empty solver).addVariables e.cnf.numVars).accepted e.cnf.clauses.toList

theorem Store.accepted_sublist (clauses : List Clause) (st : Store σ) :
    (st.accepted clauses).Sublist clauses := by
  induction clauses generalizing st with
  | nil => exact .slnil
  | cons clause rest ih =>
    simp only [accepted]
    split
    · exact (ih _).cons_cons clause
    · exact (ih _).cons clause

theorem Store.accepted_of_accepts
    (accepts : ∀ (solver : σ) clause, (Backend.add solver clause).1 = true) (clauses : List Clause)
    (st : Store σ) : st.accepted clauses = clauses := by
  induction clauses generalizing st with
  | nil => rfl
  | cons clause rest ih =>
    have taken : (st.addClause clause).1 = true := accepts st.backend clause
    simp only [accepted, taken, if_true, ih]

theorem Store.addClauses_holds (faithful : Faithful σ held) (clauses : List Clause)
    (st : Store σ) :
    (clauses.foldl (fun s clause => (s.addClause clause).2) st).numVars = st.numVars ∧
      (clauses.foldl (fun s clause => (s.addClause clause).2) st).selectors = st.selectors ∧
      ∀ a, Satisfies a (held (clauses.foldl (fun s clause => (s.addClause clause).2) st).backend) ↔
        Satisfies a (held st.backend) ∧ Satisfies a (st.accepted clauses) := by
  induction clauses generalizing st with
  | nil => exact ⟨rfl, rfl, fun a => by simp [accepted]⟩
  | cons clause rest ih =>
    obtain ⟨numVars, selectors, meaning⟩ := ih (st.addClause clause).2
    refine ⟨numVars, selectors, fun a => ?_⟩
    rw [List.foldl_cons, meaning a]
    simp only [accepted]
    split
    · rename_i taken
      have added : Backend.add st.backend clause = (true, (st.addClause clause).2.backend) :=
        Prod.ext taken rfl
      rw [faithful.accept _ _ _ added a, satisfies_cons, and_assoc]
    · rename_i refused
      have rejected : Backend.add st.backend clause = (false, (st.addClause clause).2.backend) :=
        Prod.ext (Bool.eq_false_iff.mpr refused) rfl
      rw [faithful.refuse _ _ _ rejected]

theorem Encoding.load_accepted (faithful : Faithful σ held) (fresh : held solver = []) :
    (e.load solver).store.numVars = e.cnf.numVars ∧ (e.load solver).store.selectors = .empty ∧
      ∀ a, Satisfies a (held (e.load solver).store.backend) ↔ Satisfies a (e.accepted solver) := by
  have start : ((Store.empty solver).addVariables e.cnf.numVars).numVars = e.cnf.numVars ∧
      ((Store.empty solver).addVariables e.cnf.numVars).selectors = .empty ∧
      held ((Store.empty solver).addVariables e.cnf.numVars).backend = [] := by
    unfold Store.addVariables
    split
    · rename_i none
      exact ⟨none.symm, rfl, fresh⟩
    · exact ⟨Nat.zero_add _, rfl, (faithful.reserve _ _).trans fresh⟩
  obtain ⟨numVars, selectors, meaning⟩ := Store.addClauses_holds faithful e.cnf.clauses.toList
    ((Store.empty solver).addVariables e.cnf.numVars)
  refine ⟨numVars.trans start.1, selectors.trans start.2.1, fun a => ?_⟩
  rw [Encoding.load, meaning a, start.2.2]
  exact and_iff_right satisfies_nil

theorem Encoding.accepted_sublist : (e.accepted solver).Sublist e.cnf.clauses.toList :=
  Store.accepted_sublist ..

variable (e solver) in
theorem Encoding.accepted_of_accepts
    (accepts : ∀ (solver : σ) clause, (Backend.add solver clause).1 = true) :
    e.accepted solver = e.cnf.clauses.toList :=
  Store.accepted_of_accepts accepts ..

theorem Encoding.load_holds (faithful : Faithful σ held)
    (accepts : ∀ (solver : σ) clause, (Backend.add solver clause).1 = true)
    (fresh : held solver = []) :
    (e.load solver).store.numVars = e.cnf.numVars ∧ (e.load solver).store.selectors = .empty ∧
      ∀ a, Satisfies a (held (e.load solver).store.backend) ↔
        Satisfies a e.cnf.clauses.toList := by
  rw [← e.accepted_of_accepts solver accepts]
  exact Encoding.load_accepted faithful fresh

theorem Encoding.load_interruptions (oracle : Oracle σ held interruptions) :
    interruptions (e.load solver).store.backend = interruptions solver := by
  have clauses : ∀ clauses : List Clause, ∀ st : Store σ, interruptions
      (clauses.foldl (fun s clause => (s.addClause clause).2) st).backend =
        interruptions st.backend := by
    intro clauses
    induction clauses with
    | nil => exact fun st => rfl
    | cons clause rest ih => exact fun st => (ih _).trans (oracle.added st.backend clause)
  rw [Encoding.load, clauses]
  unfold Store.addVariables
  split
  · rfl
  · exact oracle.reserved _ _

/-- A loaded store guards what it has accepted of the encoding. -/
theorem Encoding.load_guarded (faithful : Faithful σ held) (fresh : held solver = [])
    (mentions : ∀ clause ∈ e.cnf.clauses.toList, Mentions e.cnf.numVars clause) :
    (e.load solver).store.Guards held (e.accepted solver) e.cnf.numVars [] := by
  obtain ⟨numVars, selectors, meaning⟩ := @Encoding.load_accepted _ _ _ e _ faithful fresh
  refine ⟨Nat.le_of_eq numVars.symm, ?_, by simp, ?_, by simp, ?_, ?_⟩
  · intro selector
    rw [selectors]
    simp
  · exact fun clause member => mentions clause (e.accepted_sublist.subset member)
  · intro a satisfied
    exact ⟨(meaning a).mp satisfied, by simp⟩
  · intro a permanent _
    exact (meaning a).mpr permanent

theorem Encoding.load_guards (oracle : Oracle σ held interruptions) (fresh : held solver = [])
    (mentions : ∀ clause ∈ e.cnf.clauses.toList, Mentions e.cnf.numVars clause) :
    (e.load solver).store.Guards held e.cnf.clauses.toList e.cnf.numVars [] := by
  rw [← e.accepted_of_accepts solver oracle.accepts]
  exact Encoding.load_guarded oracle.faithful fresh mentions

end Load

end ModelFinder
