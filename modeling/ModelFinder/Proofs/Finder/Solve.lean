import ModelFinder.Proofs.Encoding.Meaning
import ModelFinder.Proofs.Finder.Models

/-! Single answers are right: a solution has a model exactly if the formula has one within the bounds,
and with an incremental solver the model is minimal. -/
namespace ModelFinder

variable {σ : Type} [Backend σ] {held : σ → List Clause} {solver : σ} {f : Formula} {b : Bounds}
  {o : Options}

/-- What a right answer is: it has a model exactly if there is one, and the model it has lies within
the bounds, makes the formula true, has the integers of the bounds and is minimal if that was asked
for. -/
def Solution.Answers (solution : Solution) (f : Formula) (b : Bounds) (minimal : Bool) : Prop :=
  (solution.isSat = true ↔ ∃ m, f.IsModel b m) ∧
    (solution.isSat = true → ∃ m, solution.model? = some m ∧ f.IsModel b m ∧
      (∀ value tuples, b.ints.find? value = some tuples → m.ints.find? value = some tuples) ∧
      (minimal = true → f.IsMinimalModel b m))

theorem Solution.answers_sat {m : Instance} {minimal : Bool} {solution : Solution}
    (isSat : solution.isSat = true) (isModel : solution.model? = some m) (model : f.IsModel b m)
    (ints : ∀ value, m.ints.find? value = b.ints.find? value)
    (least : minimal = true → f.IsMinimalModel b m) : solution.Answers f b minimal := by
  refine ⟨⟨fun _ => ⟨m, model⟩, fun _ => isSat⟩, fun _ => ⟨m, isModel, model, ?_, least⟩⟩
  intro value tuples found
  rw [ints, found]

theorem Solution.answers_unsat {minimal : Bool} {solution : Solution}
    (isUnsat : solution.isSat = false) (noModel : ∀ m, ¬ f.IsModel b m) :
    solution.Answers f b minimal := by
  have notSat : solution.isSat ≠ true := by simp [isUnsat]
  refine ⟨⟨fun isSat => absurd isSat notSat, fun some => ?_⟩, fun isSat => absurd isSat notSat⟩
  obtain ⟨m, isModel⟩ := some
  exact absurd isModel (noModel m)

theorem Solution.Answers.weaken {solution : Solution} (answers : solution.Answers f b true)
    (minimal : Bool) : solution.Answers f b minimal := by
  refine ⟨answers.1, fun isSat => ?_⟩
  obtain ⟨m, isModel, model, ints, least⟩ := answers.2 isSat
  exact ⟨m, isModel, model, ints, fun _ => least rfl⟩

theorem Formula.isMinimalModel_lowest {n : Numbering} {m : Instance} (regular : b.Regular)
    (numbers : n.Numbers b) (depicts : n.Depicts b (fun _ => false) m) (isModel : f.IsModel b m) :
    f.IsMinimalModel b m := by
  refine ⟨isModel, fun other also _ => ?_⟩
  have drawn := Numbering.valuation_depicts regular numbers also.1
  apply (depicts.partOf_iff regular numbers drawn).mpr
  intro var _ _ isTrue
  cases isTrue

theorem Solution.ofFolded_answers {result : Folded} {sharing logged : Bool} (regular : b.Regular)
    (sorted : f.WellSorted) (fits : f.Fits b sharing)
    (ok : f.encode b sharing logged = .ok (.folded result)) :
    ∃ solution, Solution.ofFolded result b = .ok solution ∧ solution.Answers f b true := by
  obtain ⟨-, bounds, numbers, folds⟩ := Formula.encode_folded regular sorted fits ok
  cases value : result.value with
  | true =>
    obtain ⟨m, stats, made, depicts, ints⟩ :=
      Solution.ofFolded_true regular (.ofBounds b) bounds value
    have holds := (folds _ _ (depicts.agrees regular numbers)).mp value
    have isModel : f.IsModel b m := ⟨depicts.within regular numbers, holds⟩
    have least := Formula.isMinimalModel_lowest regular numbers depicts isModel
    exact ⟨_, made, Solution.answers_sat rfl rfl isModel ints fun _ => least⟩
  | false =>
    obtain ⟨stats, made⟩ := @Solution.ofFolded_false b result value
    refine ⟨_, made, Solution.answers_unsat rfl fun m isModel => ?_⟩
    have depicts := Numbering.valuation_depicts regular numbers isModel.1
    have isTrue := (folds _ _ (depicts.agrees regular numbers)).mpr isModel.2
    rw [value] at isTrue
    cases isTrue

theorem Session.start_ready {interruptions : σ → Nat} (oracle : Oracle σ held interruptions)
    (fresh : held solver = []) {e : Encoding} (encodes : e.Encodes f b) {control : Control}
    (unlimited : control.limitMs ≠ some 0) :
    (Session.start (e.load solver) control).Ready held [] where
  guards := Encoding.load_guards oracle fresh encodes.mentions
  roots := encodes.roots
  primary := encodes.primary
  small := encodes.small
  unlimited := unlimited

omit [Backend σ] in
theorem Session.admits_nil {s : Session σ} {a : Nat → Bool} :
    s.Admits [] [] a ↔ s.loaded.encoding.Models a := by
  constructor
  · intro admits
    exact ⟨admits.base, (meets_append.mp admits.assumptions).1⟩
  · intro models
    exact ⟨models.1, by simp, by rw [List.append_nil]; exact models.2⟩

theorem Session.findMinimal_answers (faithful : Faithful σ held) (reliable : Reliable σ)
    (fresh : held solver = []) {e : Encoding} (encodes : e.Encodes f b) (regular : b.Regular)
    {control : Control} (unlimited : control.limitMs ≠ some 0) (running : control.aborted = false) :
    ∃ solution, ((Session.start (e.load solver) control).findMinimal []).2.loaded.conclude b
        ((Session.start (e.load solver) control).findMinimal []).1 = .ok solution ∧
      solution.Answers f b true := by
  have found := Session.findMinimal_ready (reliable.oracle faithful)
    (Session.start_ready (reliable.oracle faithful) fresh encodes unlimited)
    (show Mentions _ [] from fun l member => by cases member)
  generalize isStart : Session.start (e.load solver) control = start at found
  have startEncoding : start.loaded.encoding = e := by
    rw [← isStart]
    rfl
  have notAborted : start.control.aborted = false := by
    rw [← isStart]
    exact running
  generalize start.findMinimal [] = out at found
  obtain ⟨answer, final⟩ := out
  obtain ⟨follows, -, outcome⟩ := found
  have same : final.loaded.encoding = e := follows.encoding.trans startEncoding
  have encodes' : final.loaded.encoding.Encodes f b := same ▸ encodes
  match answer, outcome with
  | .ok true, ⟨admits, minimal⟩ =>
    have least : e.Least final.value := by
      refine ⟨startEncoding ▸ Session.admits_nil.mp admits, fun c models below => ?_⟩
      rw [← startEncoding] at models below ⊢
      exact minimal c (Session.admits_nil.mpr models) below
    obtain ⟨solution, ok⟩ := Solution.ofModel_succeeds encodes' regular (same.symm ▸ least)
    obtain ⟨m, rfl, depicts, ints⟩ := Solution.ofModel_eq_ok encodes' regular ok
    rw [same] at depicts
    have isModel := encodes.isModel regular least.1 depicts
    have isLeast := (encodes.isMinimalModel_iff regular least.1 depicts).mpr least
    exact ⟨_, ok, Solution.answers_sat rfl rfl isModel ints fun _ => isLeast⟩
  | .ok false, refuted =>
    refine ⟨_, rfl, Solution.answers_unsat rfl fun m isModel => ?_⟩
    obtain ⟨a, models, -⟩ := encodes.exists_models regular isModel
    exact refuted a (Session.admits_nil.mpr (startEncoding.symm ▸ models))
  | .error failure, ⟨_, stopped⟩ =>
    rcases stopped with aborted | interrupted
    · rw [notAborted] at aborted
      cases aborted
    · exact absurd interrupted (Nat.lt_irrefl 0)

theorem Store.solve_answers (faithful : Faithful σ held) (reliable : Reliable σ)
    (fresh : held solver = []) {e : Encoding} (encodes : e.Encodes f b) (regular : b.Regular)
    {solution : Solution}
    (ok : { e.load solver with store := ((e.load solver).store.solve e.assumptions).2 }.conclude b
      ((e.load solver).store.solve e.assumptions).1 = .ok solution) : solution.Answers f b false := by
  obtain ⟨-, outcome⟩ := Store.solve_decides faithful
    (Encoding.load_guards (reliable.oracle faithful) fresh encodes.mentions) encodes.roots
  generalize (e.load solver).store.solve e.assumptions = out at outcome ok
  obtain ⟨answer, store⟩ := out
  match answer, outcome with
  | .ok true, allows =>
    obtain ⟨m, rfl, depicts, ints⟩ := Solution.ofModel_eq_ok encodes regular ok
    have isModel := encodes.isModel regular ⟨allows.base, allows.assumptions⟩ depicts
    exact Solution.answers_sat rfl rfl isModel ints fun asked => by cases asked
  | .ok false, refuted =>
    obtain rfl := Except.ok.inj ok
    refine Solution.answers_unsat rfl fun m isModel => ?_
    obtain ⟨a, models, -⟩ := encodes.exists_models regular isModel
    exact refuted a ⟨models.1, by simp, models.2⟩
  | .error failure, _ => cases ok

/-- Solving is correct, and minimal with an incremental solver: for a formula of well-sorted
expressions within bounds that were built, which encodes without a fault, an incremental solver gives
an answer, and whatever answer a solver gives is right. -/
theorem solve_correct (faithful : Faithful σ held) (reliable : Reliable σ) (fresh : held solver = [])
    (built : b.Built) (sorted : f.WellSorted) (o : Options) (fits : f.Fits b o.sharing)
    (running : o.aborted = false) (unlimited : o.timeoutMs ≠ some 0)
    (encodes : ∃ encoded, f.encode b o.sharing o.logged = .ok encoded) :
    (o.solver.incremental = true → ∃ solution, (solve solver f b o).result = .ok solution) ∧
      ∀ solution, (solve solver f b o).result = .ok solution →
        solution.Answers f b o.solver.incremental := by
  have regular := built.regular
  obtain ⟨encoded, ok⟩ := encodes
  unfold solve withEncoding
  rw [ok]
  cases encoded with
  | folded result =>
    obtain ⟨solution, made, answers⟩ := Solution.ofFolded_answers regular sorted fits ok
    refine ⟨fun _ => ⟨solution, made⟩, fun other isOther => ?_⟩
    obtain rfl := Except.ok.inj (made.symm.trans isOther)
    exact answers.weaken _
  | clauses e =>
    have exact := Formula.encode_clauses regular sorted fits ok
    obtain ⟨solution, made, answers⟩ := Session.findMinimal_answers faithful reliable fresh exact
      regular (show o.control.limitMs ≠ some 0 from unlimited) running
    cases incremental : o.solver.incremental with
    | true =>
      simp only [if_true]
      refine ⟨fun _ => ⟨solution, made⟩, fun other isOther => ?_⟩
      obtain rfl := Except.ok.inj (made.symm.trans isOther)
      exact answers
    | false =>
      refine ⟨fun asked => absurd asked (by simp), fun other isOther => ?_⟩
      simp only [Bool.false_eq_true, if_false] at isOther
      split at isOther
      · cases isOther
      · exact Store.solve_answers faithful reliable fresh exact regular isOther

theorem sample_solve_correct : ∃ solution m,
    (solve (⟨[]⟩ : Exhaustive) Fork.formula Fork.bounds .standard).result = .ok solution ∧
      solution.Answers Fork.formula Fork.bounds true ∧ solution.model? = some m ∧
      Fork.formula.IsMinimalModel Fork.bounds m := by
  obtain ⟨e, ok⟩ := Fork.encoded true false
  have correct := solve_correct Exhaustive.faithful Exhaustive.reliable
    (rfl : Exhaustive.clauses ⟨[]⟩ = []) Fork.built Fork.sorted .standard (Fork.fits true) rfl
    (by decide) ⟨_, ok⟩
  obtain ⟨solution, made⟩ := correct.1 rfl
  have answers : solution.Answers Fork.formula Fork.bounds true := correct.2 solution made
  obtain ⟨m, found, -, -, minimal⟩ :=
    answers.2 (answers.1.mpr ⟨_, @Fork.single_isModel 1 (by decide)⟩)
  exact ⟨solution, m, made, answers, found, minimal rfl⟩

end ModelFinder
