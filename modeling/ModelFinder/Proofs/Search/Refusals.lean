import ModelFinder.Proofs.Encoding.Readback
import ModelFinder.Proofs.Search.Upkeep

/-! What a success of minimization or of the search for lifters is worth. Searches that fail are
reported. A constraint that the solver refuses is not: a run of rounds that could not add its
constraint ends as if there were nothing more to find, so its result is exact only if no constraint
was refused on the way. -/
namespace ModelFinder

section

variable {σ : Type} [Backend σ] {held : σ → List Clause} {solver : σ} {f : Formula} {b : Bounds}
  {e : Encoding}

/-- After any calls on a formula that was loaded without a refusal: where minimization of a model
succeeds, it leaves a model that is minimal, or a constraint was refused meanwhile; and where the
search for lifters succeeds, it gives lifters only, and all of them, or a constraint was refused
meanwhile. -/
theorem results_exact_unless_refused (faithful : Faithful σ held) (fresh : held solver = [])
    (built : b.Built) (sorted : f.WellSorted) (o : Options) (fits : f.Fits b o.sharing)
    (encoded : f.encode b o.sharing o.logged = .ok (.clauses e))
    (loaded : e.accepted solver = e.cnf.clauses.toList) {refusals : σ → Nat}
    (counts : Counts σ Clause.compound refusals) (control : Control)
    (operations : List Session.Operation) {s : Session σ}
    (reached : (Session.start (e.load solver) control).run operations = s) :
    (∀ assumptions rounds, Mentions e.cnf.numVars assumptions →
        s.Admits (liveOf s.ledger.entries) assumptions s.value →
        (s.minimize assumptions).1 = .ok rounds →
        s.Admits (liveOf s.ledger.entries) assumptions (s.minimize assumptions).2.value ∧
          ((s.minimize assumptions).2.Minimal (liveOf s.ledger.entries) assumptions ∨
            refusals s.store.backend < refusals (s.minimize assumptions).2.store.backend)) ∧
      ∀ preserved vars, (∀ v ∈ preserved, 1 ≤ v ∧ v ≤ s.numPrimary) →
        (s.lifters preserved).1 = .ok vars →
        vars.Pairwise (· < ·) ∧ (∀ v ∈ vars, s.IsLifter preserved v) ∧
          ((∀ v, s.IsLifter preserved v → v ∈ vars) ∨
            refusals s.store.backend < refusals (s.lifters preserved).2.store.backend) := by
  have encodes := Formula.encode_clauses built.regular sorted fits encoded
  obtain ⟨accounts, upholds⟩ := Session.run_accounts faithful counts.gauge
    (Session.start_accounts faithful fresh encodes control) operations
  rw [reached] at accounts upholds
  have same : s.loaded.encoding = e := upholds.encoding
  have guarded : s.Guarded held s.loaded.encoding.cnf.clauses.toList
      (liveOf s.ledger.entries) := by
    rw [same, ← loaded]
    exact accounts.guarded
  constructor
  · intro assumptions rounds mentions admits ok
    obtain ⟨model, outcome⟩ := Session.minimize_minimal faithful counts.gauge guarded
      (same.symm ▸ mentions) admits
    rw [ok] at outcome
    exact ⟨model, outcome.imp_right counts.lt_of_refused⟩
  · intro preserved vars primary ok
    have outcome := Session.lifters_sound faithful counts.gauge guarded primary
    rw [ok] at outcome
    obtain ⟨ascending, sound, complete⟩ := outcome
    exact ⟨ascending, sound, complete.imp_right counts.lt_of_refused⟩

end

namespace Sample

theorem pair_leaves : Leaves.ofBounds pair =
    ⟨pair, ⟨atoms, [⟨relation, 1, #[0]⟩, ⟨wide, 2, #[0]⟩], 2⟩⟩ := by
  rw [Leaves.ofBounds, pair_numbering]

theorem pair_choice (sharing : Bool) : Choice (.ofBounds pair) (Circuit.empty 2 sharing) := by
  rw [pair_leaves]
  refine ⟨⟨free 1, rfl, rfl⟩, ⟨⟨2, 1⟩, rfl⟩, rfl, rfl, ?_⟩
  have small : signedWord (Circuit.empty 2 sharing).inputs = 2 :=
    signedWord_of_natAbs_lt (n := 2) (by decide)
  rw [Circuit.input, small, if_pos (by decide)]

section

variable {f : Formula} {label : Int} (run : ∀ {l : Leaves} {c : Circuit}, Choice l c →
  groundConjuncts l f.conjuncts c = .ok (([.lit label], .lit label), c))

include run

theorem pair_run (sharing : Bool) : groundConjuncts (.ofBounds pair) f.conjuncts
    ((Leaves.ofBounds pair).circuit sharing) =
      .ok (([.lit label], .lit label), Circuit.empty 2 sharing) := by
  have start : (Leaves.ofBounds pair).circuit sharing = Circuit.empty 2 sharing := by
    rw [pair_leaves]
    rfl
  rw [start]
  exact run (pair_choice sharing)

theorem pair_fits (sharing : Bool) : f.Fits pair sharing := by
  intro result circuit ran
  obtain ⟨-, rfl⟩ := Prod.mk.inj (Except.ok.inj ((pair_run run sharing).symm.trans ran))
  show pair.unknownCount + 0 < 2147483647
  decide

end

def pairEncoding : Encoding :=
  ⟨⟨atoms, [⟨relation, 1, #[0]⟩, ⟨wide, 2, #[0]⟩], 2⟩, pair, none, ⟨2, #[[1]]⟩, []⟩

theorem pair_encoded (sharing : Bool) :
    formula.encode pair sharing false = .ok (.clauses pairEncoding) := by
  refine bind_eq_ok.mpr ⟨(), rfl, bind_eq_ok.mpr ⟨_, pair_run Choice.run sharing, ?_⟩⟩
  simp [Encoder.assert, Encoder.reach, Encoder.visit, Encoder.empty, pairEncoding, pair_leaves,
    Circuit.empty, label_one, Circuit.gate?, Circuit.maxLabel, Cnf.add, maxVar]

def refusing : Session (Recording Faulty) :=
  .start (pairEncoding.load ⟨⟨⟨[]⟩, [false, true], []⟩, []⟩) (.make false none)

end Sample

/-- A minimization that meets the refusal, and then one and a search for lifters that meet none. -/
theorem sample_results_exact : ∃ s, Sample.refusing.run [.solve [2], .minimize []] = s ∧
    (s.minimize []).1 = .ok 1 ∧ (s.minimize []).2.Minimal (liveOf s.ledger.entries) [] ∧
    (s.lifters []).1 = .ok [1, 2] ∧ ∀ v, s.IsLifter [] v → v ∈ [1, 2] := by
  have fresh : Exhaustive.clauses
      (Faulty.solver (Recording.solver ⟨⟨⟨[]⟩, [false, true], []⟩, []⟩)) = [] := rfl
  obtain ⟨minimized, lifted⟩ := results_exact_unless_refused
    (Recording.faithful Faulty.faithful) fresh Sample.pair_built Sample.sorted .standard
    (Sample.pair_fits Sample.Choice.run true) (Sample.pair_encoded true) (by decide +kernel)
    (Recording.counts Clause.compound) (.make false none) [.solve [2], .minimize []] rfl
  have rounds : ((Sample.refusing.run [.solve [2], .minimize []]).minimize []).1 = .ok 1 := by
    decide +kernel
  have vars : ((Sample.refusing.run [.solve [2], .minimize []]).lifters []).1 = .ok [1, 2] := by
    have candidates : (List.range' 1
        (Sample.refusing.run [.solve [2], .minimize []]).clear.numPrimary).filter
          (!([] : List Nat).contains ·) = [1, 2] := by decide +kernel
    have collected : (Session.collectLifters 2
        (Sample.refusing.run [.solve [2], .minimize []]).clear [] [1, 2] []).1 = .ok [1, 2] := by
      decide +kernel
    have sorted : [1, 2].mergeSort (· ≤ ·) = [1, 2] := List.mergeSort_of_pairwise (by decide)
    simp only [Session.lifters, candidates]
    exact (congrArg (Except.map _) collected).trans (congrArg Except.ok sorted)
  have admits : (Sample.refusing.run [.solve [2], .minimize []]).Admits [] []
      (Sample.refusing.run [.solve [2], .minimize []]).value :=
    ⟨by unfold Satisfies; decide +kernel, by simp, by unfold Meets; decide +kernel⟩
  refine ⟨_, rfl, rounds, ?_, vars, ?_⟩
  · apply (minimized [] 1 (by simp [Mentions]) admits rounds).2.resolve_right
    decide +kernel
  · apply (lifted [] [1, 2] (by simp) vars).2.2.resolve_right
    decide +kernel

/-- A refused constraint turns into a success: the model of two variables is not made smaller, and no
lifter is found although there is one. -/
theorem refusal_passes_for_success :
    Sample.formula.encode Sample.pair true false = .ok (.clauses Sample.pairEncoding) ∧
      ∃ s, Sample.refusing.run [.solve [2]] = s ∧
        s.Admits (liveOf s.ledger.entries) [] s.value ∧ (s.minimize []).1 = .ok 0 ∧
        ¬ (s.minimize []).2.Minimal (liveOf s.ledger.entries) [] ∧
        (s.lifters []).1 = .ok [] ∧ s.IsLifter [] 1 := by
  have satisfied : (Sample.refusing.run [.solve [2]]).Admits [] [] (· == 1) :=
    ⟨by unfold Satisfies; decide +kernel, by simp, by unfold Meets; decide +kernel⟩
  have model : (Sample.refusing.run [.solve [2]]).Admits [] []
      (Sample.refusing.run [.solve [2]]).value :=
    ⟨by unfold Satisfies; decide +kernel, by simp, by unfold Meets; decide +kernel⟩
  refine ⟨Sample.pair_encoded true, _, rfl, model, by decide +kernel, ?_, by decide +kernel, ?_⟩
  · intro minimal
    have below := minimal (· == 1) satisfied (by
      intro v lower upper isTrue
      obtain rfl := eq_of_beq isTrue
      decide +kernel)
    have impossible := below 2 (by decide) (by decide +kernel) (by decide +kernel)
    exact absurd impossible (by decide)
  · exact ⟨by decide +kernel, by simp, _, satisfied, by simp, rfl⟩

end ModelFinder
