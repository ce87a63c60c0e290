import ModelFinder.Proofs.Search.Refusals

/-! Minimization round by round. Every successful round turns a true primary variable false for
good, so there are no more such rounds than true primary variables at the start, and the run ends by
itself. Whatever stops it, the model of the last successful round stays. -/
namespace ModelFinder

theorem below_of_chain {count rounds : Nat} {f : Nat → Nat → Bool}
    (chain : ∀ j < rounds, StrictlyBelow count (f (j + 1)) (f j)) :
    Below count (f rounds) (f 0) := by
  induction rounds with
  | zero => exact .refl count (f 0)
  | succ rounds ih =>
    have last := (chain rounds (Nat.lt_add_one rounds)).1
    exact last.trans (ih fun j small => chain j (Nat.lt_succ_of_lt small))

namespace Session

variable {σ : Type} [Backend σ] {held : σ → List Clause} {base : List Clause}
  {live : List (Nat × Clause)} {s : Session σ} {assumptions : List Int}

/-- The rounds of minimization, up to a number of successful ones. -/
def descent (s : Session σ) (assumptions : List Int) (limit : Nat) : Rounds × Session σ :=
  shrinkModel limit s assumptions (List.range' 1 s.numPrimary) [] 0

/-- Minimization of a model goes strictly down from model to model, in at most as many successful
rounds as the model has true primary variables; no larger limit would make it go on. However it
ends, the model left is that of the last successful round, and the session guards what it did
before. A success gives the number of successful rounds, and the model is minimal unless the solver
refused the constraint of the next round. -/
theorem minimize_descends (faithful : Faithful σ held) (guarded : s.Guarded held base live)
    (fits : Mentions s.loaded.encoding.cnf.numVars assumptions)
    (model : Allows base live (s.loaded.encoding.assumptions ++ assumptions) s.value) :
    let final := (s.minimize assumptions).2
    ∃ found ≤ s.truePrimaries.length,
      (∀ limit > found, s.descent assumptions limit = s.descent assumptions (found + 1)) ∧
      (∀ j < found, StrictlyBelow s.numPrimary (s.descent assumptions (j + 1)).2.value
        (s.descent assumptions j).2.value) ∧
      final.value = (s.descent assumptions found).2.value ∧ final.Guarded held base live ∧
      Allows base live (s.loaded.encoding.assumptions ++ assumptions) final.value ∧
      Below s.numPrimary final.value s.value ∧
      ∀ n, (s.minimize assumptions).1 = .ok n → n = found ∧
        ((∀ a, Allows base live (s.loaded.encoding.assumptions ++ assumptions) a →
            ¬ StrictlyBelow s.numPrimary a final.value) ∨
          (s.descent assumptions found).2.Refuses) := by
  obtain ⟨found, few, chain, follows, left, ended, ends, concludes⟩ :=
    shrinkModel_descends faithful .zero 0 [] (shrinking_start guarded fits model)
  -- Minimization allows one round more than there can be, so its limit is never what ends it.
  have whole := ends (s.truePrimaries.length + 1) (by omega)
  have run : s.minimize assumptions =
      (ended.1.result, ended.1.handles.foldl removeConstraint ended.2) := by
    rw [minimize, whole]
  obtain ⟨more, -, between, -⟩ := @shrinkModel_guarded σ held _ base live [] s assumptions
    (List.range' 1 s.numPrimary) _ faithful .zero (s.truePrimaries.length + 1) 0
    (by rwa [List.append_nil]) (by simp)
  rw [List.map_nil, whole] at between
  obtain ⟨-, -, sameValue⟩ := removeAll_guarded faithful .zero between ended.1.handles
  have value : (s.minimize assumptions).2.value = (s.descent assumptions found).2.value := by
    rw [run]
    exact sameValue.trans concludes.value
  intro final
  refine ⟨found, few, ?_, chain, value, (minimize_guarded faithful .zero guarded assumptions).2, ?_,
    ?_, fun n isOk => ?_⟩
  · intro limit large
    exact (ends limit large).trans (ends (found + 1) (Nat.lt_add_one found)).symm
  · rw [show final.value = _ from value]
    exact left
  · rw [show final.value = _ from value]
    exact below_of_chain (f := fun j => (s.descent assumptions j).2.value) chain
  · have outcome := concludes.outcome
    rw [run] at isOk
    rw [show ended.1.result = .ok n from isOk] at outcome
    refine ⟨outcome.1.trans (Nat.zero_add found),
      outcome.2.imp (fun minimal a allowed strict => ?_) And.left⟩
    rw [MinimalOver, follows.encoding, follows.numPrimary] at minimal
    rw [show final.value = _ from value] at strict
    exact strict.2 (minimal a allowed strict.1)

end Session

namespace Sample

def searched : Session Exhaustive :=
  (Session.start (pairEncoding.load ⟨[]⟩) (.make false none)).run [.solve [2]]

end Sample

/-- From a model of both variables, one round comes to the only minimal model. -/
theorem sample_minimize_descends :
    Sample.searched.truePrimaries = [1, 2] ∧ (Sample.searched.minimize []).1 = .ok 1 ∧
      ∀ a, Allows (Sample.pairEncoding.accepted (⟨[]⟩ : Exhaustive)) [] [] a →
        ¬ StrictlyBelow 2 a (Sample.searched.minimize []).2.value := by
  have encodes := Formula.encode_clauses Sample.pair_built.regular Sample.sorted
    (Sample.pair_fits Sample.Choice.run true) (Sample.pair_encoded true)
  obtain ⟨accounts, -⟩ := Session.run_accounts Exhaustive.faithful .zero
    (Session.start_accounts Exhaustive.faithful (rfl : Exhaustive.clauses ⟨[]⟩ = []) encodes
      (.make false none)) [.solve [2]]
  have model : Allows (Sample.pairEncoding.accepted (⟨[]⟩ : Exhaustive)) [] []
      Sample.searched.value :=
    ⟨by unfold Satisfies; decide +kernel, by simp, by simp [Meets]⟩
  have one : (Sample.searched.minimize []).1 = .ok 1 := by decide +kernel
  obtain ⟨found, -, -, -, -, -, -, -, outcome⟩ := Session.minimize_descends Exhaustive.faithful
    accounts.guarded (by simp [Mentions]) model
  obtain ⟨rfl, minimal⟩ := outcome 1 one
  refine ⟨by decide +kernel, one, minimal.resolve_right fun refuses => ?_⟩
  exact absurd refuses.2 (by decide +kernel)

end ModelFinder
