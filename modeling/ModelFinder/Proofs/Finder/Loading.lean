import ModelFinder.Proofs.Finder.Models
import ModelFinder.Proofs.Search.Upkeep

/-! What is left of a formula when the solver refuses some of its clauses. Loading passes over refused
clauses, so a loaded store holds the accepted ones and no more. That there is no model is still true of
the formula whenever it is answered; a model that is answered is one of the formula only if nothing
was refused. -/
namespace ModelFinder

section

variable {σ : Type} [Backend σ] {held : σ → List Clause} {solver : σ} {f : Formula} {b : Bounds}
  {e : Encoding}

/-- A loaded store holds exactly the accepted clauses of the encoding, in any number of which the
solver may have refused. After any calls, a search that finds a model finds one of the accepted
clauses, which stands for a model of the formula if all were accepted; and a search that finds none is
right about all clauses. -/
theorem load_keeps_accepted (faithful : Faithful σ held) (fresh : held solver = [])
    (built : b.Built) (sorted : f.WellSorted) (o : Options) (fits : f.Fits b o.sharing)
    (encoded : f.encode b o.sharing o.logged = .ok (.clauses e)) (control : Control)
    (operations : List Session.Operation) {s : Session σ}
    (reached : (Session.start (e.load solver) control).run operations = s)
    {assumptions : List Int} (mentions : Mentions e.cnf.numVars assumptions) :
    (e.accepted solver).Sublist e.cnf.clauses.toList ∧
      (∀ a, Satisfies a (held (e.load solver).store.backend) ↔ Satisfies a (e.accepted solver)) ∧
      match (s.solve assumptions).1 with
      | .ok true =>
          Allows (e.accepted solver) (liveOf s.ledger.entries) (e.assumptions ++ assumptions)
              (s.solve assumptions).2.value ∧
            (e.accepted solver = e.cnf.clauses.toList →
              ∀ m, (s.solve assumptions).2.loaded.interpret = .ok m → f.IsModel b m)
      | .ok false => ∀ a, ¬ s.Admits (liveOf s.ledger.entries) assumptions a
      | .error _ => True := by
  have regular := built.regular
  have encodes := Formula.encode_clauses regular sorted fits encoded
  obtain ⟨-, -, meaning⟩ := @Encoding.load_accepted _ _ _ e _ faithful fresh
  obtain ⟨accounts, upholds⟩ := Session.run_accounts faithful .zero
    (Session.start_accounts faithful fresh encodes control) operations
  rw [reached] at accounts upholds
  have same : s.loaded.encoding = e := upholds.encoding
  refine ⟨Encoding.accepted_sublist, meaning, ?_⟩
  obtain ⟨maintains, -⟩ :=
    Session.solve_guarded faithful .zero accounts.guarded assumptions
  obtain ⟨-, answer⟩ :=
    Session.solve_decides faithful accounts.guarded (same.symm ▸ mentions)
  rw [same] at answer
  cases result : (s.solve assumptions).1 with
  | error failed => trivial
  | ok isSat =>
    cases isSat with
    | true =>
      simp only [result] at answer ⊢
      refine ⟨answer, fun all m read => ?_⟩
      rw [Loaded.interpret, maintains.encoding, same, encodes.bounds] at read
      obtain ⟨depicts, -⟩ := Numbering.interpret_eq_ok regular encodes.numbers read
      refine encodes.isModel regular ⟨all ▸ answer.base, ?_⟩ depicts
      exact (meets_append.mp answer.assumptions).1
    | false =>
      simp only [result] at answer ⊢
      intro a admits
      rw [Session.Admits, same] at admits
      refine answer a ⟨fun clause member => ?_, admits.live, admits.assumptions⟩
      exact admits.base clause (Encoding.accepted_sublist.subset member)

end

namespace Sample

def loadedInto (refusals : List Bool) : Session Faulty :=
  .start (encoding.load ⟨⟨[]⟩, refusals, []⟩) (.make false none)

end Sample

/-- Once the clause is accepted, a constraint that is refused later on does no harm. -/
theorem sample_load_keeps : ∃ s m,
    (Sample.loadedInto [false, true]).run [.solve [], .minimize []] = s ∧
      (s.solve []).1 = .ok true ∧ (s.solve []).2.loaded.interpret = .ok m ∧
      Sample.formula.IsModel Sample.bounds m := by
  have fresh : Exhaustive.clauses (Faulty.solver ⟨⟨[]⟩, [false, true], []⟩) = [] := rfl
  have reached : (Session.start (Sample.encoding.load (⟨⟨[]⟩, [false, true], []⟩ : Faulty))
      (.make false none)).run [.solve [], .minimize []] =
        (Sample.loadedInto [false, true]).run [.solve [], .minimize []] := rfl
  have mentions : Mentions Sample.encoding.cnf.numVars [] := List.forall_mem_nil _
  obtain ⟨-, -, answer⟩ := load_keeps_accepted Faulty.faithful fresh Sample.built Sample.sorted
    .standard (Sample.fits true) (Sample.encoded_eq true) (.make false none)
    [.solve [], .minimize []] reached mentions
  have found : (((Sample.loadedInto [false, true]).run [.solve [], .minimize []]).solve []).1 =
      .ok true := by decide +kernel
  have all : Sample.encoding.accepted (⟨⟨[]⟩, [false, true], []⟩ : Faulty) =
      Sample.encoding.cnf.clauses.toList := by decide +kernel
  rw [found] at answer
  exact ⟨_, _, rfl, found, rfl, answer.2 all _ rfl⟩

/-- A solver that refuses the only clause of the smallest problem is loaded without an error, and its
answer is not a model. -/
theorem lost_clause_passes_for_model : ∃ m,
    Sample.formula.encode Sample.bounds true false = .ok (.clauses Sample.encoding) ∧
      Sample.encoding.accepted (⟨⟨[]⟩, [true], []⟩ : Faulty) = [] ∧
      ((Sample.loadedInto [true]).solve []).1 = .ok true ∧
      ((Sample.loadedInto [true]).solve []).2.loaded.interpret = .ok m ∧
      ¬ Sample.formula.IsModel Sample.bounds m := by
  have regular := Sample.built.regular
  have encodes := Formula.encode_clauses regular Sample.sorted (Sample.fits true)
    (Sample.encoded_eq true)
  have unset : ((Sample.loadedInto [true]).solve []).2.value 1 = false := by decide +kernel
  refine ⟨_, Sample.encoded_eq true, by decide +kernel, by decide +kernel, rfl, ?_⟩
  rintro ⟨-, holds⟩
  obtain ⟨depicts, -⟩ := Numbering.interpret_eq_ok regular encodes.numbers
    (s := ((Sample.loadedInto [true]).solve []).2.value) rfl
  obtain ⟨a, same, satisfies, -⟩ :=
    (encodes.exact _ _ (depicts.agrees regular encodes.numbers)).mpr holds
  have isTrue : a 1 = true := by
    simpa [Satisfies, Clause.holds, Sample.encoding, litHolds] using satisfies
  have isSame := same 1 (by decide) (by decide)
  rw [isTrue, unset] at isSame
  cases isSame

end ModelFinder
