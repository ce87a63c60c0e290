import Mathlib.Data.Finset.Powerset
import Mathlib.Order.Interval.Finset.Nat
import ModelFinder.Proofs.Finder.Pursuit

/-! Enumeration is exact. The models delivered are minimal, none lies in the cone of another, and at
the end every model lies in the cone of one of them. -/
namespace ModelFinder

variable {σ : Type} {held : σ → List Clause} {interruptions : σ → Nat} {f : Formula} {b : Bounds}
  {encoding : Encoding} {delivered : List ((Nat → Bool) × Instance)}

namespace Enumeration

abbrev Stands (held : σ → List Clause) (f : Formula) (b : Bounds) (encoding : Encoding)
    (delivered : List ((Nat → Bool) × Instance)) (e : Enumeration σ) : Prop :=
  e.Pursues held f b encoding [] delivered

variable {e : Enumeration σ} [Backend σ]

theorem serve_exhausted (finished : e.phase = .exhausted) (requests : List Request) :
    ∀ call ∈ e.serve requests, call.before.hasNext = false ∧ call.answer = .error .exhausted ∧
      call.after.hasNext = false := by
  induction requests generalizing e with
  | nil => exact fun call member => by cases member
  | cons request rest ih =>
    intro call member
    cases request with
    | next =>
      have again : e.next = (.error .exhausted, e) := by simp only [next, finished]
      have closed : e.hasNext = false := by simp only [hasNext, finished]
      rw [serve, again] at member
      rcases List.mem_cons.mp member with rfl | later
      · exact ⟨closed, rfl, closed⟩
      · exact ih finished call later
    | lifters =>
      apply ih _ call member
      simp only [lifters, finished]
    | abort raised =>
      apply ih _ call member
      simp only [setAborted, finished]

/-- Whatever is asked in whatever order, the calls for a solution proceed from the models delivered. -/
theorem Stands.proceeds (oracle : Oracle σ held interruptions) (regular : b.Regular)
    (encodes : encoding.Encodes f b) (stands : e.Stands held f b encoding delivered)
    (more : e.hasNext = true) (requests : List Request) :
    Proceeds f b interruptions (delivered.map Prod.snd) (e.serve requests) := by
  have poses := encodes.poses_nil regular
  have captures : (encoding.assume []).Captures b (f.IsModel b) := by
    rw [Encoding.assume_nil]
    exact encodes.captures regular
  induction requests generalizing e delivered with
  | nil => exact .idle
  | cons request rest ih =>
    cases request with
    | next =>
      have advanced := next_advanced oracle poses stands more
      rw [serve]
      generalize e.next = out at advanced
      cases advanced with
      | @found m stats a after apart reached further =>
        have isLast : (a, m) ∈ delivered ++ [(a, m)] := by simp
        apply Proceeds.found more rfl (reached.minimal poses captures isLast)
        · intro d member same
          obtain ⟨pair, isPair, rfl⟩ := List.mem_map.mp member
          apply apart pair isPair
          apply ((stands.depicted pair isPair).partOf_iff regular encodes.numbers
            (reached.depicted _ isLast)).mp same.1
        · have rest := ih reached further
          rwa [List.map_append] at rest
      | @aborted after stopped reached further =>
        exact .aborted more rfl stopped (ih reached further)
      | @ended proof stats after reached finished =>
        apply Proceeds.ended more rfl
        · exact fun m minimal => reached.complete poses captures finished minimal
        · simp only [hasNext, finished]
        · exact serve_exhausted finished rest
    | lifters =>
      obtain ⟨kept, same⟩ := lifters_pursues oracle stands
      exact ih kept (same.trans more)
    | abort raised =>
      obtain ⟨kept, same⟩ := setAborted_pursues stands raised
      exact ih kept (same.trans more)

end Enumeration

/-- An encoded formula has finitely many minimal models within the bounds: one for each set of
primary variables at most. -/
theorem Encoding.Encodes.exists_minimalModels (encodes : encoding.Encodes f b)
    (regular : b.Regular) : ∃ models, f.MinimalModels b models := by
  classical
  let n := encoding.numbering
  let choice : Finset Nat → Nat → Bool := fun vars v => decide (v ∈ vars)
  let all := (Finset.Icc 1 n.count).powerset.toList
  let minimal : Finset Nat → Prop := fun vars => f.IsMinimalModel b (n.instanceAt b (choice vars))
  have depicts := fun vars => Numbering.instanceAt_depicts regular encodes.numbers (choice vars)
  refine ⟨(all.filter minimal).map fun vars => n.instanceAt b (choice vars), ?_, ?_, ?_⟩
  · intro m member
    obtain ⟨vars, isMember, rfl⟩ := List.mem_map.mp member
    exact of_decide_eq_true (List.mem_filter.mp isMember).2
  · apply List.pairwise_map.mpr
    apply List.Pairwise.filter
    apply (Finset.nodup_toList _).imp_of_mem
    intro vars others isMember isOther apart same
    have part := (Finset.mem_powerset.mp (Finset.mem_toList.mp isMember))
    have part' := (Finset.mem_powerset.mp (Finset.mem_toList.mp isOther))
    have below := ((depicts vars).partOf_iff regular encodes.numbers (depicts others)).mp same.1
    have above := ((depicts others).partOf_iff regular encodes.numbers (depicts vars)).mp same.2
    apply apart
    ext v
    constructor
    · intro member
      obtain ⟨lower, upper⟩ := Finset.mem_Icc.mp (part member)
      exact of_decide_eq_true (below v lower upper (decide_eq_true member))
    · intro member
      obtain ⟨lower, upper⟩ := Finset.mem_Icc.mp (part' member)
      exact of_decide_eq_true (above v lower upper (decide_eq_true member))
  · intro m isMinimal
    obtain ⟨a, models, drawn⟩ := encodes.exists_models regular isMinimal.1
    let vars := (Finset.Icc 1 n.count).filter (a · = true)
    have same : ∀ v, 1 ≤ v → v ≤ n.count → choice vars v = a v := by
      intro v lower upper
      simp [choice, vars, lower, upper]
    have redrawn := (depicts vars).agree encodes.numbers same
    have least := (encodes.isMinimalModel_iff regular models drawn).mp isMinimal
    have minimal' := (encodes.isMinimalModel_iff regular models redrawn).mpr least
    have within : vars ∈ all :=
      Finset.mem_toList.mpr (Finset.mem_powerset.mpr (Finset.filter_subset _ _))
    have listed : vars ∈ all.filter minimal := List.mem_filter.mpr ⟨within, decide_eq_true minimal'⟩
    exact ⟨_, List.mem_map_of_mem listed,
      (redrawn.partOf_iff regular encodes.numbers drawn).mpr (Below.refl _ a),
      (drawn.partOf_iff regular encodes.numbers redrawn).mpr (Below.refl _ a)⟩

variable [Backend σ]

/-- Enumeration is exact: for a formula of well-sorted expressions within bounds that were built,
which encodes and does not fold, and a solver that may be interrupted but never fails otherwise, the
minimal models are finitely many, and the calls for a solution enumerate them whatever else is asked
in between and however many calls are aborted. -/
theorem solveAll_exact {solver : σ} (oracle : Oracle σ held interruptions) (fresh : held solver = [])
    (built : b.Built) (sorted : f.WellSorted) (o : Options) (fits : f.Fits b o.sharing)
    (incremental : o.solver.incremental = true) (unlimited : o.timeoutMs ≠ some 0)
    (encoded : f.encode b o.sharing o.logged = .ok (.clauses encoding)) :
    ∃ start, solveAll solver f b o = .ok start ∧ (∃ models, f.MinimalModels b models) ∧
      ∀ requests, Enumerates f b interruptions (start.serve requests) := by
  have regular := built.regular
  have encodes := Formula.encode_clauses regular sorted fits encoded
  have started : solveAll solver f b o = .ok (.make solver f b o []) := by
    rw [solveAll, Options.requireIncremental, if_pos incremental]
    rfl
  have stands : (Enumeration.make solver f b o []).Stands held f b encoding [] :=
    ⟨fresh, rfl, unlimited, encoded, by simp, by simp, rfl, rfl, rfl⟩
  refine ⟨_, started, encodes.exists_minimalModels regular, fun requests => ?_⟩
  exact (stands.proceeds oracle regular encodes rfl requests).enumerates

/-- The minimal models of the fork are those with one tuple. -/
theorem Fork.minimalModels :
    Fork.formula.MinimalModels Fork.bounds [Fork.single 1, Fork.single 2, Fork.single 3] := by
  have apart : ∀ {v w : Nat}, (1 ≤ v ∧ v ≤ 3) → v ≠ w →
      ¬ Instance.SameOn Fork.bounds (Fork.single v) (Fork.single w) :=
    fun inside differ same =>
      differ (beq_iff_eq.mp ((Fork.single_partOf inside (Fork.single_depicts _)).mp same.1))
  refine ⟨?_, ?_, fun m minimal => ?_⟩
  · intro m member
    simp only [List.mem_cons, List.not_mem_nil, or_false] at member
    rcases member with rfl | rfl | rfl <;> exact Fork.single_minimal (by decide)
  · simp [apart (v := 1) (by decide), apart (v := 2) (by decide)]
  · obtain ⟨var, inside, part⟩ := Fork.exists_single minimal.1
    have same : Instance.SameOn Fork.bounds (Fork.single var) m :=
      ⟨part, minimal.2 _ (Fork.single_isModel inside) part⟩
    have known : var = 1 ∨ var = 2 ∨ var = 3 := by omega
    rcases known with rfl | rfl | rfl <;> exact ⟨_, by simp, same⟩

theorem sample_solveAll_exact :
    ∃ start, solveAll (⟨[]⟩ : Exhaustive) Fork.formula Fork.bounds .standard = .ok start ∧
      ∀ requests, Enumerates Fork.formula Fork.bounds (fun _ => 0) (start.serve requests) ∧
        (3 < (start.serve requests).countP (¬ Call.Aborted (fun _ => 0) ·) →
          (outcomes (start.serve requests)).count .satisfiable = 3 ∧
            (outcomes (start.serve requests)).count .unsatisfiable = 1) := by
  obtain ⟨e, ok⟩ := Fork.encoded true false
  obtain ⟨start, started, -, enumerates⟩ := solveAll_exact
    (Exhaustive.reliable.oracle Exhaustive.faithful) (rfl : Exhaustive.clauses ⟨[]⟩ = []) Fork.built
    Fork.sorted .standard (Fork.fits true) rfl (by decide) ok
  exact ⟨start, started, fun requests => ⟨enumerates requests,
    (enumerates requests).exact _ Fork.minimalModels⟩⟩

end ModelFinder
