import ModelFinder.Proofs.Encoding.Meaning
import ModelFinder.Proofs.Logic.Splitting

/-! What a log records. The conjuncts of a formula are grounded one after the other over one circuit,
and the log has them in their order, each with the label of the value that it was given. -/
namespace ModelFinder

def Encoded.log? : Encoded → Option Log
  | folded result => result.log
  | clauses result => result.log

/-- From a circuit on, each formula of the log was grounded in the circuit that those before it have
left, and its literal is the label of the value that came of it. -/
inductive Log.Traces (leaves : Leaves) : Circuit → Log → Prop
  | nil (c : Circuit) : Traces leaves c []
  | cons {r : Record} {rest : Log} {c d : Circuit} {v : Value}
      (run : r.formula.ground leaves .empty c = .ok (v, d)) (label : r.literal = v.label)
      (later : Traces leaves d rest) : Traces leaves c (r :: rest)

namespace Formula

variable {leaves : Leaves} {fs : List Formula} {c d : Circuit} {values : List Value} {f : Formula}
  {b : Bounds} {sharing : Bool} {result : Encoded}

theorem groundAll_traces (run : groundAll leaves fs .empty c = .ok (values, d)) :
    (List.zipWith (fun g v => (⟨g, v.label⟩ : Record)) fs values).map (·.formula) = fs ∧
      Log.Traces leaves c (List.zipWith (fun g v => ⟨g, v.label⟩) fs values) := by
  induction fs generalizing c values with
  | nil => exact ⟨rfl, .nil c⟩
  | cons f fs ih =>
    obtain ⟨v, between, here, rest⟩ := Build.bind_run.mp run
    obtain ⟨more, final, there, done⟩ := Build.bind_run.mp rest
    cases done
    obtain ⟨formulas, traces⟩ := ih there
    exact ⟨congrArg (f :: ·) formulas, .cons here rfl traces⟩

theorem encode_traces (ok : f.encode b sharing true = .ok result) :
    ∃ log, result.log? = some log ∧ log.map (·.formula) = f.conjuncts ∧
      Log.Traces (.ofBounds b) ((Leaves.ofBounds b).circuit sharing) log := by
  obtain ⟨values, root, circuit, run, log, isLog, made⟩ := encode_eq_ok ok
  obtain ⟨grounded, between, each, rest⟩ := Build.bind_run.mp run
  obtain ⟨whole, final, -, done⟩ := Build.bind_run.mp rest
  cases done
  refine ⟨_, ?_, groundAll_traces each⟩
  rw [← isLog rfl]
  cases root with
  | const value => exact made ▸ rfl
  | lit n => exact made ▸ rfl

end Formula

/-- The conjuncts of a formula are what the loop over a stack finds, and that is what lies below
conjunctions only and is none, each once and from left to right. They hold together exactly if the
formula does, and a log has them in this order, each with the label of its own value. -/
theorem conjuncts_faithful (f : Formula) :
    Formula.unstack [f] [] = f.conjuncts ∧
      (∃ paths : List (List Nat), paths.Pairwise (· < ·) ∧
        (∀ path, path ∈ paths ↔ ∃ g, f.part? path = some g ∧ g.isAnd = false) ∧
        paths.map f.part? = f.conjuncts.map some) ∧
      (∀ g ∈ f.conjuncts, g.isAnd = false) ∧
      (∀ i ρ, f.holds i ρ ↔ ∀ g ∈ f.conjuncts, g.holds i ρ) ∧
      ∀ b sharing result, f.encode b sharing true = .ok result →
        ∃ log, result.log? = some log ∧ log.map (·.formula) = f.conjuncts ∧
          Log.Traces (.ofBounds b) ((Leaves.ofBounds b).circuit sharing) log := by
  obtain ⟨paths, leads⟩ := Formula.leads_conjuncts f
  refine ⟨?_, ⟨paths, leads.ascending, leads.complete, leads.listed⟩, fun g member => ?_,
    fun i ρ => Formula.holds_conjuncts f, fun b sharing result => Formula.encode_traces⟩
  · rw [Formula.unstack_eq, List.nil_append, Formula.conjunctsAll, Formula.conjunctsAll,
      List.append_nil]
  · have listed : some g ∈ paths.map f.part? := leads.listed ▸ List.mem_map_of_mem member
    obtain ⟨path, isPath, isPart⟩ := List.mem_map.mp listed
    obtain ⟨other, same, notAnd⟩ := (leads.complete path).mp isPath
    obtain rfl := Option.some.inj (isPart.symm.trans same)
    exact notAnd

namespace Sample

/-- Nested conjunctions, one of them of no formulas and one of a single one. -/
def nested : Formula :=
  .binary .and (.nary .and [.nary .and [], .const true]) (.nary .and [formula])

theorem nested_ground (sharing : Bool) :
    groundConjuncts (.ofBounds bounds) nested.conjuncts ((Leaves.ofBounds bounds).circuit sharing) =
      .ok (([.const true, .lit 1], .lit 1), Circuit.empty 1 sharing) := by
  have start : (Leaves.ofBounds bounds).circuit sharing = Circuit.empty 1 sharing := by
    rw [leaves]
    rfl
  have operands : Circuit.operands true [.const true, .lit 1] = some [1] := by
    simp [Circuit.operands, label_one]
  have all : (liftM (Circuit.all [.const true, .lit 1]) : Build Value) (Circuit.empty 1 sharing) =
      .ok (.lit 1, Circuit.empty 1 sharing) :=
    congrArg Except.ok (combine_single .and (by decide) operands _)
  rw [start]
  refine Build.bind_run.mpr ⟨[.const true, .lit 1], _, ?_, Build.bind_run.mpr ⟨_, _, all, rfl⟩⟩
  refine Build.bind_run.mpr ⟨_, _, rfl, Build.bind_run.mpr ⟨[.lit 1], _, ?_, rfl⟩⟩
  exact Build.bind_run.mpr ⟨_, _, ground_run sharing, rfl⟩

theorem nested_encoded (sharing : Bool) :
    ∃ e, nested.encode bounds sharing true = .ok (.clauses e) :=
  ⟨_, bind_eq_ok.mpr ⟨(), rfl, bind_eq_ok.mpr ⟨_, nested_ground sharing, rfl⟩⟩⟩

end Sample

theorem sample_conjuncts_faithful :
    Formula.unstack [Sample.nested] [] = [.const true, Sample.formula] ∧
      ∃ e log, Sample.nested.encode Sample.bounds true true = .ok (.clauses e) ∧
        e.log = some log ∧ log.map (·.formula) = [.const true, Sample.formula] := by
  obtain ⟨found, -, -, -, logged⟩ := conjuncts_faithful Sample.nested
  obtain ⟨e, encoded⟩ := Sample.nested_encoded true
  obtain ⟨log, isLog, formulas, -⟩ := logged Sample.bounds true _ encoded
  exact ⟨found, e, log, encoded, isLog, formulas⟩

end ModelFinder
