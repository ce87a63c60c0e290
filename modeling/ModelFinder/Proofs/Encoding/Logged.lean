import ModelFinder.Proofs.Data.Bounds
import ModelFinder.Proofs.Encoding.Exact

/-! What a log is worth. The literal that it records for a conjunct is assumed to make the conjunct
true, and follows from it; a formula that folds to false has conjuncts on record that cannot hold
together, even where none of them is false on its own. -/
namespace ModelFinder

namespace Refutation

theorem mem_collect {records : List Record} {g : Formula} :
    (collect records).contains g = true ↔ ∃ r ∈ records, r.formula = g := by
  have keys : ∀ core : Table Formula Int,
      g ∈ (records.foldl (fun core r => core.insert r.formula r.literal) core).keys ↔
        g ∈ core.keys ∨ ∃ r ∈ records, r.formula = g := by
    induction records with
    | nil => simp
    | cons r rest ih =>
      intro core
      have here : g ∈ (core.insert r.formula r.literal).keys ↔ g ∈ core.keys ∨ r.formula = g := by
        rw [Table.keys_insert]
        split
        · rename_i known
          exact ⟨.inl, fun either => either.elim id fun same => same ▸ known⟩
        · rw [List.mem_append, List.mem_singleton, eq_comm (a := g)]
      rw [List.foldl_cons, ih, here, List.exists_mem_cons_iff, or_assoc]
  rw [Table.contains_iff, collect, keys]
  simp [Table.empty, Table.keys]

theorem mem_coreFormulas {log : Log} {chosen : Record → Bool} {trivial : Bool} {g : Formula} :
    g ∈ coreFormulas ⟨log, collect (log.filter chosen), trivial⟩ ↔
      ∃ r ∈ log, chosen r = true ∧ r.formula = g := by
  simp only [coreFormulas, List.mem_filter, mem_collect, List.mem_map, and_assoc]
  constructor
  · exact fun both => both.2
  · rintro ⟨r, member, isChosen, same⟩
    exact ⟨⟨r, member, same⟩, r, member, isChosen, same⟩

theorem coreFormulas_sublist (p : Refutation) :
    p.coreFormulas.Sublist (p.log.map (·.formula)) := List.filter_sublist

end Refutation

namespace Value

variable {c : Circuit} {v : Value} (labelled : c.Labelled) (inside : v.In c)

include labelled inside

theorem label_eq_const_iff {value : Bool} : v.label = (const value).label ↔ v = .const value := by
  cases v with
  | const other => cases other <;> cases value <;> decide
  | lit n =>
    have bound := inside.2
    simp only [Circuit.Labelled, trueLabel] at labelled
    rw [Circuit.label_of_in labelled inside]
    cases value <;> simp [label, trueLabel] <;> omega

theorem label_eq_lit_iff {n : Int} (also : (lit n).In c) : v.label = n ↔ v = .lit n := by
  cases v with
  | const value =>
    have bound := also.2
    simp only [Circuit.Labelled, trueLabel] at labelled
    cases value <;> simp [label, trueLabel] <;> omega
  | lit m => rw [Circuit.label_of_in labelled inside, lit.injEq]

end Value

theorem records_mean {c : Circuit} {s : Nat → Bool} {i : Interpretation} {fs : List Formula}
    {values : List Value}
    (meant : List.Forall₂ (fun g v => v.Means c s (g.holds i .none)) fs values) :
    (List.zipWith (fun g v => (⟨g, v.label⟩ : Record)) fs values).map (·.formula) = fs ∧
      List.Forall₂ (fun r v => r.literal = v.label ∧ v.Means c s (r.formula.holds i .none))
        (List.zipWith (fun g v => (⟨g, v.label⟩ : Record)) fs values) values := by
  induction meant with
  | nil => exact ⟨rfl, .nil⟩
  | cons here _ ih => exact ⟨congrArg _ ih.1, .cons ⟨rfl, here⟩ ih.2⟩

/-- The core that is read off the values of conjuncts says all that the conjuncts say: it leaves out
nothing but true ones, or it has a false one. -/
theorem Refutation.holds_ofFolded {c : Circuit} {s : Nat → Bool} {i : Interpretation} {log : Log}
    {values : List Value} (labelled : c.Labelled)
    (recorded : List.Forall₂ (fun r v => r.literal = v.label ∧ v.Means c s (r.formula.holds i .none))
      log values) (core : ∀ g ∈ (ofFolded log).coreFormulas, g.holds i .none) :
    ∀ r ∈ log, r.formula.holds i .none := by
  unfold ofFolded at core
  simp only at core
  intro r isRecord
  split at core
  · obtain ⟨v, -, label, means⟩ := forall₂_left recorded isRecord
    by_cases isTrue : r.literal = (Value.const true).label
    · rw [label, Value.label_eq_const_iff labelled means.1] at isTrue
      exact means.2.mp (isTrue ▸ rfl)
    · exact core _ (mem_coreFormulas.mpr ⟨r, isRecord, by simpa using isTrue, rfl⟩)
  · rename_i some
    obtain ⟨q, isChosen⟩ := List.isEmpty_eq_false_iff_exists_mem.mp (Bool.eq_false_iff.mpr some)
    obtain ⟨isListed, isFalse⟩ := List.mem_filter.mp isChosen
    obtain ⟨v, -, label, means⟩ := forall₂_left recorded isListed
    have holds := core _ (mem_coreFormulas.mpr ⟨q, isListed, isFalse, rfl⟩)
    rw [beq_iff_eq, label, Value.label_eq_const_iff labelled means.1] at isFalse
    cases isFalse ▸ means.2.mpr holds

/-- The log has the conjuncts of the formula. An instance has an assignment that satisfies the clauses
and makes the literals of the conjuncts as true as the conjuncts; and only such literals are
assumed. -/
structure Encoding.Logs (e : Encoding) (log : Log) (f : Formula) (b : Bounds) : Prop where
  isLog : e.log = some log
  conjuncts : log.map (·.formula) = f.conjuncts
  recorded : ∀ l ∈ e.assumptions, ∃ r ∈ log, r.literal = l
  meaning : ∀ s i, (⟨b, e.numbering⟩ : Leaves).Agrees s i → ∃ a,
    (∀ v, 1 ≤ v → v ≤ e.numbering.count → a v = s v) ∧ Satisfies a e.cnf.clauses.toList ∧
      ∀ r ∈ log, r.literal ∈ e.assumptions →
        (litHolds a r.literal = true ↔ r.formula.holds i .none)

namespace Formula

variable {f : Formula} {b : Bounds} {sharing : Bool} (regular : b.Regular) (sorted : f.WellSorted)
  (fits : f.Fits b sharing)

include regular sorted fits

theorem encode_logs {e : Encoding} (ok : f.encode b sharing true = .ok (.clauses e)) :
    ∃ log, e.Logs log f b := by
  obtain ⟨values, root, circuit, run, log, isLog, made⟩ := encode_eq_ok ok
  obtain ⟨numbers, count, inputs, sound, meant⟩ := ground_of_fits regular sorted fits run
  have anyone := (Numbering.instanceAt_depicts regular numbers fun _ => false).agrees regular numbers
  obtain ⟨conjuncts, recorded⟩ := records_mean (meant _ _ anyone).1
  have inside : ∀ v ∈ values, v.In circuit := fun v member =>
    (forall₂_right recorded member).choose_spec.2.2.1
  cases root with
  | const value => cases made
  | lit n =>
    cases made
    obtain ⟨defines, -, members, -⟩ :=
      Encoder.defineAll_settles sound Encoder.empty_defines inside
    refine ⟨_, isLog rfl, conjuncts, fun l assumed => ?_, fun s i agrees => ?_⟩
    · have member := (members l).mp assumed
      obtain ⟨r, isRecord, label, -⟩ := forall₂_right recorded member
      exact ⟨r, isRecord, label.trans (Circuit.label_of_in sound.labelled (inside _ member))⟩
    · refine ⟨circuit.truth s, fun v _ upper => ?_, defines.satisfied sound.formed s, ?_⟩
      · have isInput : v ≤ (Numbering.ofBounds b).count := upper
        exact Circuit.extend_of_lt _ _ _ _ (by omega)
      · intro r isRecord assumed
        obtain ⟨v, member, label, means⟩ :=
          forall₂_left (records_mean (meant s i agrees).1).2 isRecord
        have also := inside _ ((members _).mp assumed)
        obtain rfl := (Value.label_eq_lit_iff sound.labelled (inside v member) also).mp label.symm
        exact means.2

/-- The conjuncts that refute a formula that folds to false are one or more, and they cannot hold
together. -/
theorem refutes_folded {result : Folded} (ok : f.encode b sharing true = .ok (.folded result))
    (isFalse : result.value = false) : ∃ log, result.log = some log ∧
      log.map (·.formula) = f.conjuncts ∧ (Refutation.ofFolded log).coreFormulas ≠ [] ∧
      ∀ m : Instance, m.Within b →
        ¬ ∀ g ∈ (Refutation.ofFolded log).coreFormulas, g.holds m.interpretation .none := by
  obtain ⟨values, root, circuit, run, log, isLog, made⟩ := encode_eq_ok ok
  obtain ⟨numbers, -, -, sound, meant⟩ := ground_of_fits regular sorted fits run
  cases root with
  | lit n => cases made
  | const value =>
    cases made
    obtain rfl : value = false := isFalse
    have refuted : ∀ s i, (Leaves.ofBounds b).Agrees s i →
        ¬ ∀ g ∈ (Refutation.ofFolded
          (List.zipWith (fun g v => ⟨g, v.label⟩) f.conjuncts values)).coreFormulas,
            g.holds i .none := by
      intro s i agrees core
      obtain ⟨each, whole⟩ := meant s i agrees
      obtain ⟨conjuncts, recorded⟩ := records_mean each
      have all := Refutation.holds_ofFolded sound.labelled recorded core
      cases whole.2.mpr ((holds_conjuncts f).mpr (conjuncts ▸ List.forall_mem_map.mpr all))
    have anyone :=
      (Numbering.instanceAt_depicts regular numbers fun _ => false).agrees regular numbers
    refine ⟨_, isLog rfl, (records_mean (meant _ _ anyone).1).1, fun empty => ?_, ?_⟩
    · apply refuted _ _ anyone
      rw [empty]
      exact List.forall_mem_nil _
    · intro m within
      exact refuted _ _ ((Numbering.valuation_depicts regular numbers within).agrees regular numbers)

end Formula

/-- Where the core of failed assumptions and the other assumptions are true, an assignment for the
instance makes all failed assumptions true. -/
theorem Encoding.Logs.extends {e : Encoding} {log : Log} {f : Formula} {b : Bounds}
    (logs : e.Logs log f b) (encodes : e.Encodes f b) (regular : b.Regular) {failed units : List Int}
    (among : failed ⊆ e.assumptions ++ units) (primary : Mentions e.numbering.count units)
    {m : Instance} (within : m.Within b)
    (core : ∀ g ∈ (Refutation.ofFailed log failed).coreFormulas, g.holds m.interpretation .none)
    (met : Meets (e.numbering.valuation m) units) :
    ∃ a, (∀ v, 1 ≤ v → v ≤ e.numbering.count → a v = e.numbering.valuation m v) ∧
      Satisfies a e.cnf.clauses.toList ∧ Meets a failed := by
  have depicts := Numbering.valuation_depicts regular encodes.numbers within
  obtain ⟨a, same, satisfies, meaning⟩ :=
    logs.meaning _ _ (depicts.agrees regular encodes.numbers)
  refine ⟨a, same, satisfies, fun l isFailed => ?_⟩
  rcases List.mem_append.mp (among isFailed) with assumed | given
  · obtain ⟨r, isRecord, rfl⟩ := logs.recorded l assumed
    apply (meaning r isRecord assumed).mpr
    exact core _ (Refutation.mem_coreFormulas.mpr ⟨r, isRecord, by simpa using isFailed, rfl⟩)
  · obtain ⟨nonzero, bound⟩ := primary l given
    rw [litHolds_congr (same l.natAbs (by omega) bound)]
    exact met l given

end ModelFinder
