import ModelFinder.Proofs.Cnf.Encoder
import ModelFinder.Proofs.Encoding.Formulas
import ModelFinder.Proofs.Encoding.Worlds

/-! The encoding of a formula is exact. Whether the conjuncts are asserted together or assumed one by
one, a valuation of the unknown tuples extends to the clauses and the assumptions exactly if the
formula is true in the interpretations that agree with it; and a formula that folds has the value it
folds to under every valuation. -/
namespace ModelFinder

/-- The unknown tuples and the gates of the formula are few enough for each to have a label of its
own in a signed word of 32 bits. -/
def Formula.Fits (f : Formula) (b : Bounds) (sharing : Bool) : Prop :=
  ∀ result circuit, (groundConjuncts (.ofBounds b) f.conjuncts).run
      ((Leaves.ofBounds b).circuit sharing) = .ok (result, circuit) →
    b.unknownCount + circuit.gates.size < 2147483647

/-- The clauses and assumptions of an encoding say what the formula does within the bounds. -/
structure Encoding.Encodes (e : Encoding) (f : Formula) (b : Bounds) : Prop where
  numbering : e.numbering = .ofBounds b
  numbers : e.numbering.Numbers b
  bounds : e.bounds = b
  mentions : ∀ clause ∈ e.cnf.clauses.toList, Mentions e.cnf.numVars clause
  roots : Mentions e.cnf.numVars e.assumptions
  primary : e.numbering.count ≤ e.cnf.numVars
  small : e.cnf.numVars < 2147483647
  exact : ∀ s i, (⟨b, e.numbering⟩ : Leaves).Agrees s i →
    ((∃ a, (∀ v, 1 ≤ v → v ≤ e.numbering.count → a v = s v) ∧
      Satisfies a e.cnf.clauses.toList ∧ Meets a e.assumptions) ↔ f.holds i .none)

namespace Circuit

theorem absent_of_all_lit {c d : Circuit} {values : List Value} {n : Int}
    (run : (liftM (all values) : Build Value) c = .ok (.lit n, d)) : Value.const false ∉ values := by
  intro member
  have absorbed : operands true values = none := by
    rw [operands, if_pos]
    exact List.any_eq_true.mpr ⟨_, member, by simp⟩
  simp only [Synth.lift_run, all, combine, absorbed, Except.ok.injEq] at run
  cases run

end Circuit

section Conjuncts

variable {leaves : Leaves} {s : Nat → Bool} {i : Interpretation} {c : Circuit} {fs : List Formula}

theorem groundConjuncts_ensures (proper : leaves.Proper) (agrees : leaves.Agrees s i)
    (sorted : ∀ f ∈ fs, f.WellSorted) (sound : c.Sound) :
    Build.Ensures (groundConjuncts leaves fs) c fun result d =>
      List.Forall₂ (fun f v => v.Means d s (f.holds i .none)) fs result.1 ∧
        result.2.Means d s (∀ f ∈ fs, f.holds i .none) := by
  unfold groundConjuncts
  refine Build.Ensures.bind (Formula.groundAll_ensures proper agrees fs
    (Formula.wellSortedAll_iff.mpr sorted) c .empty .none sound Scope.agrees_empty)
    (Formula.grows_groundAll leaves fs .empty)
    (fun values => Build.grows_bind (Circuit.grows_all values) fun _ => by simp) ?_
  intro values d _ reached each
  have inside : ∀ v ∈ values, v.In d := fun v member =>
    (forall₂_right each member).choose_spec.2.1
  refine Build.Ensures.bind (Circuit.all_ensures s reached inside) (Circuit.grows_all values)
    (fun _ => by simp) ?_
  intro root e grown final meant
  refine Build.ensures_pure final ⟨?_, meant.congr (Value.forall_means each)⟩
  exact each.imp fun f v here => here.of_le grown

theorem absent_of_groundConjuncts {d : Circuit} {values : List Value} {n : Int}
    (run : groundConjuncts leaves fs c = .ok ((values, .lit n), d)) : Value.const false ∉ values := by
  obtain ⟨made, between, -, rest⟩ := Build.bind_run.mp run
  obtain ⟨root, final, isRoot, done⟩ := Build.bind_run.mp rest
  cases done
  exact Circuit.absent_of_all_lit isRoot

end Conjuncts

namespace Formula

variable {f : Formula} {b : Bounds} {sharing logged : Bool}

theorem encode_eq_ok {result : Encoded} (ok : f.encode b sharing logged = .ok result) :
    ∃ values root circuit,
      groundConjuncts (.ofBounds b) f.conjuncts ((Leaves.ofBounds b).circuit sharing) =
        .ok ((values, root), circuit) ∧
      ∃ log : Option Log,
        (logged = true → log = some (List.zipWith (fun g v => ⟨g, v.label⟩) f.conjuncts values)) ∧
        match (root : Value) with
        | .const value => result = .folded ⟨value, f, b, log⟩
        | .lit _ => result = .clauses (if logged then
              ⟨.ofBounds b, b, log, ((Encoder.empty circuit).defineAll circuit values).2.cnf,
                ((Encoder.empty circuit).defineAll circuit values).1⟩
            else ⟨.ofBounds b, b, log, ((Encoder.empty circuit).assert circuit root).cnf, []⟩) := by
  obtain ⟨⟨⟩, -, rest⟩ := bind_eq_ok.mp ok
  obtain ⟨⟨⟨values, root⟩, circuit⟩, run, made⟩ := bind_eq_ok.mp rest
  refine ⟨values, root, circuit, run, ?_⟩
  cases root with
  | const value =>
    refine ⟨_, ?_, (pure_eq_ok.mp made).symm⟩
    exact fun isLogged => if_pos isLogged
  | lit n =>
    obtain rfl := pure_eq_ok.mp made
    refine ⟨if logged then _ else none, fun isLogged => if_pos isLogged, ?_⟩
    cases logged <;> rfl

theorem folded_eq {result : Folded} (ok : f.encode b sharing logged = .ok (.folded result)) :
    result.formula = f ∧ result.bounds = b := by
  obtain ⟨values, root, circuit, -, log, -, made⟩ := encode_eq_ok ok
  cases root with
  | const value =>
    cases made
    exact ⟨rfl, rfl⟩
  | lit n => cases made

/-- The conjuncts were grounded in a sound circuit, if what came of it is labelled. -/
theorem groundAll_of_run {values : List Value} {root : Value} {circuit : Circuit}
    (run : groundConjuncts (.ofBounds b) f.conjuncts ((Leaves.ofBounds b).circuit sharing) =
      .ok ((values, root), circuit)) (labelled : circuit.Labelled) :
    ((Leaves.ofBounds b).circuit sharing).Sound ∧ ∃ d,
      groundAll (.ofBounds b) f.conjuncts .empty ((Leaves.ofBounds b).circuit sharing) =
        .ok (values, d) ∧ d.Labelled := by
  obtain ⟨made, d, each, rest⟩ := Build.bind_run.mp run
  obtain ⟨whole, e, joined, done⟩ := Build.bind_run.mp rest
  cases done
  have between : d.Labelled := labelled.of_le (Circuit.grows_all _ _ _ _ joined)
  exact ⟨⟨Circuit.empty_formed _ _, between.of_le (grows_groundAll _ _ _ _ _ _ each)⟩, d, each, between⟩

variable (regular : b.Regular) (sorted : f.WellSorted) (fits : f.Fits b sharing)

include regular sorted fits

/-- The circuit of a formula that fits is sound, and its values are the truth of the conjuncts. -/
theorem ground_of_fits {values : List Value} {root : Value} {circuit : Circuit}
    (run : groundConjuncts (.ofBounds b) f.conjuncts ((Leaves.ofBounds b).circuit sharing) =
      .ok ((values, root), circuit)) :
    (Numbering.ofBounds b).Numbers b ∧ (Numbering.ofBounds b).count = b.unknownCount ∧
      circuit.inputs = b.unknownCount ∧ circuit.Sound ∧
      ∀ s i, (Leaves.ofBounds b).Agrees s i →
        List.Forall₂ (fun g v => v.Means circuit s (g.holds i .none)) f.conjuncts values ∧
          root.Means circuit s (f.holds i .none) := by
  have small := fits _ _ run
  obtain ⟨numbers, count⟩ := Numbering.ofBounds_numbers regular.formed
    (show b.unknownCount < wordBound by simp only [wordBound]; omega)
  have start : ((Leaves.ofBounds b).circuit sharing).Sound := by
    refine ⟨Circuit.empty_formed _ _, ?_⟩
    show ((Numbering.ofBounds b).count + 0 : Nat) < Value.trueLabel
    rw [count, Value.trueLabel]
    omega
  have grows : Build.Grows (groundConjuncts (.ofBounds b) f.conjuncts) :=
    Build.grows_bind (Formula.grows_groundAll _ _ _) fun values =>
      Build.grows_bind (Circuit.grows_all values) fun _ => by simp
  have inputs : circuit.inputs = b.unknownCount :=
    (grows _ _ _ run).1.symm.trans count
  have labelled : circuit.Labelled := by
    rw [Circuit.Labelled, Circuit.maxLabel, inputs, Value.trueLabel]
    omega
  have proper : (Leaves.ofBounds b).Proper := ⟨regular, numbers⟩
  have ensured := fun s i (agrees : (Leaves.ofBounds b).Agrees s i) =>
    groundConjuncts_ensures proper agrees (wellSorted_conjuncts f sorted) start _ _ run labelled
  have formed : circuit.WellFormed := (ensured (fun _ => false) _
    ((Numbering.instanceAt_depicts regular numbers _).agrees regular numbers)).1
  refine ⟨numbers, count, inputs, ⟨formed, labelled⟩, fun s i agrees => ?_⟩
  obtain ⟨-, each, whole⟩ := ensured s i agrees
  exact ⟨each, whole.congr (holds_conjuncts f).symm⟩

theorem encode_folded {result : Folded} (ok : f.encode b sharing logged = .ok (.folded result)) :
    result.formula = f ∧ result.bounds = b ∧ (Numbering.ofBounds b).Numbers b ∧
      ∀ s i, (Leaves.ofBounds b).Agrees s i → (result.value = true ↔ f.holds i .none) := by
  obtain ⟨values, root, circuit, run, log, -, made⟩ := encode_eq_ok ok
  obtain ⟨numbers, -, -, -, meant⟩ := ground_of_fits regular sorted fits run
  cases root with
  | const value =>
    cases made
    exact ⟨rfl, rfl, numbers, fun s i agrees => (meant s i agrees).2.2⟩
  | lit n => cases made

theorem encode_clauses {e : Encoding} (ok : f.encode b sharing logged = .ok (.clauses e)) :
    e.Encodes f b := by
  obtain ⟨values, root, circuit, run, log, -, made⟩ := encode_eq_ok ok
  obtain ⟨numbers, count, inputs, sound, meant⟩ := ground_of_fits regular sorted fits run
  have labelled := sound.labelled
  rw [Circuit.Labelled, Value.trueLabel] at labelled
  have primary : (Numbering.ofBounds b).count ≤ circuit.maxLabel := by
    rw [count, ← inputs, Circuit.maxLabel]
    omega
  have anyone := (Numbering.instanceAt_depicts regular numbers fun _ => false).agrees regular numbers
  cases root with
  | const value => cases made
  | lit n =>
    cases logged with
    | true =>
      -- The clauses define gates only; the literals of the conjuncts are assumed.
      cases made
      have inside : ∀ v ∈ values, v.In circuit := fun v member =>
        (forall₂_right (meant _ _ anyone).1 member).choose_spec.2.1
      obtain ⟨defines, -, members, settled⟩ :=
        Encoder.defineAll_settles sound Encoder.empty_defines inside
      have mentions : Mentions circuit.maxLabel
          ((Encoder.empty circuit).defineAll circuit values).1 := by
        intro l member
        exact inside _ ((members l).mp member)
      refine ⟨rfl, numbers, rfl, ?_, ?_, ?_, ?_, ?_⟩ <;> simp only [if_true, defines.numVars]
      · exact defines.mentions
      · exact mentions
      · exact primary
      · omega
      · intro s i agrees
        rw [count, ← inputs, defines.extends_iff sound.formed mentions settled,
          holds_conjuncts f, ← Value.forall_means (meant s i agrees).1]
        constructor
        · intro meets v member
          cases v with
          | const b =>
            cases b with
            | true => rfl
            | false => exact absurd member (absent_of_groundConjuncts run)
          | lit l => exact meets l ((members l).mpr member)
        · exact fun all l member => all (.lit l) ((members l).mp member)
    | false =>
      -- Nothing is assumed; a unit clause makes the root true.
      cases made
      have inside := (meant _ _ anyone).2.1
      have label : (Value.lit n).label = n := Circuit.label_of_in sound.labelled inside
      obtain ⟨defines, settled, -⟩ := Encoder.reach_settles sound.formed Encoder.empty_defines
        n.natAbs
      have mentions : Mentions circuit.maxLabel [n] := by
        intro l member
        exact List.mem_singleton.mp member ▸ inside
      have clauses : ((Encoder.empty circuit).assert circuit (.lit n)).cnf.clauses.toList =
          ((Encoder.empty circuit).reach circuit n.natAbs).cnf.clauses.toList ++ [[n]] := by
        simp [Encoder.assert, label, Cnf.add]
      have numVars : ((Encoder.empty circuit).assert circuit (.lit n)).cnf.numVars =
          circuit.maxLabel := by
        simp only [Encoder.assert, label, Cnf.add, defines.numVars]
        exact Nat.max_eq_left (maxVar_le mentions)
      refine ⟨rfl, numbers, rfl, ?_, ?_, ?_, ?_, ?_⟩ <;>
        simp only [Bool.false_eq_true, if_false, numVars, clauses]
      · exact List.forall_mem_append.mpr ⟨defines.mentions, by simpa using mentions⟩
      · simp [Mentions]
      · exact primary
      · omega
      · intro s i agrees
        have truth := (meant s i agrees).2.2
        have extends_iff := defines.extends_iff sound.formed mentions
          (by simpa using settled) s
        rw [count, ← inputs, ← truth, Value.eval]
        simpa [Clause.holds, Meets] using extends_iff

end Formula

end ModelFinder
