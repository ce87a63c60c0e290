import ModelFinder.Encoding.Basic
import ModelFinder.Proofs.Circuit.Gates
import ModelFinder.Proofs.Cnf.Clauses
import ModelFinder.Proofs.Cnf.Traversal

/-! The encoder defines every gate that the asserted values depend on, and its clauses say nothing
else: the assignments that satisfy them are those that give the defined labels the truth of their
gates. -/
namespace ModelFinder

namespace Encoder

variable {c : Circuit} {e : Encoder}

/-- The clauses of the encoder define the gates it has on record, with all that they read, and it has
steps enough to define the others. -/
structure Defines (c : Circuit) (e : Encoder) : Prop where
  meaning : ∀ a, Satisfies a e.cnf.clauses.toList ↔
    ∀ label gate, e.defined.contains label = true → c.gate? label = some gate →
      a label = gate.eval a
  closed : ∀ label gate, e.defined.contains label = true → c.gate? label = some gate →
    ∀ x ∈ gate.inputs, e.Settled c x.natAbs
  mentions : ∀ clause ∈ e.cnf.clauses.toList, Mentions c.maxLabel clause
  numVars : e.cnf.numVars = c.maxLabel
  enough : 1 + owed e.defined (c.inputs + 1) c.gates.toList ≤ e.limit

theorem empty_defines : (Encoder.empty c).Defines c where
  meaning a := by simp [Encoder.empty]
  closed label gate defined := by simp [Encoder.empty] at defined
  mentions clause member := by simp [Encoder.empty] at member
  numVars := rfl
  enough := by
    apply Nat.le_of_eq
    rw [Encoder.empty, ← Array.foldl_toList, @owed_empty _ (c.inputs + 1)]

theorem satisfies_definitions (formed : c.WellFormed) {a : Nat → Bool} {order : List Nat} :
    Satisfies a (order.flatMap c.definition) ↔
      ∀ label ∈ order, ∀ gate, c.gate? label = some gate → a label = gate.eval a := by
  rw [Satisfies, List.forall_mem_flatMap]
  refine forall₂_congr fun label _ => ?_
  rw [Circuit.definition]
  cases found : c.gate? label with
  | none => simp
  | some gate =>
    obtain ⟨i, -, isGate⟩ := Circuit.gate?_eq_some.mp found
    have nonzero : ∀ l ∈ gate.inputs, l ≠ 0 := fun l member =>
      ((formed.ordered i gate isGate).1 l member).1
    simp only [Option.some.injEq, forall_eq']
    exact Gate.satisfies_definition (Circuit.gate?_le found).1 nonzero

theorem definition_mentions (formed : c.WellFormed) {label : Nat} :
    ∀ clause ∈ c.definition label, Mentions c.maxLabel clause := by
  rw [Circuit.definition]
  cases found : c.gate? label with
  | none => simp
  | some gate =>
    obtain ⟨positive, small⟩ := Circuit.gate?_le found
    obtain ⟨i, isLabel, isGate⟩ := Circuit.gate?_eq_some.mp found
    exact Gate.definition_mentions positive small (isLabel ▸ formed.ordered i gate isGate)

/-- A visit adds what the gates say that it defines, and nothing else. -/
theorem Defines.visits {labels order : List Nat} {n : Nat} {next : Encoder} (defines : e.Defines c)
    (formed : c.WellFormed) (visits : Visits c labels e n order next) : next.Defines c where
  meaning a := by
    rw [visits.cnf, Cnf.addAll_clauses, satisfies_append, defines.meaning,
      satisfies_definitions formed]
    simp only [visits.defined, or_imp, forall_and]
    exact and_congr_right fun _ => forall_congr' fun label => forall_comm
  closed label gate known found x isInput := by
    rw [visits.settled_iff]
    rcases (visits.defined label).mp known with before | member
    · exact .inl (defines.closed label gate before found x isInput)
    · obtain ⟨front, back, rfl⟩ := List.append_of_mem member
      obtain ⟨other, same, inputs⟩ := visits.after front label back rfl
      rw [Option.some.inj (found.symm.trans same)] at isInput
      exact (inputs x isInput).imp_right (List.mem_append_left _)
  mentions := by
    rw [visits.cnf, Cnf.addAll_clauses]
    refine List.forall_mem_append.mpr ⟨defines.mentions, List.forall_mem_flatMap.mpr ?_⟩
    exact fun label _ => definition_mentions formed
  numVars := by
    rw [visits.cnf, ← defines.numVars]
    refine Cnf.addAll_numVars (List.forall_mem_flatMap.mpr fun label _ => ?_)
    exact defines.numVars ▸ definition_mentions formed
  enough := by
    have before := defines.enough
    have less := visits.owes
    rw [visits.limit]
    omega

theorem reach_settles (formed : c.WellFormed) (defines : e.Defines c) (label : Nat) :
    (e.reach c label).Defines c ∧ (e.reach c label).Settled c label ∧
      ∀ other, e.Settled c other → (e.reach c label).Settled c other := by
  obtain ⟨n, order, -, visits⟩ := reach_visits formed label defines.enough
  exact ⟨defines.visits formed visits, visits.settled label (List.mem_singleton_self label),
    fun other known => visits.settled_iff.mpr (.inl known)⟩

/-- Under the clauses, a settled label has its truth in the circuit. -/
theorem Defines.truth (defines : e.Defines c) (formed : c.WellFormed) {a s : Nat → Bool}
    (same : ∀ v, 1 ≤ v → v ≤ c.inputs → a v = s v) (holds : Satisfies a e.cnf.clauses.toList)
    {label : Nat} (positive : 1 ≤ label) (inUse : label ≤ c.maxLabel)
    (settled : e.Settled c label) : a label = c.truth s label := by
  induction label using Nat.strongRecOn with
  | _ label ih =>
    cases found : c.gate? label with
    | none =>
      have isInput : label ≤ c.inputs := by
        by_contra beyond
        have inside : label - c.inputs - 1 < c.gates.size := by
          rw [Circuit.maxLabel] at inUse
          omega
        rw [Circuit.gate?_eq_some.mpr ⟨label - c.inputs - 1, by omega,
          Array.getElem?_eq_getElem inside⟩] at found
        cases found
      rw [same label positive isInput, Circuit.truth, Circuit.extend_of_lt _ _ _ _ (by omega)]
    | some gate =>
      obtain ⟨i, rfl, isGate⟩ := Circuit.gate?_eq_some.mp found
      have known : e.defined.contains (c.inputs + i + 1) = true := by
        rcases settled with known | isInput
        · exact known
        · rw [found] at isInput
          cases isInput
      rw [(defines.meaning a).mp holds _ gate known found, Circuit.truth_gate formed s isGate]
      refine Gate.eval_congr fun l member => ?_
      obtain ⟨nonzero, smaller⟩ := (formed.ordered i gate isGate).1 l member
      exact ih l.natAbs smaller (by omega) (by omega)
        (defines.closed _ gate known found l member)

theorem Defines.satisfied (defines : e.Defines c) (formed : c.WellFormed) (s : Nat → Bool) :
    Satisfies (c.truth s) e.cnf.clauses.toList := by
  rw [defines.meaning]
  intro label gate _ found
  obtain ⟨i, rfl, isGate⟩ := Circuit.gate?_eq_some.mp found
  exact Circuit.truth_gate formed s isGate

/-- A valuation of the inputs extends to the clauses and to literals of settled labels exactly if the
circuit makes the literals true. -/
theorem Defines.extends_iff (defines : e.Defines c) (formed : c.WellFormed) {literals : List Int}
    (mentions : Mentions c.maxLabel literals)
    (settled : ∀ l ∈ literals, e.Settled c l.natAbs) (s : Nat → Bool) :
    (∃ a, (∀ v, 1 ≤ v → v ≤ c.inputs → a v = s v) ∧ Satisfies a e.cnf.clauses.toList ∧
      Meets a literals) ↔ Meets (c.truth s) literals := by
  constructor
  · rintro ⟨a, same, holds, meets⟩ l member
    obtain ⟨nonzero, small⟩ := mentions l member
    rw [← litHolds_congr (defines.truth formed same holds (by omega) small (settled l member))]
    exact meets l member
  · intro meets
    refine ⟨c.truth s, fun v _ isInput => ?_, defines.satisfied formed s, meets⟩
    rw [Circuit.truth, Circuit.extend_of_lt _ _ _ _ (by omega)]

/-- Defining values defines what they depend on, and the literals are those of the values that are no
constants. -/
theorem defineAll_settles (sound : c.Sound) {values : List Value} (defines : e.Defines c)
    (inside : ∀ v ∈ values, v.In c) :
    (e.defineAll c values).2.Defines c ∧
      (∀ label, e.Settled c label → (e.defineAll c values).2.Settled c label) ∧
      (∀ l, l ∈ (e.defineAll c values).1 ↔ Value.lit l ∈ values) ∧
      ∀ l ∈ (e.defineAll c values).1, (e.defineAll c values).2.Settled c l.natAbs := by
  induction values generalizing e with
  | nil => exact ⟨defines, fun _ => id, by simp [defineAll], by simp [defineAll]⟩
  | cons v rest ih =>
    have insideRest : ∀ v ∈ rest, v.In c := fun w member => inside w (List.mem_cons_of_mem v member)
    cases v with
    | const b =>
      obtain ⟨defined, kept, members, settled⟩ := ih defines insideRest
      refine ⟨defined, kept, fun l => ?_, settled⟩
      rw [List.mem_cons, ← members l]
      simp [defineAll, define]
    | lit n =>
      have label : (Value.lit n).label = n :=
        Circuit.label_of_in sound.labelled (inside _ List.mem_cons_self)
      obtain ⟨reached, here, before⟩ := reach_settles sound.formed defines n.natAbs
      obtain ⟨defined, kept, members, settled⟩ := ih reached insideRest
      simp only [defineAll, define, label, Option.toList_some, List.singleton_append]
      refine ⟨defined, fun other known => kept other (before other known), fun l => ?_, ?_⟩
      · rw [List.mem_cons, List.mem_cons, members, Value.lit.injEq]
      · intro l member
        rcases List.mem_cons.mp member with rfl | inRest
        · exact kept _ here
        · exact settled l inRest

end Encoder

end ModelFinder
