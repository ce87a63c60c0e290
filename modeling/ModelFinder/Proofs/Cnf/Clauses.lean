import ModelFinder.Cnf.Encoder
import ModelFinder.Proofs.Circuit.Growth
import ModelFinder.Sat.Faithful

/-! Clauses and what they say. The clauses of a gate hold exactly under the assignments that give its
label the truth of the gate. -/
namespace ModelFinder

section Satisfies

variable {a : Nat → Bool} {clauses more : List Clause} {clause : Clause}

theorem Clause.holds_iff : clause.holds a = true ↔ ∃ l ∈ clause, litHolds a l = true :=
  List.any_eq_true

@[simp] theorem satisfies_nil : Satisfies a [] := fun _ member => by cases member

@[simp] theorem satisfies_cons :
    Satisfies a (clause :: clauses) ↔ clause.holds a = true ∧ Satisfies a clauses :=
  List.forall_mem_cons

@[simp] theorem satisfies_append :
    Satisfies a (clauses ++ more) ↔ Satisfies a clauses ∧ Satisfies a more :=
  List.forall_mem_append

@[simp] theorem meets_append {front back : List Int} :
    Meets a (front ++ back) ↔ Meets a front ∧ Meets a back :=
  List.forall_mem_append

def Mentions (limit : Nat) (literals : List Int) : Prop :=
  ∀ l ∈ literals, l ≠ 0 ∧ l.natAbs ≤ limit

end Satisfies

theorem maxVar_le {lits : List Int} {limit : Nat} (mentions : Mentions limit lits) :
    maxVar lits ≤ limit := by
  have bounded : ∀ start ≤ limit, lits.foldl (fun v l => max v l.natAbs) start ≤ limit := by
    induction lits with
    | nil => exact fun start small => small
    | cons l rest ih =>
      intro start small
      refine ih (fun k member => mentions k (List.mem_cons_of_mem l member)) _ ?_
      exact Nat.max_le.mpr ⟨small, (mentions l List.mem_cons_self).2⟩
  exact bounded 0 (Nat.zero_le limit)

namespace Cnf

variable {cnf : Cnf} {clauses : List Clause}

theorem addAll_clauses : (cnf.addAll clauses).clauses.toList = cnf.clauses.toList ++ clauses := by
  unfold addAll
  induction clauses generalizing cnf with
  | nil => simp
  | cons clause rest ih => simp [ih, add]

theorem addAll_numVars (mentions : ∀ clause ∈ clauses, Mentions cnf.numVars clause) :
    (cnf.addAll clauses).numVars = cnf.numVars := by
  unfold addAll
  induction clauses generalizing cnf with
  | nil => rfl
  | cons clause rest ih =>
    have here : (cnf.add clause).numVars = cnf.numVars :=
      Nat.max_eq_left (maxVar_le (mentions clause List.mem_cons_self))
    rw [List.foldl_cons, ih, here]
    rw [here]
    exact fun clause member => mentions clause (List.mem_cons_of_mem _ member)

end Cnf

namespace Gate

variable {a : Nat → Bool} {gate : Gate} {label : Nat}

/-- The clauses of a conjunction: all inputs make the label true, and the label makes each true. -/
theorem satisfies_and {inputs : List Int} (positive : 0 < label) (nonzero : ∀ l ∈ inputs, l ≠ 0) :
    Satisfies a ((and inputs).definition label) ↔
      (a label = true ↔ ∀ l ∈ inputs, litHolds a l = true) := by
  have flipped : ∀ l ∈ inputs, litHolds a (-l) = !litHolds a l :=
    fun l member => litHolds_neg a (nonzero l member)
  have all : Clause.holds a (inputs.map (-·) ++ [(label : Int)]) = true ↔
      (∀ l ∈ inputs, litHolds a l = true) → a label = true := by
    simp only [Clause.holds, List.any_append, List.any_map, Bool.or_eq_true, List.any_eq_true,
      Function.comp_apply, List.any_cons, List.any_nil, Bool.or_false, litHolds_natCast positive]
    constructor
    · rintro (⟨l, member, fails⟩ | holds) every
      · rw [flipped l member, every l member] at fails
        cases fails
      · exact holds
    · intro forward
      by_cases every : ∀ l ∈ inputs, litHolds a l = true
      · exact .inr (forward every)
      · push Not at every
        obtain ⟨l, member, fails⟩ := every
        exact .inl ⟨l, member, by rw [flipped l member, Bool.eq_false_iff.mpr fails]; rfl⟩
  have each : Satisfies a (inputs.map fun l => [l, -(label : Int)]) ↔
      (a label = true → ∀ l ∈ inputs, litHolds a l = true) := by
    simp only [Satisfies, List.forall_mem_map, Clause.holds, List.any_cons, List.any_nil,
      Bool.or_false, litHolds_neg_natCast positive, Bool.or_eq_true, Bool.not_eq_true']
    constructor
    · intro clauses holds l member
      refine (clauses l member).resolve_right fun isFalse => ?_
      rw [holds] at isFalse
      cases isFalse
    · intro backward l member
      cases value : a label with
      | true => exact .inl (backward value l member)
      | false => exact .inr rfl
  rw [definition, satisfies_cons, all, each]
  exact ⟨fun both => ⟨both.2, both.1⟩, fun same => ⟨same.mpr, same.mp⟩⟩

/-- The clauses of a disjunction: the label makes some input true, and each input makes it true. -/
theorem satisfies_or {inputs : List Int} (positive : 0 < label) (nonzero : ∀ l ∈ inputs, l ≠ 0) :
    Satisfies a ((or inputs).definition label) ↔
      (a label = true ↔ ∃ l ∈ inputs, litHolds a l = true) := by
  have some : Clause.holds a (inputs ++ [-(label : Int)]) = true ↔
      (a label = true → ∃ l ∈ inputs, litHolds a l = true) := by
    simp only [Clause.holds, List.any_append, Bool.or_eq_true, List.any_eq_true, List.any_cons,
      List.any_nil, Bool.or_false, litHolds_neg_natCast positive]
    cases a label <;> simp
  have each : Satisfies a (inputs.map fun l => [-l, (label : Int)]) ↔
      ((∃ l ∈ inputs, litHolds a l = true) → a label = true) := by
    simp only [Satisfies, List.forall_mem_map, Clause.holds, List.any_cons, List.any_nil,
      Bool.or_false, litHolds_natCast positive, Bool.or_eq_true, forall_exists_index, and_imp]
    refine forall₂_congr fun l member => ?_
    rw [litHolds_neg a (nonzero l member)]
    cases litHolds a l <;> simp
  rw [definition, satisfies_cons, some, each]
  exact ⟨fun both => ⟨both.1, both.2⟩, fun same => ⟨same.mp, same.mpr⟩⟩

theorem satisfies_definition (positive : 0 < label) (nonzero : ∀ l ∈ gate.inputs, l ≠ 0) :
    Satisfies a (gate.definition label) ↔ a label = gate.eval a := by
  cases gate with
  | and inputs =>
    rw [Bool.eq_iff_iff, eval, List.all_eq_true]
    exact satisfies_and positive nonzero
  | or inputs =>
    rw [Bool.eq_iff_iff, eval, List.any_eq_true]
    exact satisfies_or positive nonzero
  | ite cond yes no =>
    have flipped : ∀ l ∈ [cond, yes, no], litHolds a (-l) = !litHolds a l :=
      fun l member => litHolds_neg a (nonzero l member)
    have cond_flipped := flipped cond (by simp)
    have yes_flipped := flipped yes (by simp)
    have no_flipped := flipped no (by simp)
    simp only [definition, satisfies_cons, satisfies_nil, and_true, Clause.holds, List.any_cons,
      List.any_nil, Bool.or_false, cond_flipped, yes_flipped, no_flipped, litHolds_natCast positive,
      litHolds_neg_natCast positive, eval]
    cases a label <;> cases litHolds a cond <;> cases litHolds a yes <;> cases litHolds a no <;>
      decide

theorem definition_mentions {limit : Nat} (positive : 0 < label) (small : label ≤ limit)
    (ordered : gate.Ordered label) : ∀ clause ∈ gate.definition label, Mentions limit clause := by
  have inputs : ∀ l ∈ gate.inputs, l ≠ 0 ∧ l.natAbs ≤ limit := fun l member => by
    have bound := ordered.1 l member
    exact ⟨bound.1, by omega⟩
  have output : (label : Int) ≠ 0 ∧ (label : Int).natAbs ≤ limit := ⟨by omega, by omega⟩
  have flipped : ∀ l : Int, l ≠ 0 ∧ l.natAbs ≤ limit → -l ≠ 0 ∧ (-l).natAbs ≤ limit := by
    intro l bound
    omega
  have outputFlipped := flipped _ output
  intro clause member l mentioned
  cases gate with
  | and ls =>
    simp only [definition, List.mem_cons, List.mem_map] at member
    rcases member with rfl | ⟨x, isInput, rfl⟩
    · simp only [List.mem_append, List.mem_map, List.mem_singleton] at mentioned
      rcases mentioned with ⟨x, isInput, rfl⟩ | rfl
      · exact flipped x (inputs x isInput)
      · exact output
    · simp only [List.mem_cons, List.not_mem_nil, or_false] at mentioned
      rcases mentioned with rfl | rfl
      · exact inputs l isInput
      · exact outputFlipped
  | or ls =>
    simp only [definition, List.mem_cons, List.mem_map] at member
    rcases member with rfl | ⟨x, isInput, rfl⟩
    · simp only [List.mem_append, List.mem_singleton] at mentioned
      rcases mentioned with isInput | rfl
      · exact inputs l isInput
      · exact outputFlipped
    · simp only [List.mem_cons, List.not_mem_nil, or_false] at mentioned
      rcases mentioned with rfl | rfl
      · exact flipped x (inputs x isInput)
      · exact output
  | ite cond yes no =>
    have one := inputs cond (by simp [Gate.inputs])
    have two := inputs yes (by simp [Gate.inputs])
    have three := inputs no (by simp [Gate.inputs])
    simp only [definition, List.mem_cons, List.not_mem_nil, or_false] at member
    rcases member with rfl | rfl | rfl | rfl <;>
      simp only [List.mem_cons, List.not_mem_nil, or_false] at mentioned <;>
      rcases mentioned with rfl | rfl | rfl <;> omega

end Gate

end ModelFinder
