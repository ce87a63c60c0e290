import ModelFinder.Proofs.Finder.Evaluation

/-! Dimensions while grounding. In every scope that grounding comes to, an expression is grounded to a
symbolic relation over the universe and of the arity of the expression, so that every operator is given
relations that fit. Only a variable can be missing, and that with more unknown tuples than labels can
number. -/
namespace ModelFinder

/-- The scopes that grounding comes to: a declared variable stands for one of the tuples that its
domain may have, whatever gates the circuit has by then. -/
inductive Scope.Reached (l : Leaves) : Scope → Prop
  | empty : Reached l .empty
  | push {scope : Scope} {decl : Decl} {domain : Matrix} {cell : Nat × Value} {c d : Circuit}
      (before : Reached l scope) (sorted : decl.domain.WellSorted)
      (fitting : decl.var.arity = decl.domain.arity)
      (grounded : decl.domain.ground l scope c = .ok (domain, d))
      (chosen : cell ∈ domain.cells.entries) :
      Reached l (scope.push decl.var (.ofIndices domain.dims [cell.1]))

def Error.InputOrVariable (error : Error) : Prop :=
  error.IsInput ∨ error = .misuse .noSuchVariable

variable {l : Leaves} {scope : Scope} {c d : Circuit}

theorem Circuit.input_error {label : Int} {error : Error} (failed : c.input label = .error error) :
    error = .misuse .noSuchVariable := by
  unfold input at failed
  split at failed <;> cases failed
  rfl

/-- A leaf fails because nothing is bound, because the tuples cannot be counted, or because a variable
is missing. -/
theorem Leaves.relation_eq_error {r : Relation} {error : Error}
    (failed : l.relation r c = .error error) :
    (l.bounds.range? r = none ∧ error = .unboundRelation r.name) ∨
      (¬ Countable l.bounds.univ.size r.arity ∧
        error = .matrixCapacity r.arity l.bounds.univ.size) ∨
      error = .misuse .noSuchVariable := by
  unfold relation at failed
  cases found : l.bounds.range? r with
  | none =>
    rw [found] at failed
    exact .inl ⟨rfl, (Except.error.inj failed).symm⟩
  | some range =>
    rw [found] at failed
    rcases Build.bind_run_error.mp failed with uncounted | ⟨dims, d, -, failed⟩
    · have made := Build.lift_eq_error.mp uncounted
      by_cases countable : Countable l.bounds.univ.size r.arity
      · cases made.symm.trans (Dims.make_of_countable countable)
      · have same := made.symm.trans (Dims.make_of_uncountable countable)
        exact .inr (.inl ⟨countable, Except.error.inj same⟩)
    rcases Build.bind_run_error.mp failed with impossible | ⟨circuit, e, -, failed⟩
    · cases impossible
    rcases Build.bind_run_error.mp failed with missing | ⟨unknown, g, -, impossible⟩
    · obtain ⟨item, -, isError⟩ := Build.mapM_lift_error
        (fun item : Nat × Nat => (circuit.input item.2).map (item.1, ·)) missing
      cases input : circuit.input item.2 with
      | ok v => simp [input, Except.map] at isError
      | error fault =>
        simp only [input, Except.map, Except.error.injEq] at isError
        exact .inr (.inr (isError ▸ Circuit.input_error input))
    · cases impossible

theorem Leaves.relation_confined (l : Leaves) (r : Relation) (c : Circuit) :
    Build.Confined Error.InputOrVariable (l.relation r) c
      fun m => m.Sized l.bounds.univ.size r.arity := by
  refine Build.confined_of (fun m d run => ?_) fun error failed => ?_
  · obtain ⟨rfl, range, unknown, -, countable, -, rfl⟩ := relation_eq_ok run
    exact ⟨rfl, rfl, countable⟩
  · rcases relation_eq_error failed with ⟨-, rfl⟩ | ⟨-, rfl⟩ | missing
    · exact .inl (.inl rfl)
    · exact .inl (.inr (.inr (.inr rfl)))
    · exact .inr missing

/-- Over any circuit, and with relations of the right arities in scope, an expression is grounded to a
relation of its arity if nothing is wrong with the input and no variable is missing. -/
theorem Expr.ground_confined {e : Expr} (sorted : e.WellSorted)
    (sized : scope.Sized l.bounds.univ.size) :
    Build.Confined Error.InputOrVariable (e.ground l scope) c
      fun m => m.Sized l.bounds.univ.size e.arity := by
  have positive := l.bounds.univ.size_pos
  induction e generalizing c with
  | rel r => exact l.relation_confined r c
  | var v =>
    unfold ground
    cases found : scope.find? v with
    | none => exact Build.confined_throw (.inl (.inl rfl))
    | some m => exact Build.confined_pure (sized v m found)
  | const e => exact (Leaves.const_decides l e).tame.weaken fun _ => .inl
  | binary op left right leftIh rightIh =>
    obtain ⟨leftSorted, rightSorted, accepts⟩ := sorted
    rw [ground_binary]
    refine (leftIh leftSorted).bind fun first d _ one => ?_
    refine (rightIh rightSorted).bind fun second e _ two => ?_
    obtain ⟨j, leftArity⟩ := Nat.exists_eq_succ_of_ne_zero (arity_pos leftSorted).ne'
    obtain ⟨k, rightArity⟩ := Nat.exists_eq_succ_of_ne_zero (arity_pos rightSorted).ne'
    rw [arity]
    rw [leftArity] at one accepts ⊢
    rw [rightArity] at two accepts ⊢
    exact (matrix_decides positive one two accepts).tame.weaken fun _ => .inl
  | unary op body ih =>
    obtain ⟨bodySorted, isBinary⟩ := sorted
    rw [ground_unary]
    refine (ih bodySorted).bind fun m d _ fits => ?_
    rw [isBinary] at fits
    exact (matrix_yields positive fits).confined

theorem Scope.Reached.sized (reached : scope.Reached l) : scope.Sized l.bounds.univ.size := by
  induction reached with
  | empty => exact empty_sized
  | push _ sorted fitting grounded _ ih =>
    exact ih.choose ((Expr.ground_confined sorted ih).ok grounded).2 fitting _

/-- In the scopes that grounding comes to, whatever the circuit, the faults are those of the input and
missing variables. -/
theorem Leaves.reached_confines (l : Leaves) :
    l.Confines Error.InputOrVariable fun scope _ => scope.Reached l where
  input _ := .inl
  same_inputs reached _ := reached
  ground reached sorted := Expr.ground_confined sorted reached.sized
  push reached sorted fitting run chosen := .push reached sorted fitting run chosen

def Circuit.Serves (c : Circuit) (b : Bounds) : Prop :=
  c.inputs = b.unknownCount ∧ b.unknownCount < 2147483648

theorem Scope.Reached.ready {b : Bounds} (regular : b.Regular) (reached : scope.Reached (.ofBounds b))
    (serves : c.Serves b) : (Leaves.ofBounds b).Ready scope c := by
  obtain ⟨proper, small, -, -⟩ := Leaves.ofBounds_ready regular serves.2 true
  have count : (Numbering.ofBounds b).count = b.unknownCount := by
    refine (Numbering.ofBounds_numbers regular.formed (serves.2.trans ?_)).2
    simp [wordBound]
  exact ⟨proper, small, serves.1.trans count.symm, reached.sized⟩

/-- A computation that misses a variable at worst, and none over a circuit that serves, fails by
nothing else. -/
theorem Build.Confined.error_of_serves {α : Type} {action : Build α} {post : α → Prop} {b : Bounds}
    (confined : Build.Confined Error.InputOrVariable action c post)
    (tame : c.Serves b → Build.Tame action c post) {error : Error}
    (failed : action c = .error error) :
    error.IsInput ∨ (error = .misuse .noSuchVariable ∧ ¬ c.Serves b) := by
  by_cases serves : c.Serves b
  · exact .inl ((tame serves).error failed)
  · exact (confined.error failed).imp_right fun missing => ⟨missing, serves⟩

/-- Within bounds that were built, in every scope that grounding comes to, a well-sorted expression is
grounded to a relation over the universe and of its arity, and what operators divide by is not zero.
Grounding and encoding fail by a fault of the input, or because a variable is missing; none is missing
unless there are more unknown tuples than labels can number, or fewer inputs than these. Evaluation in
an instance fails by a fault of the input only. -/
theorem grounding_keeps_dimensions {b : Bounds} (built : b.Built) :
    (∀ scope : Scope, scope.Reached (.ofBounds b) → ∀ c : Circuit,
      (∀ e : Expr, e.WellSorted →
        (∀ m d, e.ground (.ofBounds b) scope c = .ok (m, d) →
          m.dims = ⟨b.univ.size, e.arity⟩ ∧ 0 < m.dims.size ∧ 0 < m.dims.capacity / m.dims.size) ∧
        (∀ error, e.ground (.ofBounds b) scope c = .error error →
          error.IsInput ∨ (error = .misuse .noSuchVariable ∧ ¬ c.Serves b))) ∧
      (∀ f : Formula, f.WellSorted → ∀ error, f.ground (.ofBounds b) scope c = .error error →
        error.IsInput ∨ (error = .misuse .noSuchVariable ∧ ¬ c.Serves b))) ∧
    (∀ f : Formula, f.WellSorted → ∀ sharing logged error, f.encode b sharing logged = .error error →
      error.IsInput ∨ (error = .misuse .noSuchVariable ∧ 2147483648 ≤ b.unknownCount)) ∧
    (∀ m : Instance, m.Built → ∀ sharing,
      (∀ f : Formula, f.WellSorted → ∀ error, f.evaluate m sharing = .error error → error.IsInput) ∧
      (∀ e : Expr, e.WellSorted → ∀ error, e.evaluate m sharing = .error error → error.IsInput)) := by
  have regular := built.regular
  let l := Leaves.ofBounds b
  refine ⟨fun scope reached c => ⟨fun e sorted => ⟨fun m d run => ?_, fun error failed => ?_⟩,
    fun f sorted error failed => ?_⟩, fun f sorted sharing logged error failed => ?_,
    fun m made sharing => ⟨fun f sorted error failed => ?_, fun e sorted error failed => ?_⟩⟩
  · obtain ⟨-, dims, -⟩ := (Expr.ground_confined sorted reached.sized).ok run
    obtain ⟨k, isArity⟩ := Nat.exists_eq_succ_of_ne_zero (Expr.arity_pos sorted).ne'
    have positive := b.univ.size_pos
    refine ⟨dims, ?_, ?_⟩ <;> rw [dims]
    · exact positive
    · rw [isArity]
      exact (Nat.mul_div_cancel _ positive).symm ▸ Nat.pow_pos positive
  · exact (Expr.ground_confined sorted reached.sized).error_of_serves
      (fun serves => (Expr.ground_decides (reached.ready regular serves) sorted).tame) failed
  · exact (Formula.ground_confined l.reached_confines f sorted scope c reached).error_of_serves
      (fun serves => Formula.ground_tame sorted (reached.ready regular serves)) failed
  · by_cases few : b.unknownCount < 2147483648
    · exact .inl (Formula.encode_error regular sorted few failed)
    · refine (Formula.encode_confined l.reached_confines .empty sorted failed).imp_right fun missing => ?_
      exact ⟨missing, Nat.not_lt.mp few⟩
  · have spec := Formula.evaluate_spec made.regular sorted sharing
    rwa [failed] at spec
  · have spec := Expr.evaluate_spec made.regular sorted sharing
    rwa [failed] at spec

theorem sample_keeps_dimensions : Sample.bounds.Built ∧
    ∃ m, (Expr.rel Sample.relation).ground (.ofBounds Sample.bounds) .empty (.empty 1 true) =
      .ok (m, .empty 1 true) ∧ m.dims = ⟨1, 1⟩ := by
  obtain ⟨dims, ran⟩ := (Sample.choice true).relation_run
  obtain ⟨inScopes, -, -⟩ := grounding_keeps_dimensions Sample.built
  obtain ⟨ofExprs, -⟩ := inScopes .empty .empty (.empty 1 true)
  obtain ⟨isDims, -, -⟩ := (ofExprs (.rel Sample.relation) trivial).1 _ _ ran
  exact ⟨Sample.built, _, ran, isDims⟩

/-- With more unknown tuples than labels can number, the number of inputs as a signed word is
negative, and not even the first variable is there. -/
theorem Circuit.input_missing (many : 2147483648 ≤ c.inputs) (below : c.inputs < 4294967296)
    (label : Int) : c.input label = .error (.misuse .noSuchVariable) := by
  have negative : signedWord c.inputs < 0 := by
    simp only [signedWord, wordBound, Int.bmod]
    omega
  rw [input, if_neg (by omega)]

/-- A leaf with a choice then fails. -/
theorem Leaves.relation_misses {b : Bounds} (regular : b.Regular)
    (many : 2147483648 ≤ b.unknownCount) (below : b.unknownCount < 4294967296) {r : Relation}
    {range : Range} (found : b.range? r = some range) (countable : Countable b.univ.size r.arity)
    {i : Nat} (unknown : i ∈ range.unknowns) (sharing : Bool) :
    (ofBounds b).relation r ((ofBounds b).circuit sharing) = .error (.misuse .noSuchVariable) := by
  obtain ⟨numbers, count⟩ := Numbering.ofBounds_numbers regular.formed below
  have missing : ∀ label, ((ofBounds b).circuit sharing).input label =
      .error (.misuse .noSuchVariable) :=
    Circuit.input_missing (many.trans count.ge) (count.trans_lt below)
  cases run : (ofBounds b).relation r ((ofBounds b).circuit sharing) with
  | ok result =>
    obtain ⟨m, d⟩ := result
    obtain ⟨-, -, cells, -, -, related, -⟩ := relation_eq_ok run
    obtain ⟨var, stands⟩ := (numbers.mem_unknowns found).mp unknown
    have listed := (mem_zipIdx (l := ofBounds b) ⟨regular, numbers⟩).mpr stands
    obtain ⟨cell, -, -, isInput⟩ := forall₂_left related listed
    cases (missing var).symm.trans isInput
  | error error =>
    rcases relation_eq_error run with ⟨absent, -⟩ | ⟨uncountable, -⟩ | rfl
    · cases found.symm.trans absent
    · exact absurd countable uncountable
    · rfl

/-- A formula about a relation alone is then not encoded, although nothing is wrong with it. -/
theorem Formula.encode_misses {b : Bounds} (regular : b.Regular)
    (many : 2147483648 ≤ b.unknownCount) (below : b.unknownCount < 4294967296) {r : Relation}
    {range : Range} (found : b.range? r = some range) (countable : Countable b.univ.size r.arity)
    {i : Nat} (unknown : i ∈ range.unknowns) (m : Multiplicity) (sharing logged : Bool) :
    (multiplicity m (.rel r)).encode b sharing logged = .error (.misuse .noSuchVariable) := by
  have leaf := Leaves.relation_misses regular many below found countable unknown sharing
  have covered : b.covers (multiplicity m (.rel r)) = .ok () := by
    refine Bounds.covers_eq_ok.mpr fun q member => ?_
    obtain rfl : q = r := by simpa [relationLeaves, Expr.relationLeaves] using member
    exact Bounds.contains_iff.mpr ⟨range, found⟩
  exact bind_eq_error.mpr (.inr ⟨(), covered, bind_eq_error.mpr (.inl (Build.bind_run_error.mpr (.inl
    (Build.bind_run_error.mpr (.inl (Build.bind_run_error.mpr (.inl leaf)))))))⟩)

def Bounds.free (u : Universe) (r : Relation) : Bounds :=
  ⟨u, ⟨[(r, ⟨.empty u r.arity, .all u r.arity⟩)]⟩, .empty⟩

section Free

variable {u : Universe} {r : Relation} {n : Nat}

theorem Bounds.free_built (u : Universe) (r : Relation) : (free u r).Built := by
  have contained : (TupleSet.empty u r.arity).Le (.all u r.arity) :=
    TupleSet.le_iff.mpr ⟨rfl, rfl, fun i absent => absurd absent (IndexSet.not_mem_empty i)⟩
  exact (Bounds.Built.empty u).insert r (.empty u r.arity) (.all u r.arity)
    ⟨rfl, rfl, rfl, rfl, contained⟩

theorem Bounds.range?_free (u : Universe) (r : Relation) :
    (free u r).range? r = some ⟨.empty u r.arity, .all u r.arity⟩ := by
  simp [free, range?, Table.find?]

theorem Bounds.unknownCount_free (capacity : u.capacity? r.arity = some n) :
    (free u r).unknownCount = n := by
  simp [free, unknownCount, TupleSet.size, IndexSet.size, TupleSet.all, TupleSet.empty,
    IndexSet.below, IndexSet.empty, capacity]

theorem Formula.encode_free (capacity : u.capacity? r.arity = some n) (many : 2147483648 ≤ n)
    (below : n < 4294967296) (m : Multiplicity) (sharing logged : Bool) :
    (multiplicity m (.rel r)).encode (Bounds.free u r) sharing logged =
      .error (.misuse .noSuchVariable) := by
  have count := Bounds.unknownCount_free capacity
  have unknown : 0 ∈ (Range.mk (.empty u r.arity) (.all u r.arity)).unknowns := by
    rw [Bounds.mem_unknowns]
    refine ⟨(IndexSet.mem_below _ 0).mpr ?_, IndexSet.not_mem_empty 0⟩
    rw [capacity, Option.getD_some]
    omega
  exact encode_misses (Bounds.free_built u r).regular (count.symm ▸ many) (count.symm ▸ below)
    (Bounds.range?_free u r) (Option.isSome_iff_exists.mpr ⟨n, capacity⟩) unknown m sharing logged

end Free

/-! The smallest arity over two atoms with more tuples than labels can number. -/
namespace Crowd

def univ : Universe := ⟨0, ["x", "y"], by decide, by decide⟩

def relation : Relation := ⟨0, "r", 31, by decide⟩

def formula : Formula := .multiplicity .some (.rel relation)

theorem capacity : univ.capacity? relation.arity = some 2147483648 := by decide

end Crowd

/-- Bounds with so many unknown tuples can be built, and a formula about them is not encoded although
nothing is wrong with it. -/
theorem crowd_misses_variable :
    (Bounds.free Crowd.univ Crowd.relation).Built ∧ Crowd.formula.WellSorted ∧
      Crowd.formula.encode (Bounds.free Crowd.univ Crowd.relation) true false =
        .error (.misuse .noSuchVariable) :=
  ⟨Bounds.free_built _ _, trivial,
    Formula.encode_free Crowd.capacity (by decide) (by decide) .some true false⟩

end ModelFinder
