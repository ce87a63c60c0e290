import ModelFinder.Proofs.Circuit.Stored
import ModelFinder.Proofs.Encoding.Expressions

/-! Which tuples an expression may have. Where every relation has all tuples that it may have, and what
may be taken away stays, an expression has every tuple that its symbolic relation has a cell for. So
these are the choices that grounding goes through where the expression is the domain of a variable. -/
namespace ModelFinder

def Bounds.widest (b : Bounds) : Interpretation where
  size := b.univ.size
  tuples r t := ∃ range, b.range? r = some range ∧
    ∃ index ∈ range.upper.indices, decodeIndex b.univ.size r.arity index = t

/-- The tuples that an expression may have, where relations and variables may have the given ones. -/
def Expr.possible (i : Interpretation) (ρ : Assignment) : Expr → List Nat → Prop
  | .rel r => i.tuples r
  | .var v => ρ v
  | .const c => c.denote i.size
  | .binary op left right => op.possible (left.possible i ρ) (right.possible i ρ)
  | .unary op body => op.denote (body.possible i ρ) i.size

def Scope.Spans (scope : Scope) (n : Nat) (ρ : Assignment) : Prop :=
  ∀ v m, scope.find? v = some m → m.Spans n v.arity (ρ v)

theorem Scope.Spans.push {scope : Scope} {n : Nat} {ρ : Assignment} (spans : scope.Spans n ρ)
    {v : Variable} {m : Matrix} {t : List Nat} (meant : m.Spans n v.arity (· = t)) :
    (scope.push v m).Spans n (ρ.bind v t) :=
  forall_push (p := fun w r tuples => r.Spans n w.arity tuples) spans meant

variable {l : Leaves}

theorem Leaves.relation_spans (proper : l.Proper) (r : Relation) :
    Build.Returns (l.relation r)
      (Matrix.Spans · l.bounds.univ.size r.arity (l.bounds.widest.tuples r)) := by
  intro c m d run
  obtain ⟨-, range, unknown, found, -, listed, rfl⟩ := relation_eq_ok run
  obtain ⟨-, -, -, -, contained⟩ := proper.regular.formed.ranges r range found
  refine Matrix.ofCells_spans fun cell member => ?_
  have upper : cell.1 ∈ range.upper.indices := by
    rcases List.mem_append.mp member with isKnown | isUnknown
    · obtain ⟨index, isLower, rfl⟩ := List.mem_map.mp isKnown
      exact (TupleSet.le_iff.mp contained).2.2 index ((IndexSet.mem_def _ index).mpr isLower)
    · obtain ⟨⟨index, var⟩, isItem, same, -⟩ := forall₂_right listed isUnknown
      have stands := (mem_zipIdx proper).mp isItem
      rw [same]
      exact (Bounds.mem_unknowns.mp ((proper.numbers.mem_unknowns found).mpr ⟨var, stands⟩)).1
  exact ⟨proper.regular.upper_lt found upper, range, found, cell.1, upper, rfl⟩

theorem Leaves.const_spans (e : ConstExpr) :
    Build.Returns (liftM (l.const e))
      (Matrix.Spans · l.bounds.univ.size e.arity (e.denote l.bounds.univ.size)) := by
  cases e with
  | univ =>
    refine Build.returns_lift fun m made => ?_
    obtain ⟨dims, granted, rfl⟩ := map_eq_ok.mp made
    obtain rfl := Matrix.dims_make granted
    refine Matrix.ofIndices_spans fun i member => ?_
    have inside : i < l.bounds.univ.size := List.mem_range.mp member
    exact ⟨by simpa using inside, i, inside, by simp [decodeIndex, Nat.mod_eq_of_lt inside]⟩
  | none =>
    refine Build.returns_lift fun m made => ?_
    obtain ⟨dims, granted, rfl⟩ := map_eq_ok.mp made
    obtain rfl := Matrix.dims_make granted
    exact ⟨rfl, fun cell stored => by cases stored⟩
  | iden => exact Matrix.identity_spans

theorem Expr.ground_spans (proper : l.Proper) {scope : Scope} {ρ : Assignment}
    (inScope : scope.Spans l.bounds.univ.size ρ) {e : Expr} (sorted : e.WellSorted) :
    Build.Returns (e.ground l scope)
      (Matrix.Spans · l.bounds.univ.size e.arity (e.possible l.bounds.widest ρ)) := by
  induction e with
  | rel r => exact Leaves.relation_spans proper r
  | var v =>
    unfold ground
    cases found : scope.find? v with
    | none => exact Build.returns_throw
    | some m => exact Build.returns_pure (inScope v m found)
  | const e => exact Leaves.const_spans e
  | binary op left right leftIh rightIh =>
    obtain ⟨leftSorted, rightSorted, accepts⟩ := sorted
    refine (leftIh leftSorted).bind fun a one => (rightIh rightSorted).bind fun b two => ?_
    obtain ⟨j, leftArity⟩ := Nat.exists_eq_succ_of_ne_zero (arity_pos leftSorted).ne'
    obtain ⟨k, rightArity⟩ := Nat.exists_eq_succ_of_ne_zero (arity_pos rightSorted).ne'
    simp only [arity, possible]
    rw [leftArity] at one accepts ⊢
    rw [rightArity] at two accepts ⊢
    cases op with
    | join =>
      rw [show BinaryOp.join.arity (j + 1) (k + 1) = j + k by simp only [BinaryOp.arity]; omega]
      exact Matrix.join_spans one two
    | product => exact Matrix.product_spans one two
    | union =>
      obtain rfl : j = k := by simpa [BinaryOp.accepts] using accepts
      exact Matrix.union_spans one two
    | difference => exact Matrix.difference_spans one
    | intersection =>
      obtain rfl : j = k := by simpa [BinaryOp.accepts] using accepts
      exact Matrix.intersection_spans one two
    | override =>
      obtain rfl : j = k := by simpa [BinaryOp.accepts] using accepts
      exact Matrix.override_spans one two
  | unary op body ih =>
    obtain ⟨bodySorted, isBinary⟩ := sorted
    refine (ih bodySorted).bind fun m spans => ?_
    rw [isBinary] at spans
    cases op with
    | transpose => exact Matrix.transpose_spans spans
    | closure => exact Matrix.closure_spans spans
    | reflexiveClosure => exact Matrix.reflexiveClosure_spans spans

end ModelFinder
