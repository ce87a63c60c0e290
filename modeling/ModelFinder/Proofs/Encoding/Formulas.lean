import ModelFinder.Encoding.Basic
import ModelFinder.Proofs.Encoding.Quantifiers
import ModelFinder.Proofs.Logic.Conjuncts

/-! A formula is true as its value is: under every valuation, in the interpretations that agree with
it, whatever gates were shared or folded on the way. -/
namespace ModelFinder

def Comparison.value (l r : Matrix) : Comparison → Build Value
  | equals => l.equals r
  | subset => l.subset r

namespace Formula

theorem ground_compare (leaves : Leaves) (scope : Scope) (op : Comparison) (left right : Expr) :
    (compare op left right).ground leaves scope =
      if left.arity = right.arity then do
        let l ← left.ground leaves scope
        let r ← right.ground leaves scope
        op.value l r
      else throw (.arityMismatch (compare op left right).render) := by
  unfold ground
  by_cases same : left.arity = right.arity
  · rw [if_pos same, if_neg (not_not_intro same)]
    cases op <;> rfl
  · rw [if_neg same, if_pos same]
    rfl

mutual

theorem grows_ground (leaves : Leaves) : (f : Formula) → (scope : Scope) →
    Build.Grows (f.ground leaves scope)
  | .const _, _ => by simp [ground]
  | .binary op left right, scope => by
      refine Build.grows_bind (grows_ground leaves left scope) fun l => ?_
      refine Build.grows_bind (grows_ground leaves right scope) fun r => ?_
      cases op <;> simp
  | .nary op parts, scope => by
      refine Build.grows_bind (grows_groundAll leaves parts scope) fun values => ?_
      cases op <;> simp
  | .not body, scope => Build.grows_bind (grows_ground leaves body scope) fun _ => by simp
  | .compare op left right, scope => by
      rw [ground_compare]
      split
      · refine Build.grows_bind (Expr.grows_ground leaves scope left) fun l => ?_
        refine Build.grows_bind (Expr.grows_ground leaves scope right) fun r => ?_
        cases op <;> simp [Comparison.value]
      · simp
  | .multiplicity m body, scope => by
      refine Build.grows_bind (Expr.grows_ground leaves scope body) fun matrix => ?_
      cases m <;> simp
  | .quantified q decls body, scope => by
      refine Build.grows_bind (by simp) fun _ => ?_
      refine Build.grows_bind (grows_unfoldDecls (grows_ground leaves body) scope _ _) fun _ => ?_
      simp

theorem grows_groundAll (leaves : Leaves) : (fs : List Formula) → (scope : Scope) →
    Build.Grows (groundAll leaves fs scope)
  | [], _ => by simp [groundAll]
  | f :: fs, scope => by
      refine Build.grows_bind (grows_ground leaves f scope) fun value => ?_
      exact Build.grows_bind (grows_groundAll leaves fs scope) fun _ => by simp

end

variable {leaves : Leaves} {s : Nat → Bool} {i : Interpretation}

mutual

theorem ground_ensures (proper : leaves.Proper) (agrees : leaves.Agrees s i) : (f : Formula) →
    f.WellSorted → ∀ (c : Circuit) (scope : Scope) (ρ : Assignment), c.Sound →
      scope.Agrees i.size c s ρ →
        Build.Ensures (f.ground leaves scope) c fun v d => v.Means d s (f.holds i ρ)
  | .const b, _ => by
      intro c scope ρ sound _
      exact Build.ensures_pure sound (Value.means_const b)
  | .binary op left right, sorted => by
      intro c scope ρ sound inScope
      refine Build.Ensures.bind (ground_ensures proper agrees left sorted.1 c scope ρ sound inScope)
        (grows_ground leaves left scope) (fun l => Build.grows_bind
          (grows_ground leaves right scope) fun r => by cases op <;> simp) ?_
      intro l d grown reached one
      refine Build.Ensures.bind (ground_ensures proper agrees right sorted.2 d scope ρ reached
        (inScope.of_le grown)) (grows_ground leaves right scope) (fun r => by cases op <;> simp) ?_
      intro r e further final two
      cases op with
      | and => exact Circuit.and_ensures final (one.of_le further) two
      | or => exact Circuit.or_ensures final (one.of_le further) two
      | implies => exact Circuit.implies_ensures final (one.of_le further) two
      | iff => exact Circuit.iff_ensures final (one.of_le further) two
  | .nary op parts, sorted => by
      intro c scope ρ sound inScope
      refine Build.Ensures.bind (groundAll_ensures proper agrees parts sorted c scope ρ sound
        inScope) (grows_groundAll leaves parts scope) (fun values => by cases op <;> simp) ?_
      intro values d _ reached meant
      have inside : ∀ v ∈ values, v.In d := fun v member => (forall₂_right meant member).choose_spec.2.1
      have all : Build.Ensures (liftM (Circuit.all values)) d fun v e =>
          v.Means e s (allHold i parts ρ) := by
        refine (Circuit.all_ensures s reached inside).imp fun v e _ every => every.congr ?_
        rw [allHold_iff]
        exact Value.forall_means meant
      have any : Build.Ensures (liftM (Circuit.any values)) d fun v e =>
          v.Means e s (someHold i parts ρ) := by
        refine (Circuit.any_ensures s reached inside).imp fun v e _ one => one.congr ?_
        rw [someHold_iff]
        exact Value.exists_means meant
      -- Of many formulas, a connective other than `or` makes a conjunction.
      cases op with
      | or => exact any
      | and | iff | implies => exact all
  | .not body, sorted => by
      intro c scope ρ sound inScope
      refine Build.Ensures.bind (ground_ensures proper agrees body sorted c scope ρ sound inScope)
        (grows_ground leaves body scope) (fun v => by simp) ?_
      intro v d _ reached meant
      exact Build.ensures_pure reached (Value.not_means reached.labelled meant)
  | .compare op left right, sorted => by
      intro c scope ρ sound inScope
      rw [ground_compare]
      split
      case isFalse => exact Build.ensures_throw
      case isTrue same =>
        have grows : ∀ l r : Matrix, Build.Grows (op.value l r) := fun l r => by
          cases op <;> simp [Comparison.value]
        refine Build.Ensures.bind (Expr.ground_ensures proper agrees sorted.1 sound inScope)
          (Expr.grows_ground leaves scope left) (fun l => Build.grows_bind
            (Expr.grows_ground leaves scope right) fun r => grows l r) ?_
        intro l d grown reached one
        refine Build.Ensures.bind (Expr.ground_ensures proper agrees sorted.2 reached
          (inScope.of_le grown)) (Expr.grows_ground leaves scope right) (grows l) ?_
        intro r e further final two
        rw [← same] at two
        cases op with
        | equals => exact Matrix.equals_ensures agrees.size_pos final (one.of_le further) two
        | subset => exact Matrix.subset_ensures agrees.size_pos final (one.of_le further) two
  | .multiplicity m body, sorted => by
      intro c scope ρ sound inScope
      refine Build.Ensures.bind (Expr.ground_ensures proper agrees sorted sound inScope)
        (Expr.grows_ground leaves scope body) (fun matrix => by cases m <;> simp) ?_
      intro matrix d _ reached meant
      cases m with
      | some => exact Matrix.some_ensures agrees.size_pos reached meant
      | no => exact Matrix.no_ensures agrees.size_pos reached meant
      | one => exact Matrix.one_ensures agrees.size_pos reached meant
      | lone => exact Matrix.lone_ensures agrees.size_pos reached meant
      | set =>
        refine Build.ensures_pure reached ((Value.means_const true).congr ?_)
        simp [holds, Multiplicity.holds]
  | .quantified q decls body, sorted => by
      intro c scope ρ sound inScope
      have grows : ∀ scope, Build.Grows (body.ground leaves scope) := grows_ground leaves body
      refine Build.Ensures.bind (Build.ensures_lift (fun (_ : Unit) _ =>
        ∀ d ∈ decls, d.var.arity = d.domain.arity) sound fun _ ok => Decl.checkAll_eq_ok ok)
        (by simp) (fun _ => Build.grows_bind (grows_unfoldDecls grows scope _ _)
          fun _ => by simp) ?_
      intro _ d grown reached fitting
      refine Build.Ensures.bind (unfoldDecls_ensures proper agrees sorted.1 fitting grows
        (ground_ensures proper agrees body sorted.2) reached (inScope.of_le grown)
        (Value.means_const true) (by simp)) (grows_unfoldDecls grows scope _ _)
        (fun _ => by simp) ?_
      rintro ⟨values, done⟩ e _ final gathered
      refine (Quantifier.collect_ensures final gathered.inside).imp fun v f _ meant =>
        meant.congr ?_
      rw [gathered.gathers]
      cases q <;> simp [Quantifier.also, Quantifier.gathers, Quantifier.under, holds]

theorem groundAll_ensures (proper : leaves.Proper) (agrees : leaves.Agrees s i) :
    (fs : List Formula) → WellSortedAll fs → ∀ (c : Circuit) (scope : Scope) (ρ : Assignment),
      c.Sound → scope.Agrees i.size c s ρ →
        Build.Ensures (groundAll leaves fs scope) c fun values d =>
          List.Forall₂ (fun f v => v.Means d s (f.holds i ρ)) fs values
  | [], _ => by
      intro c scope ρ sound _
      exact Build.ensures_pure sound .nil
  | f :: fs, sorted => by
      intro c scope ρ sound inScope
      refine Build.Ensures.bind (ground_ensures proper agrees f sorted.1 c scope ρ sound inScope)
        (grows_ground leaves f scope) (fun v => Build.grows_bind
          (grows_groundAll leaves fs scope) fun _ => by simp) ?_
      intro v d grown reached here
      refine Build.Ensures.bind (groundAll_ensures proper agrees fs sorted.2 d scope ρ reached
        (inScope.of_le grown)) (grows_groundAll leaves fs scope) (fun _ => by simp) ?_
      intro values e further final there
      exact Build.ensures_pure final (.cons (here.of_le further) there)

end

end Formula

end ModelFinder
