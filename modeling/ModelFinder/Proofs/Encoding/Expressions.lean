import ModelFinder.Encoding.Grounding
import ModelFinder.Proofs.Encoding.Leaves

/-! Expressions denote as they are grounded: the symbolic relation of an expression has, under every
valuation, the tuples of the expression in the interpretations that agree with the valuation. -/
namespace ModelFinder

def Scope.Agrees (scope : Scope) (n : Nat) (c : Circuit) (s : Nat → Bool) (ρ : Assignment) : Prop :=
  ∀ v m, scope.find? v = some m → m.Denotes n v.arity c s (ρ v)

namespace Scope

variable {scope : Scope} {n : Nat} {c d : Circuit} {s : Nat → Bool} {ρ : Assignment}

theorem agrees_empty : Scope.empty.Agrees n c s ρ := by
  intro v m found
  cases found

theorem Agrees.of_le (agrees : scope.Agrees n c s ρ) (grown : c ≤ d) : scope.Agrees n d s ρ :=
  fun v m found => (agrees v m found).of_le grown

theorem find?_push (scope : Scope) (v w : Variable) (m : Matrix) :
    (scope.push v m).find? w = if w = v then some m else scope.find? w := by
  by_cases same : w = v
  · simp [find?, push, same]
  · simp [find?, push, List.lookup_cons, beq_false_of_ne same, same]

/-- What holds of all symbolic relations in scope and the tuples of their variables, and of one more,
holds in the larger scope. -/
theorem forall_push {p : Variable → Matrix → (List Nat → Prop) → Prop} {v : Variable} {m : Matrix}
    {t : List Nat} (known : ∀ w r, scope.find? w = some r → p w r (ρ w)) (pushed : p v m (· = t)) :
    ∀ w r, (scope.push v m).find? w = some r → p w r (ρ.bind v t w) := by
  intro w r found
  have tuples : ρ.bind v t w = if w = v then (· = t) else ρ w := by
    funext u
    unfold Assignment.bind
    split <;> rfl
  rw [find?_push] at found
  rw [tuples]
  split at found
  · rename_i same
    obtain rfl := Option.some.inj found
    subst same
    rwa [if_pos rfl]
  · rename_i other
    rw [if_neg other]
    exact known w r found

theorem Agrees.push (agrees : scope.Agrees n c s ρ) {v : Variable} {m : Matrix} {t : List Nat}
    (meant : m.Denotes n v.arity c s (· = t)) :
    (scope.push v m).Agrees n c s (ρ.bind v t) :=
  forall_push (p := fun w r tuples => r.Denotes n w.arity c s tuples) agrees meant

end Scope

namespace Expr

variable {leaves : Leaves} {scope : Scope} {c : Circuit} {s : Nat → Bool} {i : Interpretation}
  {ρ : Assignment}

theorem arity_pos {e : Expr} (sorted : e.WellSorted) : 0 < e.arity := by
  induction e with
  | rel r => exact r.arity_pos
  | var v => exact v.arity_pos
  | const c => cases c <;> decide
  | binary op left right leftIh rightIh =>
    obtain ⟨leftSorted, rightSorted, accepts⟩ := sorted
    have leftPos := leftIh leftSorted
    have rightPos := rightIh rightSorted
    cases op <;> simp only [BinaryOp.accepts, decide_eq_true_eq] at accepts <;>
      simp only [arity, BinaryOp.arity] <;> omega
  | unary op body ih => exact Nat.zero_lt_two

theorem grows_ground (leaves : Leaves) (scope : Scope) (e : Expr) :
    Build.Grows (e.ground leaves scope) := by
  induction e with
  | rel r => exact Leaves.grows_relation leaves r
  | var v =>
    unfold ground
    split <;> simp
  | const c => simp [ground]
  | binary op left right leftIh rightIh =>
    refine Build.grows_bind leftIh fun l => Build.grows_bind rightIh fun r => ?_
    cases op <;> simp
  | unary op body ih =>
    refine Build.grows_bind ih fun m => ?_
    cases op <;> simp

theorem ground_ensures (proper : leaves.Proper) (agrees : leaves.Agrees s i) {e : Expr}
    (sorted : e.WellSorted) (sound : c.Sound) (inScope : scope.Agrees i.size c s ρ) :
    Build.Ensures (e.ground leaves scope) c fun m d =>
      m.Denotes i.size e.arity d s (e.denote i ρ) := by
  have positive := agrees.size_pos
  induction e generalizing c with
  | rel r => exact Leaves.relation_ensures proper agrees sound r
  | var v =>
    unfold ground
    cases found : scope.find? v with
    | none => exact Build.ensures_throw
    | some m => exact Build.ensures_pure sound (inScope v m found)
  | const e =>
    refine Build.ensures_lift (fun (m : Matrix) d => m.Denotes i.size e.arity d s (e.denote i.size)) sound ?_
    exact fun m ok => Leaves.const_denotes agrees ok
  | binary op left right leftIh rightIh =>
    obtain ⟨leftSorted, rightSorted, accepts⟩ := sorted
    refine Build.Ensures.bind (leftIh leftSorted sound inScope) (grows_ground leaves scope left)
      (fun l => Build.grows_bind (grows_ground leaves scope right) fun r => by cases op <;> simp) ?_
    intro l d grown reached one
    refine Build.Ensures.bind (rightIh rightSorted reached (inScope.of_le grown))
      (grows_ground leaves scope right) (fun r => by cases op <;> simp) ?_
    intro r e further final two
    have one := one.of_le further
    obtain ⟨j, leftArity⟩ := Nat.exists_eq_succ_of_ne_zero (arity_pos leftSorted).ne'
    obtain ⟨k, rightArity⟩ := Nat.exists_eq_succ_of_ne_zero (arity_pos rightSorted).ne'
    simp only [arity, denote]
    rw [leftArity] at one accepts ⊢
    rw [rightArity] at two accepts ⊢
    cases op with
    | join =>
      rw [show BinaryOp.join.arity (j + 1) (k + 1) = j + k by simp only [BinaryOp.arity]; omega]
      exact Matrix.join_ensures positive final one two
    | product => exact Matrix.product_ensures final one two
    | union =>
      obtain rfl : j = k := by simpa [BinaryOp.accepts] using accepts
      exact Matrix.union_ensures final one two
    | difference =>
      obtain rfl : j = k := by simpa [BinaryOp.accepts] using accepts
      exact Matrix.difference_ensures final one two
    | intersection =>
      obtain rfl : j = k := by simpa [BinaryOp.accepts] using accepts
      exact Matrix.intersection_ensures final one two
    | override =>
      obtain rfl : j = k := by simpa [BinaryOp.accepts] using accepts
      exact Matrix.override_ensures positive final one two
  | unary op body ih =>
    obtain ⟨bodySorted, isBinary⟩ := sorted
    refine Build.Ensures.bind (ih bodySorted sound inScope) (grows_ground leaves scope body)
      (fun m => by cases op <;> simp) ?_
    intro m d _ reached meant
    rw [isBinary] at meant
    cases op with
    | transpose =>
      refine Build.ensures_lift (fun (r : Matrix) d => r.Denotes i.size 2 d s
        (UnaryOp.denote (body.denote i ρ) i.size .transpose)) reached ?_
      exact fun turned ok => Matrix.transpose_denotes positive meant ok
    | closure => exact Matrix.closure_ensures positive reached meant
    | reflexiveClosure => exact Matrix.reflexiveClosure_ensures positive reached meant

end Expr

end ModelFinder
