import ModelFinder.Encoding.Evaluate
import ModelFinder.Proofs.Circuit.Constants
import ModelFinder.Proofs.Encoding.Progress

/-! Without a choice everything is constant. Over bounds that leave no choice the leaves are constant,
so grounding adds no gate and its results are constant; and what a quantifier was not stopped by does
not decide it. -/
namespace ModelFinder

def Bounds.Exact (b : Bounds) : Prop :=
  ∀ r range, b.range? r = some range → range.lower = range.upper

theorem Bounds.Exact.unknownCount {b : Bounds} (exact : b.Exact) (formed : b.WellFormed) :
    b.unknownCount = 0 := by
  unfold Bounds.unknownCount
  have none : ∀ entry ∈ b.relations.entries, entry.2.upper.size - entry.2.lower.size = 0 := by
    rintro ⟨r, range⟩ member
    rw [exact r range ((Bounds.mem_entries formed).mp member), Nat.sub_self]
  generalize b.relations.entries = entries at none
  induction entries with
  | nil => rfl
  | cons entry entries ih =>
    rw [List.map_cons, List.foldr_cons, ih fun other member => none other (.tail _ member)]
    exact none entry List.mem_cons_self

def Scope.Constant (scope : Scope) : Prop := ∀ v m, scope.find? v = some m → m.Constant

namespace Scope

variable {scope : Scope}

theorem empty_constant : Scope.empty.Constant := by
  intro v m found
  cases found

theorem Constant.push (constant : scope.Constant) {v : Variable} {m : Matrix}
    (isConstant : m.Constant) : (scope.push v m).Constant := by
  intro w r found
  rw [find?_push] at found
  split at found
  · exact Option.some.inj found ▸ isConstant
  · exact constant w r found

end Scope

structure Leaves.Exact (l : Leaves) : Prop where
  proper : l.Proper
  count : l.numbering.count = 0

namespace Leaves

variable {l : Leaves}

theorem ofBounds_exact {b : Bounds} (regular : b.Regular) (exact : b.Exact) :
    (Leaves.ofBounds b).Exact := by
  have none := exact.unknownCount regular.formed
  obtain ⟨numbers, count⟩ := Numbering.ofBounds_numbers regular.formed
    (by rw [none, wordBound]; omega)
  exact ⟨⟨regular, numbers⟩, count.trans none⟩

theorem Exact.relation_folds (exact : l.Exact) (r : Relation) :
    Build.Folds (l.relation r) Matrix.Constant := by
  intro c m d run
  obtain ⟨same, range, unknown, -, -, listed, rfl⟩ := relation_eq_ok run
  refine ⟨same, Matrix.ofCells_constant (List.forall_mem_append.mpr ⟨?_, ?_⟩)⟩
  · intro cell member
    obtain ⟨i, -, rfl⟩ := List.mem_map.mp member
    exact ⟨true, rfl⟩
  · intro cell member
    obtain ⟨⟨index, var⟩, isUnknown, -⟩ := forall₂_right listed member
    have bounds := ((mem_zipIdx exact.proper).mp isUnknown).bounds exact.proper.numbers
    rw [exact.count] at bounds
    omega

theorem const_folds (l : Leaves) (e : ConstExpr) :
    Build.Folds (liftM (l.const e)) Matrix.Constant := by
  refine Build.folds_lift fun m made => ?_
  cases e with
  | iden => exact Matrix.identity_constant made
  | univ =>
    obtain ⟨dims, -, made⟩ := bind_eq_ok.mp made
    rw [← pure_eq_ok.mp made]
    exact Matrix.ofIndices_constant dims _
  | none =>
    obtain ⟨dims, -, made⟩ := bind_eq_ok.mp made
    rw [← pure_eq_ok.mp made]
    exact Matrix.empty_constant dims

end Leaves

theorem Expr.ground_folds {l : Leaves} (exact : l.Exact) {scope : Scope} (constant : scope.Constant)
    (e : Expr) : Build.Folds (e.ground l scope) Matrix.Constant := by
  induction e with
  | rel r => exact exact.relation_folds r
  | var v =>
    unfold ground
    cases found : scope.find? v with
    | none => exact Build.folds_throw
    | some m => exact Build.folds_pure (constant v m found)
  | const e => exact l.const_folds e
  | binary op left right leftIh rightIh =>
    rw [ground_binary]
    refine leftIh.bind fun first one => rightIh.bind fun second two => ?_
    cases op with
    | union => exact Matrix.union_folds one two
    | intersection => exact Matrix.intersection_folds one two
    | difference => exact Matrix.difference_folds one two
    | override => exact Matrix.override_folds one two
    | join => exact Matrix.join_folds one two
    | product => exact Matrix.product_folds one two
  | unary op body ih =>
    rw [ground_unary]
    refine ih.bind fun m isConstant => ?_
    cases op with
    | transpose => exact Matrix.transpose_folds isConstant
    | closure => exact Matrix.closure_folds isConstant
    | reflexiveClosure => exact Matrix.reflexiveClosure_folds isConstant

namespace Quantifier

/-- All contributions are constant, and unless they were stopped by one none is decisive. -/
structure Settled (q : Quantifier) (after : Array Value × Bool) : Prop where
  constant : ∀ v ∈ after.1.toList, v.Constant
  quiet : after.2 = false → q.decisive ∉ after.1.toList

variable {q : Quantifier}

theorem start_settled : q.Settled (#[], false) := ⟨by simp, by simp⟩

theorem guarded_folds {guard value : Value} (one : guard.Constant) (two : value.Constant) :
    Build.Folds (liftM (q.guarded guard value)) Value.Constant := by
  cases q with
  | all => exact Circuit.implies_folds one two
  | some => exact Circuit.and_folds one two

theorem collect_folds {values : List Value} (constant : ∀ v ∈ values, v.Constant) :
    Build.Folds (liftM (q.collect values)) Value.Constant := by
  cases q with
  | all => exact Circuit.all_folds constant
  | some => exact Circuit.any_folds constant

/-- Constants of which none is decisive leave the quantifier undecided. -/
theorem Settled.undecided {after : Array Value × Bool} (settled : q.Settled after)
    (notStopped : after.2 = false) {c d : Circuit} {s : Nat → Bool} {p : Prop} {before : Array Value}
    (gathered : q.Gathered c d s p before after) : ¬ q.Decided p := by
  have quiet := settled.quiet notStopped
  have gathers := gathered.gathers
  cases q with
  | all =>
    have all : ∀ v ∈ after.1.toList, v.eval d s = true := by
      intro v member
      obtain ⟨b, rfl⟩ := settled.constant v member
      cases b with
      | true => rfl
      | false => exact absurd member quiet
    exact not_not_intro (gathers.mp all).2
  | some =>
    intro decided
    obtain ⟨v, member, isTrue⟩ := gathers.mpr (.inr decided)
    obtain ⟨b, rfl⟩ := settled.constant v member
    cases b with
    | true => exact quiet member
    | false => cases isTrue

end Quantifier

theorem visitUntil_folds {α β : Type} {step : α → β → Build (β × Bool)} {items : List α} {acc : β}
    {invariant : β × Bool → Prop} (start : invariant (acc, false))
    (each : ∀ a ∈ items, ∀ acc, invariant (acc, false) → Build.Folds (step a acc) invariant) :
    Build.Folds (visitUntil step items acc) invariant := by
  induction items generalizing acc with
  | nil => exact Build.folds_pure start
  | cons item items ih =>
    refine (each item List.mem_cons_self acc start).bind fun result holds => ?_
    obtain ⟨next, done⟩ := result
    cases done with
    | true => exact Build.folds_pure holds
    | false => exact ih holds fun a member => each a (List.mem_cons_of_mem item member)

theorem unfoldDecls_folds {l : Leaves} (exact : l.Exact) {q : Quantifier}
    {body : Scope → Build Value}
    (bodyFolds : ∀ scope : Scope, scope.Constant → Build.Folds (body scope) Value.Constant)
    {decls : List Decl} {scope : Scope} (constant : scope.Constant) {guard : Value}
    (isGuard : guard.Constant) {acc : Array Value} (settled : q.Settled (acc, false)) :
    Build.Folds (unfoldDecls l q body decls scope guard acc) q.Settled := by
  induction decls generalizing scope guard acc with
  | nil =>
    refine (bodyFolds scope constant).bind fun value isValue => ?_
    refine (Quantifier.guarded_folds isGuard isValue).bind fun contribution isConstant => ?_
    refine Build.folds_pure ⟨?_, fun notStopped => ?_⟩
    · rw [Array.toList_push]
      exact List.forall_mem_append.mpr ⟨settled.constant, by simpa using isConstant⟩
    · have apart : q.decisive ≠ contribution := (of_decide_eq_false notStopped) ∘ Eq.symm
      simpa [apart] using settled.quiet rfl
  | cons decl rest ih =>
    refine (Expr.ground_folds exact constant decl.domain).bind fun domain isDomain => ?_
    refine visitUntil_folds settled fun cell stored acc settled => ?_
    refine (Circuit.and_folds isGuard (isDomain cell stored)).bind fun both isBoth => ?_
    exact ih (constant.push (Matrix.ofIndices_constant _ _)) isBoth settled

namespace Formula

mutual

theorem ground_folds {l : Leaves} (exact : l.Exact) : (f : Formula) → ∀ scope : Scope,
    scope.Constant → Build.Folds (f.ground l scope) Value.Constant
  | .const b, _, _ => by
      rw [ground]
      exact Build.folds_pure ⟨b, rfl⟩
  | .binary op left right, scope, constant => by
      rw [ground]
      refine (ground_folds exact left scope constant).bind fun a one => ?_
      refine (ground_folds exact right scope constant).bind fun b two => ?_
      cases op with
      | and => exact Circuit.and_folds one two
      | or => exact Circuit.or_folds one two
      | implies => exact Circuit.implies_folds one two
      | iff => exact Circuit.iff_folds one two
  | .nary op parts, scope, constant => by
      rw [ground]
      refine (groundAll_folds exact parts scope constant).bind fun values each => ?_
      cases op with
      | or => exact Circuit.any_folds each
      | and | iff | implies => exact Circuit.all_folds each
  | .not body, scope, constant => by
      rw [ground]
      exact (ground_folds exact body scope constant).bind fun v isConstant =>
        Build.folds_pure isConstant.not
  | .compare op left right, scope, constant => by
      rw [ground_compare]
      split
      case isFalse => exact Build.folds_throw
      case isTrue =>
        refine (Expr.ground_folds exact constant left).bind fun a one => ?_
        refine (Expr.ground_folds exact constant right).bind fun b two => ?_
        cases op with
        | equals => exact Matrix.equals_folds one two
        | subset => exact Matrix.subset_folds one two
  | .multiplicity m body, scope, constant => by
      rw [ground]
      refine (Expr.ground_folds exact constant body).bind fun matrix isConstant => ?_
      cases m with
      | some => exact Matrix.some_folds isConstant
      | no => exact Matrix.no_folds isConstant
      | one => exact Matrix.one_folds isConstant
      | lone => exact Matrix.lone_folds isConstant
      | set => exact Build.folds_pure ⟨true, rfl⟩
  | .quantified q decls body, scope, constant => by
      rw [ground]
      refine (Matrix.checked_folds (Decl.checkAll decls)).bind fun _ _ => ?_
      refine (unfoldDecls_folds exact (ground_folds exact body) constant ⟨true, rfl⟩
        Quantifier.start_settled).bind fun result settled => ?_
      exact Quantifier.collect_folds settled.constant

theorem groundAll_folds {l : Leaves} (exact : l.Exact) : (fs : List Formula) → ∀ scope : Scope,
    scope.Constant → Build.Folds (groundAll l fs scope) fun values => ∀ v ∈ values, v.Constant
  | [], _, _ => by
      rw [groundAll]
      exact Build.folds_pure (by simp)
  | f :: fs, scope, constant => by
      rw [groundAll]
      refine (ground_folds exact f scope constant).bind fun v here => ?_
      refine (groundAll_folds exact fs scope constant).bind fun values there => ?_
      exact Build.folds_pure (List.forall_mem_cons.mpr ⟨here, there⟩)

end

/-- Over bounds that leave no choice a formula that is encoded folds. -/
theorem encode_exact {f : Formula} {b : Bounds} (regular : b.Regular) (exact : b.Exact)
    {sharing logged : Bool} {result : Encoded} (ok : f.encode b sharing logged = .ok result) :
    ∃ folded, result = .folded folded := by
  obtain ⟨values, root, circuit, run, log, -, made⟩ := encode_eq_ok ok
  have folds : Build.Folds (groundConjuncts (.ofBounds b) f.conjuncts) fun out => out.2.Constant :=
    (groundAll_folds (Leaves.ofBounds_exact regular exact) _ _ Scope.empty_constant).bind
      fun values each => (Circuit.all_folds each).bind fun root isRoot => Build.folds_pure isRoot
  obtain ⟨-, value, rfl⟩ := folds _ _ _ run
  exact ⟨_, made⟩

end Formula

end ModelFinder
