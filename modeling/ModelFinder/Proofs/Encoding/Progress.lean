import ModelFinder.Proofs.Circuit.Progress
import ModelFinder.Proofs.Encoding.Exact

/-! When grounding succeeds. Whether an expression can be grounded is decided by its leaves and by how
many tuples its parts have, not by the bounds of relations; a formula fails by a fault of the input
only. -/
namespace ModelFinder

structure Matrix.Sized (m : Matrix) (n k : Nat) : Prop where
  dims : m.dims = ⟨n, k⟩
  countable : Countable n k

def Scope.Sized (scope : Scope) (n : Nat) : Prop :=
  ∀ v m, scope.find? v = some m → m.Sized n v.arity

def Expr.Groundable (b : Bounds) (scope : Scope) : Expr → Prop
  | .rel r => b.contains r = true ∧ Countable b.univ.size r.arity
  | .var v => (scope.find? v).isSome = true
  | .const c => Countable b.univ.size c.arity
  | .binary op left right => left.Groundable b scope ∧ right.Groundable b scope ∧
      Countable b.univ.size (op.arity left.arity right.arity)
  | .unary _ body => body.Groundable b scope

def BinaryOp.matrix (l r : Matrix) : BinaryOp → Build Matrix
  | union => l.union r
  | intersection => l.intersection r
  | difference => l.difference r
  | override => l.override r
  | join => l.join r
  | product => l.product r

def UnaryOp.matrix (m : Matrix) : UnaryOp → Build Matrix
  | transpose => liftM m.transpose
  | closure => m.closure
  | reflexiveClosure => m.reflexiveClosure

namespace Scope

variable {scope : Scope} {n : Nat}

theorem empty_sized : Scope.empty.Sized n := by
  intro v m found
  cases found

theorem Sized.push (sized : scope.Sized n) {v : Variable} {m : Matrix} (fits : m.Sized n v.arity) :
    (scope.push v m).Sized n := by
  intro w r found
  rw [find?_push] at found
  split at found
  · rename_i same
    obtain rfl := Option.some.inj found
    exact same ▸ fits
  · exact sized w r found

end Scope

theorem Scope.Sized.choose {scope : Scope} {n : Nat} (sized : scope.Sized n) {v : Variable}
    {domain : Matrix} {k : Nat} (fits : domain.Sized n k) (fitting : v.arity = k) (index : Nat) :
    (scope.push v (.ofIndices domain.dims [index])).Sized n :=
  sized.push ⟨fitting ▸ fits.dims, fitting ▸ fits.countable⟩

/-- What grounding starts from: proper leaves whose variables are labels, a circuit with these
variables as its inputs, and sized relations in scope. -/
structure Leaves.Ready (l : Leaves) (scope : Scope) (c : Circuit) : Prop where
  proper : l.Proper
  small : l.numbering.count < 2147483648
  inputs : c.inputs = l.numbering.count
  sized : scope.Sized l.bounds.univ.size

namespace Leaves

variable {l : Leaves} {scope : Scope} {c d : Circuit}

theorem Ready.same_inputs (ready : l.Ready scope c) (same : d.inputs = c.inputs) :
    l.Ready scope d :=
  { ready with inputs := same.trans ready.inputs }

theorem relation_decides (ready : l.Ready scope c) (r : Relation) : Build.Decides (l.relation r) c
    (l.bounds.contains r = true ∧ Countable l.bounds.univ.size r.arity)
    fun m => m.Sized l.bounds.univ.size r.arity := by
  cases found : l.bounds.range? r with
  | none =>
    have absent : ¬ l.bounds.contains r = true := by
      rw [Bounds.contains_iff, found]
      rintro ⟨range, impossible⟩
      cases impossible
    unfold relation
    rw [found]
    exact (Build.decides_throw (.inl rfl)).congr (iff_of_false id fun both => absent both.1)
  | some range =>
    have bound := Bounds.contains_iff.mpr ⟨range, found⟩
    by_cases countable : Countable l.bounds.univ.size r.arity
    · obtain ⟨m, run, dims⟩ := relation_succeeds ready.proper found countable ready.inputs ready.small
      refine ⟨Build.confined_of (fun a d same => ?_) (fun error impossible => ?_),
        iff_of_true ⟨_, run⟩ ⟨bound, countable⟩⟩
      · obtain ⟨rfl, rfl⟩ := Prod.mk.inj (Except.ok.inj (run.symm.trans same))
        exact ⟨rfl, dims, countable⟩
      · cases run.symm.trans impossible
    · unfold relation
      rw [found]
      simp only [Dims.make_of_uncountable countable]
      refine Build.Decides.congr (p := False) ?_ (iff_of_false id fun both => countable both.2)
      exact Build.decides_throw (.inr (.inr (.inr rfl)))

theorem const_decides (l : Leaves) (e : ConstExpr) : Build.Decides (liftM (l.const e)) c
    (Countable l.bounds.univ.size e.arity) fun m => m.Sized l.bounds.univ.size e.arity := by
  let n := l.bounds.univ.size
  -- A constant is made from its dimensions.
  obtain ⟨make, made, keeps⟩ : ∃ make : Dims → Matrix,
      l.const e = (do return make (← Dims.make n e.arity)) ∧ ∀ dims, (make dims).dims = dims := by
    cases e with
    | univ => exact ⟨fun dims => .ofIndices dims (List.range n), rfl, fun _ => rfl⟩
    | none => exact ⟨.empty, rfl, fun _ => rfl⟩
    | iden =>
      exact ⟨fun dims => .ofIndices dims ((List.range n).map fun i => i * n + i), rfl, fun _ => rfl⟩
  rw [made]
  by_cases countable : Countable n e.arity
  · rw [Dims.make_of_countable countable]
    have yields : Build.Yields (pure (make ⟨n, e.arity⟩)) fun m => m.Sized n e.arity :=
      Build.yields_pure ⟨keeps _, countable⟩
    exact yields.decides.congr (iff_of_true trivial countable)
  · rw [Dims.make_of_uncountable countable]
    exact (Build.decides_throw (.inr (.inr (.inr rfl)))).congr (iff_of_false id countable)

end Leaves

namespace Expr

variable {l : Leaves} {scope : Scope} {c : Circuit}

theorem ground_binary (l : Leaves) (scope : Scope) (op : BinaryOp) (left right : Expr) :
    (binary op left right).ground l scope =
      left.ground l scope >>= fun first => right.ground l scope >>= op.matrix first := by
  rw [ground]
  cases op <;> rfl

theorem ground_unary (l : Leaves) (scope : Scope) (op : UnaryOp) (body : Expr) :
    (unary op body).ground l scope = body.ground l scope >>= op.matrix := by
  rw [ground]
  cases op <;> rfl

/-- On relations of fitting arities an operator fails only if the tuples of the result cannot be
counted. -/
theorem matrix_decides {op : BinaryOp} {a b : Matrix} {n j k : Nat} (positive : 0 < n)
    (left : a.Sized n (j + 1)) (right : b.Sized n (k + 1))
    (accepts : op.accepts (j + 1) (k + 1) = true) :
    Build.Decides (op.matrix a b) c (Countable n (op.arity (j + 1) (k + 1)))
      fun m => m.Sized n (op.arity (j + 1) (k + 1)) := by
  have counted {arity : Nat} (countable : Countable n arity) (m : Matrix)
      (dims : m.dims = ⟨n, arity⟩) : m.Sized n arity := ⟨dims, countable⟩
  -- An operator on relations of one arity always succeeds.
  have always {action : Build Matrix} (yields : Build.Yields action fun m => m.dims = a.dims) :
      Build.Decides action c (Countable n (j + 1)) fun m => m.Sized n (j + 1) :=
    (yields.imp fun m dims => ⟨dims.trans left.dims, left.countable⟩).decides.congr
      (iff_of_true trivial left.countable)
  cases op with
  | join => exact (Matrix.join_decides positive left.dims right.dims).imp counted
  | product => exact (Matrix.product_decides left.dims right.dims).imp counted
  | union =>
    obtain rfl : j = k := by simpa [BinaryOp.accepts] using accepts
    exact always (Matrix.union_yields (left.dims.trans right.dims.symm))
  | difference =>
    obtain rfl : j = k := by simpa [BinaryOp.accepts] using accepts
    exact always (Matrix.difference_yields (left.dims.trans right.dims.symm))
  | intersection =>
    obtain rfl : j = k := by simpa [BinaryOp.accepts] using accepts
    exact always (Matrix.intersection_yields (left.dims.trans right.dims.symm))
  | override =>
    obtain rfl : j = k := by simpa [BinaryOp.accepts] using accepts
    exact always (Matrix.override_yields positive left.dims right.dims)

theorem matrix_yields {op : UnaryOp} {m : Matrix} {n : Nat} (positive : 0 < n)
    (pairs : m.Sized n 2) : Build.Yields (op.matrix m) fun r => r.Sized n 2 := by
  have counted (r : Matrix) (dims : r.dims = ⟨n, 2⟩) : r.Sized n 2 := ⟨dims, pairs.countable⟩
  cases op with
  | transpose =>
    refine (Matrix.transpose_yields (congrArg Dims.arity pairs.dims)).imp fun r same => ?_
    exact counted r (same.trans pairs.dims)
  | closure => exact (Matrix.closure_yields positive pairs.countable pairs.dims).imp counted
  | reflexiveClosure =>
    exact (Matrix.reflexiveClosure_yields positive pairs.countable pairs.dims).imp counted

theorem ground_decides (ready : l.Ready scope c) {e : Expr} (sorted : e.WellSorted) :
    Build.Decides (e.ground l scope) c (e.Groundable l.bounds scope)
      fun m => m.Sized l.bounds.univ.size e.arity := by
  have positive := l.bounds.univ.size_pos
  induction e generalizing c with
  | rel r => exact Leaves.relation_decides ready r
  | var v =>
    unfold ground Groundable
    cases found : scope.find? v with
    | none => exact (Build.decides_throw (.inl rfl)).congr (iff_of_false id Bool.false_ne_true)
    | some m =>
      have yields : Build.Yields (pure m) fun r => r.Sized l.bounds.univ.size v.arity :=
        Build.yields_pure (ready.sized v m found)
      exact yields.decides.congr (iff_of_true trivial rfl)
  | const e => exact Leaves.const_decides l e
  | binary op left right leftIh rightIh =>
    obtain ⟨leftSorted, rightSorted, accepts⟩ := sorted
    rw [ground_binary]
    refine (leftIh ready leftSorted).bind fun first d inputs one => ?_
    refine (rightIh (ready.same_inputs inputs) rightSorted).bind fun second e _ two => ?_
    obtain ⟨j, leftArity⟩ := Nat.exists_eq_succ_of_ne_zero (arity_pos leftSorted).ne'
    obtain ⟨k, rightArity⟩ := Nat.exists_eq_succ_of_ne_zero (arity_pos rightSorted).ne'
    rw [arity]
    rw [leftArity] at one accepts ⊢
    rw [rightArity] at two accepts ⊢
    exact matrix_decides positive one two accepts
  | unary op body ih =>
    obtain ⟨bodySorted, isBinary⟩ := sorted
    rw [ground_unary]
    refine (Build.Decides.bind (ih ready bodySorted) fun m d _ sized => ?_).congr
      (and_iff_left trivial)
    rw [isBinary] at sized
    exact (matrix_yields positive sized).decides

end Expr

theorem Decl.checkAll_error {decls : List Decl} {error : Error}
    (failed : checkAll decls = .error error) : error.IsInput := by
  induction decls with
  | nil => cases failed
  | cons d rest ih =>
    unfold checkAll at failed
    split at failed
    · obtain rfl := Except.error.inj failed
      exact .inr (.inl rfl)
    · split at failed
      · obtain rfl := Except.error.inj failed
        exact .inr (.inr (.inl rfl))
      · exact ih failed

theorem Decl.checkAll_tame (decls : List Decl) (c : Circuit) :
    Build.Tame (liftM (checkAll decls)) c fun _ => ∀ d ∈ decls, d.var.arity = d.domain.arity := by
  refine Build.confined_of (fun a d run => ?_) fun error run => ?_
  · obtain ⟨ok, rfl⟩ := Build.lift_eq_ok.mp run
    exact ⟨rfl, checkAll_eq_ok ok⟩
  · exact checkAll_error (Build.lift_eq_error.mp run)

/-- Where the invariant holds, an expression is grounded to a relation of its arity or fails by one of
the faults, which include those of the input. Choosing a tuple of a domain keeps the invariant. -/
structure Leaves.Confines (l : Leaves) (faults : Error → Prop) (inv : Scope → Circuit → Prop) :
    Prop where
  input : ∀ error, error.IsInput → faults error
  same_inputs : ∀ {scope c d}, inv scope c → d.inputs = c.inputs → inv scope d
  ground : ∀ {scope c} {e : Expr}, inv scope c → e.WellSorted →
    Build.Confined faults (e.ground l scope) c fun m => m.Sized l.bounds.univ.size e.arity
  push : ∀ {scope c d} {decl : Decl} {domain : Matrix} {cell : Nat × Value}, inv scope c →
    decl.domain.WellSorted → decl.var.arity = decl.domain.arity →
    decl.domain.ground l scope c = .ok (domain, d) → cell ∈ domain.cells.entries →
    inv (scope.push decl.var (.ofIndices domain.dims [cell.1])) d

section Unfold

variable {l : Leaves} {faults : Error → Prop} {inv : Scope → Circuit → Prop} {scope : Scope}
  {c : Circuit}

theorem visitUntil_confined {α β : Type} {step : α → β → Build (β × Bool)} {items : List α} {acc : β}
    (each : ∀ a ∈ items, ∀ acc d, d.inputs = c.inputs →
      Build.Confined faults (step a acc) d fun _ => True) :
    Build.Confined faults (visitUntil step items acc) c fun _ => True := by
  induction items generalizing c acc with
  | nil => exact Build.confined_pure trivial
  | cons item items ih =>
    refine (each item List.mem_cons_self acc c rfl).bind fun result d inputs _ => ?_
    obtain ⟨acc, done⟩ := result
    cases done with
    | true => exact Build.confined_pure trivial
    | false =>
      apply ih
      intro a member acc e same
      exact each a (List.mem_cons_of_mem item member) acc e (same.trans inputs)

/-- Unfolding declarations is confined to the faults if grounding the body is. -/
theorem unfoldDecls_confined (confines : l.Confines faults inv) {q : Quantifier}
    {body : Scope → Build Value} {decls : List Decl} (sorted : ∀ d ∈ decls, d.domain.WellSorted)
    (fitting : ∀ d ∈ decls, d.var.arity = d.domain.arity)
    (bodyConfined : ∀ scope c, inv scope c → Build.Confined faults (body scope) c fun _ => True)
    (here : inv scope c) (guard : Value) (acc : Array Value) :
    Build.Confined faults (unfoldDecls l q body decls scope guard acc) c fun _ => True := by
  induction decls generalizing scope c guard acc with
  | nil =>
    refine (bodyConfined scope c here).bind fun value d _ _ => ?_
    refine (Build.yields_synth (Quantifier.grows_guarded q guard value)).confined.bind ?_
    exact fun _ _ _ _ => Build.confined_pure trivial
  | cons decl rest ih =>
    obtain ⟨declSorted, restSorted⟩ := List.forall_mem_cons.mp sorted
    obtain ⟨declFitting, restFitting⟩ := List.forall_mem_cons.mp fitting
    have grounded := (confines.ground here declSorted).with_run
    refine grounded.bind fun domain d inputs ⟨_, grown, run⟩ => ?_
    refine visitUntil_confined fun cell member acc e same => ?_
    refine (Build.yields_synth (by simp)).confined.bind fun guard f further _ => ?_
    have chosen := confines.push here declSorted declFitting run member
    have pushed := confines.same_inputs chosen
      ((further.trans (same.trans inputs)).trans (grounded.ok run).1.symm)
    exact ih restSorted restFitting pushed guard acc

end Unfold

namespace Formula

mutual

theorem ground_confined {l : Leaves} {faults : Error → Prop} {inv : Scope → Circuit → Prop}
    (confines : l.Confines faults inv) : (f : Formula) → f.WellSorted → ∀ scope c,
    inv scope c → Build.Confined faults (f.ground l scope) c fun _ => True
  | .const _, _ => by
      intro scope c _
      rw [ground]
      exact Build.confined_pure trivial
  | .binary op left right, sorted => by
      intro scope c here
      rw [ground]
      refine (ground_confined confines left sorted.1 scope c here).bind fun first d inputs _ => ?_
      refine (ground_confined confines right sorted.2 scope d (confines.same_inputs here inputs)).bind
        fun second e _ _ => ?_
      cases op <;> exact (Build.yields_synth (by simp)).confined
  | .nary op parts, sorted => by
      intro scope c here
      rw [ground]
      refine (groundAll_confined confines parts sorted scope c here).bind fun values d _ _ => ?_
      cases op <;> exact (Build.yields_synth (by simp)).confined
  | .not body, sorted => by
      intro scope c here
      rw [ground]
      exact (ground_confined confines body sorted scope c here).bind fun _ _ _ _ =>
        Build.confined_pure trivial
  | .compare op left right, sorted => by
      intro scope c here
      rw [ground_compare]
      split
      case isFalse => exact Build.confined_throw (confines.input _ (.inr (.inr (.inl rfl))))
      case isTrue same =>
        refine (confines.ground here sorted.1).bind fun first d inputs one => ?_
        refine (confines.ground (confines.same_inputs here inputs) sorted.2).bind
          fun second e _ two => ?_
        rw [← same] at two
        have dims := one.dims.trans two.dims.symm
        cases op with
        | equals => exact (Matrix.equals_yields dims).confined
        | subset => exact (Matrix.subset_yields dims).confined
  | .multiplicity m body, sorted => by
      intro scope c here
      rw [ground]
      refine (confines.ground here sorted).bind fun matrix d _ _ => ?_
      cases m with
      | set => exact Build.confined_pure trivial
      | _ => exact (Build.yields_synth (by simp)).confined
  | .quantified q decls body, sorted => by
      intro scope c here
      rw [ground]
      refine ((Decl.checkAll_tame decls c).weaken confines.input).bind fun _ d inputs fitting => ?_
      refine (unfoldDecls_confined confines sorted.1 fitting (ground_confined confines body sorted.2)
        (confines.same_inputs here inputs) _ _).bind fun result e _ _ => ?_
      exact (Build.yields_synth (by simp)).confined

theorem groundAll_confined {l : Leaves} {faults : Error → Prop} {inv : Scope → Circuit → Prop}
    (confines : l.Confines faults inv) : (fs : List Formula) → WellSortedAll fs →
    ∀ scope c, inv scope c → Build.Confined faults (groundAll l fs scope) c fun _ => True
  | [], _ => by
      intro scope c _
      rw [groundAll]
      exact Build.confined_pure trivial
  | f :: fs, sorted => by
      intro scope c here
      rw [groundAll]
      refine (ground_confined confines f sorted.1 scope c here).bind fun v d inputs _ => ?_
      refine (groundAll_confined confines fs sorted.2 scope d (confines.same_inputs here inputs)).bind
        fun _ _ _ _ => ?_
      exact Build.confined_pure trivial

end

end Formula

/-- With few enough unknown tuples the faults are those of the input. -/
theorem Leaves.ready_confines (l : Leaves) : l.Confines Error.IsInput (l.Ready · ·) where
  input _ isInput := isInput
  same_inputs ready same := ready.same_inputs same
  ground ready sorted := (Expr.ground_decides ready sorted).tame
  push ready sorted fitting run _ := by
    obtain ⟨inputs, sized⟩ := (Expr.ground_decides ready sorted).tame.ok run
    have chosen := ready.sized.choose sized fitting
    exact { ready with inputs := inputs.trans ready.inputs, sized := chosen _ }

theorem Formula.ground_tame {l : Leaves} {f : Formula} (sorted : f.WellSorted) {scope : Scope}
    {c : Circuit} (ready : l.Ready scope c) : Build.Tame (f.ground l scope) c fun _ => True :=
  ground_confined l.ready_confines f sorted scope c ready

theorem Leaves.ofBounds_ready {b : Bounds} (regular : b.Regular) (few : b.unknownCount < 2147483648)
    (sharing : Bool) : (Leaves.ofBounds b).Ready .empty ((Leaves.ofBounds b).circuit sharing) := by
  have small : b.unknownCount < wordBound := by
    simp only [wordBound]
    omega
  obtain ⟨numbers, count⟩ := Numbering.ofBounds_numbers regular.formed small
  exact ⟨⟨regular, numbers⟩, count ▸ few, rfl, Scope.empty_sized⟩

theorem Bounds.covers_eq_ok {b : Bounds} {f : Formula} :
    b.covers f = .ok () ↔ ∀ r ∈ f.relationLeaves, b.contains r = true := by
  have listed : (∀ r ∈ f.relations, b.contains r = true) ↔
      ∀ r ∈ f.relationLeaves, b.contains r = true := by
    simp only [Formula.relations, List.mem_eraseDups]
  rw [← listed, Bounds.covers]
  split
  · rename_i r found
    constructor
    · intro impossible
      cases impossible
    · intro all
      have absent := List.find?_some found
      rw [all r (List.mem_of_find?_eq_some found)] at absent
      cases absent
  · rename_i none
    constructor
    · intro _ r member
      simpa using List.find?_eq_none.mp none r member
    · exact fun _ => rfl

theorem Bounds.covers_eq_error {b : Bounds} {f : Formula} {error : Error}
    (failed : b.covers f = .error error) : ∃ r ∈ f.relations, error = .unboundRelation r.name := by
  unfold covers at failed
  split at failed
  · rename_i r found
    exact ⟨r, List.mem_of_find?_eq_some found, (Except.error.inj failed).symm⟩
  · cases failed

/-- Encoding fails by a fault that grounding is confined to. -/
theorem Formula.encode_confined {f : Formula} {b : Bounds} {sharing logged : Bool}
    {faults : Error → Prop} {inv : Scope → Circuit → Prop}
    (confines : (Leaves.ofBounds b).Confines faults inv)
    (here : inv .empty ((Leaves.ofBounds b).circuit sharing)) (sorted : f.WellSorted) {error : Error}
    (failed : f.encode b sharing logged = .error error) : faults error := by
  have grounded : Build.Confined faults (groundConjuncts (.ofBounds b) f.conjuncts)
      ((Leaves.ofBounds b).circuit sharing) fun _ => True := by
    refine (groundAll_confined confines f.conjuncts ?_ .empty _ here).bind fun values d _ _ => ?_
    · exact wellSortedAll_iff.mpr (wellSorted_conjuncts f sorted)
    · exact (Build.yields_synth (by simp)).confined.bind fun _ _ _ _ => Build.confined_pure trivial
  rcases bind_eq_error.mp failed with uncovered | ⟨_, -, rest⟩
  · obtain ⟨r, -, rfl⟩ := Bounds.covers_eq_error uncovered
    exact confines.input _ (.inl rfl)
  · rcases bind_eq_error.mp rest with unground | ⟨⟨⟨values, root⟩, circuit⟩, -, made⟩
    · exact grounded.error unground
    · cases root <;> cases made

theorem Formula.encode_error {f : Formula} {b : Bounds} {sharing logged : Bool}
    (regular : b.Regular) (sorted : f.WellSorted) (few : b.unknownCount < 2147483648) {error : Error}
    (failed : f.encode b sharing logged = .error error) : error.IsInput :=
  encode_confined (Leaves.ofBounds b).ready_confines (Leaves.ofBounds_ready regular few sharing) sorted
    failed

end ModelFinder
