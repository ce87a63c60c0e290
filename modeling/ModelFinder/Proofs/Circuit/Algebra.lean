import ModelFinder.Proofs.Circuit.Operations
import ModelFinder.Proofs.Circuit.Progress

/-! Symbolic relations compute the algebra of relations. A relation is read as the set of tuples
whose cells are true. On relations of fitting arities every operator succeeds, but for a join or a
product with too many tuples to count. -/
namespace ModelFinder

/-- The computation adds gates and leaves a symbolic relation of the dimensions. Unless labels run
out, that is well-formed and has exactly the tuples of a set, which may depend on the inputs. -/
def Build.Relates (action : Build Matrix) (c : Circuit) (dims : Dims)
    (tuples : (Nat → Bool) → List Nat → Prop) : Prop :=
  ∃ m d, action c = .ok (m, d) ∧ c ≤ d ∧ m.dims = dims ∧
    (d.Labelled → d.WellFormed ∧ m.WellFormed d ∧ ∀ s t, m.Holds d s t ↔ tuples s t)

def Build.Tests (action : Build Value) (c : Circuit) (statement : (Nat → Bool) → Prop) : Prop :=
  ∃ v d, action c = .ok (v, d) ∧ c ≤ d ∧
    (d.Labelled → d.WellFormed ∧ v.In d ∧ ∀ s, v.eval d s = true ↔ statement s)

namespace Matrix

variable {c : Circuit} {a b m : Matrix} {n k l : Nat}

theorem WellFormed.denotes (formed : m.WellFormed c) (dims : m.dims = ⟨n, k⟩) (s : Nat → Bool) :
    m.Denotes n k c s (m.Holds c s) :=
  ⟨congrArg Dims.size dims, congrArg Dims.arity dims, formed, fun _ => Iff.rfl⟩

theorem relates_of {action : Build Matrix} {dims : Dims} {tuples : (Nat → Bool) → List Nat → Prop}
    (run : ∃ m d, action c = .ok (m, d) ∧ d.inputs = c.inputs ∧ m.dims = dims)
    (grows : Build.Grows action)
    (ensured : ∀ s, Build.Ensures action c fun m d => m.Denotes n k d s (tuples s)) :
    Build.Relates action c dims tuples := by
  obtain ⟨m, d, ok, -, same⟩ := run
  refine ⟨m, d, ok, grows c m d ok, same, fun labelled => ?_⟩
  obtain ⟨formed, meant⟩ := ensured (fun _ => false) m d ok labelled
  exact ⟨formed, meant.formed, fun s => (ensured s m d ok labelled).2.holds⟩

theorem tests_of {action : Build Value} {statement : (Nat → Bool) → Prop}
    (yields : Build.Yields action fun _ => True) (grows : Build.Grows action)
    (ensured : ∀ s, Build.Ensures action c fun v d => v.Means d s (statement s)) :
    Build.Tests action c statement := by
  obtain ⟨v, d, ok, -, -⟩ := yields c
  refine ⟨v, d, ok, grows c v d ok, fun labelled => ?_⟩
  obtain ⟨formed, inside, -⟩ := ensured (fun _ => false) v d ok labelled
  exact ⟨formed, inside, fun s => (ensured s v d ok labelled).2.2⟩

theorem join_uncountable (left : a.dims = ⟨n, k⟩) (right : b.dims = ⟨n, l⟩)
    (uncountable : ¬ Countable n (k + l - 2)) :
    a.join b c = .error (.matrixCapacity (k + l - 2) n) := by
  unfold join
  simp only [left, right, Dims.make_of_uncountable uncountable]
  rfl

theorem product_uncountable (left : a.dims = ⟨n, k⟩) (right : b.dims = ⟨n, l⟩)
    (uncountable : ¬ Countable n (k + l)) :
    a.product b c = .error (.matrixCapacity (k + l) n) := by
  unfold product
  simp only [left, right, Dims.make_of_uncountable uncountable]
  rfl

end Matrix

/-- On well-formed symbolic relations over at least one atom, of arities that are not zero, all
operators denote what they are named for. Those that ask for equal dimensions succeed on them, and
so does the transposition of a binary relation. Joins and products fail exactly if their tuples
cannot be counted. The tests of comparisons and of cardinalities are true just when these hold. -/
theorem relations_compute {c : Circuit} {a b : Matrix} {n k l : Nat} (sound : c.Sound)
    (positive : 0 < n) (left : a.WellFormed c) (right : b.WellFormed c)
    (leftDims : a.dims = ⟨n, k + 1⟩) (rightDims : b.dims = ⟨n, l + 1⟩) :
    let binary (op : BinaryOp) (s : Nat → Bool) := op.denote (a.Holds c s) (b.Holds c s)
    let compared (op : Comparison) (s : Nat → Bool) := op.holds (a.Holds c s) (b.Holds c s)
    let counted (m : Multiplicity) (s : Nat → Bool) := m.holds (a.Holds c s)
    (a.dims = b.dims →
      Build.Relates (a.union b) c a.dims (binary .union) ∧
        Build.Relates (a.intersection b) c a.dims (binary .intersection) ∧
        Build.Relates (a.difference b) c a.dims (binary .difference) ∧
        Build.Relates (a.override b) c a.dims (binary .override) ∧
        Build.Tests (a.subset b) c (compared .subset) ∧
        Build.Tests (a.equals b) c (compared .equals)) ∧
      (if Countable n (k + l) then Build.Relates (a.join b) c ⟨n, k + l⟩ (binary .join)
        else a.join b c = .error (.matrixCapacity (k + l) n)) ∧
      (if Countable n (k + l + 2) then Build.Relates (a.product b) c ⟨n, k + l + 2⟩ (binary .product)
        else a.product b c = .error (.matrixCapacity (k + l + 2) n)) ∧
      (a.dims.arity = 2 → Build.Relates (liftM a.transpose) c a.dims fun s =>
        UnaryOp.transpose.denote (a.Holds c s) n) ∧
      Build.Tests (liftM a.some) c (counted .some) ∧ Build.Tests (liftM a.no) c (counted .no) ∧
      Build.Tests (liftM a.lone) c (counted .lone) ∧ Build.Tests (liftM a.one) c (counted .one) := by
  have one := left.denotes leftDims
  have two := right.denotes rightDims
  intro binary compared counted
  refine ⟨?same, ?join, ?product, ?transpose, ?some, ?no, ?lone, ?one⟩
  case same =>
    intro same
    obtain rfl : k = l := by simpa [leftDims, rightDims] using same
    exact ⟨Matrix.relates_of (Matrix.union_yields same c) (by simp) fun s =>
        Matrix.union_ensures sound (one s) (two s),
      Matrix.relates_of (Matrix.intersection_yields same c) (by simp) fun s =>
        Matrix.intersection_ensures sound (one s) (two s),
      Matrix.relates_of (Matrix.difference_yields same c) (by simp) fun s =>
        Matrix.difference_ensures sound (one s) (two s),
      Matrix.relates_of (Matrix.override_yields positive leftDims rightDims c) (by simp) fun s =>
        Matrix.override_ensures positive sound (one s) (two s),
      Matrix.tests_of (Matrix.subset_yields same) (by simp) fun s =>
        Matrix.subset_ensures positive sound (one s) (two s),
      Matrix.tests_of (Matrix.equals_yields same) (by simp) fun s =>
        Matrix.equals_ensures positive sound (one s) (two s)⟩
  case join =>
    have arity : k + 1 + (l + 1) - 2 = k + l := by omega
    have decides := Matrix.join_decides (c := c) positive leftDims rightDims
    have uncountable := Matrix.join_uncountable (c := c) leftDims rightDims
    rw [arity] at decides uncountable
    split
    · exact Matrix.relates_of (decides.exists_run ‹_›) (by simp) fun s =>
        Matrix.join_ensures positive sound (one s) (two s)
    · exact uncountable ‹_›
  case product =>
    have arity : k + 1 + (l + 1) = k + l + 2 := by omega
    have decides := Matrix.product_decides (c := c) leftDims rightDims
    have uncountable := Matrix.product_uncountable (c := c) leftDims rightDims
    rw [arity] at decides uncountable
    split
    · exact Matrix.relates_of (decides.exists_run ‹_›) (by simp) fun s =>
        Matrix.product_ensures sound (one s) (two s)
    · exact uncountable ‹_›
  case transpose =>
    intro isBinary
    obtain rfl : k = 1 := by simpa [leftDims] using isBinary
    exact Matrix.relates_of (Matrix.transpose_yields isBinary c) (by simp) fun s =>
      Build.ensures_lift _ sound fun turned ok => Matrix.transpose_denotes positive (one s) ok
  case some => exact Matrix.tests_of (Build.yields_synth (by simp)) (by simp) fun s =>
    Matrix.some_ensures positive sound (one s)
  case no => exact Matrix.tests_of (Build.yields_synth (by simp)) (by simp) fun s =>
    Matrix.no_ensures positive sound (one s)
  case lone => exact Matrix.tests_of (Build.yields_synth (by simp)) (by simp) fun s =>
    Matrix.lone_ensures positive sound (one s)
  case one => exact Matrix.tests_of (Build.yields_synth (by simp)) (by simp) fun s =>
    Matrix.one_ensures positive sound (one s)

namespace Sample

/-- Of two atoms, the first is followed by the second if the first input is true, and the second by
the first unless both inputs are. -/
def steps : Matrix := ⟨⟨2, 2⟩, ⟨[(1, .lit 1), (2, .lit (-3))]⟩⟩

def chosen : Matrix := ⟨⟨2, 1⟩, ⟨[(1, .lit 2)]⟩⟩

theorem steps_formed : steps.WellFormed joined := by
  refine ⟨by decide, by decide, fun v member => ?_⟩
  have cases : v = .lit 1 ∨ v = .lit (-3) := by simpa [steps, SortedTable.values] using member
  rcases cases with rfl | rfl <;> exact ⟨by decide, by decide, by decide⟩

theorem chosen_formed : chosen.WellFormed joined := by
  refine ⟨by decide, by decide, fun v member => ?_⟩
  obtain rfl : v = .lit 2 := by simpa [chosen, SortedTable.values] using member
  exact ⟨by decide, by decide, by decide⟩

end Sample

theorem sample_relations_compute :
    Build.Relates (Sample.steps.join Sample.chosen) Sample.joined ⟨2, 1⟩ (fun s =>
        BinaryOp.denote (Sample.steps.Holds Sample.joined s) (Sample.chosen.Holds Sample.joined s)
          .join) ∧
      Build.Relates (liftM Sample.steps.transpose) Sample.joined ⟨2, 2⟩ (fun s =>
        UnaryOp.denote (Sample.steps.Holds Sample.joined s) 2 .transpose) ∧
      Build.Tests (liftM Sample.steps.one) Sample.joined fun s =>
        ∃ t, Sample.steps.Holds Sample.joined s t ∧
          ∀ u, Sample.steps.Holds Sample.joined s u → u = t := by
  have sound := (Sample.both_built.issues Sample.joined_labelled).1
  obtain ⟨-, join, -, transpose, -, -, -, one⟩ := relations_compute sound (by decide)
    Sample.steps_formed Sample.chosen_formed rfl rfl
  rw [if_pos (by decide)] at join
  exact ⟨join, transpose rfl, one⟩

namespace Sample

def doubtful : Matrix := ⟨⟨1, 1⟩, ⟨[(0, last.value)]⟩⟩

theorem doubtful_formed : doubtful.WellFormed crowded := by
  refine ⟨by decide, by decide, fun v member => ?_⟩
  obtain rfl : v = last.value := by simpa [doubtful, SortedTable.values] using member
  exact ⟨by decide, by decide, by decide⟩

end Sample

/-- Where labels run out, a relation that is empty unless the last input is true is said to have a
tuple, whatever that input is. -/
theorem doubtful_passes_for_some :
    Circuit.Built 2147483647 false [Sample.last] Sample.crowded ∧
      Sample.doubtful.WellFormed Sample.crowded ∧
      Sample.doubtful.some Sample.crowded = (.const true, Sample.crowded) ∧
      ¬ Multiplicity.some.holds (Sample.doubtful.Holds Sample.crowded fun _ => false) := by
  refine ⟨Sample.last_built, Sample.doubtful_formed, ?_, ?_⟩
  · have operands : Circuit.operands false Sample.doubtful.cells.values = some [2147483647] := by
      decide
    rw [Matrix.some, Circuit.any, Circuit.combine, operands]
    simp only [Ascending.sort_singleton]
    rfl
  · rintro ⟨t, isTuple, atoms, holds⟩
    obtain ⟨x, rfl⟩ := List.length_eq_one_iff.mp isTuple
    obtain rfl : x = 0 := Nat.lt_one_iff.mp (atoms x (by simp))
    revert holds
    decide

end ModelFinder
