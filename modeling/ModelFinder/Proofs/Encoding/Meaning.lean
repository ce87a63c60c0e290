import ModelFinder.Finder.Options
import ModelFinder.Proofs.Encoding.Exact
import ModelFinder.Proofs.Sat.Exhaustive
import ModelFinder.Proofs.Sat.Store

/-! Encoding preserves meaning, from the formula to the clauses that a solver holds. -/
namespace ModelFinder

/-- For bounds that were built and a formula of well-sorted expressions whose tuples and gates can be
labelled: a valuation of the unknown tuples extends to an assignment that satisfies all that the
solver holds and all assumptions exactly if the formula is true in the instance of the valuation, and
a formula that folds has its value in the instance of every valuation. -/
theorem encode_preserves_meaning {σ : Type} [Backend σ] {held : σ → List Clause}
    (faithful : Faithful σ held)
    (accepts : ∀ (solver : σ) clause, (Backend.add solver clause).1 = true) {solver : σ}
    (fresh : held solver = []) {f : Formula} {b : Bounds} (built : b.Built) (sorted : f.WellSorted)
    (o : Options) (fits : f.Fits b o.sharing) :
    (∀ e, f.encode b o.sharing o.logged = .ok (.clauses e) → ∀ s,
      ((∃ a, (∀ var, 1 ≤ var → var ≤ e.numbering.count → a var = s var) ∧
          Satisfies a (held (e.load solver).store.backend) ∧ Meets a e.assumptions) ↔
        f.holds (e.numbering.instanceAt b s).interpretation .none)) ∧
    ∀ result, f.encode b o.sharing o.logged = .ok (.folded result) → ∀ s,
      (result.value = true ↔
        f.holds ((Numbering.ofBounds b).instanceAt b s).interpretation .none) := by
  have regular := built.regular
  constructor
  · intro e ok s
    have encodes := Formula.encode_clauses regular sorted fits ok
    obtain ⟨-, -, holds⟩ := @Encoding.load_holds _ _ _ e _ faithful accepts fresh
    have depicts := Numbering.instanceAt_depicts regular encodes.numbers s
    rw [← encodes.exact s _ (depicts.agrees regular encodes.numbers)]
    simp only [holds]
  · intro result ok s
    obtain ⟨-, -, numbers, value⟩ := Formula.encode_folded regular sorted fits ok
    have depicts := Numbering.instanceAt_depicts regular numbers s
    exact value s _ (depicts.agrees regular numbers)

/-! The smallest problem with a choice: one atom, a relation that may have it, and the formula that
asks for it. It has an encoding of one variable and no gate. -/
namespace Sample

def univ : Universe := ⟨0, ["a"], by decide, by decide⟩

def relation : Relation := ⟨0, "r", 1, by decide⟩

def range : Range := ⟨.empty univ 1, .all univ 1⟩

def bounds : Bounds := ⟨univ, ⟨[(relation, range)]⟩, .empty⟩

def formula : Formula := .multiplicity .some (.rel relation)

theorem built : bounds.Built := by
  have contained : range.lower.Le range.upper :=
    TupleSet.le_iff.mpr ⟨rfl, rfl, by simp [range, TupleSet.empty]⟩
  exact (Bounds.Built.empty univ).insert relation (.empty univ 1) (.all univ 1)
    ⟨rfl, rfl, rfl, rfl, contained⟩

theorem sorted : formula.WellSorted := trivial

theorem unknowns : range.unknowns = [0] := by
  apply IndexSet.eq_of_mem_iff (Bounds.unknowns_ascending _) (by simp)
  intro i
  rw [Bounds.mem_unknowns]
  show i ∈ IndexSet.below 1 ∧ i ∉ IndexSet.empty ↔ _
  simp

theorem leaves : Leaves.ofBounds bounds = ⟨bounds, ⟨univ, [⟨relation, 1, #[0]⟩], 1⟩⟩ := by
  simp [Leaves.ofBounds, Numbering.ofBounds, bounds, Numbering.number, unknowns,
    Allocator.allocate, Allocator.empty, word, wordBound, Allocator.total]

theorem label_one : (Value.lit 1).label = 1 := Value.label_lit (by decide)

theorem combine_single (gate : List Int → Gate) {neutral : Bool} {values : List Value} {n : Int}
    (small : n.natAbs < 2147483647) (operands : Circuit.operands neutral values = some [n])
    (c : Circuit) : Circuit.combine gate neutral values c = (.lit n, c) := by
  simp only [Circuit.combine, operands, Ascending.sort_singleton]
  rw [Value.ofLabel_of_natAbs_lt small]
  rfl

theorem combine_run (gate : List Int → Gate) (neutral : Bool) {n : Int}
    (small : n.natAbs < 2147483647) (c : Circuit) :
    Circuit.combine gate neutral [.lit n] c = (.lit n, c) :=
  combine_single gate small (by simp [Circuit.operands, Value.label_lit small]) c

structure Choice (l : Leaves) (c : Circuit) : Prop where
  bound : ∃ range, l.bounds.range? relation = some range ∧ range.lower.indices = .empty
  dims : ∃ dims, Dims.make l.bounds.univ.size relation.arity = .ok dims
  range : l.numbering.range relation = (1, 2)
  unknowns : l.numbering.unknowns relation = [0]
  input : c.input 1 = .ok (.lit 1)

theorem Choice.relation_run {l : Leaves} {c : Circuit} (choice : Choice l c) :
    ∃ dims, l.relation relation c = .ok (.ofCells dims [(0, .lit 1)], c) := by
  obtain ⟨found, isFound, none⟩ := choice.bound
  obtain ⟨dims, made⟩ := choice.dims
  have each : ∀ item ∈ [0].zipIdx 1,
      (c.input (item.2 : Nat)).map (item.1, ·) = .ok (item.1, Value.lit item.2) := by
    intro item member
    obtain rfl : item = (0, 1) := List.mem_singleton.mp member
    exact congrArg (Except.map ((0 : Nat), ·)) choice.input
  refine ⟨dims, ?_⟩
  unfold Leaves.relation
  rw [isFound, choice.unknowns, choice.range]
  refine Build.bind_run.mpr ⟨_, c, Build.lift_eq_ok.mpr ⟨made, rfl⟩, Build.bind_run.mpr ⟨c, c, rfl,
    Build.bind_run.mpr ⟨_, c, (Build.mapM_lift_run
      fun item : Nat × Nat => (c.input item.2).map (item.1, ·)).mpr
        ⟨mapM_of_forall each, rfl⟩, ?_⟩⟩⟩
  rw [none]
  rfl

theorem some_run (dims : Dims) (c : Circuit) :
    (Matrix.ofCells dims [(0, .lit 1)]).some c = (.lit 1, c) := by
  have listed : (SortedTable.ofList [(0, Value.lit 1)]).entries = [(0, .lit 1)] :=
    SortedTable.ofList_entries (by simp)
  have cells : (Matrix.ofCells dims [(0, .lit 1)]).cells.values = [.lit 1] := by
    simp [Matrix.ofCells, SortedTable.values, listed]
  rw [Matrix.some, cells]
  exact combine_run _ _ (by decide) c

theorem Choice.ground_run {l : Leaves} {c : Circuit} (choice : Choice l c) :
    formula.ground l .empty c = .ok (.lit 1, c) := by
  obtain ⟨dims, ran⟩ := choice.relation_run
  exact Build.bind_run.mpr ⟨_, _, ran, congrArg Except.ok (some_run dims c)⟩

theorem Choice.run {l : Leaves} {c : Circuit} (choice : Choice l c) :
    groundConjuncts l formula.conjuncts c = .ok (([.lit 1], .lit 1), c) := by
  have all : (liftM (Circuit.all [.lit 1]) : Build Value) c = .ok (.lit 1, c) :=
    congrArg Except.ok (combine_run _ _ (by decide) c)
  apply Build.bind_run.mpr
  exact ⟨[.lit 1], _, Build.bind_run.mpr ⟨_, _, choice.ground_run, rfl⟩,
    Build.bind_run.mpr ⟨_, _, all, rfl⟩⟩

theorem choice (sharing : Bool) : Choice (.ofBounds bounds) (Circuit.empty 1 sharing) := by
  rw [leaves]
  refine ⟨⟨range, rfl, rfl⟩, ⟨⟨1, 1⟩, rfl⟩, rfl, rfl, ?_⟩
  have small : signedWord (Circuit.empty 1 sharing).inputs = 1 :=
    signedWord_of_natAbs_lt (n := 1) (by decide)
  rw [Circuit.input, small, if_pos (by decide)]

theorem ground_run (sharing : Bool) :
    formula.ground (.ofBounds bounds) .empty (Circuit.empty 1 sharing) =
      .ok (.lit 1, Circuit.empty 1 sharing) :=
  (choice sharing).ground_run

theorem run (sharing : Bool) : groundConjuncts (.ofBounds bounds) formula.conjuncts
    ((Leaves.ofBounds bounds).circuit sharing) =
      .ok (([.lit 1], .lit 1), Circuit.empty 1 sharing) := by
  have start : (Leaves.ofBounds bounds).circuit sharing = Circuit.empty 1 sharing := by
    rw [leaves]
    rfl
  rw [start]
  exact (choice sharing).run

theorem fits (sharing : Bool) : formula.Fits bounds sharing := by
  intro result circuit ran
  obtain ⟨-, rfl⟩ := Prod.mk.inj (Except.ok.inj ((run sharing).symm.trans ran))
  show bounds.unknownCount + 0 < 2147483647
  decide

def encoding : Encoding := ⟨⟨univ, [⟨relation, 1, #[0]⟩], 1⟩, bounds, none, ⟨1, #[[1]]⟩, []⟩

theorem encoded_eq (sharing : Bool) :
    formula.encode bounds sharing false = .ok (.clauses encoding) := by
  refine bind_eq_ok.mpr ⟨(), rfl, bind_eq_ok.mpr ⟨_, run sharing, ?_⟩⟩
  simp [Encoder.assert, Encoder.reach, Encoder.visit, Encoder.empty, encoding, leaves, Circuit.empty,
    label_one, Circuit.gate?, Circuit.maxLabel, Cnf.add, maxVar]

end Sample

/-! A problem with a choice among several minimal models: two atoms, a relation that may have both and
one that may have the first, and the formula that asks that one of them has a tuple. It has an encoding
of three variables and two gates. -/
namespace Fork

def univ : Universe := ⟨0, ["u", "v"], by decide, by decide⟩

def wide : Relation := ⟨0, "r", 1, by decide⟩

def narrow : Relation := ⟨1, "q", 1, by decide⟩

def first : TupleSet := ⟨univ, 1, IndexSet.empty.insert 0⟩

def wideRange : Range := ⟨.empty univ 1, .all univ 1⟩

def narrowRange : Range := ⟨.empty univ 1, first⟩

def bounds : Bounds := ⟨univ, ⟨[(wide, wideRange), (narrow, narrowRange)]⟩, .empty⟩

def formula : Formula :=
  .binary .or (.multiplicity .some (.rel wide)) (.multiplicity .some (.rel narrow))

theorem first_built : first.Built := @TupleSet.Built.ofAtom univ "u" _ rfl

theorem built : bounds.Built := by
  have contained : ∀ {upper : TupleSet}, upper.univ = univ → upper.arity = 1 →
      (TupleSet.empty univ 1).Le upper :=
    fun univ arity => TupleSet.le_iff.mpr ⟨univ.symm, arity.symm, by simp [TupleSet.empty]⟩
  have one : Bounds.Built ⟨univ, ⟨[(wide, wideRange)]⟩, .empty⟩ :=
    (Bounds.Built.empty univ).insert wide (.empty univ 1) (.all univ 1)
      ⟨rfl, rfl, rfl, rfl, contained rfl rfl⟩
  exact one.insert narrow (.empty univ 1) first_built ⟨rfl, rfl, rfl, rfl, contained rfl rfl⟩

theorem sorted : formula.WellSorted := ⟨trivial, trivial⟩

theorem numbering : Numbering.ofBounds bounds =
    ⟨univ, [⟨wide, 1, #[0, 1]⟩, ⟨narrow, 3, #[0]⟩], 3⟩ := by
  have wideUnknowns : wideRange.unknowns = [0, 1] := by
    apply IndexSet.eq_of_mem_iff (Bounds.unknowns_ascending _) (by decide)
    intro i
    rw [Bounds.mem_unknowns]
    show i ∈ IndexSet.below 2 ∧ i ∉ IndexSet.empty ↔ _
    simp
    omega
  have narrowUnknowns : narrowRange.unknowns = [0] := by
    apply IndexSet.eq_of_mem_iff (Bounds.unknowns_ascending _) (by decide)
    intro i
    rw [Bounds.mem_unknowns]
    simp [narrowRange, first, TupleSet.empty]
  simp [Numbering.ofBounds, bounds, Numbering.number, wideUnknowns, narrowUnknowns,
    Allocator.allocate, Allocator.empty, word, wordBound, Allocator.total]

theorem count : (Numbering.ofBounds bounds).count = 3 := by rw [numbering]

theorem numbers : (Numbering.ofBounds bounds).Numbers bounds :=
  (Numbering.ofBounds_numbers built.regular.formed (by decide)).1

theorem proper : (Leaves.ofBounds bounds).Proper := ⟨built.regular, numbers⟩

theorem bound_wide : bounds.range? wide = some wideRange := rfl

theorem bound_narrow : bounds.range? narrow = some narrowRange := rfl

theorem stands_wide {var i : Nat} : (Numbering.ofBounds bounds).StandsFor var wide i ↔
    var = 1 ∧ i = 0 ∨ var = 2 ∧ i = 1 := by
  rw [numbering]
  constructor
  · rintro ⟨e, member, isRelation, lower, found⟩
    rcases List.mem_pair.mp member with rfl | rfl
    · obtain ⟨bound, isIndex⟩ := Array.getElem?_eq_some_iff.mp found
      have first : var = 1 ∨ var = 2 := by
        simp only [List.size_toArray, List.length_cons, List.length_nil] at bound lower
        omega
      rcases first with rfl | rfl
      · exact .inl ⟨rfl, isIndex.symm⟩
      · exact .inr ⟨rfl, isIndex.symm⟩
    · cases isRelation
  · rintro (⟨rfl, rfl⟩ | ⟨rfl, rfl⟩)
    · exact ⟨_, List.mem_cons_self, rfl, by decide, rfl⟩
    · exact ⟨_, List.mem_cons_self, rfl, by decide, rfl⟩

theorem stands_narrow {var i : Nat} : (Numbering.ofBounds bounds).StandsFor var narrow i ↔
    var = 3 ∧ i = 0 := by
  rw [numbering]
  constructor
  · rintro ⟨e, member, isRelation, lower, found⟩
    rcases List.mem_pair.mp member with rfl | rfl
    · cases isRelation
    · obtain ⟨bound, isIndex⟩ := Array.getElem?_eq_some_iff.mp found
      have only : var = 3 := by
        simp only [List.size_toArray, List.length_cons, List.length_nil] at bound lower
        omega
      subst only
      exact ⟨rfl, isIndex.symm⟩
  · rintro ⟨rfl, rfl⟩
    exact ⟨_, List.mem_cons_of_mem _ List.mem_cons_self, rfl, by decide, rfl⟩

def start (sharing : Bool) : Circuit := .empty 3 sharing

def gated (sharing : Bool) : Circuit := (Circuit.append (.or [1, 2]) (start sharing)).2

def done (sharing : Bool) : Circuit := (Circuit.append (.or [3, 4]) (gated sharing)).2

theorem any_run {l m x y : Int} (left : l.natAbs < 2147483647) (right : m.natAbs < 2147483647)
    (sorted : Ascending.sort [l, m] = [x, y]) (apart : Circuit.clashes [x, y] = false) (c : Circuit) :
    Circuit.any [.lit l, .lit m] c = Circuit.emit (.or [x, y]) c := by
  have listed : Circuit.operands false [.lit l, .lit m] = some [l, m] := by
    simp [Circuit.operands, Value.label_lit left, Value.label_lit right]
  simp only [Circuit.any, Circuit.combine, listed, sorted, apart]
  rfl

theorem numbering_leaves : (Leaves.ofBounds bounds).numbering =
    ⟨univ, [⟨wide, 1, #[0, 1]⟩, ⟨narrow, 3, #[0]⟩], 3⟩ := numbering

theorem wide_leaf {c : Circuit} (inputs : c.inputs = 3) :
    (Leaves.ofBounds bounds).relation wide c =
      .ok (.ofCells ⟨2, 1⟩ [(0, .lit 1), (1, .lit 2)], c) := by
  rw [Leaves.relation_run proper bound_wide (by decide)
    (by rw [inputs, numbering_leaves]) (by rw [numbering_leaves]; decide), numbering_leaves]
  rfl

theorem narrow_leaf {c : Circuit} (inputs : c.inputs = 3) :
    (Leaves.ofBounds bounds).relation narrow c = .ok (.ofCells ⟨2, 1⟩ [(0, .lit 3)], c) := by
  rw [Leaves.relation_run proper bound_narrow (by decide)
    (by rw [inputs, numbering_leaves]) (by rw [numbering_leaves]; decide), numbering_leaves]
  rfl

theorem wide_entries : (Matrix.ofCells ⟨2, 1⟩ [(0, .lit 1), (1, .lit 2)]).cells.entries =
    [(0, .lit 1), (1, .lit 2)] := by
  have listed : (SortedTable.ofList [(0, Value.lit 1), (1, .lit 2)]).entries =
      [(0, .lit 1), (1, .lit 2)] := SortedTable.ofList_entries (by simp)
  simp [Matrix.ofCells, listed]

theorem narrow_entries : (Matrix.ofCells ⟨2, 1⟩ [(0, .lit 3)]).cells.entries = [(0, .lit 3)] := by
  have listed : (SortedTable.ofList [(0, Value.lit 3)]).entries = [(0, .lit 3)] :=
    SortedTable.ofList_entries (by simp)
  simp [Matrix.ofCells, listed]

theorem start_emits (sharing : Bool) :
    Circuit.emit (.or [1, 2]) (start sharing) = (.lit 4, gated sharing) := by
  have absent : (start sharing).positions[Gate.or [1, 2]]? = none := by simp [start, Circuit.empty]
  rw [Circuit.emit, absent]
  cases sharing <;> rfl

theorem gated_emits (sharing : Bool) :
    Circuit.emit (.or [3, 4]) (gated sharing) = (.lit 5, done sharing) := by
  cases sharing with
  | false => rfl
  | true =>
    have absent : (gated true).positions[Gate.or [3, 4]]? = none := by
      simp [gated, start, Circuit.append, Circuit.empty]
    rw [Circuit.emit, absent]
    rfl

theorem wide_run (sharing : Bool) :
    (Formula.multiplicity .some (.rel wide)).ground (.ofBounds bounds) .empty (start sharing) =
      .ok (.lit 4, gated sharing) := by
  refine Build.bind_run.mpr ⟨_, _, wide_leaf rfl, congrArg Except.ok ?_⟩
  rw [Matrix.some, SortedTable.values, wide_entries]
  have sorted : Ascending.sort [(1 : Int), 2] = [1, 2] := (Ascending.sort_pair (by decide)).1
  exact (any_run (by decide) (by decide) sorted (by decide) _).trans (start_emits sharing)

theorem narrow_run (sharing : Bool) :
    (Formula.multiplicity .some (.rel narrow)).ground (.ofBounds bounds) .empty (gated sharing) =
      .ok (.lit 3, gated sharing) := by
  refine Build.bind_run.mpr ⟨_, _, narrow_leaf rfl, congrArg Except.ok ?_⟩
  rw [Matrix.some, SortedTable.values, narrow_entries]
  exact Sample.combine_run _ _ (by decide) _

theorem run (sharing : Bool) : groundConjuncts (.ofBounds bounds) formula.conjuncts
    ((Leaves.ofBounds bounds).circuit sharing) = .ok (([.lit 5], .lit 5), done sharing) := by
  have begins : (Leaves.ofBounds bounds).circuit sharing = start sharing := by
    rw [Leaves.circuit, numbering_leaves]
    rfl
  have whole : formula.ground (.ofBounds bounds) .empty (start sharing) =
      .ok (.lit 5, done sharing) := by
    refine Build.bind_run.mpr ⟨_, _, wide_run sharing, Build.bind_run.mpr ⟨_, _, narrow_run sharing,
      congrArg Except.ok ?_⟩⟩
    have sorted : Ascending.sort [(4 : Int), 3] = [3, 4] := (Ascending.sort_pair (by decide)).2
    exact (any_run (by decide) (by decide) sorted (by decide) _).trans (gated_emits sharing)
  have all : (liftM (Circuit.all [.lit 5]) : Build Value) (done sharing) =
      .ok (.lit 5, done sharing) := congrArg Except.ok (Sample.combine_run _ _ (by decide) _)
  rw [begins]
  exact Build.bind_run.mpr ⟨[.lit 5], _, Build.bind_run.mpr ⟨_, _, whole, rfl⟩,
    Build.bind_run.mpr ⟨_, _, all, rfl⟩⟩

theorem fits (sharing : Bool) : formula.Fits bounds sharing := by
  intro result circuit ran
  obtain ⟨-, rfl⟩ := Prod.mk.inj (Except.ok.inj ((run sharing).symm.trans ran))
  show bounds.unknownCount + 2 < 2147483647
  decide

theorem encoded (sharing logged : Bool) :
    ∃ e, formula.encode bounds sharing logged = .ok (.clauses e) :=
  ⟨_, bind_eq_ok.mpr ⟨(), rfl, bind_eq_ok.mpr ⟨_, run sharing, rfl⟩⟩⟩

variable {s : Nat → Bool} {m : Instance}

theorem holds_iff (depicts : (Numbering.ofBounds bounds).Depicts bounds s m) :
    formula.holds m.interpretation .none ↔ s 1 = true ∨ s 2 = true ∨ s 3 = true := by
  have agrees := depicts.agrees built.regular numbers
  have hasWide := agrees.exists_tuple proper bound_wide (by decide)
  have hasNarrow := agrees.exists_tuple proper bound_narrow (by decide)
  refine (or_congr hasWide hasNarrow).trans ?_
  have none : ∀ i, i ∉ (TupleSet.empty univ 1).indices := by simp [TupleSet.empty]
  simp only [wideRange, narrowRange, none, false_or]
  constructor
  · rintro (⟨i, var, stands, holds⟩ | ⟨i, var, stands, holds⟩)
    · rcases stands_wide.mp stands with ⟨rfl, -⟩ | ⟨rfl, -⟩
      · exact .inl holds
      · exact .inr (.inl holds)
    · obtain ⟨rfl, -⟩ := stands_narrow.mp stands
      exact .inr (.inr holds)
  · rintro (holds | holds | holds)
    · exact .inl ⟨0, 1, stands_wide.mpr (.inl ⟨rfl, rfl⟩), holds⟩
    · exact .inl ⟨1, 2, stands_wide.mpr (.inr ⟨rfl, rfl⟩), holds⟩
    · exact .inr ⟨0, 3, stands_narrow.mpr ⟨rfl, rfl⟩, holds⟩

theorem isModel_iff (depicts : (Numbering.ofBounds bounds).Depicts bounds s m) :
    formula.IsModel bounds m ↔ s 1 = true ∨ s 2 = true ∨ s 3 = true :=
  (and_iff_right (depicts.within built.regular numbers)).trans (holds_iff depicts)

def single (var : Nat) : Instance := (Numbering.ofBounds bounds).instanceAt bounds (· == var)

theorem single_depicts (var : Nat) :
    (Numbering.ofBounds bounds).Depicts bounds (· == var) (single var) :=
  Numbering.instanceAt_depicts built.regular numbers _

theorem single_partOf {var : Nat} (inside : 1 ≤ var ∧ var ≤ 3)
    (depicts : (Numbering.ofBounds bounds).Depicts bounds s m) :
    Instance.PartOf bounds (single var) m ↔ s var = true := by
  rw [(single_depicts var).partOf_iff built.regular numbers depicts, count]
  constructor
  · exact fun below => below var inside.1 inside.2 (beq_self_eq_true var)
  · rintro holds w - - isVar
    rwa [beq_iff_eq.mp isVar]

theorem single_isModel {var : Nat} (inside : 1 ≤ var ∧ var ≤ 3) :
    formula.IsModel bounds (single var) := by
  have known : var = 1 ∨ var = 2 ∨ var = 3 := by omega
  rcases known with rfl | rfl | rfl <;> exact (isModel_iff (single_depicts _)).mpr (by decide)

/-- Every model has the only tuple of one of three models. -/
theorem exists_single (isModel : formula.IsModel bounds m) :
    ∃ var, (1 ≤ var ∧ var ≤ 3) ∧ Instance.PartOf bounds (single var) m := by
  have depicts := Numbering.valuation_depicts built.regular numbers isModel.1
  rcases (isModel_iff depicts).mp isModel with holds | holds | holds
  · exact ⟨1, by decide, (single_partOf (by decide) depicts).mpr holds⟩
  · exact ⟨2, by decide, (single_partOf (by decide) depicts).mpr holds⟩
  · exact ⟨3, by decide, (single_partOf (by decide) depicts).mpr holds⟩

theorem single_minimal {var : Nat} (inside : 1 ≤ var ∧ var ≤ 3) :
    formula.IsMinimalModel bounds (single var) := by
  refine ⟨single_isModel inside, fun other isModel part => ?_⟩
  obtain ⟨w, small, first⟩ := exists_single isModel
  have depicts := Numbering.valuation_depicts built.regular numbers isModel.1
  have below := (depicts.partOf_iff built.regular numbers (single_depicts var)).mp part
  rw [count] at below
  obtain rfl : w = var :=
    beq_iff_eq.mp (below w small.1 small.2 ((single_partOf small depicts).mp first))
  exact first

end Fork

theorem sample_preserves_meaning :
    ∃ e, Fork.formula.encode Fork.bounds true false = .ok (.clauses e) ∧
      ∀ s : Nat → Bool, ((∃ a, (∀ var, 1 ≤ var → var ≤ e.numbering.count → a var = s var) ∧
          Satisfies a (Exhaustive.clauses (e.load ⟨[]⟩).store.backend) ∧ Meets a e.assumptions) ↔
        s 1 = true ∨ s 2 = true ∨ s 3 = true) := by
  obtain ⟨e, ok⟩ := Fork.encoded true false
  have meaning := (encode_preserves_meaning Exhaustive.faithful Exhaustive.reliable.accepts
    (rfl : Exhaustive.clauses ⟨[]⟩ = []) Fork.built Fork.sorted .standard (Fork.fits true)).1
  have encodes := Formula.encode_clauses Fork.built.regular Fork.sorted (Fork.fits true) ok
  refine ⟨e, ok, fun s => (meaning e ok s).trans ?_⟩
  rw [encodes.numbering]
  exact Fork.holds_iff (Numbering.instanceAt_depicts Fork.built.regular Fork.numbers s)

end ModelFinder
