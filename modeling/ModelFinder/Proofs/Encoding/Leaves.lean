import ModelFinder.Encoding.Leaves
import ModelFinder.Proofs.Circuit.Closure
import ModelFinder.Proofs.Encoding.Numbering

/-! The leaves of expressions denote what an interpretation says of them. An interpretation agrees
with a valuation of the variables if it gives every relation its lower bound and the unknown tuples
whose variables are true; relations whose tuples cannot be counted may differ, for no leaf is ever
made of them. -/
namespace ModelFinder

/-- The interpretation gives every relation of the bounds that a leaf can be made of its lower bound
and the unknown tuples whose variables are true. -/
structure Leaves.Agrees (l : Leaves) (s : Nat → Bool) (i : Interpretation) : Prop where
  size : i.size = l.bounds.univ.size
  tuples : ∀ r range, l.bounds.range? r = some range →
    (l.bounds.univ.capacity? r.arity).isSome = true → ∀ t, i.tuples r t ↔
      t.length = r.arity ∧ (∀ a ∈ t, a < i.size) ∧
        (encodeIndex i.size t ∈ range.lower.indices ∨
          ∃ var, l.numbering.StandsFor var r (encodeIndex i.size t) ∧ s var = true)

structure Leaves.Proper (l : Leaves) : Prop where
  regular : l.bounds.Regular
  numbers : l.numbering.Numbers l.bounds

namespace Leaves

variable {l : Leaves} {c : Circuit} {s : Nat → Bool} {i : Interpretation}

theorem Agrees.size_pos (agrees : l.Agrees s i) : 0 < i.size := by
  rw [agrees.size]
  exact l.bounds.univ.size_pos

/-- The leaf of a relation has a cell for each tuple of its lower bound and for each unknown tuple,
and adds no gate. -/
theorem relation_eq_ok {r : Relation} {m : Matrix} {d : Circuit}
    (run : l.relation r c = .ok (m, d)) :
    c = d ∧ ∃ range unknown, l.bounds.range? r = some range ∧
      (l.bounds.univ.capacity? r.arity).isSome = true ∧
      List.Forall₂ (fun (item : Nat × Nat) (cell : Nat × Value) =>
        cell.1 = item.1 ∧ c.input item.2 = .ok cell.2)
        ((l.numbering.unknowns r).zipIdx (l.numbering.range r).1) unknown ∧
      m = .ofCells ⟨l.bounds.univ.size, r.arity⟩
        (range.lower.indices.toList.map (·, Value.const true) ++ unknown) := by
  unfold relation at run
  cases found : l.bounds.range? r with
  | none =>
    rw [found] at run
    cases run
  | some range =>
    rw [found] at run
    obtain ⟨dims, d₁, lifted, run⟩ := Build.bind_run.mp run
    obtain ⟨made, rfl⟩ := Build.lift_eq_ok.mp lifted
    obtain ⟨circuit, d₂, got, run⟩ := Build.bind_run.mp run
    cases got
    obtain ⟨unknown, d₃, traversed, run⟩ := Build.bind_run.mp run
    obtain ⟨listed, rfl⟩ := (Build.mapM_lift_run
      fun item : Nat × Nat => (c.input item.2).map (item.1, ·)).mp traversed
    cases run
    have countable : (l.bounds.univ.capacity? r.arity).isSome = true := by
      unfold Dims.make Dims.make? at made
      cases known : capacity? l.bounds.univ.size r.arity with
      | none => simp [known] at made
      | some capacity => simp [Universe.capacity?, known]
    refine ⟨rfl, range, unknown, rfl, countable, ?_, by rw [Matrix.dims_make made]⟩
    refine (mapM_eq_ok.mp listed).imp fun item cell ok => ?_
    obtain ⟨v, isInput, rfl⟩ := map_eq_ok.mp ok
    exact ⟨rfl, isInput⟩

@[simp] theorem grows_relation (l : Leaves) (r : Relation) : Build.Grows (l.relation r) := by
  intro c m d run
  exact le_of_eq (relation_eq_ok run).1

theorem mem_zipIdx (proper : l.Proper) {r : Relation} {index var : Nat} :
    (index, var) ∈ (l.numbering.unknowns r).zipIdx (l.numbering.range r).1 ↔
      l.numbering.StandsFor var r index := by
  unfold Numbering.unknowns Numbering.range
  have entry := @Numbering.Numbers.entry?_eq_some _ _ r proper.numbers proper.regular.formed
  cases found : l.numbering.entry? r with
  | none =>
    simp only [List.zipIdx_nil, List.not_mem_nil, false_iff]
    rintro ⟨e, member, isRelation, -, -⟩
    rw [entry.mpr ⟨member, isRelation⟩] at found
    cases found
  | some e =>
    obtain ⟨member, isRelation⟩ := entry.mp found
    rw [List.mk_mem_zipIdx_iff_le_and_getElem?_sub, Array.getElem?_toList]
    constructor
    · rintro ⟨lower, isIndex⟩
      exact ⟨e, member, isRelation, lower, isIndex⟩
    · rintro ⟨f, fMember, same, lower, isIndex⟩
      obtain rfl := Option.some.inj (found.symm.trans (entry.mpr ⟨fMember, same⟩))
      exact ⟨lower, isIndex⟩

/-- The leaf of a bound relation whose tuples can be counted, over a circuit with the inputs. -/
theorem relation_run (proper : l.Proper) {r : Relation} {range : Range}
    (found : l.bounds.range? r = some range)
    (countable : (l.bounds.univ.capacity? r.arity).isSome = true)
    (inputs : c.inputs = l.numbering.count) (small : l.numbering.count < 2147483648) :
    l.relation r c = .ok (.ofCells ⟨l.bounds.univ.size, r.arity⟩
      (range.lower.indices.toList.map (·, Value.const true) ++
        ((l.numbering.unknowns r).zipIdx (l.numbering.range r).1).map
          fun item => (item.1, Value.lit item.2)), c) := by
  obtain ⟨capacity, isCapacity⟩ := Option.isSome_iff_exists.mp countable
  have dims : Dims.make l.bounds.univ.size r.arity = .ok ⟨l.bounds.univ.size, r.arity⟩ := by
    have known : ModelFinder.capacity? l.bounds.univ.size r.arity = some capacity := isCapacity
    simp [Dims.make, Dims.make?, known]
  have each : ∀ item ∈ (l.numbering.unknowns r).zipIdx (l.numbering.range r).1,
      (c.input item.2).map (item.1, ·) = .ok (item.1, Value.lit item.2) := by
    rintro ⟨index, var⟩ member
    have bounds := ((mem_zipIdx proper).mp member).bounds proper.numbers
    rw [Circuit.input, if_pos]
    · rfl
    · rw [inputs, signedWord_of_natAbs_lt (by omega)]
      omega
  unfold relation
  rw [found]
  exact Build.bind_run.mpr ⟨_, c, Build.lift_eq_ok.mpr ⟨dims, rfl⟩, Build.bind_run.mpr ⟨c, c, rfl,
    Build.bind_run.mpr ⟨_, c, (Build.mapM_lift_run
      fun item : Nat × Nat => (c.input item.2).map (item.1, ·)).mpr
        ⟨mapM_of_forall each, rfl⟩, rfl⟩⟩⟩

theorem relation_succeeds (proper : l.Proper) {r : Relation} {range : Range}
    (found : l.bounds.range? r = some range)
    (countable : (l.bounds.univ.capacity? r.arity).isSome = true)
    (inputs : c.inputs = l.numbering.count) (small : l.numbering.count < 2147483648) :
    ∃ m, l.relation r c = .ok (m, c) ∧ m.dims = ⟨l.bounds.univ.size, r.arity⟩ :=
  ⟨_, relation_run proper found countable inputs small, rfl⟩

theorem input_eq_ok {var : Nat} {v : Value} (labelled : c.Labelled)
    (ok : c.input var = .ok v) : v.Means c s (s var = true) := by
  obtain ⟨rfl, positive, bound⟩ := Circuit.input_eq_lit labelled ok
  have inside : var ≤ c.inputs := by omega
  refine ⟨⟨by omega, ?_⟩, ?_⟩
  · simp only [Int.natAbs_natCast, Circuit.maxLabel]
    omega
  · rw [Value.eval, litHolds, if_pos positive, Int.natAbs_natCast, Circuit.truth,
      Circuit.extend_of_lt _ _ _ _ (by omega)]

theorem relation_ensures (proper : l.Proper) (agrees : l.Agrees s i) (sound : c.Sound)
    (r : Relation) :
    Build.Ensures (l.relation r) c fun m d => m.Denotes i.size r.arity d s (i.tuples r) := by
  intro m d run labelled
  obtain ⟨rfl, range, unknown, found, countable, listed, rfl⟩ := relation_eq_ok run
  refine ⟨sound.formed, ?_⟩
  rw [← agrees.size]
  have formed := proper.regular.formed
  have known_cell : ∀ cell, cell ∈ range.lower.indices.toList.map (·, Value.const true) ↔
      cell.1 ∈ range.lower.indices ∧ cell.2 = .const true := by
    rintro ⟨index, v⟩
    simp [IndexSet.mem_def, eq_comm]
  have unknown_cell : ∀ cell ∈ unknown, ∃ var, l.numbering.StandsFor var r cell.1 ∧
      cell.2.Means c s (s var = true) := by
    intro cell member
    obtain ⟨⟨index, var⟩, isItem, same, isInput⟩ := forall₂_right listed member
    exact ⟨var, same ▸ (mem_zipIdx proper).mp isItem, input_eq_ok labelled isInput⟩
  -- The truth of a cell depends on its index alone, for an unknown tuple has one variable.
  have cells : Matrix.Listed c s (range.lower.indices.toList.map (·, Value.const true) ++ unknown)
      Prod.fst (fun cell => cell.1 ∈ range.lower.indices ∨
        ∃ var, l.numbering.StandsFor var r cell.1 ∧ s var = true)
      (range.lower.indices.toList.map (·, Value.const true) ++ unknown) := by
    refine List.forall₂_same.mpr fun cell member => ⟨rfl, ?_⟩
    rcases List.mem_append.mp member with isKnown | isUnknown
    · obtain ⟨isLower, isTrue⟩ := (known_cell cell).mp isKnown
      rw [isTrue]
      exact (Value.means_const true).congr (by simp [isLower])
    · obtain ⟨var, stands, meant⟩ := unknown_cell cell isUnknown
      have notLower : cell.1 ∉ range.lower.indices :=
        (Bounds.mem_unknowns.mp ((proper.numbers.mem_unknowns found).mpr ⟨var, stands⟩)).2
      refine meant.congr ⟨fun holds => .inr ⟨var, stands, holds⟩, ?_⟩
      rintro (isLower | ⟨other, also, holds⟩)
      · exact absurd isLower notLower
      · rwa [proper.numbers.var_unique formed stands also]
  obtain ⟨wellFormed, holdsAt⟩ := cells.holdsAt ⟨i.size, r.arity⟩
    (fun index => index ∈ range.lower.indices ∨
      ∃ var, l.numbering.StandsFor var r index ∧ s var = true) fun cell member => by
    show cell.1 < i.size ^ r.arity
    rw [agrees.size]
    rcases List.mem_append.mp member with isKnown | isUnknown
    · exact proper.regular.lower_lt found ((known_cell cell).mp isKnown).1
    · obtain ⟨var, stands, -⟩ := unknown_cell cell isUnknown
      exact proper.regular.unknowns_lt found ((proper.numbers.mem_unknowns found).mpr ⟨var, stands⟩)
  refine Matrix.Denotes.of_index rfl rfl wellFormed ?_ ?_
  · intro t member
    have fitting := (agrees.tuples r range found countable t).mp member
    exact ⟨fitting.1, fitting.2.1⟩
  intro t length inside
  rw [holdsAt, agrees.tuples r range found countable t]
  constructor
  · rintro ⟨-, holds⟩
    exact ⟨length, inside, holds⟩
  · rintro ⟨-, -, holds⟩
    refine ⟨?_, holds⟩
    rw [List.map_append, List.mem_append]
    rcases holds with isLower | ⟨var, stands, -⟩
    · exact .inl (List.mem_map.mpr ⟨(_, .const true), (known_cell _).mpr ⟨isLower, rfl⟩, rfl⟩)
    · obtain ⟨cell, member, same, -⟩ := forall₂_left listed ((mem_zipIdx proper).mpr stands)
      exact .inr (List.mem_map.mpr ⟨cell, member, same⟩)

/-- A relation has a tuple exactly if it has a known one or one whose variable is true. -/
theorem Agrees.exists_tuple (agrees : l.Agrees s i) (proper : l.Proper) {r : Relation}
    {range : Range} (found : l.bounds.range? r = some range)
    (countable : (l.bounds.univ.capacity? r.arity).isSome = true) :
    (∃ t, i.tuples r t) ↔ ∃ index, index ∈ range.lower.indices ∨
      ∃ var, l.numbering.StandsFor var r index ∧ s var = true := by
  constructor
  · rintro ⟨t, member⟩
    exact ⟨_, ((agrees.tuples r range found countable t).mp member).2.2⟩
  · rintro ⟨index, holds⟩
    have below : index < i.size ^ r.arity := by
      rw [agrees.size]
      rcases holds with isLower | ⟨var, stands, -⟩
      · exact proper.regular.lower_lt found isLower
      · exact proper.regular.unknowns_lt found ((proper.numbers.mem_unknowns found).mpr ⟨var, stands⟩)
    refine ⟨decodeIndex i.size r.arity index, (agrees.tuples r range found countable _).mpr
      ⟨length_decodeIndex _ _ _, decodeIndex_lt agrees.size_pos _ _, ?_⟩⟩
    rwa [encodeIndex_decodeIndex _ _ _ below]

theorem const_denotes {e : ConstExpr} {m : Matrix} (agrees : l.Agrees s i)
    (ok : l.const e = .ok m) : m.Denotes i.size e.arity c s (e.denote i.size) := by
  rw [agrees.size]
  cases e with
  | univ =>
    obtain ⟨dims, made, rfl⟩ := map_eq_ok.mp ok
    obtain rfl := Matrix.dims_make made
    have fit : ∀ index ∈ List.range l.bounds.univ.size,
        index < (⟨l.bounds.univ.size, 1⟩ : Dims).capacity := by
      intro index member
      show index < l.bounds.univ.size ^ 1
      simpa using member
    refine Matrix.Denotes.of_index rfl rfl (Matrix.ofIndices_formed fit) ?_ ?_
    · rintro t ⟨a, inside, rfl⟩
      exact ⟨rfl, by simpa using inside⟩
    · intro t length inside
      obtain ⟨a, rfl⟩ := List.length_eq_one_iff.mp length
      rw [Matrix.ofIndices_holdsAt fit, encodeIndex_singleton, List.mem_range]
      exact ⟨fun small => ⟨a, small, rfl⟩, fun _ => inside a List.mem_cons_self⟩
  | none =>
    obtain ⟨dims, made, rfl⟩ := map_eq_ok.mp ok
    obtain rfl := Matrix.dims_make made
    refine Matrix.Denotes.of_index rfl rfl ⟨.nil, by simp [Matrix.empty, SortedTable.empty,
      SortedTable.keys], by simp [Matrix.empty, SortedTable.empty, SortedTable.values]⟩ ?_ ?_
    · rintro t ⟨⟩
    · intro t _ _
      simp [Matrix.HoldsAt, Matrix.get, Matrix.empty, SortedTable.empty, SortedTable.find?,
        Value.eval, ConstExpr.denote]
  | iden => exact Matrix.identity_denotes ok

end Leaves

end ModelFinder
