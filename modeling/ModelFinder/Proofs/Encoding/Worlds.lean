import ModelFinder.Proofs.Data.Instances
import ModelFinder.Proofs.Encoding.Leaves

/-! Valuations of the variables and instances within bounds are two views of one thing. A valuation
depicts the instance that gives every relation its lower bound and the unknown tuples whose variables
are true; every instance within the bounds is depicted by a valuation, and an instance is part of
another exactly if its valuation is below the other's. -/
namespace ModelFinder

def Below (count : Nat) (s t : Nat → Bool) : Prop :=
  ∀ var, 1 ≤ var → var ≤ count → s var = true → t var = true

namespace Numbering

/-- The instance gives every bound relation its lower bound and the unknown tuples whose variables
are true. -/
structure Depicts (n : Numbering) (b : Bounds) (s : Nat → Bool) (m : Instance) : Prop where
  univ : m.univ = b.univ
  values : ∀ r range, b.range? r = some range → ∃ set, m.tuples? r = some set ∧
    set.univ = b.univ ∧ set.arity = r.arity ∧ ∀ i, i ∈ set.indices ↔
      i ∈ range.lower.indices ∨ ∃ var, n.StandsFor var r i ∧ s var = true

def chosen (n : Numbering) (s : Nat → Bool) (r : Relation) : List Nat :=
  (((n.unknowns r).zipIdx (n.range r).1).filter fun (_, var) => s var).map (·.1)

def instanceAt (n : Numbering) (b : Bounds) (s : Nat → Bool) : Instance where
  univ := b.univ
  relations := ⟨b.relations.entries.map fun (r, range) =>
    (r, ⟨b.univ, r.arity, range.lower.indices.union (.ofList (n.chosen s r))⟩)⟩
  ints := b.ints

def valuation (n : Numbering) (m : Instance) (var : Nat) : Bool :=
  match n.locate? var with
  | some (r, i) => ((m.tuples? r).map (·.indices.contains i)).getD false
  | none => false

variable {n : Numbering} {b : Bounds} {s t : Nat → Bool} {m other : Instance}

theorem mem_chosen (regular : b.Regular) (numbers : n.Numbers b) {r : Relation} {i : Nat} :
    i ∈ n.chosen s r ↔ ∃ var, n.StandsFor var r i ∧ s var = true := by
  have stands := @Leaves.mem_zipIdx ⟨b, n⟩ ⟨regular, numbers⟩ r
  simp only [chosen, List.mem_map, List.mem_filter]
  constructor
  · rintro ⟨⟨i, var⟩, ⟨listed, holds⟩, rfl⟩
    exact ⟨var, stands.mp listed, holds⟩
  · rintro ⟨var, isVar, holds⟩
    exact ⟨(i, var), ⟨stands.mpr isVar, holds⟩, rfl⟩

theorem instanceAt_over (regular : b.Regular) (s : Nat → Bool) : (n.instanceAt b s).Over b.univ := by
  refine ⟨rfl, ?_, fun entry member => ?_⟩
  · simpa [instanceAt, Table.keys, Function.comp_def] using regular.formed.distinct
  · obtain ⟨_, -, rfl⟩ := List.mem_map.mp member
    rfl

theorem instanceAt_depicts (regular : b.Regular) (numbers : n.Numbers b) (s : Nat → Bool) :
    n.Depicts b s (n.instanceAt b s) := by
  refine ⟨rfl, fun r range found => ?_⟩
  have listed : (r, (⟨b.univ, r.arity,
      range.lower.indices.union (.ofList (n.chosen s r))⟩ : TupleSet)) ∈
      (n.instanceAt b s).relations.entries :=
    List.mem_map.mpr ⟨(r, range), (Bounds.mem_entries regular.formed).mpr found, rfl⟩
  have distinct := (@instanceAt_over n b regular s).distinct
  refine ⟨_, (Table.find?_eq_some distinct).mpr listed, rfl, rfl, fun i => ?_⟩
  rw [IndexSet.mem_union, IndexSet.mem_ofList, mem_chosen regular numbers]

theorem Depicts.agrees (depicts : n.Depicts b s m) (regular : b.Regular) (numbers : n.Numbers b) :
    (⟨b, n⟩ : Leaves).Agrees s m.interpretation := by
  have sameSize : m.interpretation.size = b.univ.size := congrArg Universe.size depicts.univ
  refine ⟨sameSize, fun r range found _ tuple => ?_⟩
  obtain ⟨set, isValue, univ, arity, members⟩ := depicts.values r range found
  have fits : set.Fits := by
    intro i member
    rw [univ, arity]
    rcases (members i).mp member with lower | ⟨var, stands, -⟩
    · exact regular.lower_lt found lower
    · exact regular.unknowns_lt found ((numbers.mem_unknowns found).mpr ⟨var, stands⟩)
  have positions := @TupleSet.mem_positions set fits tuple
  rw [univ, arity, members] at positions
  rw [sameSize, ← positions]
  constructor
  · rintro ⟨other, isOther, member⟩
    rwa [← Option.some.inj (isValue.symm.trans isOther)] at member
  · exact fun member => ⟨set, isValue, member⟩

theorem Depicts.within (depicts : n.Depicts b s m) (regular : b.Regular) (numbers : n.Numbers b) :
    m.Within b := by
  refine ⟨depicts.univ, fun r range found => ?_⟩
  obtain ⟨set, isValue, univ, arity, members⟩ := depicts.values r range found
  obtain ⟨lowerUniv, upperUniv, lowerArity, upperArity, contained⟩ :=
    regular.formed.ranges r range found
  have inUpper := (TupleSet.le_iff.mp contained).2.2
  refine ⟨set, isValue, TupleSet.le_iff.mpr ⟨lowerUniv.trans univ.symm,
    lowerArity.trans arity.symm, fun i lower => (members i).mpr (.inl lower)⟩,
    TupleSet.le_iff.mpr ⟨univ.trans upperUniv.symm, arity.trans upperArity.symm, fun i member => ?_⟩⟩
  rcases (members i).mp member with lower | ⟨var, stands, -⟩
  · exact inUpper i lower
  · exact (Bounds.mem_unknowns.mp ((numbers.mem_unknowns found).mpr ⟨var, stands⟩)).1

theorem valuation_depicts (regular : b.Regular) (numbers : n.Numbers b) (within : m.Within b) :
    n.Depicts b (n.valuation m) m := by
  refine ⟨within.1, fun r range found => ?_⟩
  obtain ⟨set, isValue, above, below⟩ := within.2 r range found
  obtain ⟨-, upperUniv, -, upperArity, -⟩ := regular.formed.ranges r range found
  obtain ⟨-, -, lower⟩ := TupleSet.le_iff.mp above
  obtain ⟨univ, arity, upper⟩ := TupleSet.le_iff.mp below
  have truth : ∀ var i, n.StandsFor var r i → (n.valuation m var = true ↔ i ∈ set.indices) := by
    intro var i stands
    rw [valuation, numbers.locate?_eq_some.mpr stands]
    simp [isValue]
  refine ⟨set, isValue, univ.trans upperUniv, arity.trans upperArity, fun i => ⟨fun member => ?_, ?_⟩⟩
  · by_cases isLower : i ∈ range.lower.indices
    · exact .inl isLower
    · obtain ⟨var, stands⟩ := (numbers.mem_unknowns found).mp
        (Bounds.mem_unknowns.mpr ⟨upper i member, isLower⟩)
      exact .inr ⟨var, stands, (truth var i stands).mpr member⟩
  · rintro (isLower | ⟨var, stands, holds⟩)
    · exact lower i isLower
    · exact (truth var i stands).mp holds

theorem Depicts.has_iff (depicts : n.Depicts b s m) {r : Relation} {range : Range}
    (found : b.range? r = some range) {tuple : Tuple} :
    m.Has r tuple ↔ tuple.univ = b.univ ∧ tuple.arity = r.arity ∧
      (tuple.index ∈ range.lower.indices ∨ ∃ var, n.StandsFor var r tuple.index ∧ s var = true) := by
  obtain ⟨set, isValue, univ, arity, members⟩ := depicts.values r range found
  simp only [Instance.Has, isValue, Option.some.injEq, exists_eq_left', TupleSet.contains_iff,
    univ, arity, members]

/-- On the variables in use, a valuation is that of the instance it depicts. -/
theorem Depicts.valuation_eq (depicts : n.Depicts b s m) (regular : b.Regular)
    (numbers : n.Numbers b) {var : Nat} (lower : 1 ≤ var) (upper : var ≤ n.count) :
    n.valuation m var = s var := by
  obtain ⟨r, i, stands⟩ := numbers.exists_stands lower upper
  obtain ⟨e, member, rfl, -⟩ := id stands
  obtain ⟨range, found, -⟩ := numbers.tuples e member
  obtain ⟨set, isValue, -, -, members⟩ := depicts.values _ range found
  have unknown := Bounds.mem_unknowns.mp ((numbers.mem_unknowns found).mpr ⟨var, stands⟩)
  rw [valuation, numbers.locate?_eq_some.mpr stands, Bool.eq_iff_iff]
  simp only [isValue, Option.map_some, Option.getD_some, IndexSet.contains_iff, members, unknown.2,
    false_or]
  constructor
  · rintro ⟨other, same, chosen⟩
    rwa [numbers.var_unique regular.formed stands same]
  · exact fun chosen => ⟨var, stands, chosen⟩

/-- Of depicted instances, one is part of another exactly if its valuation is below the other's. -/
theorem Depicts.partOf_iff (regular : b.Regular) (numbers : n.Numbers b)
    (depicts : n.Depicts b s m) (also : n.Depicts b t other) :
    Instance.PartOf b m other ↔ Below n.count s t := by
  constructor
  · intro contained var lower upper holds
    obtain ⟨r, i, stands⟩ := numbers.exists_stands lower upper
    have known : r ∈ b.relations.keys := by
      obtain ⟨e, member, rfl, -⟩ := stands
      exact numbers.relations ▸ List.mem_map_of_mem member
    obtain ⟨⟨q, range⟩, isEntry, rfl⟩ := List.mem_map.mp known
    have found := (Bounds.mem_entries regular.formed).mp isEntry
    obtain ⟨set, isValue, -, -, members⟩ := depicts.values q range found
    obtain ⟨larger, isLarger, -, -, largerMembers⟩ := also.values q range found
    have inLarger := (TupleSet.le_iff.mp (contained q known set larger isValue isLarger)).2.2 i
      ((members i).mpr (.inr ⟨var, stands, holds⟩))
    have unknown := Bounds.mem_unknowns.mp ((numbers.mem_unknowns found).mpr ⟨var, stands⟩)
    rcases (largerMembers i).mp inLarger with isLower | ⟨another, same, holds⟩
    · exact absurd isLower unknown.2
    · rwa [numbers.var_unique regular.formed stands same]
  · intro below r known set larger isValue isLarger
    obtain ⟨⟨q, range⟩, isEntry, rfl⟩ := List.mem_map.mp known
    have found := (Bounds.mem_entries regular.formed).mp isEntry
    obtain ⟨set', isValue', univ, arity, members⟩ := depicts.values q range found
    obtain ⟨larger', isLarger', largerUniv, largerArity, largerMembers⟩ := also.values q range found
    obtain rfl := Option.some.inj (isValue.symm.trans isValue')
    obtain rfl := Option.some.inj (isLarger.symm.trans isLarger')
    refine TupleSet.le_iff.mpr ⟨univ.trans largerUniv.symm, arity.trans largerArity.symm,
      fun i member => (largerMembers i).mpr ?_⟩
    rcases (members i).mp member with isLower | ⟨var, stands, holds⟩
    · exact .inl isLower
    · obtain ⟨lower, upper⟩ := stands.bounds numbers
      exact .inr ⟨var, stands, below var lower upper holds⟩

/-- What a valuation depicts depends on the variables in use only. -/
theorem Depicts.agree (depicts : n.Depicts b s m) (numbers : n.Numbers b)
    (same : ∀ var, 1 ≤ var → var ≤ n.count → s var = t var) : n.Depicts b t m := by
  refine ⟨depicts.univ, fun r range found => ?_⟩
  obtain ⟨set, isValue, univ, arity, members⟩ := depicts.values r range found
  refine ⟨set, isValue, univ, arity, fun i => (members i).trans (or_congr_right ?_)⟩
  refine exists_congr fun var => and_congr_right fun stands => ?_
  obtain ⟨lower, upper⟩ := stands.bounds numbers
  rw [same var lower upper]

section Interpret

variable {r : Relation} {set result : TupleSet} {indices : List Nat}

theorem withUnknowns_eq_ok (univ : set.univ = n.univ) (arity : set.arity = r.arity)
    (ok : n.withUnknowns r set indices = .ok result) :
    result.univ = n.univ ∧ result.arity = r.arity ∧
      ∀ i, i ∈ result.indices ↔ i ∈ set.indices ∨ i ∈ indices := by
  unfold withUnknowns at ok
  split at ok
  · rename_i none
    obtain rfl := Except.ok.inj ok
    rw [List.isEmpty_iff.mp none]
    exact ⟨univ, arity, by simp⟩
  · obtain ⟨added, isAdded, joined⟩ := bind_eq_ok.mp ok
    obtain ⟨rfl, -⟩ := TupleSet.ofIndices_eq_ok isAdded
    obtain ⟨-, -, rfl⟩ := TupleSet.union_eq_ok joined
    exact ⟨univ, arity, by simp⟩

theorem withUnknowns_succeeds (univ : set.univ = n.univ) (arity : set.arity = r.arity)
    (countable : indices ≠ [] → (n.univ.capacity? r.arity).isSome = true)
    (inside : ∀ i ∈ indices, i < n.univ.size ^ r.arity) :
    ∃ result, n.withUnknowns r set indices = .ok result := by
  unfold withUnknowns
  split
  · exact ⟨set, rfl⟩
  · rename_i some
    obtain ⟨capacity, found⟩ := Option.isSome_iff_exists.mp
      (countable fun none => some (List.isEmpty_iff.mpr none))
    have each : ∀ i ∈ indices, Tuple.ofIndex n.univ r.arity i =
        .ok ⟨n.univ, decodeIndex n.univ.size r.arity i⟩ := by
      intro i member
      have below : i < capacity := by
        rw [capacity?_eq_some found]
        exact inside i member
      simp only [Tuple.ofIndex, found, if_pos below]
    obtain ⟨added, isAdded⟩ : ∃ added, TupleSet.ofIndices n.univ r.arity indices = .ok added := by
      exact ⟨_, map_eq_ok.mpr ⟨_, mapM_of_forall each, rfl⟩⟩
    obtain ⟨rfl, -⟩ := TupleSet.ofIndices_eq_ok isAdded
    refine ⟨_, bind_eq_ok.mpr ⟨_, isAdded, bind_eq_ok.mpr ⟨(), ?_, rfl⟩⟩⟩
    rw [TupleSet.compatible, if_neg (not_not_intro univ.symm), if_neg (not_not_intro arity.symm)]

/-- Unknown tuples that cannot be read are too many to count. -/
theorem withUnknowns_eq_error (univ : set.univ = n.univ) (arity : set.arity = r.arity)
    (inside : ∀ i ∈ indices, i < n.univ.size ^ r.arity) {error : Error}
    (failed : n.withUnknowns r set indices = .error error) :
    error = .tupleCapacity r.arity n.univ.size := by
  cases capacity : n.univ.capacity? r.arity with
  | some _ =>
    obtain ⟨result, ok⟩ := withUnknowns_succeeds univ arity (fun _ => by simp [capacity]) inside
    rw [ok] at failed
    cases failed
  | none =>
    unfold withUnknowns at failed
    split at failed
    · cases failed
    · rename_i some
      obtain ⟨i, rest, rfl⟩ := List.exists_cons_of_ne_nil (mt List.isEmpty_iff.mpr some)
      have unread : TupleSet.ofIndices n.univ r.arity (i :: rest) =
          .error (.tupleCapacity r.arity n.univ.size) := by
        simp [TupleSet.ofIndices, Tuple.ofIndex, capacity, bind, Except.bind]
      rw [unread] at failed
      exact (Except.error.inj failed).symm

def valueAt (n : Numbering) (b : Bounds) (s : Nat → Bool) (e : Unknowns) : Except Error TupleSet :=
  let lower := match b.range? e.relation with
    | some range => range.lower
    | none => .empty n.univ e.relation.arity
  n.withUnknowns e.relation lower
    (((e.tuples.toList.zipIdx e.first).filter fun (_, var) => s var).map (·.1))

theorem interpret_eq (n : Numbering) (b : Bounds) (s : Nat → Bool) : n.interpret b s =
    n.entries.foldlM (fun m e => do m.insert e.relation (← n.valueAt b s e)) (.empty n.univ) := rfl

theorem valueAt_eq (regular : b.Regular) (numbers : n.Numbers b) {e : Unknowns}
    (member : e ∈ n.entries) : ∃ range, b.range? e.relation = some range ∧
      n.valueAt b s e = n.withUnknowns e.relation range.lower (n.chosen s e.relation) := by
  obtain ⟨range, found, -⟩ := numbers.tuples e member
  have entry := (numbers.entry?_eq_some regular.formed).mpr ⟨member, rfl⟩
  refine ⟨range, found, ?_⟩
  simp only [valueAt, found, chosen, unknowns, Numbering.range, entry]

theorem interpret_eq_ok (regular : b.Regular) (numbers : n.Numbers b)
    (ok : n.interpret b s = .ok m) : n.Depicts b s m ∧ m.ints = .empty := by
  rw [interpret_eq] at ok
  obtain ⟨univ, ints, -, each⟩ := Instance.insertAll_eq_ok (numbers.nodup regular.formed) ok
  refine ⟨⟨univ.trans numbers.univ, fun r range found => ?_⟩, ints⟩
  have known : r ∈ n.entries.map (·.relation) :=
    numbers.relations ▸ key_mem ((Bounds.mem_entries regular.formed).mpr found)
  obtain ⟨e, member, rfl⟩ := List.mem_map.mp known
  obtain ⟨set, isSet, isValue⟩ := each e member
  obtain ⟨range', found', isUnion⟩ := @valueAt_eq n b s regular numbers e member
  obtain rfl := Option.some.inj (found.symm.trans found')
  obtain ⟨lowerUniv, -, lowerArity, -⟩ := regular.formed.ranges _ range found
  obtain ⟨setUniv, setArity, members⟩ := withUnknowns_eq_ok (lowerUniv.trans numbers.univ.symm)
    lowerArity (isUnion.symm.trans isSet)
  refine ⟨set, isValue, setUniv.trans numbers.univ, setArity, fun i => ?_⟩
  rw [members, mem_chosen regular numbers]

theorem interpret_over (ok : n.interpret b s = .ok m) : m.Over n.univ := by
  refine foldlM_invariant (Instance.Over · n.univ) (fun e _ before after isOver step => ?_)
    (Instance.empty_over n.univ) ok
  obtain ⟨set, -, inserted⟩ := bind_eq_ok.mp step
  exact isOver.insert inserted

theorem interpret_succeeds (regular : b.Regular) (numbers : n.Numbers b)
    (countable : ∀ var r i, n.StandsFor var r i → s var = true →
      (b.univ.capacity? r.arity).isSome = true) : ∃ m, n.interpret b s = .ok m := by
  rw [interpret_eq]
  refine Instance.insertAll_succeeds fun e member => ?_
  obtain ⟨range, found, isUnion⟩ := @valueAt_eq n b s regular numbers e member
  obtain ⟨lowerUniv, -, lowerArity, -⟩ := regular.formed.ranges _ range found
  have univ := lowerUniv.trans numbers.univ.symm
  rw [isUnion]
  obtain ⟨result, ok⟩ := @withUnknowns_succeeds n e.relation range.lower (n.chosen s e.relation)
    univ lowerArity
    (fun some => by
      obtain ⟨i, isChosen⟩ := List.exists_mem_of_ne_nil _ some
      obtain ⟨var, stands, holds⟩ := (mem_chosen regular numbers).mp isChosen
      rw [numbers.univ]
      exact countable var e.relation i stands holds)
    fun i isChosen => by
      obtain ⟨var, stands, -⟩ := (mem_chosen regular numbers).mp isChosen
      rw [numbers.univ]
      exact regular.unknowns_lt found ((numbers.mem_unknowns found).mpr ⟨var, stands⟩)
  obtain ⟨resultUniv, resultArity, -⟩ := withUnknowns_eq_ok univ lowerArity ok
  exact ⟨result, ok, resultUniv, resultArity⟩

/-- A valuation is not read only for want of numbers for its tuples. -/
theorem interpret_eq_error (regular : b.Regular) (numbers : n.Numbers b) {error : Error}
    (failed : n.interpret b s = .error error) : error.kind = .capacityExceeded := by
  rw [interpret_eq] at failed
  obtain ⟨e, member, before, univ, step⟩ := foldlM_eq_error
    (fun m : Instance => m.univ = n.univ) (fun e _ before after univ step => by
      obtain ⟨set, -, inserted⟩ := bind_eq_ok.mp step
      obtain ⟨-, rfl⟩ := Instance.insert_eq_ok inserted
      exact univ) rfl failed
  obtain ⟨range, found, isUnion⟩ := @valueAt_eq n b s regular numbers e member
  obtain ⟨lowerUniv, -, lowerArity, -⟩ := regular.formed.ranges _ range found
  have sameUniv := lowerUniv.trans numbers.univ.symm
  rcases bind_eq_error.mp step with unread | ⟨set, isValue, rejected⟩
  · rw [isUnion] at unread
    obtain rfl := withUnknowns_eq_error sameUniv lowerArity (fun i isChosen => by
      obtain ⟨var, stands, -⟩ := (mem_chosen regular numbers).mp isChosen
      rw [numbers.univ]
      exact regular.unknowns_lt found ((numbers.mem_unknowns found).mpr ⟨var, stands⟩)) unread
    rfl
  · obtain ⟨setUniv, arity, -⟩ :=
      withUnknowns_eq_ok sameUniv lowerArity (isUnion.symm.trans isValue)
    rw [Instance.insert_of_fitting (setUniv.trans univ.symm) arity] at rejected
    cases rejected

theorem withUnknowns_countable (some : indices ≠ [])
    (ok : n.withUnknowns r set indices = .ok result) : (n.univ.capacity? r.arity).isSome = true := by
  rw [withUnknowns, if_neg (mt List.isEmpty_iff.mp some)] at ok
  obtain ⟨added, isAdded, -⟩ := bind_eq_ok.mp ok
  obtain ⟨tuples, found, -⟩ := map_eq_ok.mp isAdded
  obtain ⟨i, member⟩ := List.exists_mem_of_ne_nil _ some
  obtain ⟨tuple, -, isTuple⟩ := forall₂_left (mapM_eq_ok.mp found) member
  cases capacity : n.univ.capacity? r.arity with
  | none => simp [Tuple.ofIndex, capacity] at isTuple
  | some _ => rfl

theorem interpret_countable (regular : b.Regular) (numbers : n.Numbers b)
    (ok : n.interpret b s = .ok m) {var i : Nat} (stands : n.StandsFor var r i)
    (chosen : s var = true) : (b.univ.capacity? r.arity).isSome = true := by
  rw [interpret_eq] at ok
  obtain ⟨-, -, -, each⟩ := Instance.insertAll_eq_ok (numbers.nodup regular.formed) ok
  obtain ⟨e, member, rfl, -⟩ := id stands
  obtain ⟨set, isSet, -⟩ := each e member
  obtain ⟨range, -, isUnion⟩ := @valueAt_eq n b s regular numbers e member
  rw [← numbers.univ]
  apply withUnknowns_countable _ (isUnion.symm.trans isSet)
  exact List.ne_nil_of_mem ((mem_chosen regular numbers).mpr ⟨var, stands, chosen⟩)

theorem readBack_eq_ok (numbers : n.Numbers b) {var : Nat} {read : Option (Relation × Nat)}
    (ok : n.readBack var = .ok read) {i : Nat} : read = some (r, i) ↔ n.StandsFor var r i := by
  rw [← numbers.locate?_eq_some]
  unfold readBack at ok
  cases located : n.locate? var with
  | none =>
    rw [located] at ok
    obtain rfl := Except.ok.inj ok
    simp
  | some place =>
    obtain ⟨q, j⟩ := place
    rw [located] at ok
    obtain ⟨tuple, isTuple, made⟩ := bind_eq_ok.mp ok
    obtain ⟨rfl, bound⟩ := Tuple.ofIndex_eq_ok isTuple
    obtain rfl := pure_eq_ok.mp made
    rw [Tuple.index, encodeIndex_decodeIndex _ _ _ bound]

def valueOf (n : Numbering) (chosen : List (Relation × Nat)) (e : Unknowns) : TupleSet :=
  ⟨n.univ, e.relation.arity, .ofList ((chosen.filter fun (r, _) => r = e.relation).map (·.2))⟩

theorem instanceOf_values (regular : b.Regular) (numbers : n.Numbers b) {vars : List Nat}
    (ok : n.instanceOf vars = .ok m) :
    (∀ r, r ∉ b.relations.keys → m.tuples? r = none) ∧ ∀ r ∈ b.relations.keys,
      ∃ set, m.tuples? r = some set ∧ set.univ = b.univ ∧ set.arity = r.arity ∧
        ∀ i, i ∈ set.indices ↔ ∃ var ∈ vars, n.StandsFor var r i := by
  obtain ⟨reads, isRead, inserted⟩ := bind_eq_ok.mp ok
  have pairs := mapM_eq_ok.mp isRead
  obtain ⟨-, -, others, each⟩ := @Instance.insertAll_eq_ok (.empty n.univ) m Unknowns (·.relation)
    (fun e => .ok (n.valueOf (reads.filterMap id) e)) n.entries (numbers.nodup regular.formed)
    inserted
  rw [numbers.relations] at others
  refine ⟨others, fun r known => ?_⟩
  have listed : ∀ i, some (r, i) ∈ reads ↔ ∃ var ∈ vars, n.StandsFor var r i := by
    intro i
    constructor
    · intro isIn
      obtain ⟨var, isVar, here⟩ := forall₂_right pairs isIn
      exact ⟨var, isVar, (readBack_eq_ok numbers here).mp rfl⟩
    · rintro ⟨var, isVar, stands⟩
      obtain ⟨read, isIn, here⟩ := forall₂_left pairs isVar
      rwa [(readBack_eq_ok numbers here).mpr stands] at isIn
  obtain ⟨e, member, rfl⟩ := List.mem_map.mp (numbers.relations ▸ known)
  obtain ⟨set, isSet, isValue⟩ := each e member
  obtain rfl := Except.ok.inj isSet
  refine ⟨_, isValue, numbers.univ, rfl, fun i => ?_⟩
  rw [← listed, valueOf, IndexSet.mem_ofList]
  simp only [List.mem_map, List.mem_filter, List.mem_filterMap, id, decide_eq_true_eq,
    Prod.exists, exists_eq_right]

theorem instanceOf_eq_ok (regular : b.Regular) (numbers : n.Numbers b) {vars : List Nat}
    (ok : n.instanceOf vars = .ok m) {tuple : Tuple} : m.Has r tuple ↔
      tuple.univ = b.univ ∧ tuple.arity = r.arity ∧ ∃ var ∈ vars, n.StandsFor var r tuple.index := by
  obtain ⟨others, each⟩ := instanceOf_values regular numbers ok
  by_cases known : r ∈ b.relations.keys
  · obtain ⟨set, isValue, univ, arity, members⟩ := each r known
    simp only [Instance.Has, isValue, Option.some.injEq, exists_eq_left', TupleSet.contains_iff,
      univ, arity, members]
  · constructor
    · rintro ⟨set, isValue, -⟩
      rw [others r known] at isValue
      cases isValue
    · rintro ⟨-, -, var, -, e, member, rfl, -⟩
      exact absurd (numbers.relations ▸ List.mem_map_of_mem member) known

/-- Padding a depicted instance adds the integers and leaves the relations alone. -/
theorem Depicts.pad (depicts : n.Depicts b s m) (regular : b.Regular) :
    ∃ padded, m.pad b = .ok padded ∧ n.Depicts b s padded ∧
      ∀ value, padded.ints.find? value = (b.ints.find? value).or (m.ints.find? value) := by
  obtain ⟨padded, ok, univ, values, ints⟩ := Instance.pad_succeeds regular depicts.univ
  refine ⟨padded, ok, ⟨univ, fun r range found => ?_⟩, ints⟩
  obtain ⟨set, isValue, rest⟩ := depicts.values r range found
  exact ⟨set, by rw [values, isValue]; rfl, rest⟩

end Interpret

end Numbering

end ModelFinder
