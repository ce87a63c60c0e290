import ModelFinder.Proofs.Encoding.Bijection
import ModelFinder.Proofs.Encoding.Worlds
import Mathlib.Data.List.Perm.Subperm

/-! Reading valuations as instances is an isomorphism of orders. Valuations of the variables and
instances that give exactly the bound relations values between their bounds correspond one to one, and
more true variables are more tuples. The instance of listed variables, which is read by other means,
has what a valuation adds to the lower bounds. -/
namespace ModelFinder

namespace Instance

structure Fills (m : Instance) (b : Bounds) : Prop where
  distinct : m.relations.keys.Nodup
  bound : ∀ r, m.contains r = b.contains r
  within : m.Within b
  ints : m.ints = .empty

variable {m other : Instance} {b : Bounds} {r : Relation}

theorem mem_keys : r ∈ m.relations.keys ↔ (m.tuples? r).isSome = true :=
  (Table.contains_iff r).symm

theorem tuples?_eq_none (absent : m.contains r = false) : m.tuples? r = none :=
  Option.isNone_iff_eq_none.mp (Option.isSome_eq_false_iff.mp absent)

theorem agrees_iff (distinct : m.relations.keys.Nodup) (otherDistinct : other.relations.keys.Nodup) :
    m.agrees other = true ↔ m.univ = other.univ ∧ m.ints = other.ints ∧
      ∀ r, m.tuples? r = other.tuples? r := by
  have values : (∀ entry ∈ m.relations.entries, other.tuples? entry.1 = some entry.2) ↔
      ∀ r set, m.tuples? r = some set → other.tuples? r = some set := by
    constructor
    · exact fun each r set isValue => each (r, set) ((Table.find?_eq_some distinct).mp isValue)
    · exact fun each entry member => each _ _ ((Table.find?_eq_some distinct).mpr member)
  have unfolded : m.agrees other = true ↔ m.univ = other.univ ∧
      m.relations.keys.length = other.relations.keys.length ∧
      (∀ r set, m.tuples? r = some set → other.tuples? r = some set) ∧ m.ints = other.ints := by
    rw [← values]
    simp [agrees, Table.keys, and_assoc]
  rw [unfolded]
  constructor
  · rintro ⟨univ, length, part, ints⟩
    have subset : m.relations.keys ⊆ other.relations.keys := by
      intro r member
      obtain ⟨set, isValue⟩ := Option.isSome_iff_exists.mp (mem_keys.mp member)
      exact mem_keys.mpr (Option.isSome_of_eq_some (part r set isValue))
    have same := (distinct.subperm subset).perm_of_length_le length.ge
    refine ⟨univ, ints, fun r => ?_⟩
    cases isValue : m.tuples? r with
    | some set => exact (part r set isValue).symm
    | none =>
      have absent : r ∉ other.relations.keys := by
        rw [← same.mem_iff, mem_keys, isValue]
        exact Bool.false_ne_true
      exact (tuples?_eq_none (Bool.eq_false_iff.mpr (mt (Table.contains_iff r).mp absent))).symm
  · rintro ⟨univ, ints, same⟩
    refine ⟨univ, ?_, fun r set isValue => same r ▸ isValue, ints⟩
    refine ((List.perm_ext_iff_of_nodup distinct otherDistinct).mpr fun r => ?_).length_eq
    rw [mem_keys, mem_keys, same]

end Instance

namespace Numbering

variable {n : Numbering} {b : Bounds} {s t : Nat → Bool} {m other : Instance} {r : Relation}

/-- Valuations are read as instances one to one and onto, and in their order. The instance of listed
variables, repeated or out of range as they may be, has the tuples that they are looked up for, and
a valuation adds to the lower bounds those of its true variables. -/
structure Isomorphic (n : Numbering) (b : Bounds) : Prop where
  reads : ∀ s, ∃ m, n.interpret b s = .ok m ∧ m.Fills b
  injective : ∀ s t m other, n.interpret b s = .ok m → n.interpret b t = .ok other →
    (m.agrees other = true ↔ ∀ var, 1 ≤ var → var ≤ n.count → s var = t var)
  surjective : ∀ m : Instance, m.Fills b → ∃ s read, n.interpret b s = .ok read ∧
    read.agrees m = true
  monotone : ∀ s t m other, n.interpret b s = .ok m → n.interpret b t = .ok other →
    (Below n.count s t ↔ Instance.PartOf b m other)
  lists : ∀ vars, ∃ m, n.instanceOf vars = .ok m ∧ (∀ r, m.contains r = b.contains r) ∧
    ∀ r set, m.tuples? r = some set →
      ∀ tuple, tuple ∈ set.tuples ↔ ∃ var ∈ vars, n.tuple? var = some (r, tuple)
  splits : ∀ s vars m chosen,
    (∀ var, 1 ≤ var → var ≤ n.count → (var ∈ vars ↔ s var = true)) →
    n.interpret b s = .ok m → n.instanceOf vars = .ok chosen →
    ∀ r range set, b.range? r = some range → chosen.tuples? r = some set →
      ∃ value, m.tuples? r = some value ∧ range.lower.union set = .ok value

theorem contains_eq (others : ∀ r, r ∉ b.relations.keys → m.tuples? r = none)
    (each : ∀ r ∈ b.relations.keys, ∃ set, m.tuples? r = some set) (r : Relation) :
    m.contains r = b.contains r := by
  by_cases known : r ∈ b.relations.keys
  · obtain ⟨set, isValue⟩ := each r known
    rw [show b.contains r = true from (Table.contains_iff r).mpr known]
    exact Option.isSome_of_eq_some isValue
  · have absent : b.contains r = false := Bool.eq_false_iff.mpr (mt (Table.contains_iff r).mp known)
    rw [absent]
    exact Option.isSome_eq_false_iff.mpr (Option.isNone_iff_eq_none.mpr (others r known))

theorem interpret_fills (regular : b.Regular) (numbers : n.Numbers b)
    (ok : n.interpret b s = .ok m) : m.Fills b := by
  obtain ⟨depicts, ints⟩ := interpret_eq_ok regular numbers ok
  refine ⟨(interpret_over ok).distinct, contains_eq ?_ ?_, depicts.within regular numbers, ints⟩
  · rw [interpret_eq] at ok
    obtain ⟨-, -, others, -⟩ := Instance.insertAll_eq_ok (numbers.nodup regular.formed) ok
    rwa [numbers.relations] at others
  · intro r known
    obtain ⟨⟨q, range⟩, isEntry, rfl⟩ := List.mem_map.mp known
    obtain ⟨set, isValue, -⟩ := depicts.values q range ((Bounds.mem_entries regular.formed).mp isEntry)
    exact ⟨set, isValue⟩

/-- A valuation depicts one value of each bound relation only. -/
theorem Depicts.tuples?_eq (depicts : n.Depicts b s m) (also : n.Depicts b s other) {range : Range}
    (found : b.range? r = some range) : m.tuples? r = other.tuples? r := by
  obtain ⟨set, isValue, univ, arity, members⟩ := depicts.values r range found
  obtain ⟨same, isSame, sameUniv, sameArity, sameMembers⟩ := also.values r range found
  have indices : set.indices = same.indices :=
    IndexSet.ext_mem fun i => (members i).trans (sameMembers i).symm
  have equal : set = same := by
    obtain ⟨u, k, _⟩ := set
    obtain rfl : u = same.univ := univ.trans sameUniv.symm
    obtain rfl : k = same.arity := arity.trans sameArity.symm
    exact congrArg (TupleSet.mk same.univ same.arity) indices
  rw [isValue, isSame, equal]

/-- Two instances within the bounds agree exactly if the valuations that depict them do. -/
theorem Depicts.agrees_iff (regular : b.Regular) (numbers : n.Numbers b)
    (depicts : n.Depicts b s m) (also : n.Depicts b t other) (fills : m.Fills b)
    (otherFills : other.Fills b) :
    m.agrees other = true ↔ ∀ var, 1 ≤ var → var ≤ n.count → s var = t var := by
  rw [Instance.agrees_iff fills.distinct otherFills.distinct]
  constructor
  · rintro ⟨-, -, same⟩ var lower upper
    have valuations : n.valuation m var = n.valuation other var := by
      simp only [valuation, same]
    rwa [depicts.valuation_eq regular numbers lower upper,
      also.valuation_eq regular numbers lower upper] at valuations
  · intro same
    refine ⟨depicts.univ.trans also.univ.symm, fills.ints.trans otherFills.ints.symm, fun r => ?_⟩
    cases found : b.range? r with
    | some range => exact (depicts.agree numbers same).tuples?_eq also found
    | none =>
      have unbound : b.contains r = false := by
        show (b.range? r).isSome = false
        rw [found]
        rfl
      rw [Instance.tuples?_eq_none ((fills.bound r).trans unbound),
        Instance.tuples?_eq_none ((otherFills.bound r).trans unbound)]

theorem readBack_succeeds (regular : b.Regular) (countable : b.Countable) (numbers : n.Numbers b)
    (var : Nat) : ∃ read, n.readBack var = .ok read := by
  unfold readBack
  cases located : n.locate? var with
  | none => exact ⟨none, rfl⟩
  | some place =>
    have stands := numbers.locate?_eq_some.mp located
    exact ⟨_, bind_eq_ok.mpr ⟨_, stands.ofIndex_eq regular countable numbers, rfl⟩⟩

theorem instanceOf_succeeds_iff {vars : List Nat} :
    (∃ m, n.instanceOf vars = .ok m) ↔ ∀ var ∈ vars, ∃ read, n.readBack var = .ok read := by
  rw [← exists_mapM_iff]
  constructor
  · rintro ⟨m, ok⟩
    obtain ⟨reads, isRead, -⟩ := bind_eq_ok.mp ok
    exact ⟨reads, isRead⟩
  · rintro ⟨reads, isRead⟩
    obtain ⟨m, inserted⟩ := @Instance.insertAll_succeeds (.empty n.univ) Unknowns (·.relation)
      (fun e => .ok (n.valueOf (reads.filterMap id) e)) n.entries
      fun e _ => ⟨_, rfl, rfl, rfl⟩
    exact ⟨m, bind_eq_ok.mpr ⟨reads, isRead, inserted⟩⟩

theorem instanceOf_succeeds (regular : b.Regular) (countable : b.Countable) (numbers : n.Numbers b)
    (vars : List Nat) : ∃ m, n.instanceOf vars = .ok m :=
  instanceOf_succeeds_iff.mpr fun var _ => readBack_succeeds regular countable numbers var

theorem instanceOf_contains (regular : b.Regular) (numbers : n.Numbers b) {vars : List Nat}
    (ok : n.instanceOf vars = .ok m) (r : Relation) : m.contains r = b.contains r := by
  obtain ⟨others, each⟩ := instanceOf_values regular numbers ok
  refine contains_eq others (fun r known => ?_) r
  obtain ⟨set, isValue, -⟩ := each r known
  exact ⟨set, isValue⟩

/-- Listed numbers give a relation the tuples that they are looked up for. -/
theorem instanceOf_tuples (regular : b.Regular) (countable : b.Countable) (numbers : n.Numbers b)
    {vars : List Nat} (ok : n.instanceOf vars = .ok m) {set : TupleSet}
    (isValue : m.tuples? r = some set) (tuple : Tuple) :
    tuple ∈ set.tuples ↔ ∃ var ∈ vars, n.tuple? var = some (r, tuple) := by
  obtain ⟨others, each⟩ := instanceOf_values regular numbers ok
  have known : r ∈ b.relations.keys := by
    by_contra unknown
    rw [others r unknown] at isValue
    cases isValue
  obtain ⟨same, isSame, univ, arity, members⟩ := each r known
  obtain rfl := Option.some.inj (isValue.symm.trans isSame)
  simp only [TupleSet.tuples, List.mem_map, ← IndexSet.mem_def, members,
    tuple?_eq_some regular countable numbers, tupleAt, univ, arity, numbers.univ]
  constructor
  · rintro ⟨i, ⟨var, listed, stands⟩, rfl⟩
    exact ⟨var, listed, i, stands, rfl⟩
  · rintro ⟨var, listed, i, stands, rfl⟩
    exact ⟨i, ⟨var, listed, stands⟩, rfl⟩

/-- What a valuation depicts is a lower bound with the tuples that its true variables are looked up
for. -/
theorem Depicts.union_eq (regular : b.Regular) (numbers : n.Numbers b) (depicts : n.Depicts b s m)
    {vars : List Nat} (truth : ∀ var, 1 ≤ var → var ≤ n.count → (var ∈ vars ↔ s var = true))
    (listed : n.instanceOf vars = .ok other) {range : Range} {set : TupleSet}
    (found : b.range? r = some range) (isChosen : other.tuples? r = some set) :
    ∃ value, m.tuples? r = some value ∧ range.lower.union set = .ok value := by
  obtain ⟨value, isValue, univ, arity, members⟩ := depicts.values r range found
  obtain ⟨same, isSame, setUniv, setArity, setMembers⟩ :=
    (instanceOf_values regular numbers listed).2 r (Bounds.mem_keys found)
  obtain rfl := Option.some.inj (isChosen.symm.trans isSame)
  obtain ⟨lowerUniv, -, lowerArity, -⟩ := regular.formed.ranges r range found
  have chosen : ∀ i, (∃ var ∈ vars, n.StandsFor var r i) ↔
      ∃ var, n.StandsFor var r i ∧ s var = true := by
    intro i
    refine exists_congr fun var => and_comm.trans (and_congr_right fun stands => ?_)
    exact truth var (stands.bounds numbers).1 (stands.bounds numbers).2
  have indices : range.lower.indices.union set.indices = value.indices :=
    IndexSet.ext_mem fun i => by rw [IndexSet.mem_union, members, setMembers, chosen]
  refine ⟨value, isValue, bind_eq_ok.mpr ⟨(), ?_, ?_⟩⟩
  · rw [TupleSet.compatible, if_neg (not_not_intro (setUniv.trans lowerUniv.symm)),
      if_neg (not_not_intro (setArity.trans lowerArity.symm))]
  · rw [indices, pure_eq_ok, lowerUniv, lowerArity, ← univ, ← arity]

end Numbering

/-- For bounds that were built, whose relations have tuples that can be counted and whose unknown
tuples a word can count, valuations of the variables are isomorphic to the instances between the
bounds. -/
theorem interpret_isomorphic {b : Bounds} (built : b.Built) (small : b.unknownCount < wordBound)
    (countable : b.Countable) : (Numbering.ofBounds b).Isomorphic b := by
  have regular := built.regular
  obtain ⟨numbers, -⟩ := Numbering.ofBounds_numbers regular.formed small
  generalize Numbering.ofBounds b = n at numbers
  have reads : ∀ s, ∃ m, n.interpret b s = .ok m := by
    intro s
    refine Numbering.interpret_succeeds regular numbers fun var r i stands _ => ?_
    obtain ⟨range, found, -⟩ := stands.bound numbers
    exact countable r (Bounds.mem_keys found)
  refine ⟨?reads, ?injective, ?surjective, ?monotone, ?lists, ?splits⟩
  case reads =>
    intro s
    obtain ⟨m, ok⟩ := reads s
    exact ⟨m, ok, Numbering.interpret_fills regular numbers ok⟩
  case injective =>
    intro s t m other ok also
    exact (Numbering.interpret_eq_ok regular numbers ok).1.agrees_iff regular numbers
      (Numbering.interpret_eq_ok regular numbers also).1
      (Numbering.interpret_fills regular numbers ok) (Numbering.interpret_fills regular numbers also)
  case surjective =>
    intro m fills
    obtain ⟨read, ok⟩ := reads (n.valuation m)
    refine ⟨n.valuation m, read, ok, ?_⟩
    refine ((Numbering.interpret_eq_ok regular numbers ok).1.agrees_iff regular numbers
      (Numbering.valuation_depicts regular numbers fills.within)
      (Numbering.interpret_fills regular numbers ok) fills).mpr fun _ _ _ => rfl
  case monotone =>
    intro s t m other ok also
    exact (Numbering.Depicts.partOf_iff regular numbers
      (Numbering.interpret_eq_ok regular numbers ok).1
      (Numbering.interpret_eq_ok regular numbers also).1).symm
  case lists =>
    intro vars
    obtain ⟨m, ok⟩ := Numbering.instanceOf_succeeds regular countable numbers vars
    exact ⟨m, ok, Numbering.instanceOf_contains regular numbers ok,
      fun r set => Numbering.instanceOf_tuples regular countable numbers ok⟩
  case splits =>
    intro s vars m chosen truth ok listed r range set found isChosen
    obtain ⟨depicts, -⟩ := Numbering.interpret_eq_ok regular numbers ok
    exact depicts.union_eq regular numbers truth listed found isChosen

theorem mixed_interpret_isomorphic : (Numbering.ofBounds Sample.mixed).Isomorphic Sample.mixed :=
  interpret_isomorphic Sample.mixed_built (by decide) Sample.mixed_countable

end ModelFinder
