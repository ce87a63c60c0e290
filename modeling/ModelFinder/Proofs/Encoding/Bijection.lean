import ModelFinder.Proofs.Data.Instances
import ModelFinder.Proofs.Encoding.Numbering

/-! Variables and unknown tuples are in bijection. Looking up the tuple of a variable and looking up
the variable of a tuple undo one another, whichever relations have no unknown tuples and share the
start of their range with a neighbour. -/
namespace ModelFinder

namespace Bounds

def Unknown (b : Bounds) (r : Relation) (t : Tuple) : Prop :=
  ∃ range, b.range? r = some range ∧ range.upper.contains t = true ∧ range.lower.contains t = false

def Countable (b : Bounds) : Prop :=
  ∀ r ∈ b.relations.keys, (b.univ.capacity? r.arity).isSome = true

variable {b : Bounds} {r : Relation} {range : Range} {t : Tuple}

theorem mem_keys (found : b.range? r = some range) : r ∈ b.relations.keys :=
  (Table.contains_iff r).mp (Option.isSome_of_eq_some found)

theorem unknown_iff (formed : b.WellFormed) (found : b.range? r = some range) :
    b.Unknown r t ↔ t.univ = b.univ ∧ t.arity = r.arity ∧ t.index ∈ range.unknowns := by
  obtain ⟨lowerUniv, upperUniv, lowerArity, upperArity, -⟩ := formed.ranges r range found
  simp only [Unknown, found, Option.some.injEq, exists_eq_left', ← Bool.not_eq_true,
    TupleSet.contains_iff, lowerUniv, upperUniv, lowerArity, upperArity, mem_unknowns]
  tauto

end Bounds

namespace Numbering

def Consecutive (first stop : Nat) : List (Nat × Nat) → Prop
  | [] => first = stop
  | (lower, upper) :: rest => lower = first ∧ lower ≤ upper ∧ Consecutive upper stop rest

/-- Variables up to the count and unknown tuples are looked up in one another. Each bound relation
has a range of variables, in the order of the bounds and without gaps, and inside a range variables
ascend with the indices of tuples. -/
structure Bijective (n : Numbering) (b : Bounds) : Prop where
  defined : ∀ var, (n.tuple? var).isSome = true ↔ 1 ≤ var ∧ var ≤ n.count
  unknown : ∀ var r t, n.tuple? var = some (r, t) → b.Unknown r t ∧ n.var? r t = some var
  owned : ∀ r t, t.Built → t.univ = b.univ → ((n.var? r t).isSome = true ↔ b.Unknown r t)
  inverse : ∀ r t var, t.Built → t.univ = b.univ → n.var? r t = some var →
    n.tuple? var = some (r, t)
  consecutive : Consecutive 1 (n.count + 1) (b.relations.keys.map n.range)
  ranges : ∀ r var, (∃ t, n.tuple? var = some (r, t)) ↔ (n.range r).1 ≤ var ∧ var < (n.range r).2
  ascending : ∀ r t u var later, n.tuple? var = some (r, t) → n.tuple? later = some (r, u) →
    (var < later ↔ t.index < u.index)

variable {n : Numbering} {b : Bounds} {r : Relation} {t u : Tuple} {i j var later : Nat}

def tupleAt (n : Numbering) (r : Relation) (i : Nat) : Tuple :=
  ⟨n.univ, decodeIndex n.univ.size r.arity i⟩

@[simp] theorem tupleAt_arity : (n.tupleAt r i).arity = r.arity := length_decodeIndex ..

theorem StandsFor.bound (numbers : n.Numbers b) (stands : n.StandsFor var r i) :
    ∃ range, b.range? r = some range ∧ i ∈ range.unknowns := by
  obtain ⟨e, member, rfl, -⟩ := id stands
  obtain ⟨range, found, -⟩ := numbers.tuples e member
  exact ⟨range, found, (numbers.mem_unknowns found).mpr ⟨var, stands⟩⟩

theorem StandsFor.inside (regular : b.Regular) (numbers : n.Numbers b)
    (stands : n.StandsFor var r i) : i < n.univ.size ^ r.arity := by
  obtain ⟨range, found, unknown⟩ := stands.bound numbers
  rw [numbers.univ]
  exact regular.unknowns_lt found unknown

theorem StandsFor.index_tupleAt (regular : b.Regular) (numbers : n.Numbers b)
    (stands : n.StandsFor var r i) : (n.tupleAt r i).index = i :=
  encodeIndex_decodeIndex _ _ _ (stands.inside regular numbers)

theorem StandsFor.ofIndex_eq (regular : b.Regular) (countable : b.Countable) (numbers : n.Numbers b)
    (stands : n.StandsFor var r i) : Tuple.ofIndex n.univ r.arity i = .ok (n.tupleAt r i) := by
  obtain ⟨range, found, -⟩ := stands.bound numbers
  obtain ⟨capacity, isCapacity⟩ :=
    Option.isSome_iff_exists.mp (countable r (Bounds.mem_keys found))
  have below := stands.inside regular numbers
  rw [numbers.univ] at below
  rw [← capacity?_eq_some isCapacity] at below
  simp only [Tuple.ofIndex, numbers.univ, isCapacity, if_pos below, tupleAt]

theorem tuple?_eq_some (regular : b.Regular) (countable : b.Countable) (numbers : n.Numbers b) :
    n.tuple? var = some (r, t) ↔ ∃ i, n.StandsFor var r i ∧ t = n.tupleAt r i := by
  simp only [tuple?, Option.bind_eq_bind, Option.bind_eq_some_iff, Option.pure_def,
    Option.some.injEq, Prod.exists, Prod.mk.injEq, numbers.locate?_eq_some]
  constructor
  · rintro ⟨q, i, stands, read, isRead, rfl, rfl⟩
    rw [stands.ofIndex_eq regular countable numbers] at isRead
    exact ⟨i, stands, (Option.some.inj isRead).symm⟩
  · rintro ⟨i, stands, rfl⟩
    refine ⟨r, i, stands, _, ?_, rfl, rfl⟩
    rw [stands.ofIndex_eq regular countable numbers]
    rfl

theorem Numbers.unknown_iff (numbers : n.Numbers b) (formed : b.WellFormed) :
    b.Unknown r t ↔ t.univ = b.univ ∧ t.arity = r.arity ∧ ∃ var, n.StandsFor var r t.index := by
  cases found : b.range? r with
  | none =>
    refine iff_of_false (fun ⟨range, bound, _⟩ => ?_) fun ⟨_, _, var, stands⟩ => ?_
    · rw [found] at bound
      cases bound
    · obtain ⟨range, bound, -⟩ := stands.bound numbers
      rw [found] at bound
      cases bound
  | some range => rw [Bounds.unknown_iff formed found, numbers.mem_unknowns found]

theorem Numbers.lt_iff (numbers : n.Numbers b) (formed : b.WellFormed)
    (stands : n.StandsFor var r i) (also : n.StandsFor later r j) : var < later ↔ i < j := by
  obtain ⟨e, member, rfl, lower, found⟩ := stands
  obtain ⟨f, fMember, same, fLower, fFound⟩ := also
  obtain rfl : f = e := Option.some.inj (((numbers.entry?_eq_some formed).mpr ⟨fMember, same⟩).symm.trans
    ((numbers.entry?_eq_some formed).mpr ⟨member, rfl⟩))
  obtain ⟨range, -, tuples⟩ := numbers.tuples f member
  have ascending := List.pairwise_iff_getElem.mp (tuples ▸ Bounds.unknowns_ascending range)
  rw [← Array.getElem?_toList] at found fFound
  obtain ⟨bound, isIndex⟩ := List.getElem?_eq_some_iff.mp found
  obtain ⟨fBound, fIsIndex⟩ := List.getElem?_eq_some_iff.mp fFound
  have forth := ascending (var - f.first) (later - f.first) bound fBound
  have back := ascending (later - f.first) (var - f.first) fBound bound
  rw [isIndex, fIsIndex] at forth back
  by_cases equal : var = later
  · subst equal
    have same : i = j := Option.some.inj (found.symm.trans fFound)
    omega
  · omega

section Ranges

variable {first : Nat} {listed : List (Relation × Range)}

theorem layout_consecutive : Consecutive first (first + Bounds.unknownTotal listed)
    ((layout first listed).map fun e => (e.first, e.stop)) := by
  induction listed generalizing first with
  | nil => rfl
  | cons entry rest ih =>
    have total : Bounds.unknownTotal (entry :: rest) =
        entry.2.unknowns.length + Bounds.unknownTotal rest := rfl
    rw [total, ← Nat.add_assoc]
    exact ⟨rfl, Nat.le_add_right .., ih⟩

end Ranges

theorem Numbers.range_eq (numbers : n.Numbers b) (formed : b.WellFormed) {e : Unknowns}
    (member : e ∈ n.entries) : n.range e.relation = (e.first, e.stop) := by
  rw [range, (numbers.entry?_eq_some formed).mpr ⟨member, rfl⟩]

theorem Numbers.mem_range (numbers : n.Numbers b) (formed : b.WellFormed) :
    (∃ i, n.StandsFor var r i) ↔ (n.range r).1 ≤ var ∧ var < (n.range r).2 := by
  constructor
  · rintro ⟨i, e, member, rfl, lower, found⟩
    rw [numbers.range_eq formed member]
    exact (Unknowns.owns_iff e var).mp (StandsFor.owns lower found)
  · intro inside
    cases isEntry : n.entry? r with
    | none =>
      simp only [range, isEntry] at inside
      omega
    | some e =>
      obtain ⟨member, rfl⟩ := (numbers.entry?_eq_some formed).mp isEntry
      rw [numbers.range_eq formed member] at inside
      have bound : var - e.first < e.tuples.size := by
        unfold Unknowns.stop at inside
        omega
      exact ⟨e.tuples[var - e.first], e, member, rfl, inside.1, Array.getElem?_eq_getElem bound⟩

end Numbering

/-- For bounds that were built, whose relations have tuples that can be counted and whose unknown
tuples a word can count: variables from 1 up to the number of unknown tuples, as the sizes of the
bounds give it, and unknown tuples are in bijection. -/
theorem numbering_bijective {b : Bounds} (built : b.Built) (small : b.unknownCount < wordBound)
    (countable : b.Countable) : (Numbering.ofBounds b).Bijective b ∧
      (Numbering.ofBounds b).count = b.unknownCount := by
  have regular := built.regular
  have formed := regular.formed
  obtain ⟨numbers, count⟩ := Numbering.ofBounds_numbers formed small
  have tuple {var r t} := @Numbering.tuple?_eq_some (.ofBounds b) b r t var regular countable numbers
  refine ⟨⟨?defined, ?unknown, ?owned, ?inverse, ?consecutive, ?ranges, ?ascending⟩, count⟩
  case defined =>
    intro var
    rw [Option.isSome_iff_exists, Prod.exists]
    constructor
    · rintro ⟨r, t, found⟩
      obtain ⟨i, stands, -⟩ := tuple.mp found
      exact stands.bounds numbers
    · rintro ⟨lower, upper⟩
      obtain ⟨r, i, stands⟩ := numbers.exists_stands lower upper
      exact ⟨r, _, tuple.mpr ⟨i, stands, rfl⟩⟩
  case unknown =>
    intro var r t found
    obtain ⟨i, stands, rfl⟩ := tuple.mp found
    have index := stands.index_tupleAt regular numbers
    rw [← index] at stands
    rw [numbers.unknown_iff formed, numbers.var?_eq_some formed]
    exact ⟨⟨numbers.univ, Numbering.tupleAt_arity, var, stands⟩, Numbering.tupleAt_arity, stands⟩
  case owned =>
    intro r t _ univ
    simp only [Option.isSome_iff_exists, numbers.var?_eq_some formed, numbers.unknown_iff formed,
      univ, true_and, exists_and_left]
  case inverse =>
    intro r t var isBuilt univ found
    obtain ⟨arity, stands⟩ := (numbers.var?_eq_some formed).mp found
    refine tuple.mpr ⟨t.index, stands, ?_⟩
    have same := decodeIndex_encodeIndex t.univ.size t.positions isBuilt.inside
    obtain ⟨u, positions⟩ := t
    obtain rfl : u = b.univ := univ
    rw [Numbering.tupleAt, numbers.univ, ← arity]
    exact congrArg (Tuple.mk b.univ) same.symm
  case consecutive =>
    obtain ⟨isLayout, -⟩ := Numbering.ofBounds_layout formed small
    have ranges : b.relations.keys.map (Numbering.ofBounds b).range =
        (Numbering.layout 1 b.relations.entries).map fun e => (e.first, e.stop) := by
      rw [← numbers.relations, List.map_map, ← isLayout]
      exact List.map_congr_left fun e member => numbers.range_eq formed member
    rw [ranges, count, Bounds.unknownCount_eq formed, Nat.add_comm _ 1]
    exact Numbering.layout_consecutive
  case ranges =>
    intro r var
    rw [← numbers.mem_range formed]
    constructor
    · rintro ⟨t, found⟩
      obtain ⟨i, stands, -⟩ := tuple.mp found
      exact ⟨i, stands⟩
    · rintro ⟨i, stands⟩
      exact ⟨_, tuple.mpr ⟨i, stands, rfl⟩⟩
  case ascending =>
    intro r t u var later found foundLater
    obtain ⟨i, stands, rfl⟩ := tuple.mp found
    obtain ⟨j, also, rfl⟩ := tuple.mp foundLater
    rw [stands.index_tupleAt regular numbers, also.index_tupleAt regular numbers]
    exact numbers.lt_iff formed stands also

/-! Bounds with relations of every kind: over three atoms, a relation that must have one atom and may
have the others, one with no choice, and a binary one of which two pairs are possible. -/
namespace Sample

def letters : Universe := ⟨0, ["a", "b", "c"], by decide, by decide⟩

def partly : Relation := ⟨0, "r", 1, Nat.one_pos⟩

def fixed : Relation := ⟨1, "fixed", 1, Nat.one_pos⟩

def edges : Relation := ⟨2, "s", 2, Nat.two_pos⟩

def only (i : Nat) : TupleSet := ⟨letters, 1, ⟨[i], by simp⟩⟩

def fromFirst : TupleSet := ⟨letters, 2, ⟨[1, 2], by decide⟩⟩

def mixed : Bounds := ⟨letters, ⟨[(partly, ⟨only 1, .all letters 1⟩), (fixed, ⟨only 0, only 0⟩),
  (edges, ⟨.empty letters 2, fromFirst⟩)]⟩, .empty⟩

theorem mixed_built : mixed.Built := by
  have first : (only 0).Built :=
    .ofAtom (show TupleSet.ofAtom letters "a" = .ok (only 0) from rfl)
  have second : (only 1).Built :=
    .ofAtom (show TupleSet.ofAtom letters "b" = .ok (only 1) from rfl)
  have pairs : fromFirst.Built := by
    have one : (Tuple.mk letters [0, 1]).Built :=
      .ofAtoms (show Tuple.ofAtoms letters ["a", "b"] = .ok ⟨letters, [0, 1]⟩ from rfl)
    have two : (Tuple.mk letters [0, 2]).Built :=
      .ofAtoms (show Tuple.ofAtoms letters ["a", "c"] = .ok ⟨letters, [0, 2]⟩ from rfl)
    exact .insert (.insert (.empty letters 2) two rfl) one rfl
  have one : Bounds.Built ⟨letters, ⟨[(partly, ⟨only 1, .all letters 1⟩)]⟩, .empty⟩ := by
    refine (Bounds.Built.empty letters).insert partly second (.all letters 1) ⟨rfl, rfl, rfl, rfl, ?_⟩
    exact TupleSet.le_iff.mpr ⟨rfl, rfl, by decide⟩
  have two : Bounds.Built ⟨letters,
      ⟨[(partly, ⟨only 1, .all letters 1⟩), (fixed, ⟨only 0, only 0⟩)]⟩, .empty⟩ := by
    refine one.insert fixed first first ⟨rfl, rfl, rfl, rfl, ?_⟩
    exact TupleSet.le_iff.mpr ⟨rfl, rfl, fun _ => id⟩
  refine two.insert edges (.empty letters 2) pairs ⟨rfl, rfl, rfl, rfl, ?_⟩
  exact TupleSet.le_iff.mpr ⟨rfl, rfl, fun i absent => absurd absent (IndexSet.not_mem_empty i)⟩

theorem mixed_countable : mixed.Countable := by
  unfold Bounds.Countable
  decide

end Sample

theorem mixed_numbering_bijective : (Numbering.ofBounds Sample.mixed).Bijective Sample.mixed ∧
    (Numbering.ofBounds Sample.mixed).count = 4 :=
  numbering_bijective Sample.mixed_built (by decide) Sample.mixed_countable

end ModelFinder
