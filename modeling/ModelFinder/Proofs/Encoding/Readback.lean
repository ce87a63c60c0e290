import ModelFinder.Proofs.Data.Tuples
import ModelFinder.Proofs.Encoding.Isomorphism
import ModelFinder.Proofs.Encoding.Meaning

/-! Reading tuples back. A tuple of listed atoms is always accepted, but a tuple is made from its
index only where a word can count the tuples of its arity. Up to this limit the two undo one another,
and past it every index is refused. Models are read from the indices of the tuples that they choose, so
a model is read exactly if the tuples of the relations with a choice can be counted. -/
namespace ModelFinder

def Universe.Counts (u : Universe) (arity : Nat) : Prop :=
  arity < arityBound ∧ u.size ^ arity < countBound

theorem Universe.capacity?_of_counts {u : Universe} {arity : Nat} (counts : u.Counts arity) :
    u.capacity? arity = some (u.size ^ arity) := by
  obtain ⟨short, few⟩ := counts
  rw [capacity?, ModelFinder.capacity?, if_neg (Nat.not_le.mpr short)]
  split
  · rfl
  · rename_i several
    have lessThan64 : arity < 64 := by
      by_contra long
      have doubled : 2 ^ 64 ≤ u.size ^ arity :=
        (Nat.pow_le_pow_right Nat.two_pos (Nat.not_lt.mp long)).trans
          (Nat.pow_le_pow_left (Nat.not_le.mp several) arity)
      exact absurd few (Nat.not_lt.mpr doubled)
    rw [if_neg (Nat.not_le.mpr lessThan64)]
    exact if_pos few

theorem Universe.counts_of_capacity? {u : Universe} {arity capacity : Nat}
    (found : u.capacity? arity = some capacity) : u.Counts arity := by
  rw [capacity?, ModelFinder.capacity?] at found
  split at found
  · cases found
  · rename_i short
    refine ⟨Nat.not_le.mp short, ?_⟩
    split at found
    · rename_i single
      rw [Nat.le_antisymm single u.size_pos, Nat.one_pow]
      decide
    · split at found
      · cases found
      · split at found
        · assumption
        · cases found

theorem Universe.capacity?_isSome {u : Universe} {arity : Nat} :
    (u.capacity? arity).isSome = true ↔ u.Counts arity := by
  rw [Option.isSome_iff_exists]
  exact ⟨fun ⟨_, found⟩ => counts_of_capacity? found, fun counts => ⟨_, capacity?_of_counts counts⟩⟩

theorem Universe.capacity?_of_not_counts {u : Universe} {arity : Nat} (many : ¬ u.Counts arity) :
    u.capacity? arity = none := by
  by_contra some
  obtain ⟨capacity, found⟩ := Option.ne_none_iff_exists'.mp some
  exact many (counts_of_capacity? found)

namespace Tuple

variable {u : Universe} {atoms : List String} {arity index : Nat} {t : Tuple}

/-- Where tuples can be counted, one that was accepted is made again from its index. -/
theorem ofIndex_index (ok : ofAtoms u atoms = .ok t) (counts : u.Counts atoms.length) :
    t.index < u.size ^ atoms.length ∧ ofIndex u atoms.length t.index = .ok t := by
  obtain ⟨univ, arity, -⟩ := ofAtoms_eq_ok ok
  obtain ⟨-, -, inside, -⟩ := ofAtoms_eq_ok_iff.mp ok
  refine ⟨?_, ?_⟩
  · rw [← univ, ← arity]
    exact index_lt inside
  · exact (ofIndex_eq_ok_iff (Universe.capacity?_of_counts counts)).mpr ⟨univ, arity, inside, rfl⟩

theorem ofIndex_of_not_counts (many : ¬ u.Counts arity) :
    ofIndex u arity index = .error (.tupleCapacity arity u.size) := by
  rw [ofIndex, Universe.capacity?_of_not_counts many]

end Tuple

def Unknowns.chosen (e : Unknowns) (s : Nat → Bool) : List Nat :=
  ((e.tuples.toList.zipIdx e.first).filter fun (_, var) => s var).map (·.1)

theorem Unknowns.mem_chosen {e : Unknowns} {s : Nat → Bool} {i : Nat} : i ∈ e.chosen s ↔
    ∃ offset, e.tuples[offset]? = some i ∧ s (e.first + offset) = true := by
  simp only [chosen, List.mem_map, List.mem_filter, Prod.exists,
    List.mem_zipIdx_iff_le_and_getElem?_sub]
  constructor
  · rintro ⟨i, var, ⟨⟨lower, found⟩, holds⟩, rfl⟩
    rw [Array.getElem?_toList] at found
    exact ⟨var - e.first, found, by rwa [Nat.add_sub_cancel' lower]⟩
  · rintro ⟨offset, found, holds⟩
    refine ⟨i, e.first + offset, ⟨⟨Nat.le_add_right .., ?_⟩, holds⟩, rfl⟩
    rwa [Nat.add_sub_cancel_left, Array.getElem?_toList]

theorem Unknowns.chosen_ne_nil {e : Unknowns} {s : Nat → Bool} :
    e.chosen s ≠ [] ↔ ∃ offset < e.tuples.size, s (e.first + offset) = true := by
  constructor
  · intro some
    obtain ⟨i, member⟩ := List.exists_mem_of_ne_nil _ some
    obtain ⟨offset, found, holds⟩ := mem_chosen.mp member
    exact ⟨offset, (Array.getElem?_eq_some_iff.mp found).1, holds⟩
  · rintro ⟨offset, bound, holds⟩
    exact List.ne_nil_of_mem (mem_chosen.mpr ⟨offset, Array.getElem?_eq_getElem bound, holds⟩)

namespace Numbering

variable {b : Bounds} {s : Nat → Bool} {vars : List Nat} {var i : Nat} {r : Relation}

/-- A valuation is read exactly if the tuples of each relation that it chooses from can be counted. -/
theorem interpret_succeeds_iff (regular : b.Regular) :
    (∃ m, (ofBounds b).interpret b s = .ok m) ↔ ∀ e ∈ (ofBounds b).entries,
      e.chosen s ≠ [] → b.univ.Counts e.relation.arity := by
  have value : ∀ e ∈ (ofBounds b).entries, ∃ range, b.range? e.relation = some range ∧
      (ofBounds b).valueAt b s e =
        (ofBounds b).withUnknowns e.relation range.lower (e.chosen s) ∧
      ∀ i ∈ e.chosen s, i ∈ range.unknowns := by
    intro e member
    obtain ⟨range, found, tuples⟩ := ofBounds_tuples regular.formed member
    refine ⟨range, found, by simp only [valueAt, found, Unknowns.chosen], fun i isChosen => ?_⟩
    obtain ⟨offset, isIndex, -⟩ := Unknowns.mem_chosen.mp isChosen
    rw [← tuples]
    exact Array.mem_toList_iff.mpr (Array.mem_of_getElem? isIndex)
  rw [interpret_eq]
  constructor
  · rintro ⟨m, ok⟩ e member some
    have distinct : ((ofBounds b).entries.map (·.relation)).Nodup :=
      ofBounds_relations b ▸ regular.formed.distinct
    obtain ⟨-, -, -, each⟩ := Instance.insertAll_eq_ok distinct ok
    obtain ⟨set, isSet, -⟩ := each e member
    obtain ⟨range, -, isUnion, -⟩ := value e member
    exact Universe.capacity?_isSome.mp (withUnknowns_countable some (isUnion.symm.trans isSet))
  · intro counts
    refine Instance.insertAll_succeeds fun e member => ?_
    obtain ⟨range, found, isUnion, unknown⟩ := value e member
    obtain ⟨univ, -, arity, -⟩ := regular.formed.ranges _ range found
    obtain ⟨set, ok⟩ := @withUnknowns_succeeds (ofBounds b) e.relation range.lower (e.chosen s) univ
      arity (fun some => Universe.capacity?_isSome.mpr (counts e member some))
      fun i isChosen => regular.unknowns_lt found (unknown i isChosen)
    obtain ⟨setUniv, setArity, -⟩ := withUnknowns_eq_ok univ arity ok
    exact ⟨set, isUnion.trans ok, setUniv, setArity⟩

theorem ofBounds_locate? (formed : b.WellFormed) (located : (ofBounds b).locate? var = some (r, i)) :
    ∃ range, b.range? r = some range ∧ i ∈ range.unknowns := by
  obtain ⟨e, isOwner, rest⟩ := Option.bind_eq_some_iff.mp located
  obtain ⟨j, found, same⟩ := Option.bind_eq_some_iff.mp rest
  obtain ⟨rfl, rfl⟩ := Prod.mk.inj (Option.some.inj same)
  have member : e ∈ (ofBounds b).entries := by
    unfold owner? at isOwner
    split at isOwner
    · cases isOwner
    · have listed := List.mem_reverse.mp (List.mem_of_find?_eq_some isOwner)
      exact (List.takeWhile_sublist _).subset listed
  obtain ⟨range, isRange, tuples⟩ := ofBounds_tuples formed member
  refine ⟨range, isRange, ?_⟩
  rw [← tuples]
  exact Array.mem_toList_iff.mpr (Array.mem_of_getElem? found)

theorem readBack_succeeds_iff (regular : b.Regular) :
    (∃ read, (ofBounds b).readBack var = .ok read) ↔
      ∀ r i, (ofBounds b).locate? var = some (r, i) → b.univ.Counts r.arity := by
  unfold readBack
  cases located : (ofBounds b).locate? var with
  | none => simp
  | some place =>
    obtain ⟨r, i⟩ := place
    obtain ⟨range, found, unknown⟩ := ofBounds_locate? regular.formed located
    have below := regular.unknowns_lt found unknown
    constructor
    · rintro ⟨read, ok⟩ q j same
      obtain ⟨rfl, -⟩ := Prod.mk.inj (Option.some.inj same)
      obtain ⟨tuple, isTuple, -⟩ := bind_eq_ok.mp ok
      obtain ⟨capacity, isCapacity, -⟩ := Tuple.exists_ofIndex.mp ⟨tuple, isTuple⟩
      exact Universe.counts_of_capacity? isCapacity
    · intro counts
      obtain ⟨tuple, isTuple⟩ := Tuple.exists_ofIndex.mpr
        ⟨_, Universe.capacity?_of_counts (counts r i rfl), below⟩
      exact ⟨_, bind_eq_ok.mpr ⟨tuple, isTuple, rfl⟩⟩

end Numbering

/-- Over any universe, every tuple of listed atoms can be read back exactly if the tuples of its arity
can be counted: then its index is below their number and is made into the same tuple again, and else
there is no number and every index is refused. In bounds that were built, valuations and lists of
variables are therefore read exactly if the tuples that they choose can be counted, and all of them are
read if no relation has a choice of tuples that cannot. -/
theorem accepted_tuples_read_back (u : Universe) :
    (∀ atoms t, Tuple.ofAtoms u atoms = .ok t →
      (u.Counts atoms.length → u.capacity? atoms.length = some (u.size ^ atoms.length) ∧
        t.index < u.size ^ atoms.length ∧ Tuple.ofIndex u atoms.length t.index = .ok t) ∧
      (¬ u.Counts atoms.length → u.capacity? atoms.length = none ∧
        Tuple.ofIndex u atoms.length t.index = .error (.tupleCapacity atoms.length u.size))) ∧
    ∀ b : Bounds, b.Built → b.univ = u →
      (∀ s, (∃ m, (Numbering.ofBounds b).interpret b s = .ok m) ↔
        ∀ e ∈ (Numbering.ofBounds b).entries,
          (∃ offset < e.tuples.size, s (e.first + offset) = true) → u.Counts e.relation.arity) ∧
      (∀ vars, (∃ m, (Numbering.ofBounds b).instanceOf vars = .ok m) ↔
        ∀ var ∈ vars, ∀ r i, (Numbering.ofBounds b).locate? var = some (r, i) →
          u.Counts r.arity) ∧
      ((∀ r range, b.range? r = some range → range.lower ≠ range.upper → u.Counts r.arity) →
        (∀ s, ∃ m, (Numbering.ofBounds b).interpret b s = .ok m) ∧
          ∀ vars, ∃ m, (Numbering.ofBounds b).instanceOf vars = .ok m) := by
  refine ⟨fun atoms t ok => ⟨fun counts => ?_, fun many => ?_⟩, ?_⟩
  · exact ⟨Universe.capacity?_of_counts counts, Tuple.ofIndex_index ok counts⟩
  · exact ⟨Universe.capacity?_of_not_counts many, Tuple.ofIndex_of_not_counts many⟩
  · rintro b built rfl
    have regular := built.regular
    have valuations : ∀ s, (∃ m, (Numbering.ofBounds b).interpret b s = .ok m) ↔ _ := fun s =>
      Numbering.interpret_succeeds_iff regular
    have lists : ∀ vars, (∃ m, (Numbering.ofBounds b).instanceOf vars = .ok m) ↔ _ := fun vars =>
      Numbering.instanceOf_succeeds_iff.trans
        (forall₂_congr fun var _ => Numbering.readBack_succeeds_iff regular)
    refine ⟨fun s => (valuations s).trans ?_, lists, fun counts => ⟨fun s => ?_, fun vars => ?_⟩⟩
    · simp only [Unknowns.chosen_ne_nil]
    · refine (valuations s).mpr fun e member some => ?_
      obtain ⟨range, found, tuples⟩ := Numbering.ofBounds_tuples regular.formed member
      refine counts e.relation range found fun same => ?_
      obtain ⟨offset, bound, -⟩ := Unknowns.chosen_ne_nil.mp some
      rw [Bounds.unknowns_of_exact same] at tuples
      rw [← Array.length_toList, tuples] at bound
      cases bound
    · refine (lists vars).mpr fun var _ r i located => ?_
      obtain ⟨range, found, unknown⟩ := Numbering.ofBounds_locate? regular.formed located
      refine counts r range found fun same => ?_
      rw [Bounds.unknowns_of_exact same] at unknown
      cases unknown

/-! Over two atoms, one relation may have one tuple, and another one may have a tuple of 64 atoms. -/
namespace Sample

def atoms : Universe := ⟨0, ["a", "b"], by decide, by decide⟩

def lowest (arity : Nat) : Tuple := ⟨atoms, List.replicate arity 0⟩

def first (arity : Nat) : TupleSet := ⟨atoms, arity, ⟨[0], by decide⟩⟩

def wide : Relation := ⟨1, "wide", 64, by decide⟩

def free (arity : Nat) : Range := ⟨.empty atoms arity, first arity⟩

def pair : Bounds := ⟨atoms, ⟨[(relation, free 1), (wide, free 64)]⟩, .empty⟩

theorem lowest_accepted (arity : Nat) (positive : 0 < arity) :
    Tuple.ofAtoms atoms (List.replicate arity "a") = .ok (lowest arity) := by
  have listed : (List.replicate arity "a").isEmpty = false := by simp; omega
  rw [Tuple.ofAtoms, listed]
  refine bind_eq_ok.mpr ⟨List.replicate arity 0, ?_, rfl⟩
  rw [← List.map_replicate (f := fun _ : String => 0) (a := "a")]
  apply mapM_of_forall
  intro atom member
  rw [List.eq_of_mem_replicate member]
  rfl

theorem lowest_index (arity : Nat) : (lowest arity).index = 0 := by
  show encodeIndex 2 (List.replicate arity 0) = 0
  induction arity with
  | zero => rfl
  | succ arity ih => exact ih

theorem first_built (arity : Nat) (positive : 0 < arity) : (first arity).Built := by
  refine .insert (.empty atoms arity) (.ofAtoms (lowest_accepted arity positive))
    (bind_eq_ok.mpr ⟨(), ?_, ?_⟩)
  · simp [TupleSet.compatible, TupleSet.empty, Tuple.arity, lowest]
  · apply congrArg Except.ok
    show TupleSet.mk atoms arity (IndexSet.empty.insert (lowest arity).index) = first arity
    rw [lowest_index]
    rfl

theorem pair_built : pair.Built := by
  have contained : ∀ arity, (free arity).lower.Le (free arity).upper := by
    intro arity
    exact TupleSet.le_iff.mpr ⟨rfl, rfl, by simp [free, TupleSet.empty]⟩
  have one : Bounds.Built ⟨atoms, ⟨[(relation, free 1)]⟩, .empty⟩ :=
    (Bounds.Built.empty atoms).insert relation (.empty atoms 1) (first_built 1 (by decide))
      ⟨rfl, rfl, rfl, rfl, contained 1⟩
  exact one.insert wide (.empty atoms 64) (first_built 64 (by decide))
    ⟨rfl, rfl, rfl, rfl, contained 64⟩

theorem free_unknowns (arity : Nat) : (free arity).unknowns = [0] := by
  apply IndexSet.eq_of_mem_iff (Bounds.unknowns_ascending _) (by simp)
  intro i
  rw [Bounds.mem_unknowns]
  simp [free, first, TupleSet.empty, IndexSet.empty, IndexSet.mem_def]

theorem pair_numbering : Numbering.ofBounds pair =
    ⟨atoms, [⟨relation, 1, #[0]⟩, ⟨wide, 2, #[0]⟩], 2⟩ := by
  simp [Numbering.ofBounds, pair, Numbering.number, free_unknowns, Allocator.allocate,
    Allocator.empty, word, wordBound, Allocator.total]

theorem wide_not_counts : ¬ atoms.Counts 64 := fun ⟨_, few⟩ => absurd few (by decide)

end Sample

/-- A pair of letters is read back, and so is every valuation of bounds over letters. -/
theorem sample_tuples_read_back :
    (Sample.letters.capacity? 2 = some 9 ∧ Tuple.index ⟨Sample.letters, [1, 2]⟩ < 9 ∧
      Tuple.ofIndex Sample.letters 2 (Tuple.index ⟨Sample.letters, [1, 2]⟩) =
        .ok ⟨Sample.letters, [1, 2]⟩) ∧
      (∀ s, ∃ m, (Numbering.ofBounds Sample.mixed).interpret Sample.mixed s = .ok m) ∧
      ∀ vars, ∃ m, (Numbering.ofBounds Sample.mixed).instanceOf vars = .ok m := by
  obtain ⟨tuples, models⟩ := accepted_tuples_read_back Sample.letters
  obtain ⟨readable, -⟩ := tuples ["b", "c"] ⟨Sample.letters, [1, 2]⟩ rfl
  obtain ⟨-, -, all⟩ := models Sample.mixed Sample.mixed_built rfl
  refine ⟨readable ⟨by decide, by decide⟩, all fun r range found _ => ?_⟩
  exact Universe.capacity?_isSome.mp (Sample.mixed_countable r (Bounds.mem_keys found))

/-- A tuple of 64 atoms out of two is accepted with the index zero, which cannot be read back, neither
by itself nor in a model that has the tuple. -/
theorem wide_tuple_not_read_back :
    Tuple.ofAtoms Sample.atoms (List.replicate 64 "a") = .ok (Sample.lowest 64) ∧
      (Sample.lowest 64).index = 0 ∧ Sample.atoms.capacity? 64 = none ∧
      Tuple.ofIndex Sample.atoms 64 0 = .error (.tupleCapacity 64 2) ∧
      Sample.pair.Built ∧
      (¬ ∃ m, (Numbering.ofBounds Sample.pair).interpret Sample.pair (fun _ => true) = .ok m) ∧
      ¬ ∃ m, (Numbering.ofBounds Sample.pair).instanceOf [2] = .ok m := by
  have regular := Sample.pair_built.regular
  refine ⟨Sample.lowest_accepted 64 (by decide), Sample.lowest_index 64,
    Universe.capacity?_of_not_counts Sample.wide_not_counts,
    Tuple.ofIndex_of_not_counts Sample.wide_not_counts, Sample.pair_built, ?_, ?_⟩
  · rw [Numbering.interpret_succeeds_iff regular, Sample.pair_numbering]
    intro counts
    exact Sample.wide_not_counts (counts ⟨Sample.wide, 2, #[0]⟩ (by simp) (by decide))
  · rw [Numbering.instanceOf_succeeds_iff]
    intro each
    have counts := (Numbering.readBack_succeeds_iff regular).mp (each 2 (List.mem_singleton_self 2))
    rw [Sample.pair_numbering] at counts
    exact Sample.wide_not_counts (counts Sample.wide 0 rfl)

end ModelFinder
