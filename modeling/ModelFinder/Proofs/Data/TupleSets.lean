import ModelFinder.Proofs.Data.FiledSets

/-! Tuple sets are finite sets of tuples. The indices of a set that was built are those of its tuples,
membership, inclusion and equality are read off them, and every operation does to the tuples what it
does in set theory, along any history of requests, failing ones included. -/
namespace ModelFinder

namespace TupleSet

variable {s other : TupleSet} {t : Tuple} {u : Universe} {arity : Nat}

theorem exists_tuple (fits : s.Fits) {i : Nat} (member : i ∈ s.indices) :
    ∃ t ∈ s.tuples, t.index = i :=
  ⟨_, List.mem_map_of_mem member, encodeIndex_decodeIndex s.univ.size s.arity i (fits i member)⟩

theorem mem_tuples (fits : s.Fits) :
    t ∈ s.tuples ↔ t.univ = s.univ ∧ t.arity = s.arity ∧ t.Inside ∧ t.index ∈ s.indices := by
  have each : ∀ r ∈ s.tuples, r.univ = s.univ ∧ r.arity = s.arity ∧ r.Inside := by
    intro r member
    obtain ⟨i, -, rfl⟩ := List.mem_map.mp member
    exact ⟨rfl, length_decodeIndex .., decodeIndex_lt s.univ.size_pos s.arity i⟩
  constructor
  · intro member
    obtain ⟨univ, isArity, inside⟩ := each t member
    obtain ⟨i, isMember, rfl⟩ := List.mem_map.mp member
    refine ⟨univ, isArity, inside, ?_⟩
    rwa [Tuple.index, encodeIndex_decodeIndex _ _ _ (fits i isMember)]
  · rintro ⟨univ, isArity, inside, member⟩
    obtain ⟨r, isTuple, same⟩ := exists_tuple fits member
    obtain ⟨rUniv, rArity, rInside⟩ := each r isTuple
    exact rInside.eq_of_index inside (rUniv.trans univ.symm) (rArity.trans isArity.symm) same ▸ isTuple

theorem map_index_tuples (fits : s.Fits) : s.tuples.map Tuple.index = s.indices.toList := by
  rw [tuples, List.map_map]
  refine (List.map_congr_left fun i member => ?_).trans (List.map_id _)
  exact encodeIndex_decodeIndex s.univ.size s.arity i (fits i member)

theorem contains_iff_mem (fits : s.Fits) (inside : t.Inside) :
    s.contains t = true ↔ t ∈ s.tuples := by
  simp [mem_tuples fits, contains, inside, and_assoc]

theorem forall_index_iff (fits : s.Fits) {holds : Nat → Prop} :
    (∀ i ∈ s.indices, holds i) ↔ ∀ t ∈ s.tuples, holds t.index := by
  constructor
  · exact fun each t member => each t.index ((mem_tuples fits).mp member).2.2.2
  · intro each i member
    obtain ⟨t, isTuple, rfl⟩ := exists_tuple fits member
    exact each t isTuple

theorem subset_iff_tuples (fits : s.Fits) (otherFits : other.Fits) :
    s.subset other = true ↔
      s.univ = other.univ ∧ s.arity = other.arity ∧ ∀ t ∈ s.tuples, t ∈ other.tuples := by
  refine le_iff.trans (and_congr_right fun univ => and_congr_right fun isArity => ?_)
  refine (forall_index_iff fits).trans (forall₂_congr fun t member => ?_)
  obtain ⟨tUniv, tArity, inside, -⟩ := (mem_tuples fits).mp member
  simp [mem_tuples otherFits, inside, tUniv.trans univ, tArity.trans isArity]

theorem beq_iff_tuples (fits : s.Fits) (otherFits : other.Fits) :
    (s == other) = true ↔
      s.univ = other.univ ∧ s.arity = other.arity ∧ ∀ t, t ∈ s.tuples ↔ t ∈ other.tuples := by
  rw [beq_iff_eq]
  constructor
  · rintro rfl
    exact ⟨rfl, rfl, fun t => Iff.rfl⟩
  · rintro ⟨univ, isArity, same⟩
    obtain ⟨-, -, there⟩ := le_iff.mp
      ((subset_iff_tuples fits otherFits).mpr ⟨univ, isArity, fun t => (same t).mp⟩)
    obtain ⟨-, -, back⟩ := le_iff.mp
      ((subset_iff_tuples otherFits fits).mpr ⟨univ.symm, isArity.symm, fun t => (same t).mpr⟩)
    obtain ⟨v, n, indices⟩ := s
    obtain ⟨w, m, others⟩ := other
    obtain rfl : v = w := univ
    obtain rfl : n = m := isArity
    exact congrArg (TupleSet.mk v n) (IndexSet.ext_mem fun i => ⟨there i, back i⟩)

/-- The indices of a set ascend and are those of its tuples, which have the universe and the arity of
the set, atoms of the universe, and the index that encodes the positions of these atoms. -/
structure Faithful (s : TupleSet) : Prop where
  ascending : s.indices.toList.Pairwise (· < ·)
  keyed : s.tuples.map Tuple.index = s.indices.toList
  univ : ∀ t ∈ s.tuples, t.univ = s.univ
  arity : ∀ t ∈ s.tuples, t.arity = s.arity ∧ t.atoms.length = s.arity
  coded : ∀ t ∈ s.tuples, ∃ positions, t.atoms.map s.univ.position? = positions.map some ∧
    t.index = encodeIndex s.univ.size positions

theorem Fits.faithful (fits : s.Fits) : s.Faithful where
  ascending := s.indices.ascending
  keyed := map_index_tuples fits
  univ t member := ((mem_tuples fits).mp member).1
  arity t member := by
    obtain ⟨-, isArity, inside, -⟩ := (mem_tuples fits).mp member
    exact ⟨isArity, inside.length_atoms.trans isArity⟩
  coded t member := by
    obtain ⟨univ, -, inside, -⟩ := (mem_tuples fits).mp member
    exact univ ▸ ⟨t.positions, inside.map_position?, rfl⟩

/-- The operation succeeds exactly if it is possible, and then gives the set of the universe and the
arity that has exactly the members. -/
structure Outcome (result : Except Error TupleSet) (possible : Prop) (u : Universe) (arity : Nat)
    (member : Tuple → Prop) : Prop where
  succeeds : (∃ s, result = .ok s) ↔ possible
  gives : ∀ s, result = .ok s → s.univ = u ∧ s.arity = arity ∧ ∀ t, t ∈ s.tuples ↔ member t

theorem exists_compatible {made : TupleSet} :
    (∃ r, (do s.compatible u arity; return made) = Except.ok r) ↔ u = s.univ ∧ arity = s.arity := by
  unfold compatible
  by_cases univ : u = s.univ <;> by_cases isArity : arity = s.arity <;>
    simp [univ, isArity, bind, Except.bind, pure, Except.pure]

section Makers

variable {listed : List (List String)} {indices : List Nat} {atom : String}

theorem empty_outcome (u : Universe) (arity : Nat) :
    Outcome (.ok (empty u arity)) True u arity fun _ => False := by
  refine ⟨by simp, ?_⟩
  rintro s ⟨⟩
  refine ⟨rfl, rfl, fun t => ?_⟩
  rw [mem_tuples (Built.empty u arity).fits]
  simp [empty]

theorem all_outcome (u : Universe) (arity : Nat) :
    Outcome (.ok (all u arity)) True u arity fun t =>
      t.univ = u ∧ t.arity = arity ∧ t.Inside ∧ ∃ capacity, u.capacity? arity = some capacity := by
  refine ⟨by simp, ?_⟩
  rintro s ⟨⟩
  refine ⟨rfl, rfl, fun t => ?_⟩
  rw [mem_tuples (Built.all u arity).fits]
  refine and_congr_right fun univ => and_congr_right fun isArity => and_congr_right fun inside => ?_
  rw [all, IndexSet.mem_below]
  cases countable : u.capacity? arity with
  | none => simp
  | some capacity =>
    have below : t.index < capacity := by
      have bound := Tuple.index_lt inside
      rw [univ, isArity] at bound
      exact capacity?_eq_some countable ▸ bound
    simp [below]

theorem exists_ofIndices : (∃ s, ofIndices u arity indices = .ok s) ↔
    ∀ i ∈ indices, ∃ capacity, u.capacity? arity = some capacity ∧ i < capacity := by
  simp only [← Tuple.exists_ofIndex, ← exists_mapM_iff]
  exact exists_map_iff

theorem mem_tuples_ofIndices (ok : ofIndices u arity indices = .ok s) :
    s.univ = u ∧ s.arity = arity ∧ ∀ t, t ∈ s.tuples ↔
      t.univ = u ∧ t.arity = arity ∧ t.Inside ∧ t.index ∈ indices := by
  have fits := (Built.ofIndices ok).fits
  obtain ⟨rfl, -⟩ := ofIndices_eq_ok ok
  refine ⟨rfl, rfl, fun t => ?_⟩
  rw [mem_tuples fits, IndexSet.mem_ofList]

def Listable (u : Universe) (listed : List (List String)) : Prop :=
  listed ≠ [] ∧ ∀ atoms ∈ listed, atoms.length = (listed.headD []).length ∧ atoms ≠ [] ∧
    ∀ atom ∈ atoms, u.contains atom = true

theorem ofTuples_outcome (u : Universe) (listed : List (List String)) :
    Outcome (ofTuples u listed) (Listable u listed) u (listed.headD []).length fun t =>
      t.univ = u ∧ t.Inside ∧ t.atoms ∈ listed := by
  cases listed with
  | nil => exact ⟨by simp [ofTuples, Listable], fun s ok => by cases ok⟩
  | cons first rest =>
    have step (atoms : List String) (t : Tuple) :
        (if atoms.length ≠ first.length then .error .mixedArities else Tuple.ofAtoms u atoms) =
          Except.ok t ↔ atoms.length = first.length ∧ Tuple.ofAtoms u atoms = .ok t := by
      split <;> simp_all
    constructor
    · refine exists_map_iff.trans (exists_mapM_iff.trans ?_)
      simp only [step, exists_and_left, Tuple.exists_ofAtoms, Listable, List.headD_cons]
      exact (and_iff_right (List.cons_ne_nil first rest)).symm
    · intro s ok
      have fits := (Built.ofTuples ok).fits
      obtain ⟨made, found, rfl⟩ := map_eq_ok.mp ok
      have pairs := mapM_eq_ok.mp found
      refine ⟨rfl, rfl, fun t => ?_⟩
      rw [mem_tuples fits, IndexSet.mem_ofList]
      constructor
      · rintro ⟨univ, isArity, inside, member⟩
        obtain ⟨r, isMade, same⟩ := List.mem_map.mp member
        obtain ⟨atoms, isListed, isOk⟩ := forall₂_right pairs isMade
        obtain ⟨length, ok⟩ := (step atoms r).mp isOk
        obtain ⟨-, rUniv, rInside, rfl⟩ := Tuple.ofAtoms_eq_ok_iff.mp ok
        have rArity : r.arity = first.length := rInside.length_atoms.symm.trans length
        obtain rfl : r = t :=
          rInside.eq_of_index inside (rUniv.trans univ.symm) (rArity.trans isArity.symm) same
        exact ⟨univ, inside, isListed⟩
      · rintro ⟨univ, inside, isListed⟩
        obtain ⟨r, isMade, isOk⟩ := forall₂_left pairs isListed
        obtain ⟨length, ok⟩ := (step t.atoms r).mp isOk
        obtain ⟨notNil, -⟩ := Tuple.ofAtoms_eq_ok_iff.mp ok
        have again := Tuple.ofAtoms_eq_ok_iff.mpr ⟨notNil, univ, inside, rfl⟩
        obtain rfl : r = t := Except.ok.inj (ok.symm.trans again)
        exact ⟨univ, inside.length_atoms.symm.trans length, inside, List.mem_map_of_mem isMade⟩

end Makers

section Operations

theorem insert_outcome (built : s.Built) (made : t.Built) :
    Outcome (s.insert t) (t.univ = s.univ ∧ t.arity = s.arity) s.univ s.arity fun r =>
      r ∈ s.tuples ∨ r = t := by
  refine ⟨exists_compatible, fun larger ok => ?_⟩
  have fits := (Built.insert built made ok).fits
  obtain ⟨univ, isArity, rfl⟩ := insert_eq_ok ok
  refine ⟨rfl, rfl, fun r => ?_⟩
  rw [mem_tuples fits, mem_tuples built.fits, IndexSet.mem_insert]
  constructor
  · rintro ⟨rUniv, rArity, inside, same | old⟩
    · exact .inr (inside.eq_of_index made.inside (rUniv.trans univ.symm)
        (rArity.trans isArity.symm) same)
    · exact .inl ⟨rUniv, rArity, inside, old⟩
  · rintro (⟨rUniv, rArity, inside, old⟩ | rfl)
    · exact ⟨rUniv, rArity, inside, .inr old⟩
    · exact ⟨univ, isArity, made.inside, .inl rfl⟩

theorem union_outcome (built : s.Built) (otherBuilt : other.Built) :
    Outcome (s.union other) (other.univ = s.univ ∧ other.arity = s.arity) s.univ s.arity fun r =>
      r ∈ s.tuples ∨ r ∈ other.tuples := by
  refine ⟨exists_compatible, fun both ok => ?_⟩
  have fits := (Built.union built otherBuilt ok).fits
  obtain ⟨univ, isArity, rfl⟩ := union_eq_ok ok
  refine ⟨rfl, rfl, fun r => ?_⟩
  rw [mem_tuples fits, mem_tuples built.fits, mem_tuples otherBuilt.fits, IndexSet.mem_union,
    univ, isArity]
  simp only [← and_or_left]

theorem difference_outcome (built : s.Built) (otherBuilt : other.Built) :
    Outcome (s.difference other) (other.univ = s.univ ∧ other.arity = s.arity) s.univ s.arity
      fun r => r ∈ s.tuples ∧ r ∉ other.tuples := by
  refine ⟨exists_compatible, fun rest ok => ?_⟩
  have fits := (Built.difference built otherBuilt ok).fits
  obtain ⟨univ, isArity⟩ := exists_compatible.mp ⟨rest, ok⟩
  obtain rfl := difference_eq_ok ok
  refine ⟨rfl, rfl, fun r => ?_⟩
  rw [mem_tuples fits, mem_tuples built.fits, mem_tuples otherBuilt.fits, IndexSet.mem_diff,
    univ, isArity]
  tauto

theorem erase_outcome (built : s.Built) (made : t.Built) :
    Outcome (.ok (s.erase t)) True s.univ s.arity fun r => r ∈ s.tuples ∧ r ≠ t := by
  refine ⟨by simp, ?_⟩
  rintro smaller ⟨⟩
  have fits := (Built.erase t built).fits
  have held := contains_iff_mem built.fits made.inside
  unfold erase at fits ⊢
  split at fits <;> rename_i contained
  · rw [if_pos contained]
    refine ⟨rfl, rfl, fun r => ?_⟩
    obtain ⟨univ, isArity, -, -⟩ := (mem_tuples built.fits).mp (held.mp contained)
    rw [mem_tuples fits, mem_tuples built.fits, IndexSet.mem_erase]
    constructor
    · rintro ⟨rUniv, rArity, inside, old, apart⟩
      exact ⟨⟨rUniv, rArity, inside, old⟩, fun same => apart (same ▸ rfl)⟩
    · rintro ⟨⟨rUniv, rArity, inside, old⟩, apart⟩
      refine ⟨rUniv, rArity, inside, old, fun same => apart ?_⟩
      exact inside.eq_of_index made.inside (rUniv.trans univ.symm) (rArity.trans isArity.symm) same
  · rw [if_neg contained]
    refine ⟨rfl, rfl, fun r => (and_iff_left_of_imp ?_).symm⟩
    rintro member rfl
    exact contained (held.mpr member)

theorem ofAtom_outcome (u : Universe) (atom : String) :
    Outcome (ofAtom u atom) (u.contains atom = true) u 1 fun t =>
      t.univ = u ∧ t.Inside ∧ t.atoms = [atom] := by
  have make (t : Tuple) (ok : Tuple.ofAtoms u [atom] = .ok t) :=
    insert_outcome (Built.empty u 1) (.ofAtoms ok)
  constructor
  · have known : (∃ t, Tuple.ofAtoms u [atom] = .ok t) ↔ u.contains atom = true :=
      Tuple.exists_ofAtoms.trans (by simp)
    rw [← known]
    constructor
    · rintro ⟨s, ok⟩
      obtain ⟨t, isTuple, -⟩ := bind_eq_ok.mp ok
      exact ⟨t, isTuple⟩
    · rintro ⟨t, isTuple⟩
      obtain ⟨univ, isArity, -⟩ := Tuple.ofAtoms_eq_ok isTuple
      obtain ⟨s, inserted⟩ := (make t isTuple).succeeds.mpr ⟨univ, isArity⟩
      exact ⟨s, bind_eq_ok.mpr ⟨t, isTuple, inserted⟩⟩
  · intro s ok
    obtain ⟨t, isTuple, inserted⟩ := bind_eq_ok.mp ok
    obtain ⟨univ, isArity, members⟩ := (make t isTuple).gives s inserted
    refine ⟨univ, isArity, fun r => (members r).trans ?_⟩
    rw [((empty_outcome u 1).gives _ rfl).2.2 r, false_or]
    have read : Tuple.ofAtoms u [atom] = .ok r ↔ _ := Tuple.ofAtoms_eq_ok_iff
    rw [isTuple, Except.ok.injEq] at read
    exact eq_comm.trans (read.trans (and_iff_right (List.cons_ne_nil atom [])))

/-- A left and a right tuple have a concatenation, whose index the two indices give. -/
theorem exists_concat (fits : s.Fits) (otherFits : other.Fits) (univ : other.univ = s.univ)
    {a b : Tuple} (left : a ∈ s.tuples) (right : b ∈ other.tuples) :
    ∃ r : Tuple, r.univ = s.univ ∧ r.Inside ∧ r.arity = s.arity + other.arity ∧
      r.index = a.index * s.univ.size ^ other.arity + b.index ∧ r.atoms = a.atoms ++ b.atoms := by
  obtain ⟨aUniv, aArity, aInside, -⟩ := (mem_tuples fits).mp left
  obtain ⟨bUniv, bArity, bInside, -⟩ := (mem_tuples otherFits).mp right
  have both := aInside.exists_append bInside (bUniv.trans (univ.trans aUniv.symm))
  rwa [aUniv, aArity, bArity] at both

/-- The indices of pairs are those of concatenations, so they can be read if these can be counted. -/
theorem exists_pairs (fits : s.Fits) (otherFits : other.Fits) (univ : other.univ = s.univ) :
    (∀ a ∈ s.tuples, ∀ b ∈ other.tuples, ∃ capacity,
      s.univ.capacity? (s.arity + other.arity) = some capacity ∧
        a.index * s.univ.size ^ other.arity + b.index < capacity) ↔
      (s.tuples ≠ [] → other.tuples ≠ [] →
        ∃ capacity, s.univ.capacity? (s.arity + other.arity) = some capacity) := by
  constructor
  · intro each nonempty otherNonempty
    obtain ⟨a, left⟩ := List.exists_mem_of_ne_nil _ nonempty
    obtain ⟨b, right⟩ := List.exists_mem_of_ne_nil _ otherNonempty
    obtain ⟨capacity, isCapacity, -⟩ := each a left b right
    exact ⟨capacity, isCapacity⟩
  · intro countable a left b right
    obtain ⟨capacity, isCapacity⟩ := countable (List.ne_nil_of_mem left) (List.ne_nil_of_mem right)
    obtain ⟨r, rUniv, inside, rArity, rIndex, -⟩ := exists_concat fits otherFits univ left right
    have bound := Tuple.index_lt inside
    rw [rUniv, rArity, rIndex, ← capacity?_eq_some isCapacity] at bound
    exact ⟨capacity, isCapacity, bound⟩

theorem product_outcome (built : s.Built) (otherBuilt : other.Built) :
    Outcome (s.product other)
      (other.univ = s.univ ∧ (∃ stride, s.univ.capacity? other.arity = some stride) ∧
        (s.tuples ≠ [] → other.tuples ≠ [] →
          ∃ capacity, s.univ.capacity? (s.arity + other.arity) = some capacity))
      s.univ (s.arity + other.arity) fun r => r.univ = s.univ ∧ r.Inside ∧
        ∃ a ∈ s.tuples, ∃ b ∈ other.tuples, r.atoms = a.atoms ++ b.atoms := by
  unfold product
  split
  · rename_i foreign
    exact ⟨by simp [foreign], fun r ok => by cases ok⟩
  rename_i sameUniv
  obtain univ : other.univ = s.univ := not_not.mp sameUniv
  cases countable : s.univ.capacity? other.arity with
  | none => exact ⟨by simp, fun r ok => by cases ok⟩
  | some stride =>
    obtain rfl : stride = s.univ.size ^ other.arity := capacity?_eq_some countable
    have fits := built.fits
    have otherFits := otherBuilt.fits
    simp only [← map_index_tuples fits, ← map_index_tuples otherFits]
    have pairs (i : Nat) : (i ∈ (s.tuples.map Tuple.index).flatMap fun i =>
        (other.tuples.map Tuple.index).map fun j => i * s.univ.size ^ other.arity + j) ↔
          ∃ a ∈ s.tuples, ∃ b ∈ other.tuples, a.index * s.univ.size ^ other.arity + b.index = i := by
      simp
    constructor
    · rw [exists_ofIndices, ← exists_pairs fits otherFits univ]
      simp only [pairs]
      constructor
      · exact fun each => ⟨univ, ⟨_, rfl⟩, fun a left b right => each _ ⟨a, left, b, right, rfl⟩⟩
      · rintro ⟨-, -, each⟩ i ⟨a, left, b, right, rfl⟩
        exact each a left b right
    · intro product ok
      obtain ⟨productUniv, productArity, members⟩ := mem_tuples_ofIndices ok
      refine ⟨productUniv, productArity, fun t => (members t).trans ?_⟩
      rw [pairs]
      constructor
      · rintro ⟨tUniv, tArity, inside, a, left, b, right, same⟩
        obtain ⟨r, rUniv, rInside, rArity, rIndex, rAtoms⟩ :=
          exists_concat fits otherFits univ left right
        obtain rfl : r = t := rInside.eq_of_index inside (rUniv.trans tUniv.symm)
          (rArity.trans tArity.symm) (rIndex.trans same)
        exact ⟨tUniv, inside, a, left, b, right, rAtoms⟩
      · rintro ⟨tUniv, inside, a, left, b, right, tAtoms⟩
        obtain ⟨r, rUniv, rInside, rArity, rIndex, rAtoms⟩ :=
          exists_concat fits otherFits univ left right
        obtain rfl : r = t :=
          rInside.eq_of_atoms inside (rUniv.trans tUniv.symm) (rAtoms.trans tAtoms.symm)
        exact ⟨tUniv, rArity, inside, a, left, b, right, rIndex.symm⟩

end Operations

/-- The operations on tuple sets, in whatever form the sets are kept. -/
structure Operations (σ : Type) where
  empty : Universe → Nat → σ
  all : Universe → Nat → σ
  ofTuples : Universe → List (List String) → Except Error σ
  ofAtom : Universe → String → Except Error σ
  ofIndices : Universe → Nat → List Nat → Except Error σ
  difference : σ → σ → Except Error σ
  product : σ → σ → Except Error σ
  insert : σ → IndexedTuple → Except Error σ
  union : σ → σ → Except Error σ
  erase : σ → IndexedTuple → σ

def operations : Operations TupleSet where
  empty := empty
  all := all
  ofTuples := ofTuples
  ofAtom := ofAtom
  ofIndices := ofIndices
  difference := difference
  product := product
  insert s t := s.insert t.tuple
  union := union
  erase s t := s.erase t.tuple

def filing : Operations FiledSet where
  empty := FiledSet.empty
  all := FiledSet.all
  ofTuples := FiledSet.ofTuples
  ofAtom := FiledSet.ofAtom
  ofIndices := FiledSet.ofIndices
  difference := FiledSet.difference
  product := FiledSet.product
  insert := FiledSet.insert
  union := FiledSet.union
  erase := FiledSet.erase

/-- A request to make a tuple set, or to change one of those that are held. These are named by their
places. -/
inductive Request where
  | empty (u : Universe) (arity : Nat)
  | all (u : Universe) (arity : Nat)
  | ofTuples (u : Universe) (listed : List (List String))
  | ofAtom (u : Universe) (atom : String)
  | ofIndices (u : Universe) (arity : Nat) (indices : List Nat)
  | difference (left right : Nat)
  | product (left right : Nat)
  | insert (place : Nat) (t : IndexedTuple) (made : t.Made)
  | union (place other : Nat)
  | erase (place : Nat) (t : IndexedTuple) (made : t.Made)

def Request.result? {σ : Type} (ops : Operations σ) (sets : List σ) :
    Request → Option (Except Error σ)
  | empty u arity => some (.ok (ops.empty u arity))
  | all u arity => some (.ok (ops.all u arity))
  | ofTuples u listed => some (ops.ofTuples u listed)
  | ofAtom u atom => some (ops.ofAtom u atom)
  | ofIndices u arity indices => some (ops.ofIndices u arity indices)
  | difference left right => sets[left]?.bind fun s => sets[right]?.map (ops.difference s)
  | product left right => sets[left]?.bind fun s => sets[right]?.map (ops.product s)
  | insert place t _ => sets[place]?.map fun s => ops.insert s t
  | union place other => sets[place]?.bind fun s => sets[other]?.map (ops.union s)
  | erase place t _ => sets[place]?.map fun s => .ok (ops.erase s t)

/-- Where the result goes when so many sets are held: a changed set stays where it is, and a new one
comes last. -/
def Request.place (held : Nat) : Request → Nat
  | insert place .. | union place _ | erase place .. => place
  | _ => held

def serve {σ : Type} (ops : Operations σ) (sets : List σ) (request : Request) : List σ :=
  match request.result? ops sets with
  | some (.ok s) =>
      let place := request.place sets.length
      if place < sets.length then sets.set place s else sets ++ [s]
  | _ => sets

def served {σ : Type} (ops : Operations σ) (requests : List Request) : List σ :=
  requests.foldl (serve ops) []

/-- What set theory says about the request. -/
def Request.Effect (sets : List TupleSet) (result : Except Error TupleSet) : Request → Prop
  | empty u arity => Outcome result True u arity fun _ => False
  | all u arity => Outcome result True u arity fun t =>
      t.univ = u ∧ t.arity = arity ∧ t.Inside ∧ ∃ capacity, u.capacity? arity = some capacity
  | ofTuples u listed => Outcome result (Listable u listed) u (listed.headD []).length fun t =>
      t.univ = u ∧ t.Inside ∧ t.atoms ∈ listed
  | ofAtom u atom => Outcome result (u.contains atom = true) u 1 fun t =>
      t.univ = u ∧ t.Inside ∧ t.atoms = [atom]
  | ofIndices u arity indices => Outcome result
      (∀ i ∈ indices, ∃ capacity, u.capacity? arity = some capacity ∧ i < capacity) u arity fun t =>
        t.univ = u ∧ t.arity = arity ∧ t.Inside ∧ t.index ∈ indices
  | difference left right => ∃ s other, sets[left]? = some s ∧ sets[right]? = some other ∧
      Outcome result (other.univ = s.univ ∧ other.arity = s.arity) s.univ s.arity fun t =>
        t ∈ s.tuples ∧ t ∉ other.tuples
  | product left right => ∃ s other, sets[left]? = some s ∧ sets[right]? = some other ∧
      Outcome result
        (other.univ = s.univ ∧ (∃ stride, s.univ.capacity? other.arity = some stride) ∧
          (s.tuples ≠ [] → other.tuples ≠ [] →
            ∃ capacity, s.univ.capacity? (s.arity + other.arity) = some capacity))
        s.univ (s.arity + other.arity) fun t => t.univ = s.univ ∧ t.Inside ∧
          ∃ a ∈ s.tuples, ∃ b ∈ other.tuples, t.atoms = a.atoms ++ b.atoms
  | insert place t _ => ∃ s, sets[place]? = some s ∧
      Outcome result (t.tuple.univ = s.univ ∧ t.tuple.arity = s.arity) s.univ s.arity fun r =>
        r ∈ s.tuples ∨ r = t.tuple
  | union place other => ∃ s more, sets[place]? = some s ∧ sets[other]? = some more ∧
      Outcome result (more.univ = s.univ ∧ more.arity = s.arity) s.univ s.arity fun t =>
        t ∈ s.tuples ∨ t ∈ more.tuples
  | erase place t _ => ∃ s, sets[place]? = some s ∧
      Outcome result True s.univ s.arity fun r => r ∈ s.tuples ∧ r ≠ t.tuple

variable {sets : List TupleSet} {request : Request} {result : Except Error TupleSet}

theorem exists_held_pair {σ : Type} {sets : List σ} {left right : Nat}
    {operation : σ → σ → Except Error σ} {result : Except Error σ}
    (run : (sets[left]?.bind fun s => sets[right]?.map (operation s)) = some result) :
    ∃ s other, sets[left]? = some s ∧ sets[right]? = some other ∧ operation s other = result := by
  obtain ⟨s, isLeft, mapped⟩ := Option.bind_eq_some_iff.mp run
  obtain ⟨other, isRight, same⟩ := Option.map_eq_some_iff.mp mapped
  exact ⟨s, other, isLeft, isRight, same⟩

/-- From sets that were built every request has its effect, and what it gives is built as well. -/
theorem Request.effect (built : ∀ s ∈ sets, s.Built) (run : request.result? operations sets = some result) :
    request.Effect sets result ∧ ∀ s, result = .ok s → s.Built := by
  have held {place : Nat} {s : TupleSet} (found : sets[place]? = some s) : s.Built :=
    built s (List.mem_of_getElem? found)
  cases request with
  | empty u arity =>
    obtain rfl := Option.some.inj run
    exact ⟨empty_outcome u arity, fun s ok => Except.ok.inj ok ▸ .empty u arity⟩
  | all u arity =>
    obtain rfl := Option.some.inj run
    exact ⟨all_outcome u arity, fun s ok => Except.ok.inj ok ▸ .all u arity⟩
  | ofTuples u listed =>
    obtain rfl := Option.some.inj run
    exact ⟨ofTuples_outcome u listed, fun s => .ofTuples⟩
  | ofAtom u atom =>
    obtain rfl := Option.some.inj run
    exact ⟨ofAtom_outcome u atom, fun s => .ofAtom⟩
  | ofIndices u arity indices =>
    obtain rfl := Option.some.inj run
    exact ⟨⟨exists_ofIndices, fun s => mem_tuples_ofIndices⟩, fun s => .ofIndices⟩
  | difference left right =>
    obtain ⟨s, other, isLeft, isRight, rfl⟩ := exists_held_pair run
    exact ⟨⟨s, other, isLeft, isRight, difference_outcome (held isLeft) (held isRight)⟩,
      fun r => .difference (held isLeft) (held isRight)⟩
  | product left right =>
    obtain ⟨s, other, isLeft, isRight, rfl⟩ := exists_held_pair run
    exact ⟨⟨s, other, isLeft, isRight, product_outcome (held isLeft) (held isRight)⟩,
      fun r => .product (held isLeft) (held isRight)⟩
  | insert place t made =>
    obtain ⟨s, found, rfl⟩ := Option.map_eq_some_iff.mp run
    exact ⟨⟨s, found, insert_outcome (held found) made.built⟩,
      fun r => .insert (held found) made.built⟩
  | union place other =>
    obtain ⟨s, more, found, isOther, rfl⟩ := exists_held_pair run
    exact ⟨⟨s, more, found, isOther, union_outcome (held found) (held isOther)⟩,
      fun r => .union (held found) (held isOther)⟩
  | erase place t made =>
    obtain ⟨s, found, rfl⟩ := Option.map_eq_some_iff.mp run
    exact ⟨⟨s, found, erase_outcome (held found) made.built⟩,
      fun r ok => Except.ok.inj ok ▸ .erase t.tuple (held found)⟩

theorem Request.Effect.place_le (effect : request.Effect sets result) :
    request.place sets.length ≤ sets.length := by
  cases request with
  | insert place t made =>
    obtain ⟨s, found, -⟩ := effect
    exact (List.getElem?_eq_some_iff.mp found).1.le
  | union place other =>
    obtain ⟨s, more, found, -⟩ := effect
    exact (List.getElem?_eq_some_iff.mp found).1.le
  | erase place t made =>
    obtain ⟨s, found, -⟩ := effect
    exact (List.getElem?_eq_some_iff.mp found).1.le
  | _ => exact Nat.le_refl sets.length

theorem serve_error {error : Error} (run : request.result? operations sets = some (.error error)) :
    serve operations sets request = sets := by
  rw [serve, run]

theorem getElem?_serve (run : request.result? operations sets = some (.ok s))
    (inside : request.place sets.length ≤ sets.length) (place : Nat) :
    (serve operations sets request)[place]? =
      if place = request.place sets.length then some s else sets[place]? := by
  simp only [serve, run]
  split
  · rename_i held
    rw [List.getElem?_set, if_pos held]
    simp only [eq_comm]
  · rename_i free
    obtain last : request.place sets.length = sets.length := Nat.le_antisymm inside (Nat.not_lt.mp free)
    rw [last]
    rcases Nat.lt_trichotomy place sets.length with before | rfl | behind
    · rw [List.getElem?_append_left before, if_neg (Nat.ne_of_lt before)]
    · rw [List.getElem?_concat_length, if_pos rfl]
    · have beyond : (sets ++ [s]).length ≤ place := by
        rw [List.length_append, List.length_singleton]
        exact behind
      rw [if_neg (Nat.ne_of_gt behind), List.getElem?_eq_none (Nat.le_of_lt behind),
        List.getElem?_eq_none beyond]

/-- What every request keeps true of the sets held is true of all that are served. -/
theorem served_invariant {σ : Type} {ops : Operations σ} {invariant : σ → Prop}
    (kept : ∀ (sets : List σ) (request : Request) (s : σ), (∀ r ∈ sets, invariant r) →
      request.result? ops sets = some (.ok s) → invariant s)
    (requests : List Request) : ∀ s ∈ served ops requests, invariant s := by
  induction requests using List.reverseRecOn with
  | nil => exact fun s absent => absurd absent List.not_mem_nil
  | append_singleton before request ih =>
    intro s member
    rw [served, List.foldl_concat, ← served, serve] at member
    split at member
    · rename_i made run
      have new : invariant made := kept _ request made ih run
      simp only at member
      split at member
      · exact (List.mem_or_eq_of_mem_set member).elim (ih s) fun same => same ▸ new
      · rcases List.mem_append.mp member with old | last
        · exact ih s old
        · exact List.mem_singleton.mp last ▸ new
    · exact ih s member

theorem served_built (requests : List Request) : ∀ s ∈ served operations requests, s.Built :=
  served_invariant (fun _ _ s built run => (Request.effect built run).2 s rfl) requests

theorem Request.filed {held : List FiledSet} {k : FiledSet} (filed : ∀ k ∈ held, k.Filed)
    (run : request.result? filing held = some (.ok k)) : k.Filed := by
  have found {place : Nat} {k : FiledSet} (isHeld : held[place]? = some k) : k.Filed :=
    filed k (List.mem_of_getElem? isHeld)
  cases request with
  | empty u arity =>
    obtain rfl := Except.ok.inj (Option.some.inj run)
    exact .empty u arity
  | all u arity =>
    obtain rfl := Except.ok.inj (Option.some.inj run)
    exact FiledSet.all_filed u arity
  | ofTuples u listed => exact FiledSet.ofTuples_filed (Option.some.inj run)
  | ofAtom u atom => exact FiledSet.ofAtom_filed (Option.some.inj run)
  | ofIndices u arity indices => exact FiledSet.ofIndices_filed (Option.some.inj run)
  | difference left right =>
    obtain ⟨a, b, isLeft, -, ok⟩ := exists_held_pair run
    exact (found isLeft).difference ok
  | product left right =>
    obtain ⟨a, b, -, -, ok⟩ := exists_held_pair run
    exact FiledSet.product_filed ok
  | insert place t made =>
    obtain ⟨a, isHeld, ok⟩ := Option.map_eq_some_iff.mp run
    exact (found isHeld).insert made ok
  | union place other =>
    obtain ⟨a, b, isHeld, isOther, ok⟩ := exists_held_pair run
    exact (found isHeld).union (found isOther) ok
  | erase place t made =>
    obtain ⟨a, isHeld, ok⟩ := Option.map_eq_some_iff.mp run
    exact Except.ok.inj ok ▸ (found isHeld).erase t

theorem served_filed (requests : List Request) : ∀ k ∈ served filing requests, k.Filed :=
  served_invariant (fun _ _ _ => Request.filed) requests

theorem Request.result?_bare {held : List FiledSet} (filed : ∀ k ∈ held, k.Filed)
    (request : Request) : (request.result? filing held).map (FiledSet.bare <$> ·) =
      request.result? operations (held.map FiledSet.bare) := by
  have found {place : Nat} {k : FiledSet} (isHeld : held[place]? = some k) : k.Filed :=
    filed k (List.mem_of_getElem? isHeld)
  have pair {op : FiledSet → FiledSet → Except Error FiledSet}
      {bareOp : TupleSet → TupleSet → Except Error TupleSet} (left right : Nat)
      (same : ∀ k other, k.Filed → other.Filed →
        FiledSet.bare <$> op k other = bareOp k.bare other.bare) :
      (held[left]?.bind fun k => held[right]?.map (op k)).map (FiledSet.bare <$> ·) =
        (held.map FiledSet.bare)[left]?.bind fun s =>
          (held.map FiledSet.bare)[right]?.map (bareOp s) := by
    rw [List.getElem?_map, List.getElem?_map]
    cases isLeft : held[left]? with
    | none => rfl
    | some k =>
      cases isRight : held[right]? with
      | none => rfl
      | some other => exact congrArg some (same k other (found isLeft) (found isRight))
  cases request with
  | empty u arity => exact congrArg (some ∘ Except.ok) FiledSet.bare_empty
  | all u arity => exact congrArg (some ∘ Except.ok) (FiledSet.all_bare u arity)
  | ofTuples u listed => exact congrArg some (FiledSet.ofTuples_bare u listed)
  | ofAtom u atom => exact congrArg some (FiledSet.ofAtom_bare u atom)
  | ofIndices u arity indices => exact congrArg some (FiledSet.ofIndices_bare u arity indices)
  | difference left right => exact pair left right fun _ _ _ _ => FiledSet.difference_bare
  | product left right => exact pair left right fun _ _ one two => one.product_bare two
  | insert place t made =>
    simp only [result?, List.getElem?_map, Option.map_map]
    exact congrArg (Option.map · held[place]?) (funext fun k => FiledSet.insert_bare made.coded)
  | union place other => exact pair place other fun _ _ _ _ => FiledSet.union_bare
  | erase place t made =>
    simp only [result?, List.getElem?_map, Option.map_map]
    exact congrArg (Option.map · held[place]?)
      (funext fun k => congrArg Except.ok (FiledSet.erase_bare made.coded))

theorem serve_bare {held : List FiledSet} (filed : ∀ k ∈ held, k.Filed) (request : Request) :
    (serve filing held request).map FiledSet.bare =
      serve operations (held.map FiledSet.bare) request := by
  rw [serve, serve, ← Request.result?_bare filed, List.length_map]
  cases request.result? filing held with
  | none => rfl
  | some result =>
    cases result with
    | error error => rfl
    | ok k =>
      by_cases inside : request.place held.length < held.length
      · simp [inside, Functor.map, Except.map, List.map_set]
      · simp [inside, Functor.map, Except.map]

theorem served_bare (requests : List Request) :
    (served filing requests).map FiledSet.bare = served operations requests := by
  induction requests using List.reverseRecOn with
  | nil => rfl
  | append_singleton before request ih =>
    rw [served, served, List.foldl_concat, List.foldl_concat, ← served, ← served, ← ih]
    exact serve_bare (served_filed before) request

end TupleSet

/-- After any requests for tuple sets, failing ones included, the sets that keep their tuples are filed
and are, without the tuples, the sets that keep indices: these stand for the tuples on file, and both
answer alike. Every set that is held is faithful, and membership, inclusion and equality are what they
are for the tuples: sets of different universes or arities are neither included in one another nor equal.
Whatever is requested next has the effect that set theory gives it, in both forms; if it fails, all sets
stay as they are, and otherwise the result is held at its place and all other sets stay as they are. -/
theorem tupleSets_are_sets (requests : List TupleSet.Request) :
    let sets := TupleSet.served TupleSet.operations requests
    let files := TupleSet.served TupleSet.filing requests
    (files.map FiledSet.bare = sets ∧
      ∀ k ∈ files, k.Filed ∧ k.bare.tuples = k.tuples ∧
        (∀ t : IndexedTuple, t.Made → k.contains t = k.bare.contains t.tuple) ∧
        ∀ other ∈ files, k.subset other = k.bare.subset other.bare ∧
          k.same other = (k.bare == other.bare)) ∧
    (∀ s ∈ sets, s.Faithful) ∧
    (∀ s ∈ sets, ∀ t : Tuple, t.Built → (s.contains t = true ↔ t ∈ s.tuples)) ∧
    (∀ s ∈ sets, ∀ other ∈ sets,
      (s.subset other = true ↔
        s.univ = other.univ ∧ s.arity = other.arity ∧ ∀ t ∈ s.tuples, t ∈ other.tuples) ∧
      ((s == other) = true ↔
        s.univ = other.univ ∧ s.arity = other.arity ∧ ∀ t, t ∈ s.tuples ↔ t ∈ other.tuples)) ∧
    (∀ request, (request.result? TupleSet.filing files).map (FiledSet.bare <$> ·) =
        request.result? TupleSet.operations sets ∧
      ∀ result, request.result? TupleSet.operations sets = some result →
        request.Effect sets result ∧
        (∀ error, result = .error error → TupleSet.serve TupleSet.operations sets request = sets) ∧
        (∀ s, result = .ok s →
          (TupleSet.serve TupleSet.operations sets request)[request.place sets.length]? = some s ∧
          ∀ place, place ≠ request.place sets.length →
            (TupleSet.serve TupleSet.operations sets request)[place]? = sets[place]?)) := by
  intro sets files
  have built : ∀ s ∈ sets, s.Built := TupleSet.served_built requests
  have filed : ∀ k ∈ files, k.Filed := TupleSet.served_filed requests
  have bare : files.map FiledSet.bare = sets := TupleSet.served_bare requests
  refine ⟨⟨bare, fun k held => ⟨filed k held, (filed k held).tuples_bare, fun t made => ?_,
      fun other otherHeld => ⟨FiledSet.subset_bare, ?_⟩⟩⟩,
    fun s held => (built s held).fits.faithful,
    fun s held t made => TupleSet.contains_iff_mem (built s held).fits made.inside,
    fun s held other otherHeld => ?_, fun request => ⟨?_, fun result run => ?_⟩⟩
  · exact FiledSet.contains_bare made.coded
  · exact (filed k held).same_bare (filed other otherHeld)
  · have fits := (built s held).fits
    have otherFits := (built other otherHeld).fits
    exact ⟨TupleSet.subset_iff_tuples fits otherFits, TupleSet.beq_iff_tuples fits otherFits⟩
  · rw [TupleSet.Request.result?_bare filed request, bare]
  · obtain ⟨effect, -⟩ := TupleSet.Request.effect built run
    refine ⟨effect, ?_, ?_⟩
    · rintro error rfl
      exact TupleSet.serve_error run
    · rintro s rfl
      have lookup := TupleSet.getElem?_serve run effect.place_le
      exact ⟨(lookup _).trans (if_pos rfl), fun place apart => (lookup place).trans (if_neg apart)⟩

end ModelFinder
