import ModelFinder.Proofs.Data.Built

/-! Tuples are read off their atoms and off their indices alike. The atoms of a tuple name their
positions one to one, and within an arity whose tuples can be counted the indices below the capacity
stand for the tuples one to one, in the lexicographic order of positions. -/
namespace ModelFinder

namespace Universe

variable {u : Universe} {atom : String} {p : Nat}

theorem atom?_eq_some : u.atom? p = some atom ↔ ∃ bound : p < u.atoms.length, u.atoms[p] = atom :=
  List.getElem?_eq_some_iff

/-- Atoms differ pairwise, so the position of an atom is the only place where it stands. -/
theorem position?_eq_some : u.position? atom = some p ↔ u.atom? p = some atom := by
  rw [position?, atom?_eq_some, List.idxOf?_eq_some_iff]
  refine exists_congr fun bound => and_iff_left_of_imp fun here q before there => ?_
  exact Nat.ne_of_lt before (u.distinct.getElem_inj_iff.mp (there.trans here.symm))

theorem contains_iff : u.contains atom = true ↔ ∃ p, u.position? atom = some p := by
  rw [contains, List.contains_iff_mem, ← Option.isSome_iff_exists, position?,
    ← Option.ne_none_iff_isSome, ne_eq, List.idxOf?_eq_none_iff, not_not]

theorem exists_atom (inside : p < u.size) : ∃ atom, u.atom? p = some atom :=
  ⟨u.atoms[p], atom?_eq_some.mpr ⟨inside, rfl⟩⟩

/-- To list the atoms at some positions of the universe is to list atoms with these positions. -/
theorem atoms_eq_iff {atoms : List String} {positions : List Nat} :
    ((∀ p ∈ positions, p < u.size) ∧ positions.filterMap u.atom? = atoms) ↔
      List.Forall₂ (fun atom p => u.position? atom = some p) atoms positions := by
  constructor
  · rintro ⟨inside, rfl⟩
    induction positions with
    | nil => exact .nil
    | cons p rest ih =>
      obtain ⟨here, there⟩ := List.forall_mem_cons.mp inside
      obtain ⟨atom, isAtom⟩ := exists_atom here
      rw [List.filterMap_cons_some isAtom]
      exact .cons (position?_eq_some.mpr isAtom) (ih there)
  · intro related
    induction related with
    | nil => simp
    | @cons atom p atoms positions isPosition _ ih =>
      have isAtom := position?_eq_some.mp isPosition
      obtain ⟨inside, -⟩ := atom?_eq_some.mp isAtom
      rw [List.filterMap_cons_some isAtom, ih.2]
      exact ⟨List.forall_mem_cons.mpr ⟨inside, ih.1⟩, rfl⟩

end Universe

namespace Tuple

variable {u : Universe} {atoms : List String} {arity capacity index : Nat} {s t : Tuple}

def Inside (t : Tuple) : Prop := ∀ p ∈ t.positions, p < t.univ.size

theorem Inside.positions_of_atoms (inside : t.Inside) :
    List.Forall₂ (fun atom p => t.univ.position? atom = some p) t.atoms t.positions :=
  Universe.atoms_eq_iff.mp ⟨inside, rfl⟩

theorem Inside.length_atoms (inside : t.Inside) : t.atoms.length = t.arity :=
  inside.positions_of_atoms.length_eq

theorem Inside.contains (inside : t.Inside) {atom : String} (member : atom ∈ t.atoms) :
    t.univ.contains atom = true := by
  obtain ⟨p, -, isPosition⟩ := forall₂_left inside.positions_of_atoms member
  exact Universe.contains_iff.mpr ⟨p, isPosition⟩

/-- Within an arity an index stands for one tuple. -/
theorem Inside.eq_of_index (sInside : s.Inside) (tInside : t.Inside) (univ : s.univ = t.univ)
    (arity : s.arity = t.arity) (same : s.index = t.index) : s = t := by
  obtain ⟨v, left⟩ := s
  obtain ⟨w, right⟩ := t
  obtain rfl : v = w := univ
  exact congrArg (Tuple.mk v) (encodeIndex_injective v.size left right arity sInside tInside same)

theorem ofAtoms_eq_ok_iff :
    ofAtoms u atoms = .ok t ↔ atoms ≠ [] ∧ t.univ = u ∧ t.Inside ∧ t.atoms = atoms := by
  obtain ⟨v, positions⟩ := t
  unfold ofAtoms
  split
  · rename_i none
    simp [List.isEmpty_iff.mp none]
  · rename_i some
    have notNil : atoms ≠ [] := fun isNil => some (isNil ▸ rfl)
    refine map_eq_ok.trans ?_
    simp only [mapM_eq_ok, Tuple.mk.injEq]
    constructor
    · rintro ⟨found, related, rfl, rfl⟩
      refine ⟨notNil, rfl, Universe.atoms_eq_iff.mpr (related.imp fun atom p isPosition => ?_)⟩
      split at isPosition
      · rename_i known
        exact known.trans (congrArg Option.some (Except.ok.inj isPosition))
      · cases isPosition
    · rintro ⟨-, univ, both⟩
      obtain rfl : v = u := univ
      refine ⟨positions, (Universe.atoms_eq_iff.mp both).imp fun atom p isPosition => ?_, rfl, rfl⟩
      rw [isPosition]

theorem exists_ofAtoms :
    (∃ t, ofAtoms u atoms = .ok t) ↔ atoms ≠ [] ∧ ∀ atom ∈ atoms, u.contains atom = true := by
  simp only [ofAtoms_eq_ok_iff]
  constructor
  · rintro ⟨t, notNil, rfl, inside, rfl⟩
    exact ⟨notNil, fun atom member => inside.contains member⟩
  · rintro ⟨notNil, known⟩
    have each : ∀ atom ∈ atoms, u.position? atom = some ((u.position? atom).getD 0) := by
      intro atom member
      obtain ⟨p, isPosition⟩ := Universe.contains_iff.mp (known atom member)
      rw [isPosition, Option.getD_some]
    have related : List.Forall₂ (fun atom p => u.position? atom = some p) atoms
        (atoms.map fun atom => (u.position? atom).getD 0) :=
      List.forall₂_map_right_iff.mpr (List.forall₂_same.mpr each)
    obtain ⟨inside, same⟩ := Universe.atoms_eq_iff.mpr related
    exact ⟨⟨u, _⟩, notNil, rfl, inside, same⟩

theorem ofIndex_eq_ok_iff (countable : u.capacity? arity = some capacity) :
    ofIndex u arity index = .ok t ↔ t.univ = u ∧ t.arity = arity ∧ t.Inside ∧ t.index = index := by
  constructor
  · intro ok
    have inside : t.Inside := (Tuple.Built.ofIndex ok).inside
    obtain ⟨rfl, bound⟩ := ofIndex_eq_ok ok
    exact ⟨rfl, length_decodeIndex .., inside, encodeIndex_decodeIndex u.size arity index bound⟩
  · rintro ⟨rfl, rfl, inside, rfl⟩
    have bound : t.index < capacity := by
      rw [capacity?_eq_some countable]
      exact index_lt inside
    rw [ofIndex, countable]
    simp only [bound, if_true, Except.ok.injEq]
    exact congrArg (Tuple.mk t.univ) (decodeIndex_encodeIndex t.univ.size t.positions inside)

theorem exists_ofIndex : (∃ t, ofIndex u arity index = .ok t) ↔
    ∃ capacity, u.capacity? arity = some capacity ∧ index < capacity := by
  unfold ofIndex
  cases u.capacity? arity with
  | none => simp
  | some capacity => by_cases bound : index < capacity <;> simp [bound]

theorem Inside.map_position? (inside : t.Inside) :
    t.atoms.map t.univ.position? = t.positions.map some := by
  have related := inside.positions_of_atoms
  rw [← List.forall₂_eq_eq_eq, List.forall₂_map_left_iff, List.forall₂_map_right_iff]
  exact related

theorem Inside.eq_of_atoms (sInside : s.Inside) (tInside : t.Inside) (univ : s.univ = t.univ)
    (same : s.atoms = t.atoms) : s = t := by
  have positions : s.positions.map some = t.positions.map some := by
    rw [← sInside.map_position?, ← tInside.map_position?, univ, same]
  obtain ⟨v, left⟩ := s
  obtain ⟨w, right⟩ := t
  obtain rfl : v = w := univ
  exact congrArg (Tuple.mk v) (List.map_injective_iff.mpr (Option.some_injective Nat) positions)

theorem Inside.exists_append (sInside : s.Inside) (tInside : t.Inside) (univ : t.univ = s.univ) :
    ∃ r : Tuple, r.univ = s.univ ∧ r.Inside ∧ r.arity = s.arity + t.arity ∧
      r.index = s.index * s.univ.size ^ t.arity + t.index ∧ r.atoms = s.atoms ++ t.atoms := by
  refine ⟨⟨s.univ, s.positions ++ t.positions⟩, rfl, ?_, List.length_append, ?_, ?_⟩
  · exact List.forall_mem_append.mpr ⟨sInside, univ ▸ tInside⟩
  · rw [index, index, index, univ]
    exact encodeIndex_append s.univ.size s.positions t.positions
  · rw [atoms, atoms, atoms, univ, ← List.filterMap_append]

end Tuple

/-- For a universe and an arity with columns whose tuples can be counted. Exactly the indices below the
capacity stand for tuples. The tuple of an index has that arity, atoms of the universe and that index,
and is also made of its atoms. Any list of so many atoms of the universe makes a tuple, whose index is
below the capacity and stands for the same atoms in the same order. The smaller of two indices stands
for the tuple whose positions come first lexicographically. -/
theorem indices_code_tuples {u : Universe} {arity capacity : Nat} (positive : 0 < arity)
    (countable : u.capacity? arity = some capacity) :
    (∀ index, (∃ t, Tuple.ofIndex u arity index = .ok t) ↔ index < capacity) ∧
    (∀ index t, Tuple.ofIndex u arity index = .ok t →
      t.univ = u ∧ t.arity = arity ∧ t.atoms.length = arity ∧
        (∀ atom ∈ t.atoms, u.contains atom = true) ∧
        t.atoms.map u.position? = t.positions.map some ∧
        t.index = index ∧ Tuple.ofAtoms u t.atoms = .ok t) ∧
    (∀ atoms, atoms.length = arity → (∀ atom ∈ atoms, u.contains atom = true) →
      ∃ t, Tuple.ofAtoms u atoms = .ok t ∧ t.arity = arity ∧ t.index < capacity ∧
        Tuple.ofIndex u arity t.index = .ok t ∧ t.atoms = atoms) ∧
    (∀ i j s t, Tuple.ofIndex u arity i = .ok s → Tuple.ofIndex u arity j = .ok t →
      (i < j ↔ s.positions < t.positions)) := by
  have reads (index : Nat) : (∃ t, Tuple.ofIndex u arity index = .ok t) ↔ index < capacity :=
    Tuple.exists_ofIndex.trans (by simp [countable])
  refine ⟨reads, fun index t ok => ?_, fun atoms length known => ?_,
    fun i j s t first second => ?_⟩
  · obtain ⟨rfl, isArity, inside, isIndex⟩ := (Tuple.ofIndex_eq_ok_iff countable).mp ok
    have length : t.atoms.length = arity := inside.length_atoms.trans isArity
    have notNil : t.atoms ≠ [] := List.ne_nil_of_length_pos (length.symm ▸ positive)
    exact ⟨rfl, isArity, length, fun atom => inside.contains, inside.map_position?, isIndex,
      Tuple.ofAtoms_eq_ok_iff.mpr ⟨notNil, rfl, inside, rfl⟩⟩
  · have notNil : atoms ≠ [] := List.ne_nil_of_length_pos (length.symm ▸ positive)
    obtain ⟨t, ok⟩ := Tuple.exists_ofAtoms.mpr ⟨notNil, known⟩
    obtain ⟨-, rfl, inside, rfl⟩ := Tuple.ofAtoms_eq_ok_iff.mp ok
    have isArity : t.arity = arity := inside.length_atoms.symm.trans length
    have decoded := (Tuple.ofIndex_eq_ok_iff countable).mpr ⟨rfl, isArity, inside, rfl⟩
    exact ⟨t, ok, isArity, (reads t.index).mp ⟨t, decoded⟩, decoded, rfl⟩
  · obtain ⟨rfl, sArity, sInside, rfl⟩ := (Tuple.ofIndex_eq_ok_iff countable).mp first
    obtain ⟨univ, tArity, tInside, rfl⟩ := (Tuple.ofIndex_eq_ok_iff countable).mp second
    rw [Tuple.index, Tuple.index, univ]
    exact encodeIndex_lt_iff (sArity.trans tArity.symm) sInside (univ ▸ tInside)

def threeAtoms : Universe := ⟨0, ["x", "y", "z"], by decide, by decide⟩

theorem pairs_coded : 0 < 2 ∧ threeAtoms.capacity? 2 = some 9 ∧
    (∃ s t, Tuple.ofIndex threeAtoms 2 4 = .ok s ∧ Tuple.ofIndex threeAtoms 2 5 = .ok t ∧
      t.index = 5 ∧ Tuple.ofAtoms threeAtoms t.atoms = .ok t ∧ s.positions < t.positions) ∧
    ∃ t, Tuple.ofAtoms threeAtoms ["y", "z"] = .ok t ∧
      Tuple.ofIndex threeAtoms 2 t.index = .ok t := by
  have countable : threeAtoms.capacity? 2 = some 9 := by decide
  obtain ⟨reads, decoded, encoded, ordered⟩ := indices_code_tuples (by decide : 0 < 2) countable
  obtain ⟨s, before⟩ := (reads 4).mpr (by decide)
  obtain ⟨t, ok⟩ := (reads 5).mpr (by decide)
  obtain ⟨-, -, -, -, -, isIndex, again⟩ := decoded 5 t ok
  obtain ⟨r, made, -, -, back, -⟩ := encoded ["y", "z"] rfl (by decide)
  have first : s.positions < t.positions := (ordered 4 5 s t before ok).mp (by decide)
  exact ⟨by decide, countable, ⟨s, t, before, ok, isIndex, again, first⟩, r, made, back⟩

end ModelFinder
