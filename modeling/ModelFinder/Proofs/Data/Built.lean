import ModelFinder.Data.Containment
import ModelFinder.Proofs.Data.Keyed
import ModelFinder.Proofs.Data.RowMajor
import ModelFinder.Proofs.Success

/-! Tuple sets and bounds as callers can build them. Every index of a tuple set that was built is the
index of a tuple, and bounds that were built are well formed. -/
namespace ModelFinder

theorem Universe.size_pos (u : Universe) : 0 < u.size :=
  List.length_pos_iff.mpr u.nonempty

inductive Tuple.Built : Tuple → Prop
  | ofAtoms {u : Universe} {atoms : List String} {t : Tuple} (ok : Tuple.ofAtoms u atoms = .ok t) :
      Built t
  | ofIndex {u : Universe} {arity index : Nat} {t : Tuple}
      (ok : Tuple.ofIndex u arity index = .ok t) : Built t

inductive TupleSet.Built : TupleSet → Prop
  | empty (u : Universe) (arity : Nat) : Built (.empty u arity)
  | all (u : Universe) (arity : Nat) : Built (.all u arity)
  | ofTuples {u : Universe} {tuples : List (List String)} {s : TupleSet}
      (ok : ofTuples u tuples = .ok s) : Built s
  | ofIndices {u : Universe} {arity : Nat} {indices : List Nat} {s : TupleSet}
      (ok : ofIndices u arity indices = .ok s) : Built s
  | ofAtom {u : Universe} {atom : String} {s : TupleSet} (ok : ofAtom u atom = .ok s) : Built s
  | insert {s larger : TupleSet} {t : Tuple} (built : Built s) (tuple : t.Built)
      (ok : s.insert t = .ok larger) : Built larger
  | erase {s : TupleSet} (t : Tuple) (built : Built s) : Built (s.erase t)
  | union {s other both : TupleSet} (built : Built s) (otherBuilt : Built other)
      (ok : s.union other = .ok both) : Built both
  | difference {s other rest : TupleSet} (built : Built s) (otherBuilt : Built other)
      (ok : s.difference other = .ok rest) : Built rest
  | product {s other pairs : TupleSet} (built : Built s) (otherBuilt : Built other)
      (ok : s.product other = .ok pairs) : Built pairs

/-- Bounds as they can be built, by giving relations and integers their bounds one after the
other. -/
inductive Bounds.Built : Bounds → Prop
  | empty (u : Universe) : Built (.empty u)
  | bind {b next : Bounds} {r : Relation} {lower upper : TupleSet} (built : Built b)
      (lowerBuilt : lower.Built) (upperBuilt : upper.Built)
      (ok : b.bind r lower upper = .ok next) : Built next
  | bindInt {b next : Bounds} {value : Int} {tuples : TupleSet} (built : Built b)
      (tuplesBuilt : tuples.Built) (ok : b.bindInt value tuples = .ok next) : Built next

def TupleSet.Fits (s : TupleSet) : Prop := ∀ i ∈ s.indices, i < s.univ.size ^ s.arity

theorem Tuple.ofAtoms_eq_ok {u : Universe} {atoms : List String} {t : Tuple}
    (ok : Tuple.ofAtoms u atoms = .ok t) :
    t.univ = u ∧ t.arity = atoms.length ∧ ∀ p ∈ t.positions, p < u.size := by
  unfold ofAtoms at ok
  split at ok
  · cases ok
  obtain ⟨positions, found, rfl⟩ := map_eq_ok.mp ok
  have pairs := mapM_eq_ok.mp found
  refine ⟨rfl, pairs.length_eq.symm, fun p member => ?_⟩
  obtain ⟨atom, -, isPosition⟩ := forall₂_right pairs member
  cases position : u.position? atom with
  | none => simp [position] at isPosition
  | some q =>
    simp only [position, Except.ok.injEq] at isPosition
    exact isPosition ▸ (List.idxOf?_eq_some_iff.mp position).1

theorem Tuple.ofIndex_eq_ok {u : Universe} {arity index : Nat} {t : Tuple}
    (ok : Tuple.ofIndex u arity index = .ok t) :
    t = ⟨u, decodeIndex u.size arity index⟩ ∧ index < u.size ^ arity := by
  unfold ofIndex at ok
  cases found : u.capacity? arity with
  | none => simp [found] at ok
  | some capacity =>
    simp only [found] at ok
    split at ok
    · rename_i below
      refine ⟨(Except.ok.inj ok).symm, ?_⟩
      rwa [capacity?_eq_some found] at below
    · cases ok

theorem Tuple.index_lt {t : Tuple} (inside : ∀ p ∈ t.positions, p < t.univ.size) :
    t.index < t.univ.size ^ t.arity :=
  encodeIndex_lt t.univ.size t.positions inside

theorem Tuple.Built.inside {t : Tuple} (built : t.Built) : ∀ p ∈ t.positions, p < t.univ.size := by
  cases built with
  | ofAtoms ok =>
    obtain ⟨sameUniv, -, inside⟩ := Tuple.ofAtoms_eq_ok ok
    exact sameUniv ▸ inside
  | @ofIndex u arity index t ok =>
    obtain ⟨rfl, -⟩ := Tuple.ofIndex_eq_ok ok
    exact decodeIndex_lt u.size_pos arity index

namespace TupleSet

variable {s other : TupleSet}

theorem compatible_eq_ok {u : Universe} {arity : Nat} (ok : s.compatible u arity = .ok ()) :
    u = s.univ ∧ arity = s.arity := by
  unfold compatible at ok
  split at ok
  · cases ok
  split at ok
  · cases ok
  · rename_i sameUniv sameArity
    exact ⟨not_not.mp sameUniv, not_not.mp sameArity⟩

theorem insert_eq_ok {t : Tuple} {larger : TupleSet} (ok : s.insert t = .ok larger) :
    t.univ = s.univ ∧ t.arity = s.arity ∧
      larger = { s with indices := s.indices.insert t.index } := by
  obtain ⟨⟨⟩, fitting, rest⟩ := bind_eq_ok.mp ok
  obtain ⟨sameUniv, sameArity⟩ := compatible_eq_ok fitting
  exact ⟨sameUniv, sameArity, (pure_eq_ok.mp rest).symm⟩

theorem union_eq_ok {both : TupleSet} (ok : s.union other = .ok both) :
    other.univ = s.univ ∧ other.arity = s.arity ∧
      both = { s with indices := s.indices.union other.indices } := by
  obtain ⟨⟨⟩, fitting, rest⟩ := bind_eq_ok.mp ok
  obtain ⟨sameUniv, sameArity⟩ := compatible_eq_ok fitting
  exact ⟨sameUniv, sameArity, (pure_eq_ok.mp rest).symm⟩

theorem difference_eq_ok {rest : TupleSet} (ok : s.difference other = .ok rest) :
    rest = { s with indices := s.indices.diff other.indices } := by
  obtain ⟨⟨⟩, -, made⟩ := bind_eq_ok.mp ok
  exact (pure_eq_ok.mp made).symm

theorem ofIndices_eq_ok {u : Universe} {arity : Nat} {indices : List Nat}
    (ok : ofIndices u arity indices = .ok s) :
    s = ⟨u, arity, .ofList indices⟩ ∧ ∀ i ∈ indices, i < u.size ^ arity := by
  obtain ⟨tuples, found, rfl⟩ := map_eq_ok.mp ok
  have pairs := mapM_eq_ok.mp found
  have same : tuples.map Tuple.index = indices ∧ ∀ i ∈ indices, i < u.size ^ arity := by
    clear ok found
    induction pairs with
    | nil => simp
    | cons here _ ih =>
      obtain ⟨rfl, bound⟩ := Tuple.ofIndex_eq_ok here
      simp only [List.map_cons, ih.1, List.mem_cons, forall_eq_or_imp, bound, true_and]
      exact ⟨by rw [Tuple.index, encodeIndex_decodeIndex _ _ _ bound], ih.2⟩
  rw [same.1]
  exact ⟨rfl, same.2⟩

theorem Built.fits (built : s.Built) : s.Fits := by
  induction built with
  | empty u arity => exact fun i member => absurd member (IndexSet.not_mem_empty i)
  | all u arity =>
    intro i member
    have below := (IndexSet.mem_below _ i).mp member
    cases found : u.capacity? arity with
    | none => simp [found] at below
    | some capacity =>
      rw [found, Option.getD_some, capacity?_eq_some found] at below
      exact below
  | @ofTuples u tuples s ok =>
    cases tuples with
    | nil => cases ok
    | cons first rest =>
      obtain ⟨made, found, rfl⟩ := map_eq_ok.mp ok
      intro i member
      obtain ⟨t, isTuple, rfl⟩ := List.mem_map.mp ((IndexSet.mem_ofList _ i).mp member)
      obtain ⟨atoms, -, isMade⟩ := forall₂_right (mapM_eq_ok.mp found) isTuple
      split at isMade
      · cases isMade
      · rename_i sameLength
        obtain ⟨rfl, arity, inside⟩ := Tuple.ofAtoms_eq_ok isMade
        have bound := Tuple.index_lt inside
        rwa [arity, not_not.mp sameLength] at bound
  | ofIndices ok =>
    obtain ⟨rfl, bound⟩ := ofIndices_eq_ok ok
    exact fun i member => bound i ((IndexSet.mem_ofList _ i).mp member)
  | ofAtom ok =>
    obtain ⟨t, isTuple, inserted⟩ := bind_eq_ok.mp ok
    obtain ⟨sameUniv, sameArity, rfl⟩ := insert_eq_ok inserted
    intro i member
    rcases (IndexSet.mem_insert _ _ i).mp member with rfl | absent
    · obtain ⟨rfl, -, inside⟩ := Tuple.ofAtoms_eq_ok isTuple
      exact sameArity ▸ Tuple.index_lt inside
    · exact absurd absent (IndexSet.not_mem_empty i)
  | insert _ tuple ok ih =>
    obtain ⟨sameUniv, sameArity, rfl⟩ := insert_eq_ok ok
    intro i member
    rcases (IndexSet.mem_insert _ _ i).mp member with rfl | old
    · have bound := Tuple.index_lt tuple.inside
      rwa [sameUniv, sameArity] at bound
    · exact ih i old
  | erase t _ ih =>
    unfold TupleSet.erase
    split
    · exact fun i member => ih i ((IndexSet.mem_erase _ _ i).mp member).1
    · exact ih
  | union _ _ ok ih otherIh =>
    obtain ⟨sameUniv, sameArity, rfl⟩ := union_eq_ok ok
    intro i member
    rcases (IndexSet.mem_union _ _ i).mp member with mine | theirs
    · exact ih i mine
    · have bound := otherIh i theirs
      rwa [sameUniv, sameArity] at bound
  | difference _ _ ok ih _ =>
    obtain rfl := difference_eq_ok ok
    exact fun i member => ih i ((IndexSet.mem_diff _ _ i).mp member).1
  | product _ _ ok _ _ =>
    unfold TupleSet.product at ok
    split at ok
    · cases ok
    split at ok
    · cases ok
    · obtain ⟨rfl, bound⟩ := ofIndices_eq_ok ok
      exact fun i member => bound i ((IndexSet.mem_ofList _ i).mp member)

theorem le_iff : s.Le other ↔
    s.univ = other.univ ∧ s.arity = other.arity ∧ ∀ i ∈ s.indices, i ∈ other.indices := by
  simp [Le, subset, IndexSet.subset_iff, and_assoc]

end TupleSet

end ModelFinder
