import ModelFinder.Encoding.Numbering
import ModelFinder.Proofs.Data.Bounds

/-! The numbering of unknown tuples is one to one. As long as the tuples can be counted in a word,
the relations have consecutive ranges of variables, so every variable up to the count stands for one
unknown tuple of one relation, and every unknown tuple has one variable. -/
namespace ModelFinder

theorem Unknowns.owns_iff (e : Unknowns) (var : Nat) :
    e.owns var = true ↔ e.first ≤ var ∧ var < e.first + e.tuples.size := by
  rw [owns, Bool.and_eq_true, decide_eq_true_eq, decide_eq_true_eq]
  rfl

namespace Numbering

def layout (first : Nat) : List (Relation × Range) → List Unknowns
  | [] => []
  | (r, range) :: rest =>
      ⟨r, first, range.unknowns.toArray⟩ :: layout (first + range.unknowns.length) rest

theorem number_eq (a : Allocator) {listed : List (Relation × Range)}
    (small : Bounds.unknownTotal listed < wordBound) :
    (number a listed).1 = layout a.next listed ∧
      (number a listed).2.next = a.next + Bounds.unknownTotal listed := by
  induction listed generalizing a with
  | nil => exact ⟨rfl, rfl⟩
  | cons entry rest ih =>
    obtain ⟨r, range⟩ := entry
    have total : Bounds.unknownTotal ((r, range) :: rest) =
        range.unknowns.length + Bounds.unknownTotal rest := rfl
    rw [total] at small ⊢
    have whole : word range.unknowns.length = range.unknowns.length :=
      Nat.mod_eq_of_lt (by omega)
    obtain ⟨entries, next⟩ := ih (a.allocate r range.unknowns.length).2 (by omega)
    simp only [Allocator.allocate, whole] at entries next
    simp only [number, Allocator.allocate, whole, layout, entries, next]
    exact ⟨trivial, by omega⟩

theorem number_relations (a : Allocator) (listed : List (Relation × Range)) :
    (number a listed).1.map (·.relation) = listed.map Prod.fst := by
  induction listed generalizing a with
  | nil => rfl
  | cons entry rest ih => simp [number, ih]

theorem number_tuples {a : Allocator} {listed : List (Relation × Range)} {e : Unknowns}
    (member : e ∈ (number a listed).1) :
    ∃ range, (e.relation, range) ∈ listed ∧ e.tuples.toList = range.unknowns := by
  induction listed generalizing a with
  | nil => cases member
  | cons entry rest ih =>
    rcases List.mem_cons.mp member with rfl | inRest
    · exact ⟨entry.2, List.mem_cons_self, rfl⟩
    · obtain ⟨range, isEntry, same⟩ := ih inRest
      exact ⟨range, List.mem_cons_of_mem entry isEntry, same⟩

section Layout

variable {first : Nat} {listed : List (Relation × Range)} {e : Unknowns}

theorem layout_range (member : e ∈ layout first listed) :
    first ≤ e.first ∧ e.stop ≤ first + Bounds.unknownTotal listed := by
  induction listed generalizing first with
  | nil => cases member
  | cons entry rest ih =>
    have total : Bounds.unknownTotal (entry :: rest) =
        entry.2.unknowns.length + Bounds.unknownTotal rest := rfl
    rw [total]
    rcases List.mem_cons.mp member with rfl | inRest
    · simp [Unknowns.stop]
    · have range := ih inRest
      omega

theorem layout_disjoint : (layout first listed).Pairwise fun e f => e.stop ≤ f.first := by
  induction listed generalizing first with
  | nil => exact .nil
  | cons entry rest ih =>
    refine List.pairwise_cons.mpr ⟨fun f member => ?_, ih⟩
    simpa [Unknowns.stop] using (layout_range member).1

theorem layout_full {var : Nat} (lower : first ≤ var)
    (upper : var < first + Bounds.unknownTotal listed) :
    ∃ e ∈ layout first listed, e.owns var = true := by
  induction listed generalizing first with
  | nil =>
    simp only [Bounds.unknownTotal, List.map_nil, List.sum_nil] at upper
    omega
  | cons entry rest ih =>
    have total : Bounds.unknownTotal (entry :: rest) =
        entry.2.unknowns.length + Bounds.unknownTotal rest := rfl
    by_cases here : var < first + entry.2.unknowns.length
    · refine ⟨_, List.mem_cons_self, ?_⟩
      simp [Unknowns.owns_iff, lower, here]
    · obtain ⟨e, member, owns⟩ := ih (by omega : first + entry.2.unknowns.length ≤ var) (by omega)
      exact ⟨e, List.mem_cons_of_mem _ member, owns⟩

end Layout

def StandsFor (n : Numbering) (var : Nat) (r : Relation) (i : Nat) : Prop :=
  ∃ e ∈ n.entries, e.relation = r ∧ e.first ≤ var ∧ e.tuples[var - e.first]? = some i

/-- The numbering gives the unknown tuples of the bounds consecutive variables from 1 on. -/
structure Numbers (n : Numbering) (b : Bounds) : Prop where
  univ : n.univ = b.univ
  relations : n.entries.map (·.relation) = b.relations.keys
  tuples : ∀ e ∈ n.entries, ∃ range, b.range? e.relation = some range ∧
    e.tuples.toList = range.unknowns
  disjoint : n.entries.Pairwise fun e f => e.stop ≤ f.first
  ranges : ∀ e ∈ n.entries, 1 ≤ e.first ∧ e.stop ≤ n.count + 1
  full : ∀ var, 1 ≤ var → var ≤ n.count → ∃ e ∈ n.entries, e.owns var = true

theorem ofBounds_relations (b : Bounds) :
    (ofBounds b).entries.map (·.relation) = b.relations.keys :=
  number_relations .empty b.relations.entries

theorem ofBounds_tuples {b : Bounds} (formed : b.WellFormed) {e : Unknowns}
    (member : e ∈ (ofBounds b).entries) :
    ∃ range, b.range? e.relation = some range ∧ e.tuples.toList = range.unknowns := by
  obtain ⟨range, isEntry, same⟩ := number_tuples member
  exact ⟨range, (Bounds.mem_entries formed).mp isEntry, same⟩

theorem ofBounds_layout {b : Bounds} (formed : b.WellFormed) (small : b.unknownCount < wordBound) :
    (ofBounds b).entries = layout 1 b.relations.entries ∧ (ofBounds b).count = b.unknownCount := by
  rw [Bounds.unknownCount_eq formed] at small ⊢
  obtain ⟨entries, next⟩ := number_eq .empty small
  refine ⟨entries, ?_⟩
  show (number .empty b.relations.entries).2.next - 1 = _
  rw [next]
  exact Nat.add_sub_cancel_left ..

theorem ofBounds_numbers {b : Bounds} (formed : b.WellFormed) (small : b.unknownCount < wordBound) :
    (ofBounds b).Numbers b ∧ (ofBounds b).count = b.unknownCount := by
  obtain ⟨isLayout, isCount⟩ := ofBounds_layout formed small
  have total := Bounds.unknownCount_eq formed
  refine ⟨⟨rfl, ofBounds_relations b, fun e => ofBounds_tuples formed, ?_, ?_, ?_⟩, isCount⟩
  · rw [isLayout]
    exact layout_disjoint
  · intro e member
    rw [isLayout] at member
    have range := layout_range member
    omega
  · intro var lower upper
    rw [isLayout]
    exact layout_full lower (by omega)

section Numbers

variable {n : Numbering} {b : Bounds} {r : Relation} {range : Range} {i var : Nat}

theorem StandsFor.owns {e : Unknowns} (lower : e.first ≤ var)
    (found : e.tuples[var - e.first]? = some i) : e.owns var = true := by
  have bound := (Array.getElem?_eq_some_iff.mp found).1
  rw [Unknowns.owns_iff]
  omega

theorem Numbers.nodup (numbers : n.Numbers b) (formed : b.WellFormed) :
    (n.entries.map (·.relation)).Nodup :=
  numbers.relations ▸ formed.distinct

theorem Numbers.entry?_eq_some (numbers : n.Numbers b) (formed : b.WellFormed) {e : Unknowns} :
    n.entry? r = some e ↔ e ∈ n.entries ∧ e.relation = r := by
  constructor
  · intro found
    exact ⟨List.mem_of_find?_eq_some found, by simpa using List.find?_some found⟩
  · rintro ⟨member, rfl⟩
    have distinct := List.pairwise_map.mp (numbers.nodup formed)
    unfold entry?
    generalize n.entries = entries at member distinct
    induction entries with
    | nil => cases member
    | cons first rest ih =>
      obtain ⟨apart, restDistinct⟩ := List.pairwise_cons.mp distinct
      rcases List.mem_cons.mp member with rfl | inRest
      · simp
      · rw [List.find?_cons_of_neg (by simpa using apart e inRest)]
        exact ih inRest restDistinct

theorem Numbers.owner_unique (numbers : n.Numbers b) {e f : Unknowns} (one : e ∈ n.entries)
    (other : f ∈ n.entries) (eOwns : e.owns var = true) (fOwns : f.owns var = true) : e = f := by
  have disjoint := numbers.disjoint
  rw [Unknowns.owns_iff] at eOwns fOwns
  generalize n.entries = entries at one other disjoint
  induction entries with
  | nil => cases one
  | cons first rest ih =>
    obtain ⟨apart, restDisjoint⟩ := List.pairwise_cons.mp disjoint
    rcases List.mem_cons.mp one with rfl | eRest
    · rcases List.mem_cons.mp other with rfl | fRest
      · rfl
      · have := apart f fRest
        unfold Unknowns.stop at this
        omega
    · rcases List.mem_cons.mp other with rfl | fRest
      · have := apart e eRest
        unfold Unknowns.stop at this
        omega
      · exact ih eRest fRest restDisjoint

theorem Numbers.stands_unique (numbers : n.Numbers b) {q : Relation} {j : Nat}
    (one : n.StandsFor var r i) (other : n.StandsFor var q j) : r = q ∧ i = j := by
  obtain ⟨e, eMember, rfl, eLower, eFound⟩ := one
  obtain ⟨f, fMember, rfl, fLower, fFound⟩ := other
  obtain rfl := numbers.owner_unique eMember fMember (StandsFor.owns eLower eFound)
    (StandsFor.owns fLower fFound)
  exact ⟨rfl, Option.some.inj (eFound.symm.trans fFound)⟩

theorem Numbers.var_unique (numbers : n.Numbers b) (formed : b.WellFormed) {other : Nat}
    (one : n.StandsFor var r i) (two : n.StandsFor other r i) : var = other := by
  obtain ⟨e, eMember, rfl, eLower, eFound⟩ := one
  obtain ⟨f, fMember, same, fLower, fFound⟩ := two
  obtain rfl : f = e := Option.some.inj (((numbers.entry?_eq_some formed).mpr ⟨fMember, same⟩).symm.trans
    ((numbers.entry?_eq_some formed).mpr ⟨eMember, rfl⟩))
  obtain ⟨range, -, tuples⟩ := numbers.tuples f eMember
  have ascending := Bounds.unknowns_ascending range
  rw [← tuples] at ascending
  have positions : var - f.first = other - f.first := by
    rw [← Array.getElem?_toList] at eFound fFound
    exact (List.getElem?_inj (List.getElem?_eq_some_iff.mp eFound).1 (ascending.imp Nat.ne_of_lt)).mp
      (eFound.trans fFound.symm)
  omega

theorem StandsFor.bounds (numbers : n.Numbers b) (stands : n.StandsFor var r i) :
    1 ≤ var ∧ var ≤ n.count := by
  obtain ⟨e, member, -, lower, found⟩ := stands
  have owns := StandsFor.owns lower found
  have ranges := numbers.ranges e member
  rw [Unknowns.owns_iff] at owns
  unfold Unknowns.stop at ranges
  omega

theorem Numbers.exists_stands (numbers : n.Numbers b) (lower : 1 ≤ var) (upper : var ≤ n.count) :
    ∃ r i, n.StandsFor var r i := by
  obtain ⟨e, member, owns⟩ := numbers.full var lower upper
  rw [Unknowns.owns_iff] at owns
  have bound : var - e.first < e.tuples.size := by omega
  exact ⟨e.relation, e.tuples[var - e.first], e, member, rfl, owns.1,
    Array.getElem?_eq_getElem bound⟩

theorem Numbers.mem_unknowns (numbers : n.Numbers b) (found : b.range? r = some range) :
    i ∈ range.unknowns ↔ ∃ var, n.StandsFor var r i := by
  constructor
  · intro unknown
    have known : r ∈ n.entries.map (·.relation) := by
      rw [numbers.relations]
      refine (Table.contains_iff r).mp ?_
      rw [Table.contains, show b.relations.find? r = some range from found]
      rfl
    obtain ⟨e, member, rfl⟩ := List.mem_map.mp known
    obtain ⟨other, found', tuples⟩ := numbers.tuples e member
    obtain rfl := Option.some.inj (found.symm.trans found')
    rw [← tuples] at unknown
    obtain ⟨j, bound, isIndex⟩ := List.mem_iff_getElem.mp unknown
    refine ⟨e.first + j, e, member, rfl, Nat.le_add_right .., ?_⟩
    rw [Nat.add_sub_cancel_left, ← Array.getElem?_toList, List.getElem?_eq_getElem bound, isIndex]
  · rintro ⟨var, e, member, rfl, -, isIndex⟩
    obtain ⟨other, found', tuples⟩ := numbers.tuples e member
    obtain rfl := Option.some.inj (found.symm.trans found')
    rw [← tuples]
    exact Array.mem_toList_iff.mpr (Array.mem_of_getElem? isIndex)

theorem Numbers.mem_takeWhile (numbers : n.Numbers b) {e : Unknowns} (member : e ∈ n.entries)
    (lower : e.first ≤ var) : e ∈ n.entries.takeWhile (·.first ≤ var) := by
  have disjoint := numbers.disjoint
  generalize n.entries = entries at member disjoint
  induction entries with
  | nil => cases member
  | cons first rest ih =>
    obtain ⟨apart, restDisjoint⟩ := List.pairwise_cons.mp disjoint
    rcases List.mem_cons.mp member with rfl | inRest
    · rw [List.takeWhile_cons_of_pos (by simpa using lower)]
      exact List.mem_cons_self
    · have before := apart e inRest
      unfold Unknowns.stop at before
      rw [List.takeWhile_cons_of_pos (by simp only [decide_eq_true_eq]; omega)]
      exact List.mem_cons_of_mem first (ih inRest restDisjoint)

theorem Numbers.owner?_eq_some (numbers : n.Numbers b) {e : Unknowns} :
    n.owner? var = some e ↔ e ∈ n.entries ∧ e.owns var = true := by
  unfold owner?
  constructor
  · intro found
    split at found
    · cases found
    · have listed := List.mem_reverse.mp (List.mem_of_find?_eq_some found)
      exact ⟨(List.takeWhile_sublist _).subset listed, by simpa using List.find?_some found⟩
  · rintro ⟨member, owns⟩
    have inside := (Unknowns.owns_iff e var).mp owns
    have ranges := numbers.ranges e member
    unfold Unknowns.stop at ranges
    rw [if_neg (by omega)]
    have listed := List.mem_reverse.mpr (numbers.mem_takeWhile member inside.1)
    cases isOwner : (n.entries.takeWhile (·.first ≤ var)).reverse.find? (·.owns var) with
    | none => exact absurd owns (List.find?_eq_none.mp isOwner e listed)
    | some f =>
      have fOwns : f.owns var = true := by simpa using List.find?_some isOwner
      have fListed := List.mem_reverse.mp (List.mem_of_find?_eq_some isOwner)
      have fMember := (List.takeWhile_sublist _).subset fListed
      rw [numbers.owner_unique fMember member fOwns owns]

theorem Numbers.locate?_eq_some (numbers : n.Numbers b) :
    n.locate? var = some (r, i) ↔ n.StandsFor var r i := by
  simp only [locate?, Option.bind_eq_bind, Option.bind_eq_some_iff, Option.pure_def,
    Option.some.injEq, Prod.mk.injEq, numbers.owner?_eq_some]
  constructor
  · rintro ⟨e, ⟨member, owns⟩, j, isIndex, rfl, rfl⟩
    exact ⟨e, member, rfl, ((Unknowns.owns_iff e var).mp owns).1, isIndex⟩
  · rintro ⟨e, member, rfl, lower, isIndex⟩
    exact ⟨e, ⟨member, StandsFor.owns lower isIndex⟩, i, isIndex, rfl, rfl⟩

theorem idxOf?_eq {e : Unknowns} : e.tuples.idxOf? i = e.tuples.toList.idxOf? i := by
  rw [← List.idxOf?_toArray, Array.toArray_toList]

/-- A tuple that is looked up by arity and index has the variable that stands for it. -/
theorem Numbers.var?_eq_some (numbers : n.Numbers b) (formed : b.WellFormed) {t : Tuple} :
    n.var? r t = some var ↔ t.arity = r.arity ∧ n.StandsFor var r t.index := by
  simp only [var?, Option.bind_eq_bind, Option.bind_eq_some_iff, numbers.entry?_eq_some formed]
  constructor
  · rintro ⟨e, ⟨member, rfl⟩, found⟩
    split at found
    · cases found
    · rename_i arity
      obtain ⟨j, isPosition, isVar⟩ := Option.bind_eq_some_iff.mp found
      obtain rfl := Option.some.inj isVar
      refine ⟨not_not.mp arity, e, member, rfl, Nat.le_add_right .., ?_⟩
      rw [idxOf?_eq] at isPosition
      obtain ⟨bound, isIndex, -⟩ := List.idxOf?_eq_some_iff.mp isPosition
      rw [Nat.add_sub_cancel_left, ← Array.getElem?_toList, List.getElem?_eq_getElem bound, isIndex]
  · rintro ⟨arity, e, member, rfl, lower, found⟩
    obtain ⟨range, -, tuples⟩ := numbers.tuples e member
    have ascending := Bounds.unknowns_ascending range
    rw [← tuples] at ascending
    rw [← Array.getElem?_toList] at found
    obtain ⟨bound, isIndex⟩ := List.getElem?_eq_some_iff.mp found
    have isPosition : e.tuples.idxOf? t.index = some (var - e.first) := by
      rw [idxOf?_eq]
      apply List.idxOf?_eq_some_iff.mpr
      refine ⟨bound, isIndex, fun j earlier same => ?_⟩
      have less := List.pairwise_iff_getElem.mp ascending j _ (by omega) bound earlier
      rw [same, isIndex] at less
      exact Nat.lt_irrefl _ less
    refine ⟨e, ⟨member, rfl⟩, ?_⟩
    rw [if_neg (not_not_intro arity), isPosition]
    show some (e.first + (var - e.first)) = some var
    rw [Nat.add_sub_cancel' lower]

end Numbers

end Numbering

end ModelFinder
