import ModelFinder.Proofs.Data.Built

/-! What every sequence of bindings keeps true of bounds: they are well formed, every index is that
of a tuple, and relations and integers are listed once. -/
namespace ModelFinder

namespace SortedTable

variable {κ α : Type} [LE κ] [LT κ] [DecidableLT κ] [Std.IsLinearOrder κ] [Std.LawfulOrderLT κ]

theorem lookup_insertEntry [DecidableEq κ] (key other : κ) (value : α) (entries : List (κ × α)) :
    (insertEntry key value entries).lookup other =
      if other = key then some value else entries.lookup other := by
  induction entries with
  | nil =>
    by_cases same : other = key
    · simp [insertEntry, same]
    · have apart : (other == key) = false := beq_false_of_ne same
      simp [insertEntry, List.lookup_cons, apart, same]
  | cons entry rest ih =>
    obtain ⟨first, old⟩ := entry
    unfold insertEntry
    split
    · by_cases same : other = key
      · simp [same]
      · have apart : (other == key) = false := beq_false_of_ne same
        simp [List.lookup_cons, apart, same]
    split
    · rename_i larger
      have different : first ≠ key := fun same => Std.lt_irrefl (same ▸ larger)
      by_cases here : other = first
      · simp [here, different]
      · have apart : (other == first) = false := beq_false_of_ne here
        simp only [List.lookup_cons, apart, ih]
    · rename_i notSmaller notLarger
      obtain rfl : key = first := Std.le_antisymm (Std.not_lt.mp notLarger) (Std.not_lt.mp notSmaller)
      by_cases same : other = key
      · simp [same]
      · have apart : (other == key) = false := beq_false_of_ne same
        simp [List.lookup_cons, apart, same]

@[simp] theorem find?_insert [DecidableEq κ] (table : SortedTable κ α) (key other : κ) (value : α) :
    (table.insert key value).find? other =
      if other = key then some value else table.find? other :=
  lookup_insertEntry key other value table.entries

theorem mem_insertEntry {κ α : Type} [LT κ] [DecidableLT κ] {key other : κ} {value new : α}
    {entries : List (κ × α)}
    (member : (other, value) ∈ insertEntry key new entries) :
    (other, value) = (key, new) ∨ (other, value) ∈ entries := by
  induction entries with
  | nil => simpa [insertEntry] using member
  | cons entry rest ih =>
    unfold insertEntry at member
    split at member
    · simpa using member
    split at member
    · rcases List.mem_cons.mp member with here | there
      · exact .inr (here ▸ List.mem_cons_self)
      · exact (ih there).imp_right (List.mem_cons_of_mem _)
    · rcases List.mem_cons.mp member with here | there
      · exact .inl here
      · exact .inr (List.mem_cons_of_mem _ there)

theorem insertEntry_ascending (key : κ) (value : α) {entries : List (κ × α)}
    (ascending : (entries.map Prod.fst).Pairwise (· < ·)) :
    ((insertEntry key value entries).map Prod.fst).Pairwise (· < ·) := by
  induction entries with
  | nil => simp [insertEntry]
  | cons entry rest ih =>
    obtain ⟨above, restAscending⟩ := List.pairwise_cons.mp ascending
    unfold insertEntry
    split
    · rename_i below
      refine List.pairwise_cons.mpr ⟨?_, ascending⟩
      intro other member
      rcases List.mem_cons.mp member with rfl | inRest
      · exact below
      · exact Std.lt_trans below (above other inRest)
    split
    · rename_i larger
      refine List.pairwise_cons.mpr ⟨?_, ih restAscending⟩
      intro other member
      obtain ⟨⟨other, found⟩, isEntry, rfl⟩ := List.mem_map.mp member
      rcases mem_insertEntry isEntry with here | there
      · exact (Prod.mk.inj here).1 ▸ larger
      · exact above other (key_mem there)
    · rename_i notSmaller notLarger
      obtain rfl : key = entry.1 :=
        Std.le_antisymm (Std.not_lt.mp notLarger) (Std.not_lt.mp notSmaller)
      exact ascending

end SortedTable

namespace Table

variable {κ α : Type} [DecidableEq κ] {table : Table κ α}

theorem find?_eq_some (distinct : table.keys.Nodup) {key : κ} {value : α} :
    table.find? key = some value ↔ (key, value) ∈ table.entries :=
  lookup_eq_some distinct

theorem insert_nodup (distinct : table.keys.Nodup) (key : κ) (value : α) :
    (table.insert key value).keys.Nodup := by
  rw [keys_insert]
  split
  · exact distinct
  · rename_i fresh
    refine List.nodup_append.mpr ⟨distinct, by simp, ?_⟩
    rintro x known y isNew rfl
    exact fresh (List.mem_singleton.mp isNew ▸ known)

theorem insert_entries {key : κ} (value : α) (absent : key ∉ table.keys) :
    (table.insert key value).entries = table.entries ++ [(key, value)] := by
  obtain ⟨entries⟩ := table
  simp only [insert, keys] at absent ⊢
  induction entries with
  | nil => rfl
  | cons entry rest ih =>
    obtain ⟨apart, others⟩ := not_or.mp fun member => absent (List.mem_cons.mpr member)
    rw [insertEntry, if_neg fun same => apart same.symm, ih others]
    rfl

theorem mem_insert {key : κ} {value : α} {entry : κ × α}
    (member : entry ∈ (table.insert key value).entries) :
    entry = (key, value) ∨ entry ∈ table.entries := by
  obtain ⟨entries⟩ := table
  simp only [insert] at member ⊢
  induction entries with
  | nil => exact .inl (List.mem_singleton.mp member)
  | cons first rest ih =>
    unfold insertEntry at member
    split at member
    · exact (List.mem_cons.mp member).imp_right (List.mem_cons_of_mem first)
    · rcases List.mem_cons.mp member with rfl | inRest
      · exact .inr List.mem_cons_self
      · exact (ih inRest).imp_right (List.mem_cons_of_mem first)

theorem contains_iff (key : κ) : table.contains key = true ↔ key ∈ table.keys := by
  obtain ⟨entries⟩ := table
  unfold contains find? keys
  induction entries with
  | nil => simp
  | cons entry rest ih =>
    rw [List.lookup_cons]
    by_cases same : key = entry.1
    · simp [same]
    · have apart : (key == entry.1) = false := beq_false_of_ne same
      simp [apart, same, ih]

theorem find?_erase (table : Table κ α) (key other : κ) :
    (table.erase key).find? other = if other = key then none else table.find? other := by
  obtain ⟨entries⟩ := table
  simp only [erase, find?]
  induction entries with
  | nil => simp
  | cons entry rest ih =>
    by_cases dropped : entry.1 = key
    · rw [List.filter_cons_of_neg (by simp [dropped]), ih, List.lookup_cons]
      by_cases same : other = key
      · simp [same]
      · rw [beq_false_of_ne (dropped ▸ same)]
    · rw [List.filter_cons_of_pos (by simp [dropped]), List.lookup_cons, List.lookup_cons, ih]
      by_cases here : other = entry.1
      · simp [here, dropped]
      · rw [beq_false_of_ne here]

theorem erase_nodup (distinct : table.keys.Nodup) (key : κ) : (table.erase key).keys.Nodup :=
  distinct.sublist (List.filter_sublist.map _)

end Table

namespace Bounds

variable {b next : Bounds} {r : Relation} {range : Range} {lower upper tuples : TupleSet}

theorem bind_eq_ok (ok : b.bind r lower upper = .ok next) :
    (lower.univ = b.univ ∧ upper.univ = b.univ ∧ lower.arity = r.arity ∧ upper.arity = r.arity ∧
      lower.Le upper) ∧ next = { b with relations := b.relations.insert r ⟨lower, upper⟩ } := by
  unfold bind at ok
  split at ok
  · cases ok
  split at ok
  · cases ok
  split at ok
  · rename_i univs arities contained
    simp only [not_or, not_not] at univs arities
    exact ⟨⟨univs.1, univs.2, arities.1, arities.2, contained⟩, (Except.ok.inj ok).symm⟩
  · cases ok

theorem bindInt_eq_ok {value : Int} (ok : b.bindInt value tuples = .ok next) :
    (tuples.univ = b.univ ∧ tuples.arity = 1 ∧ tuples.size = 1) ∧
      next = { b with ints := b.ints.insert value tuples } := by
  unfold bindInt at ok
  split at ok
  · cases ok
  split at ok
  · cases ok
  · rename_i univ single
    simp only [not_or, not_not] at univ single
    exact ⟨⟨univ, single⟩, (Except.ok.inj ok).symm⟩

theorem bind_of_fitting (fitting : lower.univ = b.univ ∧ upper.univ = b.univ ∧
      lower.arity = r.arity ∧ upper.arity = r.arity ∧ lower.Le upper) :
    b.bind r lower upper = .ok { b with relations := b.relations.insert r ⟨lower, upper⟩ } := by
  obtain ⟨lowerUniv, upperUniv, lowerArity, upperArity, contained⟩ := fitting
  have part : lower.subset upper = true := contained
  rw [Bounds.bind, if_neg (by simp [lowerUniv, upperUniv]),
    if_neg (by simp [lowerArity, upperArity]), if_pos part]

theorem bindInt_of_fitting {value : Int}
    (fitting : tuples.univ = b.univ ∧ tuples.arity = 1 ∧ tuples.size = 1) :
    b.bindInt value tuples = .ok { b with ints := b.ints.insert value tuples } := by
  obtain ⟨univ, arity, size⟩ := fitting
  rw [bindInt, if_neg (not_not_intro univ), if_neg (by simp [arity, size])]

theorem empty_wellFormed (u : Universe) : (empty u).WellFormed where
  distinct := List.nodup_nil
  ranges _ _ found := by cases found
  ints _ _ found := by cases found

theorem WellFormed.bind (formed : b.WellFormed) (ok : b.bind r lower upper = .ok next) :
    next.WellFormed := by
  obtain ⟨fitting, rfl⟩ := bind_eq_ok ok
  refine ⟨Table.insert_nodup formed.distinct r _, fun other range found => ?_, formed.ints⟩
  rw [range?, Table.find?_insert] at found
  split at found
  · rename_i same
    obtain rfl := Option.some.inj found
    exact same ▸ fitting
  · exact formed.ranges other range found

theorem WellFormed.bindInt {value : Int} (formed : b.WellFormed)
    (ok : b.bindInt value tuples = .ok next) : next.WellFormed := by
  obtain ⟨fitting, rfl⟩ := bindInt_eq_ok ok
  refine ⟨formed.distinct, formed.ranges, fun other set found => ?_⟩
  rw [SortedTable.find?_insert] at found
  split at found
  · obtain rfl := Option.some.inj found
    exact fitting
  · exact formed.ints other set found

/-- What bindings keep true: bounds are well formed, upper bounds have the indices of tuples only,
and integers ascend. -/
structure Regular (b : Bounds) : Prop where
  formed : b.WellFormed
  fits : ∀ r range, b.range? r = some range → range.upper.Fits
  ascending : b.ints.keys.Pairwise (· < ·)

theorem Regular.bind (regular : b.Regular) (fits : upper.Fits)
    (ok : b.bind r lower upper = .ok next) : next.Regular := by
  have formed := regular.formed.bind ok
  obtain ⟨-, rfl⟩ := bind_eq_ok ok
  refine ⟨formed, fun other range found => ?_, regular.ascending⟩
  rw [range?, Table.find?_insert] at found
  split at found
  · obtain rfl := Option.some.inj found
    exact fits
  · exact regular.fits other range found

theorem Built.insert (r : Relation) (built : b.Built) (lowerBuilt : lower.Built)
    (upperBuilt : upper.Built) (fitting : lower.univ = b.univ ∧ upper.univ = b.univ ∧
      lower.arity = r.arity ∧ upper.arity = r.arity ∧ lower.Le upper) :
    Built { b with relations := b.relations.insert r ⟨lower, upper⟩ } :=
  .bind built lowerBuilt upperBuilt (bind_of_fitting fitting)

theorem Built.regular (built : b.Built) : b.Regular := by
  induction built with
  | empty u => exact ⟨empty_wellFormed u, fun r range found => (by cases found), .nil⟩
  | bind _ _ upperBuilt ok ih => exact ih.bind upperBuilt.fits ok
  | @bindInt b next value tuples _ _ ok ih =>
    have formed := ih.formed.bindInt ok
    obtain ⟨-, rfl⟩ := bindInt_eq_ok ok
    exact ⟨formed, ih.fits, SortedTable.insertEntry_ascending value tuples ih.ascending⟩

theorem id_lt_freshId (bound : r ∈ b.relations.keys) : r.id < b.freshId := by
  have grows : ∀ (ids : List Nat) start, start ≤ ids.foldl max start := by
    intro ids
    induction ids with
    | nil => exact fun start => Nat.le_refl start
    | cons id rest ih => exact fun start => Nat.le_trans (Nat.le_max_left ..) (ih _)
  have each : ∀ (ids : List Nat) start, ∀ id ∈ ids, id ≤ ids.foldl max start := by
    intro ids
    induction ids with
    | nil => exact fun start id absent => by cases absent
    | cons first rest ih =>
      intro start id member
      rcases List.mem_cons.mp member with rfl | inRest
      · exact Nat.le_trans (Nat.le_max_right ..) (grows rest _)
      · exact ih _ id inRest
  exact each _ 0 _ (List.mem_map_of_mem bound)

theorem contains_iff : b.contains r = true ↔ ∃ range, b.range? r = some range :=
  Option.isSome_iff_exists

theorem mem_entries (formed : b.WellFormed) :
    (r, range) ∈ b.relations.entries ↔ b.range? r = some range :=
  (Table.find?_eq_some formed.distinct).symm

theorem mem_unknowns {i : Nat} :
    i ∈ range.unknowns ↔ i ∈ range.upper.indices ∧ i ∉ range.lower.indices := by
  rw [Range.unknowns, ← IndexSet.mem_def, IndexSet.mem_diff]

theorem unknowns_of_exact (exact : range.lower = range.upper) : range.unknowns = [] := by
  apply List.eq_nil_iff_forall_not_mem.mpr
  intro i member
  have unknown := mem_unknowns.mp member
  rw [exact] at unknown
  exact unknown.2 unknown.1

theorem unknowns_ascending (range : Range) : range.unknowns.Pairwise (· < ·) :=
  (range.upper.indices.diff range.lower.indices).ascending

theorem Regular.upper_lt (regular : b.Regular) (found : b.range? r = some range) {i : Nat}
    (member : i ∈ range.upper.indices) : i < b.univ.size ^ r.arity := by
  obtain ⟨-, univ, -, arity, -⟩ := regular.formed.ranges r range found
  rw [← univ, ← arity]
  exact regular.fits r range found i member

theorem Regular.unknowns_lt (regular : b.Regular) (found : b.range? r = some range) {i : Nat}
    (member : i ∈ range.unknowns) : i < b.univ.size ^ r.arity :=
  regular.upper_lt found (mem_unknowns.mp member).1

theorem Regular.lower_lt (regular : b.Regular) (found : b.range? r = some range) {i : Nat}
    (member : i ∈ range.lower.indices) : i < b.univ.size ^ r.arity := by
  obtain ⟨-, -, -, -, contained⟩ := regular.formed.ranges r range found
  exact regular.upper_lt found ((TupleSet.le_iff.mp contained).2.2 i member)

theorem exists_unknown (contained : range.lower.Le range.upper) (choice : range.lower ≠ range.upper) :
    ∃ i, i ∈ range.unknowns := by
  by_contra none
  apply choice
  obtain ⟨univ, arity, part⟩ := TupleSet.le_iff.mp contained
  have same : range.lower.indices = range.upper.indices := by
    apply IndexSet.ext_mem
    intro i
    constructor
    · exact part i
    · intro member
      by_contra absent
      exact none ⟨i, mem_unknowns.mpr ⟨member, absent⟩⟩
  obtain ⟨⟨lowerUniv, lowerArity, lowerIndices⟩, upper⟩ := range
  obtain rfl : lowerUniv = upper.univ := univ
  obtain rfl : lowerArity = upper.arity := arity
  obtain rfl : lowerIndices = upper.indices := same
  rfl

theorem size_add_unknowns (contained : range.lower.Le range.upper) :
    range.lower.size + range.unknowns.length = range.upper.size := by
  have kept : range.upper.indices.toList.filter (range.lower.indices.toList.contains ·) =
      range.lower.indices.toList := by
    refine IndexSet.eq_of_mem_iff (range.upper.indices.ascending.filter _)
      range.lower.indices.ascending fun i => ?_
    rw [List.mem_filter, List.contains_iff_mem]
    exact and_iff_right_of_imp ((TupleSet.le_iff.mp contained).2.2 i)
  have dropped : range.unknowns =
      range.upper.indices.toList.filter (!range.lower.indices.toList.contains ·) := by
    simp [Range.unknowns, IndexSet.diff]
  have split := List.length_eq_length_filter_add
    (l := range.upper.indices.toList) (range.lower.indices.toList.contains ·)
  rw [kept, ← dropped] at split
  exact split.symm

theorem length_unknowns (contained : range.lower.Le range.upper) :
    range.unknowns.length = range.upper.size - range.lower.size := by
  rw [← size_add_unknowns contained, Nat.add_sub_cancel_left]

def unknownTotal (entries : List (Relation × Range)) : Nat :=
  (entries.map fun (_, range) => range.unknowns.length).sum

theorem unknownCount_eq (formed : b.WellFormed) :
    b.unknownCount = unknownTotal b.relations.entries := by
  have each : ∀ entry ∈ b.relations.entries,
      entry.2.upper.size - entry.2.lower.size = entry.2.unknowns.length := by
    rintro ⟨r, range⟩ member
    have fitting := formed.ranges r range ((mem_entries formed).mp member)
    exact (length_unknowns fitting.2.2.2.2).symm
  rw [unknownCount, unknownTotal, ← List.map_congr_left each]
  rfl

end Bounds

end ModelFinder
