import ModelFinder.Data.Ascending
import ModelFinder.Data.SortedTable
import Mathlib.Data.List.Nodup

/-! Look-ups as membership. Where keys do not repeat, to find a value under a key is to have the two
as an entry, whether the entries stand in a list, in a table or in a hash map. -/
namespace ModelFinder

section

variable {κ α : Type}

theorem key_mem {entries : List (κ × α)} {key : κ} {value : α} (member : (key, value) ∈ entries) :
    key ∈ entries.map Prod.fst :=
  List.mem_map_of_mem member

theorem value_unique {entries : List (κ × α)} (distinct : (entries.map Prod.fst).Nodup) {key : κ}
    {first second : α} (one : (key, first) ∈ entries) (other : (key, second) ∈ entries) :
    first = second := by
  induction entries with
  | nil => cases one
  | cons entry rest ih =>
    obtain ⟨fresh, restDistinct⟩ := List.nodup_cons.mp distinct
    rcases List.mem_cons.mp one with rfl | inRest
    · rcases List.mem_cons.mp other with same | inRest
      · exact (Prod.mk.inj same).2.symm
      · exact absurd (key_mem inRest) fresh
    · rcases List.mem_cons.mp other with rfl | otherRest
      · exact absurd (key_mem inRest) fresh
      · exact ih restDistinct inRest otherRest

theorem filter_ne_of_absent [DecidableEq κ] {entries : List (κ × α)} {key : κ}
    (absent : key ∉ entries.map Prod.fst) : entries.filter (·.1 ≠ key) = entries := by
  apply List.filter_eq_self.mpr
  intro entry member
  apply decide_eq_true
  rintro rfl
  exact absent (List.mem_map_of_mem member)

theorem filterMap_keys_sublist {β : Type} {items : List α} {select : α → Option β} {old : α → κ}
    {new : β → κ} (kept : ∀ a b, select a = some b → new b = old a) :
    ((items.filterMap select).map new).Sublist (items.map old) := by
  induction items with
  | nil => exact .slnil
  | cons item items ih =>
    rw [List.filterMap_cons, List.map_cons]
    cases selected : select item with
    | none => exact ih.cons (old item)
    | some b =>
      rw [List.map_cons, kept item b selected]
      exact ih.cons_cons (old item)

theorem lookup_eq_some [BEq κ] [LawfulBEq κ] {entries : List (κ × α)}
    (distinct : (entries.map Prod.fst).Nodup) {key : κ} {value : α} :
    entries.lookup key = some value ↔ (key, value) ∈ entries := by
  induction entries with
  | nil => simp
  | cons entry rest ih =>
    obtain ⟨other, old⟩ := entry
    obtain ⟨fresh, restDistinct⟩ := List.nodup_cons.mp distinct
    rw [List.lookup_cons, List.mem_cons]
    by_cases same : key = other
    · subst same
      simp only [beq_self_eq_true, Option.some.injEq, Prod.mk.injEq]
      constructor
      · rintro rfl
        exact .inl ⟨trivial, rfl⟩
      · rintro (⟨-, rfl⟩ | inRest)
        · rfl
        · exact absurd (key_mem inRest) fresh
    · have apart : (key == other) = false := beq_false_of_ne same
      simp [apart, same, ih restDistinct]

end

section

variable {α : Type}

theorem ofList_append (front back : List (Nat × α)) (key : Nat) :
    (Std.HashMap.ofList (front ++ back))[key]? =
      ((Std.HashMap.ofList back)[key]?).or (Std.HashMap.ofList front)[key]? := by
  rw [Std.HashMap.ofList_eq_insertMany_empty, Std.HashMap.ofList_eq_insertMany_empty,
    Std.HashMap.ofList_eq_insertMany_empty]
  simp [Std.HashMap.getElem?_insertMany_list]

theorem ofList_eq_none {entries : List (Nat × α)} {key : Nat} :
    (Std.HashMap.ofList entries)[key]? = none ↔ key ∉ entries.map Prod.fst := by
  have known : key ∈ Std.HashMap.ofList entries ↔ key ∈ entries.map Prod.fst := by
    rw [Std.HashMap.mem_ofList, List.contains_iff_mem]
  rw [← known, Std.HashMap.mem_iff_isSome_getElem?, Option.not_isSome_iff_eq_none]

theorem mem_of_ofList {entries : List (Nat × α)} {key : Nat} {value : α}
    (found : (Std.HashMap.ofList entries)[key]? = some value) : (key, value) ∈ entries := by
  rw [Std.HashMap.ofList_eq_insertMany_empty, Std.HashMap.getElem?_insertMany_list] at found
  simp only [List.findSomeRev?_eq_findSome?_reverse, Std.HashMap.getElem?_empty,
    Option.or_none] at found
  obtain ⟨⟨other, old⟩, member, same⟩ := List.exists_of_findSome?_eq_some found
  simp only [Option.ite_none_right_eq_some, beq_iff_eq, Option.some.injEq] at same
  obtain ⟨rfl, rfl⟩ := same
  exact List.mem_reverse.mp member

theorem ofList_eq_some {entries : List (Nat × α)} (distinct : (entries.map Prod.fst).Nodup)
    {key : Nat} {value : α} :
    (Std.HashMap.ofList entries)[key]? = some value ↔ (key, value) ∈ entries := by
  have apart : entries.Pairwise fun a b => (a.1 == b.1) = false := by
    refine (List.pairwise_map.mp distinct).imp ?_
    intro a b different
    exact beq_false_of_ne different
  refine ⟨mem_of_ofList, fun member => ?_⟩
  exact Std.HashMap.getElem?_ofList_of_mem (beq_self_eq_true key) apart member

theorem mem_groupByKey (terms : List (Nat × α)) (key : Nat) :
    key ∈ groupByKey terms ↔ key ∈ terms.map Prod.fst := by
  induction terms with
  | nil => simp [groupByKey]
  | cons term rest ih =>
    have step : groupByKey (term :: rest) =
        (groupByKey rest).insert term.1 (term.2 :: (groupByKey rest).getD term.1 []) := rfl
    rw [step, Std.HashMap.mem_insert, ih, List.map_cons, List.mem_cons, beq_iff_eq, eq_comm]

end

namespace SortedTable

variable {α : Type}

theorem mem_ofList (entries : List (Nat × α)) (key : Nat) (value : α) :
    (key, value) ∈ (ofList entries).entries ↔
      (Std.HashMap.ofList entries)[key]? = some value := by
  simp only [ofList, List.mem_filterMap, Ascending.mem_sort, Option.map_eq_some_iff]
  constructor
  · rintro ⟨key, -, value, found, same⟩
    obtain ⟨rfl, rfl⟩ := Prod.mk.inj same
    exact found
  · intro found
    refine ⟨key, ?_, value, found, rfl⟩
    exact Std.HashMap.mem_keys.mpr (Std.HashMap.mem_iff_isSome_getElem?.mpr (by simp [found]))

theorem ofList_ascending (entries : List (Nat × α)) : (ofList entries).keys.Pairwise (· < ·) := by
  have keep : (ofList entries).keys.Sublist
      ((Ascending.sort (Std.HashMap.ofList entries).keys).map id) := by
    refine filterMap_keys_sublist fun key entry found => ?_
    obtain ⟨value, -, rfl⟩ := Option.map_eq_some_iff.mp found
    rfl
  rw [List.map_id] at keep
  exact (Ascending.sort_pairwise _).sublist keep

theorem ofList_entries {entries : List (Nat × α)}
    (ascending : (entries.map Prod.fst).Pairwise (· < ·)) : (ofList entries).entries = entries := by
  have distinct : (entries.map Prod.fst).Nodup := ascending.imp Nat.ne_of_lt
  have keys : Ascending.sort (Std.HashMap.ofList entries).keys = entries.map Prod.fst := by
    refine IndexSet.eq_of_mem_iff (Ascending.sort_pairwise _) ascending fun key => ?_
    rw [Ascending.mem_sort, Std.HashMap.mem_keys, Std.HashMap.mem_ofList, List.contains_iff_mem]
  rw [ofList, keys, List.filterMap_map]
  refine (List.filterMap_congr fun entry member => ?_).trans List.filterMap_some
  obtain ⟨key, value⟩ := entry
  simp [(ofList_eq_some distinct).mpr member]

variable {table : SortedTable Nat α}

theorem keys_nodup (ascending : table.keys.Pairwise (· < ·)) : table.keys.Nodup :=
  ascending.imp Nat.ne_of_lt

theorem find?_eq_some (ascending : table.keys.Pairwise (· < ·)) {key : Nat} {value : α} :
    table.find? key = some value ↔ (key, value) ∈ table.entries :=
  lookup_eq_some (keys_nodup ascending)

theorem index_eq_find? (ascending : table.keys.Pairwise (· < ·)) (key : Nat) :
    table.index[key]? = table.find? key := by
  ext value
  rw [find?_eq_some ascending, index, ofList_eq_some (keys_nodup ascending)]

end SortedTable

end ModelFinder
