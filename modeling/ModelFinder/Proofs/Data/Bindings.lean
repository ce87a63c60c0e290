import ModelFinder.Proofs.Data.Bounds

/-! Histories of bindings. Whatever calls have given bounds what they say, failing ones included, the
relations come in the order of their first binding and every relation and every integer has what it was
given last. A list of the relations and two maps of bounds, filled side by side by the same calls, say
the same at every moment. -/
namespace ModelFinder

namespace Bounds

inductive Binding where
  | bind (r : Relation) (lower upper : TupleSet)
  | bindExactly (r : Relation) (tuples : TupleSet)
  | bindUpper (r : Relation) (upper : TupleSet)
  | bindInt (value : Int) (tuples : TupleSet)

def Binding.perform (b : Bounds) : Binding → Except Error Bounds
  | bind r lower upper => b.bind r lower upper
  | bindExactly r tuples => b.bindExactly r tuples
  | bindUpper r upper => b.bindUpper r upper
  | bindInt value tuples => b.bindInt value tuples

def after (b : Bounds) (call : Binding) : Bounds :=
  match call.perform b with
  | .ok next => next
  | .error _ => b

def boundBy (u : Universe) (calls : List Binding) : Bounds := calls.foldl after (empty u)

def Binding.entry (u : Universe) : Binding → (Relation × Range) ⊕ (Int × TupleSet)
  | bind r lower upper => .inl (r, ⟨lower, upper⟩)
  | bindExactly r tuples => .inl (r, ⟨tuples, tuples⟩)
  | bindUpper r upper => .inl (r, ⟨.empty u r.arity, upper⟩)
  | bindInt value tuples => .inr (value, tuples)

def Binding.Fitting (u : Universe) (call : Binding) : Prop :=
  match call.entry u with
  | .inl (r, range) => range.lower.univ = u ∧ range.upper.univ = u ∧
      range.lower.arity = r.arity ∧ range.upper.arity = r.arity ∧ range.lower.Le range.upper
  | .inr (_, tuples) => tuples.univ = u ∧ tuples.arity = 1 ∧ tuples.size = 1

instance (s other : TupleSet) : Decidable (s.Le other) :=
  inferInstanceAs (Decidable (s.subset other = true))

instance (u : Universe) (call : Binding) : Decidable (call.Fitting u) :=
  match call with
  | .bind .. | .bindExactly .. | .bindUpper .. => inferInstanceAs (Decidable (_ ∧ _))
  | .bindInt .. => inferInstanceAs (Decidable (_ ∧ _))

def relationsOf (u : Universe) (calls : List Binding) : List (Relation × Range) :=
  (calls.filter (·.Fitting u)).filterMap fun call => (call.entry u).getLeft?

def intsOf (u : Universe) (calls : List Binding) : List (Int × TupleSet) :=
  (calls.filter (·.Fitting u)).filterMap fun call => (call.entry u).getRight?

variable {b next : Bounds} {u : Universe} {call : Binding} {calls : List Binding}

theorem Binding.perform_eq : call.perform b =
    match call.entry b.univ with
    | .inl (r, range) => b.bind r range.lower range.upper
    | .inr (value, tuples) => b.bindInt value tuples := by
  cases call <;> rfl

def record (b : Bounds) : (Relation × Range) ⊕ (Int × TupleSet) → Bounds
  | .inl (r, range) => { b with relations := b.relations.insert r range }
  | .inr (value, tuples) => { b with ints := b.ints.insert value tuples }

theorem Binding.perform_eq_ok :
    call.perform b = .ok next ↔ call.Fitting b.univ ∧ b.record (call.entry b.univ) = next := by
  rw [perform_eq, Fitting]
  cases call.entry b.univ with
  | inl entry =>
    constructor
    · intro ok
      obtain ⟨fitting, rfl⟩ := bind_eq_ok ok
      exact ⟨fitting, rfl⟩
    · rintro ⟨fitting, rfl⟩
      exact bind_of_fitting fitting
  | inr entry =>
    constructor
    · intro ok
      obtain ⟨fitting, rfl⟩ := bindInt_eq_ok ok
      exact ⟨fitting, rfl⟩
    · rintro ⟨fitting, rfl⟩
      exact bindInt_of_fitting fitting

theorem after_of_error {error : Error} (failed : call.perform b = .error error) :
    b.after call = b := by
  rw [after, failed]

theorem after_eq : b.after call =
    if call.Fitting b.univ then b.record (call.entry b.univ) else b := by
  split
  · rename_i fitting
    rw [after, Binding.perform_eq_ok.mpr ⟨fitting, rfl⟩]
  · rename_i unfitting
    cases run : call.perform b with
    | ok next => exact absurd (Binding.perform_eq_ok.mp run).1 unfitting
    | error error => exact after_of_error run

theorem WellFormed.record (formed : b.WellFormed) (fitting : call.Fitting b.univ) :
    (b.record (call.entry b.univ)).WellFormed := by
  have ok := Binding.perform_eq_ok.mpr ⟨fitting, rfl⟩
  rw [Binding.perform_eq] at ok
  cases found : call.entry b.univ with
  | inl entry => exact formed.bind (by simpa [found] using ok)
  | inr entry => exact formed.bindInt (by simpa [found] using ok)

theorem eraseDups_concat {α : Type} [DecidableEq α] (front : List α) (last : α) :
    (front ++ [last]).eraseDups =
      if last ∈ front.eraseDups then front.eraseDups else front.eraseDups ++ [last] := by
  rw [List.eraseDups_append, List.removeAll]
  by_cases known : last ∈ front <;> simp [known, List.eraseDups_cons]

theorem lookup_latest {κ α : Type} [DecidableEq κ] (entries : List (κ × α)) (key other : κ)
    (value : α) : (entries ++ [(key, value)]).reverse.lookup other =
      if other = key then some value else entries.reverse.lookup other := by
  rw [List.reverse_concat, List.lookup_cons]
  by_cases same : other = key
  · simp [same]
  · rw [beq_false_of_ne same, if_neg same]

/-- The bounds are well formed, list the relations in the order of their first entries, and have the
latest entry of each relation and of each integer. -/
structure Reads (b : Bounds) (u : Universe) (relations : List (Relation × Range))
    (ints : List (Int × TupleSet)) : Prop where
  univ : b.univ = u
  formed : b.WellFormed
  order : b.relations.keys = (relations.map Prod.fst).eraseDups
  range : ∀ r, b.range? r = relations.reverse.lookup r
  int : ∀ value, b.ints.find? value = ints.reverse.lookup value
  ascending : b.ints.keys.Pairwise (· < ·)

theorem Reads.empty (u : Universe) : (empty u).Reads u [] [] :=
  ⟨rfl, empty_wellFormed u, rfl, fun _ => rfl, fun _ => rfl, .nil⟩

section

variable {relations : List (Relation × Range)} {ints : List (Int × TupleSet)}

theorem Reads.record (reads : b.Reads u relations ints) (fitting : call.Fitting u) :
    (b.record (call.entry u)).Reads u (relations ++ (call.entry u).getLeft?.toList)
      (ints ++ (call.entry u).getRight?.toList) := by
  obtain rfl := reads.univ
  have formed := reads.formed.record fitting
  cases found : call.entry b.univ with
  | inl entry =>
    obtain ⟨r, range⟩ := entry
    rw [found] at formed
    refine ⟨rfl, formed, ?_, fun other => ?_, ?_, reads.ascending⟩
    · simp only [Sum.getLeft?_inl, Option.toList_some, List.map_append, List.map_cons, List.map_nil]
      rw [eraseDups_concat, ← reads.order]
      exact Table.keys_insert b.relations r range
    · simp only [Sum.getLeft?_inl, Option.toList_some]
      rw [lookup_latest, ← reads.range]
      exact Table.find?_insert b.relations r other range
    · simpa [Bounds.record] using reads.int
  | inr entry =>
    obtain ⟨value, tuples⟩ := entry
    rw [found] at formed
    refine ⟨rfl, formed, ?_, ?_, fun other => ?_, ?_⟩
    · simpa [Bounds.record] using reads.order
    · simpa [Bounds.record, range?] using reads.range
    · simp only [Sum.getRight?_inr, Option.toList_some]
      rw [lookup_latest, ← reads.int]
      exact SortedTable.find?_insert b.ints value other tuples
    · exact SortedTable.insertEntry_ascending value tuples reads.ascending

theorem boundBy_reads (u : Universe) (calls : List Binding) :
    (boundBy u calls).Reads u (relationsOf u calls) (intsOf u calls) := by
  induction calls using List.reverseRecOn with
  | nil => exact .empty u
  | append_singleton before call ih =>
    rw [boundBy, List.foldl_concat, after_eq, ← boundBy, ih.univ]
    have one {α : Type} (value? : Binding → Option α) :
        [call].filterMap value? = (value? call).toList := by
      cases found : value? call <;> simp [found]
    split
    · rename_i fitting
      simpa [relationsOf, intsOf, fitting, one] using ih.record fitting
    · rename_i unfitting
      simpa [relationsOf, intsOf, unfitting] using ih

end

end Bounds

/-- Bounds in separate containers: the relations in the order in which they were first bound, a map of
lower bounds and one of upper bounds, and the sets of the integers. -/
structure BoundMaps where
  univ : Universe
  relations : List Relation
  lower : Table Relation TupleSet
  upper : Table Relation TupleSet
  ints : SortedTable Int TupleSet

namespace BoundMaps

def empty (u : Universe) : BoundMaps := ⟨u, [], .empty, .empty, .empty⟩

/-- A relation is listed when it is not yet in the map of upper bounds. -/
def bind (m : BoundMaps) (r : Relation) (lower upper : TupleSet) : Except Error BoundMaps :=
  if lower.univ ≠ m.univ ∨ upper.univ ≠ m.univ then .error .foreignBound
  else if lower.arity ≠ r.arity ∨ upper.arity ≠ r.arity then
    .error (.relationArity lower.arity r.arity)
  else if lower.subset upper then
    .ok { m with
      relations := if m.upper.contains r then m.relations else m.relations ++ [r]
      lower := m.lower.insert r lower
      upper := m.upper.insert r upper }
  else .error (.lowerNotInUpper r.name)

def bindInt (m : BoundMaps) (value : Int) (tuples : TupleSet) : Except Error BoundMaps :=
  if tuples.univ ≠ m.univ then .error .foreignBound
  else if tuples.arity ≠ 1 ∨ tuples.size ≠ 1 then .error (.integerBound value tuples.render)
  else .ok { m with ints := m.ints.insert value tuples }

def perform (m : BoundMaps) : Bounds.Binding → Except Error BoundMaps
  | .bind r lower upper => m.bind r lower upper
  | .bindExactly r tuples => m.bind r tuples tuples
  | .bindUpper r upper => m.bind r (.empty m.univ r.arity) upper
  | .bindInt value tuples => m.bindInt value tuples

def after (m : BoundMaps) (call : Bounds.Binding) : BoundMaps :=
  match m.perform call with
  | .ok next => next
  | .error _ => m

def boundBy (u : Universe) (calls : List Bounds.Binding) : BoundMaps := calls.foldl after (empty u)

structure Mirrors (m : BoundMaps) (b : Bounds) : Prop where
  univ : m.univ = b.univ
  relations : m.relations = b.relations.keys
  lower : ∀ r, m.lower.find? r = (b.range? r).map Range.lower
  upper : ∀ r, m.upper.find? r = (b.range? r).map Range.upper
  ints : m.ints = b.ints

variable {m : BoundMaps} {b : Bounds} {r : Relation}

theorem Mirrors.empty (u : Universe) : (empty u).Mirrors (.empty u) :=
  ⟨rfl, rfl, fun _ => rfl, fun _ => rfl, rfl⟩

theorem Mirrors.mem_relations (mirrors : m.Mirrors b) :
    (r ∈ m.relations ↔ m.lower.contains r = true) ∧ (r ∈ m.relations ↔ m.upper.contains r = true) := by
  have listed : r ∈ m.relations ↔ (b.range? r).isSome = true := by
    rw [mirrors.relations, ← Table.contains_iff]
    rfl
  constructor <;> rw [listed, Table.contains]
  · rw [mirrors.lower, Option.isSome_map]
  · rw [mirrors.upper, Option.isSome_map]

inductive Agree : Except Error BoundMaps → Except Error Bounds → Prop
  | error (error : Error) : Agree (.error error) (.error error)
  | ok {m : BoundMaps} {b : Bounds} (mirrors : m.Mirrors b) : Agree (.ok m) (.ok b)

theorem Mirrors.bind (mirrors : m.Mirrors b) (r : Relation) (lower upper : TupleSet) :
    Agree (m.bind r lower upper) (b.bind r lower upper) := by
  unfold BoundMaps.bind Bounds.bind
  rw [mirrors.univ]
  split
  · exact .error _
  split
  · exact .error _
  split
  · refine .ok ⟨rfl, ?_, fun other => ?_, fun other => ?_, mirrors.ints⟩
    · obtain ⟨-, known⟩ := mirrors.mem_relations (r := r)
      simp only [Table.keys_insert, ← mirrors.relations, known]
    · simp only [Bounds.range?, Table.find?_insert]
      split
      · rfl
      · exact mirrors.lower other
    · simp only [Bounds.range?, Table.find?_insert]
      split
      · rfl
      · exact mirrors.upper other
  · exact .error _

theorem Mirrors.bindInt (mirrors : m.Mirrors b) (value : Int) (tuples : TupleSet) :
    Agree (m.bindInt value tuples) (b.bindInt value tuples) := by
  unfold BoundMaps.bindInt Bounds.bindInt
  rw [mirrors.univ]
  split
  · exact .error _
  split
  · exact .error _
  · obtain ⟨-, relations, lower, upper, ints⟩ := mirrors
    exact .ok ⟨rfl, relations, lower, upper, congrArg (·.insert value tuples) ints⟩

theorem Mirrors.perform (mirrors : m.Mirrors b) (call : Bounds.Binding) :
    Agree (m.perform call) (call.perform b) := by
  cases call with
  | bind r lower upper => exact mirrors.bind r lower upper
  | bindExactly r tuples => exact mirrors.bind r tuples tuples
  | bindUpper r upper =>
    rw [BoundMaps.perform, mirrors.univ]
    exact mirrors.bind r (.empty b.univ r.arity) upper
  | bindInt value tuples => exact mirrors.bindInt value tuples

theorem Mirrors.after (mirrors : m.Mirrors b) (call : Bounds.Binding) :
    (m.after call).Mirrors (b.after call) := by
  have agree := mirrors.perform call
  rw [BoundMaps.after, Bounds.after]
  generalize m.perform call = result, call.perform b = other at agree
  cases agree with
  | error error => exact mirrors
  | ok next => exact next

theorem after_of_error {call : Bounds.Binding} {error : Error}
    (agree : Agree (m.perform call) (.error error)) : m.after call = m := by
  rw [BoundMaps.after]
  generalize m.perform call = result at agree
  cases agree
  rfl

theorem boundBy_mirrors (u : Universe) (calls : List Bounds.Binding) :
    (boundBy u calls).Mirrors (.boundBy u calls) := by
  induction calls using List.reverseRecOn with
  | nil => exact .empty u
  | append_singleton before call ih =>
    rw [boundBy, Bounds.boundBy, List.foldl_concat, List.foldl_concat]
    exact ih.after call

end BoundMaps

/-- After any calls that bind relations and integers, failing ones included, the list of the relations
and the maps of lower and upper bounds are in step, and say what the bounds say. These are well formed:
every relation has a lower bound within its upper bound, both over the universe and of the arity of the
relation, and every integer a single unary tuple. The relations are listed once each, in the order of
their first binding that succeeded, and are those that have bounds. What succeeded last is what is read
back. Whatever is called next, it succeeds exactly if it is fitting, and if it fails nothing changes. -/
theorem bindings_keep_bounds (u : Universe) (calls : List Bounds.Binding) :
    let m := BoundMaps.boundBy u calls
    let b := Bounds.boundBy u calls
    m.Mirrors b ∧
    (∀ r, (r ∈ m.relations ↔ m.lower.contains r = true) ∧
      (r ∈ m.relations ↔ m.upper.contains r = true)) ∧
    b.univ = u ∧ b.WellFormed ∧
    b.relations.keys = ((Bounds.relationsOf u calls).map Prod.fst).eraseDups ∧
    (∀ r, (r ∈ b.relations.keys ↔ b.contains r = true) ∧
      (b.contains r = true ↔ ∃ range, b.range? r = some range)) ∧
    (∀ r range, b.range? r = some range → range.lower.size ≤ range.upper.size) ∧
    (∀ r, b.range? r = (Bounds.relationsOf u calls).reverse.lookup r) ∧
    (∀ value, b.ints.find? value = (Bounds.intsOf u calls).reverse.lookup value) ∧
    b.ints.keys.Pairwise (· < ·) ∧
    (∀ call : Bounds.Binding,
      BoundMaps.Agree (m.perform call) (call.perform b) ∧
      ((∃ next, call.perform b = .ok next) ↔ call.Fitting u) ∧
      (∀ error, call.perform b = .error error → m.after call = m ∧ b.after call = b)) := by
  intro m b
  have mirrors : m.Mirrors b := BoundMaps.boundBy_mirrors u calls
  obtain ⟨univ, formed, order, range, int, ascending⟩ := Bounds.boundBy_reads u calls
  refine ⟨mirrors, fun r => mirrors.mem_relations, univ, formed, order,
    fun r => ⟨(Table.contains_iff r).symm, Bounds.contains_iff⟩, fun r range found => ?_, range, int,
    ascending, fun call => ⟨mirrors.perform call, ?_, fun error failed => ⟨?_, ?_⟩⟩⟩
  · have contained := (formed.ranges r range found).2.2.2.2
    exact Nat.le.intro (Bounds.size_add_unknowns contained)
  · simp only [Bounds.Binding.perform_eq_ok, exists_and_left, exists_eq', and_true]
    exact univ ▸ Iff.rfl
  · have agree := mirrors.perform call
    rw [failed] at agree
    exact BoundMaps.after_of_error agree
  · exact Bounds.after_of_error failed

end ModelFinder
