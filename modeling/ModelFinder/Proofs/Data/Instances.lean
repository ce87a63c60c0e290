import ModelFinder.Finder.Minimal
import ModelFinder.Proofs.Data.Bounds

/-! What instances say: the tuples of a value as positions, values given one after the other, and
padding, which gives the relations without a value their lower bounds. -/
namespace ModelFinder

theorem TupleSet.mem_positions {set : TupleSet} (fits : set.Fits) {t : List Nat} :
    (∃ tuple ∈ set.tuples, tuple.positions = t) ↔
      t.length = set.arity ∧ (∀ a ∈ t, a < set.univ.size) ∧
        encodeIndex set.univ.size t ∈ set.indices := by
  simp only [tuples, List.mem_map]
  constructor
  · rintro ⟨tuple, ⟨i, member, rfl⟩, rfl⟩
    refine ⟨length_decodeIndex _ _ _, decodeIndex_lt set.univ.size_pos _ _, ?_⟩
    rw [encodeIndex_decodeIndex _ _ _ (fits i member)]
    exact member
  · rintro ⟨length, inside, member⟩
    refine ⟨_, ⟨_, member, rfl⟩, ?_⟩
    rw [← length, decodeIndex_encodeIndex _ t inside]

theorem TupleSet.contains_iff {set : TupleSet} {t : Tuple} : set.contains t = true ↔
    t.univ = set.univ ∧ t.arity = set.arity ∧ t.index ∈ set.indices := by
  simp [contains, and_assoc]

theorem TupleSet.contains_of_mem {set : TupleSet} (fits : set.Fits) {t : Tuple}
    (member : t ∈ set.tuples) : set.contains t = true := by
  obtain ⟨i, isMember, rfl⟩ := List.mem_map.mp member
  refine contains_iff.mpr ⟨rfl, length_decodeIndex _ _ _, ?_⟩
  rw [Tuple.index, encodeIndex_decodeIndex _ _ _ (fits i isMember)]
  exact isMember

namespace Instance

def Has (m : Instance) (r : Relation) (t : Tuple) : Prop :=
  ∃ set, m.tuples? r = some set ∧ set.contains t = true

structure Over (m : Instance) (u : Universe) : Prop where
  univ : m.univ = u
  distinct : m.relations.keys.Nodup
  values : ∀ entry ∈ m.relations.entries, entry.2.univ = u

variable {m next : Instance} {r : Relation} {set : TupleSet} {u : Universe}

theorem insert_eq_ok (ok : m.insert r set = .ok next) :
    (set.univ = m.univ ∧ set.arity = r.arity) ∧
      next = { m with relations := m.relations.insert r set } := by
  unfold insert at ok
  split at ok
  · cases ok
  split at ok
  · cases ok
  · rename_i univ arity
    exact ⟨⟨not_not.mp univ, not_not.mp arity⟩, (Except.ok.inj ok).symm⟩

theorem insert_of_fitting (univ : set.univ = m.univ) (arity : set.arity = r.arity) :
    m.insert r set = .ok { m with relations := m.relations.insert r set } := by
  rw [insert, if_neg (not_not_intro univ), if_neg (not_not_intro arity)]

theorem tuples?_insert (m : Instance) (r other : Relation) (set : TupleSet) :
    { m with relations := m.relations.insert r set }.tuples? other =
      if other = r then some set else m.tuples? other :=
  Table.find?_insert m.relations r other set

theorem empty_over (u : Universe) : (empty u).Over u :=
  ⟨rfl, List.nodup_nil, fun entry absent => by cases absent⟩

theorem Over.insert (isOver : m.Over u) (ok : m.insert r set = .ok next) : next.Over u := by
  obtain ⟨⟨univ, -⟩, rfl⟩ := insert_eq_ok ok
  refine ⟨isOver.univ, Table.insert_nodup isOver.distinct r set, fun entry member => ?_⟩
  rcases Table.mem_insert member with rfl | old
  · exact univ.trans isOver.univ
  · exact isOver.values entry old

theorem Over.insertInt {value : Int} (isOver : m.Over u) (ok : m.insertInt value set = .ok next) :
    next.Over u := by
  unfold Instance.insertInt at ok
  split at ok
  · cases ok
  · obtain rfl := Except.ok.inj ok
    exact ⟨isOver.univ, isOver.distinct, isOver.values⟩

theorem Over.pad {b : Bounds} (isOver : m.Over u) (ok : m.pad b = .ok next) : next.Over u := by
  obtain ⟨padded, first, second⟩ := ModelFinder.bind_eq_ok.mp ok
  have between : padded.Over u := by
    refine foldlM_invariant (Over · u) (fun entry _ before after now step => ?_) isOver first
    obtain ⟨q, range⟩ := entry
    simp only at step
    split at step
    · exact Except.ok.inj step ▸ now
    · exact now.insert step
  exact foldlM_invariant (Over · u) (fun _ _ _ _ now step => now.insertInt step) between second

theorem insertInt_of_fitting {value : Int} (univ : set.univ = m.univ) (arity : set.arity = 1)
    (size : set.size = 1) :
    m.insertInt value set = .ok { m with ints := m.ints.insert value set } := by
  rw [insertInt, if_neg]
  simp [univ, arity, size]

theorem insertAll_eq_ok {α : Type} {key : α → Relation} {value : α → Except Error TupleSet}
    {items : List α} (distinct : (items.map key).Nodup)
    (ok : items.foldlM (fun m a => do m.insert (key a) (← value a)) m = .ok next) :
    next.univ = m.univ ∧ next.ints = m.ints ∧
      (∀ r, r ∉ items.map key → next.tuples? r = m.tuples? r) ∧
      ∀ a ∈ items, ∃ set, value a = .ok set ∧ next.tuples? (key a) = some set := by
  induction items generalizing m with
  | nil =>
    obtain rfl := pure_eq_ok.mp ok
    exact ⟨rfl, rfl, fun _ _ => rfl, by simp⟩
  | cons a rest ih =>
    obtain ⟨fresh, restDistinct⟩ := List.nodup_cons.mp distinct
    obtain ⟨between, here, there⟩ := ModelFinder.bind_eq_ok.mp ok
    obtain ⟨set, isValue, inserted⟩ := ModelFinder.bind_eq_ok.mp here
    obtain ⟨-, rfl⟩ := insert_eq_ok inserted
    obtain ⟨univ, ints, others, each⟩ := ih restDistinct there
    refine ⟨univ, ints, fun r absent => ?_, fun b member => ?_⟩
    · obtain ⟨notHere, notThere⟩ := not_or.mp (fun known => absent (List.mem_cons.mpr known))
      rw [others r notThere, tuples?_insert, if_neg notHere]
    · rcases List.mem_cons.mp member with rfl | inRest
      · exact ⟨set, isValue, by rw [others _ fresh, tuples?_insert, if_pos rfl]⟩
      · exact each b inRest

theorem insertAll_succeeds {α : Type} {key : α → Relation} {value : α → Except Error TupleSet}
    {items : List α} (values : ∀ a ∈ items, ∃ set, value a = .ok set ∧ set.univ = m.univ ∧
      set.arity = (key a).arity) :
    ∃ next, items.foldlM (fun m a => do m.insert (key a) (← value a)) m = .ok next := by
  have each : ∀ a ∈ items, ∀ before : Instance, before.univ = m.univ → ∃ after : Instance,
      (do before.insert (key a) (← value a)) = .ok after ∧ after.univ = m.univ := by
    intro a member before univ
    obtain ⟨set, isValue, setUniv, arity⟩ := values a member
    have fitting := insert_of_fitting (setUniv.trans univ.symm) arity
    exact ⟨_, ModelFinder.bind_eq_ok.mpr ⟨set, isValue, fitting⟩, univ⟩
  obtain ⟨next, ok, -⟩ := foldlM_succeeds (fun between : Instance => between.univ = m.univ)
    each rfl
  exact ⟨next, ok⟩

theorem padRelations_succeeds {b : Bounds} (formed : b.WellFormed) (univ : m.univ = b.univ)
    {entries : List (Relation × Range)}
    (bound : ∀ entry ∈ entries, b.range? entry.1 = some entry.2) :
    ∃ padded : Instance, entries.foldlM (fun (m : Instance) (r, range) =>
        if m.contains r then .ok m else m.insert r range.lower) m = Except.ok padded ∧
      padded.univ = b.univ ∧ padded.ints = m.ints ∧
      ∀ r, padded.tuples? r = (m.tuples? r).or ((entries.lookup r).map (·.lower)) := by
  induction entries generalizing m with
  | nil => exact ⟨m, rfl, univ, rfl, fun r => by simp⟩
  | cons entry rest ih =>
    obtain ⟨q, range⟩ := entry
    have inRest := fun entry member => bound entry (List.mem_cons_of_mem (q, range) member)
    obtain ⟨lowerUniv, -, lowerArity, -⟩ :=
      formed.ranges q range (bound (q, range) List.mem_cons_self)
    by_cases known : m.contains q = true
    · obtain ⟨padded, ok, paddedUniv, ints, values⟩ := ih univ inRest
      refine ⟨padded, ?_, paddedUniv, ints, fun r => ?_⟩
      · rw [List.foldlM_cons]
        simp only [known, if_true]
        exact ok
      · rw [values r, List.lookup_cons]
        by_cases same : r = q
        · obtain ⟨set, isValue⟩ := Option.isSome_iff_exists.mp
            (show (m.tuples? q).isSome = true from known)
          rw [same, isValue]
          simp
        · rw [beq_false_of_ne same]
    · obtain ⟨padded, ok, paddedUniv, ints, values⟩ :=
        @ih { m with relations := m.relations.insert q range.lower } univ inRest
      refine ⟨padded, ?_, paddedUniv, ints, fun r => ?_⟩
      · rw [List.foldlM_cons]
        simp only [known, Bool.false_eq_true, if_false]
        rw [insert_of_fitting (lowerUniv.trans univ.symm) lowerArity]
        exact ok
      · rw [values r, tuples?_insert, List.lookup_cons]
        by_cases same : r = q
        · have unknown : m.tuples? q = none := by
            simpa [contains, Table.contains, tuples?] using known
          simp [same, unknown]
        · rw [if_neg same, beq_false_of_ne same]

theorem padInts_succeeds {b : Bounds} (formed : b.WellFormed) (univ : m.univ = b.univ)
    {entries : List (Int × TupleSet)} (distinct : (entries.map Prod.fst).Nodup)
    (bound : ∀ entry ∈ entries, b.ints.find? entry.1 = some entry.2) :
    ∃ padded : Instance, entries.foldlM (fun (m : Instance) (value, tuples) =>
        m.insertInt value tuples) m = Except.ok padded ∧
      padded.univ = b.univ ∧ (∀ r, padded.tuples? r = m.tuples? r) ∧
      ∀ value, padded.ints.find? value = (entries.lookup value).or (m.ints.find? value) := by
  induction entries generalizing m with
  | nil => exact ⟨m, rfl, univ, fun _ => rfl, fun value => by simp⟩
  | cons entry rest ih =>
    obtain ⟨k, tuples⟩ := entry
    obtain ⟨fresh, restDistinct⟩ := List.nodup_cons.mp distinct
    have inRest := fun entry member => bound entry (List.mem_cons_of_mem (k, tuples) member)
    obtain ⟨setUniv, arity, size⟩ :=
      formed.ints k tuples (bound (k, tuples) List.mem_cons_self)
    obtain ⟨padded, ok, paddedUniv, relations, ints⟩ :=
      @ih { m with ints := m.ints.insert k tuples } univ restDistinct inRest
    refine ⟨padded, ?_, paddedUniv, relations, fun value => ?_⟩
    · have here := @insertInt_of_fitting m tuples k (setUniv.trans univ.symm) arity size
      rw [List.foldlM_cons]
      exact ModelFinder.bind_eq_ok.mpr ⟨_, here, ok⟩
    · rw [ints value, SortedTable.find?_insert, List.lookup_cons]
      by_cases same : value = k
      · have absent : rest.lookup k = none := by
          by_contra found
          obtain ⟨set, isValue⟩ := Option.ne_none_iff_exists'.mp found
          exact fresh (key_mem ((lookup_eq_some restDistinct).mp isValue))
        simp [same, absent]
      · rw [if_neg same, beq_false_of_ne same]

theorem pad_succeeds {b : Bounds} (regular : b.Regular) (univ : m.univ = b.univ) :
    ∃ padded, m.pad b = .ok padded ∧ padded.univ = b.univ ∧
      (∀ r, padded.tuples? r = (m.tuples? r).or ((b.range? r).map (·.lower))) ∧
      ∀ value, padded.ints.find? value = (b.ints.find? value).or (m.ints.find? value) := by
  have distinct : b.ints.keys.Nodup := regular.ascending.imp Int.ne_of_lt
  obtain ⟨between, first, betweenUniv, betweenInts, values⟩ :=
    padRelations_succeeds regular.formed univ fun entry member =>
      (Bounds.mem_entries regular.formed).mp member
  obtain ⟨padded, second, paddedUniv, kept, ints⟩ :=
    padInts_succeeds regular.formed betweenUniv distinct fun entry member =>
      (lookup_eq_some distinct).mpr member
  refine ⟨padded, ModelFinder.bind_eq_ok.mpr ⟨between, first, second⟩, paddedUniv, fun r => ?_,
    fun value => ?_⟩
  · rw [kept, values]
    rfl
  · rw [ints, betweenInts]
    rfl

end Instance

end ModelFinder
