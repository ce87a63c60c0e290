import ModelFinder.Proofs.Circuit.Algebra

/-! Closures are fixpoints. Whatever the cells of a binary symbolic relation are, a cell of its closure
is true exactly if a path of true cells joins the two atoms, and no squarings beyond the number for the
stored rows add a pair. -/
namespace ModelFinder

def Matrix.Linked (m : Matrix) (c : Circuit) (s : Nat → Bool) (x y : Nat) : Prop :=
  x < m.dims.size ∧ y < m.dims.size ∧ (m.get (x * m.dims.size + y)).eval c s = true

def Build.Links (action : Build Matrix) (c : Circuit) (n : Nat)
    (pairs : (Nat → Bool) → Nat → Nat → Prop) : Prop :=
  ∃ m d, action c = .ok (m, d) ∧ c ≤ d ∧ m.dims = ⟨n, 2⟩ ∧
    (d.Labelled → d.WellFormed ∧ m.WellFormed d ∧
      ∀ s x y, x < n → y < n → (m.Linked d s x y ↔ pairs s x y))

namespace Matrix

variable {c : Circuit} {s : Nat → Bool} {m : Matrix} {n x y : Nat}

theorem linked_iff (dims : m.dims = ⟨n, 2⟩) : m.Linked c s x y ↔ m.Holds c s [x, y] := by
  have index : encodeIndex n [x, y] = x * n + y := by
    rw [encodeIndex_cons, List.length_singleton, pow_one, encodeIndex_singleton]
  rw [Linked, Holds, dims, index]
  simp [and_assoc]

theorem links_of {action : Build Matrix} {op : UnaryOp} {pairs : (Nat → Bool) → Nat → Nat → Prop}
    (yields : Build.Yields action fun r => r.dims = ⟨n, 2⟩) (grows : Build.Grows action)
    (ensured : ∀ s, Build.Ensures action c fun r d =>
      r.Denotes n 2 d s (op.denote (m.Holds c s) n))
    (same : ∀ s x y, x < n → (op.denote (m.Holds c s) n [x, y] ↔ pairs s x y)) :
    Build.Links action c n pairs := by
  obtain ⟨r, d, ok, grown, dims, denotes⟩ := relates_of (yields c) grows ensured
  refine ⟨r, d, ok, grown, dims, fun labelled => ?_⟩
  obtain ⟨sound, formed, tuples⟩ := denotes labelled
  refine ⟨sound, formed, fun s x y inside _ => ?_⟩
  rw [linked_iff dims]
  exact (tuples s [x, y]).trans (same s x y inside)

end Matrix

/-- Over at least one atom, whose pairs can be counted, the closure of any binary symbolic relation
links the atoms that a path of one or more true cells joins, and the reflexive closure links also each
atom with itself. The closure squares as often as the stored rows ask for, and squaring more often
gives the same pairs. -/
theorem closures_reach_fixpoint {c : Circuit} {m : Matrix} {n : Nat} (sound : c.Sound)
    (positive : 0 < n) (countable : Countable n 2) (formed : m.WellFormed c)
    (dims : m.dims = ⟨n, 2⟩) :
    Build.Links m.closure c n (fun s => Relation.TransGen (m.Linked c s)) ∧
      Build.Links m.reflexiveClosure c n
        (fun s x y => x = y ∨ Relation.TransGen (m.Linked c s) x y) ∧
      ∀ times, Matrix.squarings m.rowCount ≤ times →
        Build.Links (Matrix.square times m) c n fun s => Relation.TransGen (m.Linked c s) := by
  have meant := formed.denotes dims
  have linked : ∀ s, m.Linked c s = fun x y => m.Holds c s [x, y] := by
    intro s
    funext x y
    exact propext (Matrix.linked_iff dims)
  have closed : ∀ s x y, x < n → (UnaryOp.denote (m.Holds c s) n .closure [x, y] ↔
      Relation.TransGen (m.Linked c s) x y) := by
    intro s x y _
    simp [UnaryOp.denote, linked]
  refine ⟨?closure, ?reflexive, ?enough⟩
  case closure =>
    exact Matrix.links_of (Matrix.closure_yields positive countable dims) (by simp)
      (fun s => Matrix.closure_ensures positive sound (meant s)) closed
  case reflexive =>
    refine Matrix.links_of (Matrix.reflexiveClosure_yields positive countable dims) (by simp)
      (fun s => Matrix.reflexiveClosure_ensures positive sound (meant s)) fun s x y inside => ?_
    simp [UnaryOp.denote, linked, inside, or_comm]
  case enough =>
    intro times enough
    exact Matrix.links_of (Matrix.square_yields positive countable times dims) (by simp)
      (fun s => Matrix.square_reaches positive sound (meant s) enough) closed

theorem sample_closures_reach :
    Build.Links Sample.steps.closure Sample.joined 2
        (fun s => Relation.TransGen (Sample.steps.Linked Sample.joined s)) ∧
      Build.Links Sample.steps.reflexiveClosure Sample.joined 2
        (fun s x y => x = y ∨ Relation.TransGen (Sample.steps.Linked Sample.joined s) x y) ∧
      Build.Links (Matrix.square 3 Sample.steps) Sample.joined 2
        (fun s => Relation.TransGen (Sample.steps.Linked Sample.joined s)) := by
  have sound := (Sample.both_built.issues Sample.joined_labelled).1
  obtain ⟨closed, reflexive, enough⟩ := closures_reach_fixpoint sound (by decide) (by decide)
    Sample.steps_formed rfl
  exact ⟨closed, reflexive, enough 3 (by decide)⟩

namespace Sample

/-- The first atom is followed by the second if the last input is true, and the second by itself. -/
def doubtfulPath : Matrix := ⟨⟨2, 2⟩, ⟨[(1, last.value), (3, .const true)]⟩⟩

def certainPath : Matrix := ⟨⟨2, 2⟩, ⟨[(1, .const true), (3, .const true)]⟩⟩

theorem doubtfulPath_formed : doubtfulPath.WellFormed crowded := by
  refine ⟨by decide, by decide, fun v member => ?_⟩
  have cases : v = last.value ∨ v = .const true := by
    simpa [doubtfulPath, SortedTable.values] using member
  rcases cases with rfl | rfl
  · exact ⟨by decide, by decide, by decide⟩
  · exact ⟨by decide, trivial⟩

theorem with_true_run {v : Value} (known : v = last.value ∨ v = .const true) :
    Circuit.and v (.const true) crowded = (.const true, crowded) ∧
      Circuit.or v (.const true) crowded = (.const true, crowded) := by
  have both : Circuit.operands false [v, .const true] = none := by simp [Circuit.operands]
  rw [Circuit.and, Circuit.all, Circuit.combine, Circuit.or, Circuit.any, Circuit.combine, both]
  rcases known with rfl | rfl
  · rw [show Circuit.operands true [last.value, .const true] = some [2147483647] by decide]
    simp only [Ascending.sort_singleton]
    exact ⟨rfl, rfl⟩
  · rw [show Circuit.operands true [.const true, .const true] = some [] by decide]
    simp only [Ascending.sort_nil]
    exact ⟨rfl, rfl⟩

theorem groups_run : Matrix.anyOfGroups [(1, .const true), (3, .const true)] crowded =
    ([(1, .const true), (3, .const true)], crowded) := by
  have keys : Ascending.sort (groupByKey [(1, Value.const true), (3, .const true)]).keys = [1, 3] := by
    refine IndexSet.eq_of_mem_iff (Ascending.sort_pairwise _) (by decide) fun key => ?_
    rw [Ascending.mem_sort, Std.HashMap.mem_keys, mem_groupByKey]
    rfl
  simp only [Matrix.anyOfGroups, keys, getD_groupByKey]
  rfl

theorem certain_cells :
    Matrix.ofCells ⟨2, 2⟩ [(1, .const true), (3, .const true)] = certainPath := by
  have listed : (SortedTable.ofList [(1, Value.const true), (3, .const true)]).entries =
      [(1, .const true), (3, .const true)] := SortedTable.ofList_entries (by decide)
  rw [Matrix.ofCells, listed]
  rfl

theorem mapM_run {α : Type} {item : α} {items : List α} {step : α → Build (Nat × Value)}
    {cell : Nat × Value} {cells : List (Nat × Value)} (here : step item crowded = .ok (cell, crowded))
    (there : items.mapM step crowded = .ok (cells, crowded)) :
    (item :: items).mapM step crowded = .ok (cell :: cells, crowded) := by
  rw [List.mapM_cons]
  exact Build.bind_run.mpr ⟨cell, crowded, here, Build.bind_run.mpr ⟨cells, crowded, there, rfl⟩⟩

theorem join_run : doubtfulPath.join doubtfulPath crowded = .ok (certainPath, crowded) := by
  obtain ⟨first, -⟩ := with_true_run (.inl rfl : last.value = last.value ∨ _)
  obtain ⟨second, -⟩ := with_true_run (.inr rfl : Value.const true = _ ∨ _)
  have size : doubtfulPath.dims.size = 2 := rfl
  simp only [Matrix.join, getD_groupByKey, size, two_ne_zero, if_false]
  refine Build.bind_run.mpr ⟨⟨2, 2⟩, crowded, rfl, ?_⟩
  refine Build.bind_run.mpr ⟨[(1, .const true), (3, .const true)], crowded, ?_, ?_⟩
  · refine mapM_run ?_ (mapM_run ?_ rfl)
    · exact congrArg (fun r : Value × Circuit => (.ok ((1, r.1), r.2) : Except Error _)) first
    · exact congrArg (fun r : Value × Circuit => (.ok ((3, r.1), r.2) : Except Error _)) second
  · refine Build.bind_run.mpr ⟨_, crowded, congrArg Except.ok groups_run, ?_⟩
    rw [certain_cells]
    rfl

theorem union_run : doubtfulPath.union certainPath crowded = .ok (certainPath, crowded) := by
  obtain ⟨-, first⟩ := with_true_run (.inl rfl : last.value = last.value ∨ _)
  obtain ⟨-, second⟩ := with_true_run (.inr rfl : Value.const true = _ ∨ _)
  have stored : ∀ i, Matrix.valueAt doubtfulPath.cells.index i = doubtfulPath.get i := by
    intro i
    rw [Matrix.valueAt, Std.HashMap.getD_eq_getD_getElem?, SortedTable.index_eq_find? (by decide)]
    rfl
  have latest : Matrix.ofCells ⟨2, 2⟩
      (doubtfulPath.cells.entries ++ [(1, .const true), (3, .const true)]) = certainPath := by
    have keys : Ascending.sort (Std.HashMap.ofList
        (doubtfulPath.cells.entries ++ [(1, Value.const true), (3, .const true)])).keys = [1, 3] := by
      refine IndexSet.eq_of_mem_iff (Ascending.sort_pairwise _) (by decide) fun key => ?_
      rw [Ascending.mem_sort, Std.HashMap.mem_keys, Std.HashMap.mem_ofList, List.contains_iff_mem]
      simp only [doubtfulPath, List.cons_append, List.nil_append, List.map_cons, List.map_nil,
        List.mem_cons, List.not_mem_nil, or_false]
      omega
    have found : ∀ key, (key, Value.const true) ∈ [(1, Value.const true), (3, .const true)] →
        (Std.HashMap.ofList (doubtfulPath.cells.entries ++
          [(1, Value.const true), (3, .const true)]))[key]? = some (.const true) := by
      intro key member
      rw [ofList_append, (ofList_eq_some (by decide)).mpr member]
      rfl
    simp only [Matrix.ofCells, SortedTable.ofList, keys, List.filterMap_cons, found 1 (by decide),
      found 3 (by decide)]
    rfl
  simp only [Matrix.union, stored]
  refine Build.bind_run.mpr ⟨(), crowded, rfl, ?_⟩
  refine Build.bind_run.mpr ⟨[(1, .const true), (3, .const true)], crowded, ?_, ?_⟩
  · refine mapM_run ?_ (mapM_run ?_ rfl)
    · exact congrArg (fun r : Value × Circuit => (.ok ((1, r.1), r.2) : Except Error _)) first
    · exact congrArg (fun r : Value × Circuit => (.ok ((3, r.1), r.2) : Except Error _)) second
  · exact congrArg (fun m => (.ok (m, crowded) : Except Error _)) latest

theorem closure_run : doubtfulPath.closure crowded = .ok (certainPath, crowded) := by
  have once : Matrix.squarings doubtfulPath.rowCount = 1 := by decide
  rw [Matrix.closure, once]
  refine Build.bind_run.mpr ⟨(), crowded, rfl, ?_⟩
  refine Build.bind_run.mpr ⟨_, crowded, join_run, ?_⟩
  exact Build.bind_run.mpr ⟨_, crowded, union_run, rfl⟩

end Sample

/-- Where labels run out, the closure has a pair for certain that only the last input joins. -/
theorem doubtful_passes_for_path :
    Circuit.Built 2147483647 false [Sample.last] Sample.crowded ∧
      Sample.doubtfulPath.WellFormed Sample.crowded ∧
      Sample.doubtfulPath.closure Sample.crowded = .ok (Sample.certainPath, Sample.crowded) ∧
      Sample.certainPath.Linked Sample.crowded (fun _ => false) 0 1 ∧
      ¬ Relation.TransGen (Sample.doubtfulPath.Linked Sample.crowded fun _ => false) 0 1 := by
  refine ⟨Sample.last_built, Sample.doubtfulPath_formed, Sample.closure_run, by
    unfold Matrix.Linked; decide, fun path => ?_⟩
  obtain ⟨next, ⟨-, inside, holds⟩, -⟩ := Relation.TransGen.head'_iff.mp path
  have cases : next = 0 ∨ next = 1 := by
    have bound : next < 2 := inside
    omega
  rcases cases with rfl | rfl
  · revert holds
    decide
  · revert holds
    decide

end ModelFinder
