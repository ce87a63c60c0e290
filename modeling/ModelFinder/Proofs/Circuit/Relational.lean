import ModelFinder.Logic.Semantics
import ModelFinder.Proofs.Circuit.Matrix

/-! The operators on symbolic relations denote the operators on sets of tuples. Each operator is
first described by the indices of the cells it makes true, from the lists of cells it goes through;
the row-major codec then turns indices into tuples. -/
namespace ModelFinder.Matrix

variable {c : Circuit} {s : Nat → Bool} {a b m : Matrix} {n k l : Nat}
variable {P Q R : List Nat → Prop}

@[simp] theorem grows_anyOfGroups (terms : List (Nat × Value)) :
    Build.Grows (liftM (anyOfGroups terms)) := by
  simp [anyOfGroups]

@[simp] theorem grows_union (a b : Matrix) : Build.Grows (a.union b) := by
  unfold union
  refine Build.grows_bind (by simp) fun _ => Build.grows_bind ?_ (by simp)
  exact Build.grows_mapM _ fun _ => by simp

@[simp] theorem grows_intersection (a b : Matrix) : Build.Grows (a.intersection b) := by
  unfold intersection
  refine Build.grows_bind (by simp) fun _ => Build.grows_bind ?_ (by simp)
  exact Build.grows_mapM _ fun _ => by simp

@[simp] theorem grows_difference (a b : Matrix) : Build.Grows (a.difference b) := by
  unfold difference
  refine Build.grows_bind (by simp) fun _ => Build.grows_bind ?_ (by simp)
  exact Build.grows_mapM _ fun _ => by simp

@[simp] theorem grows_override (a b : Matrix) : Build.Grows (a.override b) := by
  unfold override
  refine Build.grows_bind (by simp) fun _ => ?_
  extract_lets row theirs rest
  have later : ∀ start, Build.Grows (rest start) := by
    intro start
    refine Build.grows_bind (by simp) fun _ => Build.grows_bind ?_ (by simp)
    exact Build.grows_mapM _ fun _ => by simp
  split
  · exact Build.grows_bind (by simp) later
  · exact later ()

@[simp] theorem grows_join (a b : Matrix) : Build.Grows (a.join b) := by
  unfold join
  refine Build.grows_bind (by simp) fun dims => ?_
  extract_lets width rows pairs rest
  have later : ∀ start, Build.Grows (rest start) := by
    intro start
    refine Build.grows_bind ?_ (by simp)
    exact Build.grows_mapM _ fun _ => by simp
  split
  · exact Build.grows_bind (by simp) later
  · exact later ()

@[simp] theorem grows_product (a b : Matrix) : Build.Grows (a.product b) := by
  unfold product
  refine Build.grows_bind (by simp) fun _ => Build.grows_bind ?_ (by simp)
  exact Build.grows_mapM _ fun _ => by simp

@[simp] theorem grows_square (times : Nat) (m : Matrix) : Build.Grows (square times m) := by
  induction times generalizing m with
  | zero => simp [square]
  | succ times ih => simp [square, ih]

@[simp] theorem grows_closure (m : Matrix) : Build.Grows m.closure := by
  simp [closure]

@[simp] theorem grows_reflexiveClosure (m : Matrix) : Build.Grows m.reflexiveClosure := by
  simp [reflexiveClosure]

@[simp] theorem grows_subset (a b : Matrix) : Build.Grows (a.subset b) := by
  unfold subset
  refine Build.grows_bind (by simp) fun _ => Build.grows_bind ?_ (by simp)
  exact Build.grows_mapM _ fun _ => by simp

@[simp] theorem grows_equals (a b : Matrix) : Build.Grows (a.equals b) := by
  simp [equals]

@[simp] theorem grows_some (m : Matrix) : Build.Grows (liftM m.some) := by
  simp [some]

@[simp] theorem grows_no (m : Matrix) : Build.Grows (liftM m.no) := by
  simp [no]

@[simp] theorem grows_exclude (apart : Array Value) (before v : Value) :
    Build.Grows (liftM (exclude apart before v)) := by
  simp [exclude]

@[simp] theorem grows_atMostOne (m : Matrix) : Build.Grows (liftM m.atMostOne) := by
  simp [atMostOne]

@[simp] theorem grows_lone (m : Matrix) : Build.Grows (liftM m.lone) := by
  simp [lone]

@[simp] theorem grows_one (m : Matrix) : Build.Grows (liftM m.one) := by
  simp [one]

structure Grouped (c d : Circuit) (s : Nat → Bool) (terms cells : List (Nat × Value)) : Prop where
  distinct : (cells.map Prod.fst).Nodup
  origin : ∀ i v, (i, v) ∈ cells → i ∈ terms.map Prod.fst ∧ v.In d
  holds : ∀ i, (∃ v, (i, v) ∈ cells ∧ v.eval d s = true) ↔
    ∃ v, (i, v) ∈ terms ∧ v.eval c s = true

theorem anyOfGroups_ensures (s : Nat → Bool) {terms : List (Nat × Value)} (sound : c.Sound)
    (inside : ∀ i v, (i, v) ∈ terms → v.In c) :
    Build.Ensures (liftM (anyOfGroups terms)) c fun cells d => Grouped c d s terms cells := by
  unfold anyOfGroups
  rw [Synth.lift_mapM]
  have mem_keys : ∀ i, i ∈ Ascending.sort (groupByKey terms).keys ↔ i ∈ terms.map Prod.fst := by
    intro i
    rw [Ascending.mem_sort, Std.HashMap.mem_keys, mem_groupByKey]
  have mem_group : ∀ i v, v ∈ (groupByKey terms).getD i [] ↔ (i, v) ∈ terms := by
    intro i v
    rw [getD_groupByKey]
    simp
  refine (listed_ensures s id (fun i => ∃ v, (i, v) ∈ terms ∧ v.eval c s = true)
    (fun i => liftM (Circuit.any ((groupByKey terms).getD i []))) (fun _ => rfl) sound (by simp)
    ?_).imp ?_
  · intro i member d grown reached
    have within : ∀ v ∈ (groupByKey terms).getD i [], v.In c :=
      fun v found => inside i v ((mem_group i v).mp found)
    refine (Circuit.any_ensures s reached fun v found => (within v found).of_le grown).imp ?_
    intro v e _ meant
    refine meant.congr (exists_congr fun w => ?_)
    rw [mem_group]
    refine and_congr_right fun found => ?_
    rw [Value.eval_of_le grown (inside i w found)]
  · intro cells d _ listed
    refine ⟨?_, ?_, ?_⟩
    · rw [listed.keys, List.map_id]
      exact (Ascending.sort_pairwise _).imp Nat.ne_of_lt
    · intro i v member
      obtain ⟨key, isKey, same, meant⟩ := listed.item member
      exact ⟨(mem_keys i).mp (same ▸ isKey), meant.1⟩
    · intro i
      rw [listed.exists_iff]
      constructor
      · rintro ⟨key, -, rfl, holds⟩
        exact holds
      · rintro ⟨v, member, holds⟩
        exact ⟨i, (mem_keys i).mpr (key_mem member), rfl, v, member, holds⟩

theorem Grouped.valueAt {d : Circuit} {terms cells : List (Nat × Value)}
    (grouped : Grouped c d s terms cells) (i : Nat) :
    (valueAt (Std.HashMap.ofList cells) i).Means d s (∃ v, (i, v) ∈ terms ∧ v.eval c s = true) := by
  rw [← grouped.holds, Matrix.valueAt, Std.HashMap.getD_eq_getD_getElem?]
  simp only [← ofList_eq_some grouped.distinct]
  cases found : (Std.HashMap.ofList cells)[i]? with
  | none => exact ⟨trivial, by simp [Value.eval]⟩
  | some v => exact ⟨(grouped.origin i v (mem_of_ofList found)).2, by simp⟩

theorem ensures_of_sameDims {α : Type} {next : Unit → Build α} {post : α → Circuit → Prop}
    (left : a.Denotes n k c s P) (right : b.Denotes n k c s Q)
    (ensured : Build.Ensures (next ()) c post) :
    Build.Ensures (liftM (a.sameDims b) >>= next) c post := by
  have same : a.sameDims b = .ok () := by
    rw [sameDims, left.dims_eq, right.dims_eq, if_pos rfl]
  rw [same]
  exact ensured

theorem stored_means (formed : m.WellFormed c) {cell : Nat × Value}
    (member : cell ∈ m.cells.entries) : cell.2.Means c s (m.HoldsAt c s cell.1) := by
  refine ⟨formed.inside member, ?_⟩
  rw [holdsAt_iff formed]
  constructor
  · intro holds
    exact ⟨cell.2, member, holds⟩
  · rintro ⟨v, other, holds⟩
    rwa [value_unique (SortedTable.keys_nodup formed.ascending) member other]

/-- A relation whose cells are computed at indices of another has the same dimensions. -/
theorem listed_fit {d : Circuit} {α : Type} {items : List α} {key : α → Nat} {p : α → Prop}
    {cells : List (Nat × Value)} (dims : Dims) (listed : Listed d s items key p cells)
    (bounded : ∀ item ∈ items, key item < dims.capacity) :
    ∀ i v, (i, v) ∈ cells → i < dims.capacity ∧ v.In d := by
  intro i v member
  obtain ⟨item, isItem, rfl, meant⟩ := listed.item member
  exact ⟨bounded item isItem, meant.1⟩

theorem stored_fit {d : Circuit} (formed : m.WellFormed c) (grown : c ≤ d) :
    ∀ i v, (i, v) ∈ m.cells.entries → i < m.dims.capacity ∧ v.In d :=
  fun _ _ member => ⟨formed.lt member, (formed.inside member).of_le grown⟩

/-- Cells that are computed at the indices of one relation and laid over the cells of another add to
the other what the one has of its own. -/
theorem overlay_holdsAt {d : Circuit} {dims : Dims} {below above : Matrix} {p : Nat → Prop}
    {cells : List (Nat × Value)} (belowFormed : below.WellFormed c) (aboveFormed : above.WellFormed c)
    (belowSize : below.dims.capacity = dims.capacity) (aboveSize : above.dims.capacity = dims.capacity)
    (grown : c ≤ d) (own : ∀ i, p i → above.HoldsAt c s i)
    (listed : Listed d s above.cells.entries Prod.fst (fun cell => below.HoldsAt c s cell.1 ∨ p cell.1)
      cells) :
    (ofCells dims (below.cells.entries ++ cells)).WellFormed d ∧
      ∀ i, (ofCells dims (below.cells.entries ++ cells)).HoldsAt d s i ↔
        below.HoldsAt c s i ∨ p i := by
  have fit : ∀ i v, (i, v) ∈ below.cells.entries ++ cells → i < dims.capacity ∧ v.In d := by
    intro i v member
    rcases List.mem_append.mp member with old | new
    · exact belowSize ▸ stored_fit belowFormed grown i v old
    · exact listed_fit dims listed (fun cell stored => aboveSize ▸ aboveFormed.lt stored) i v new
  have keys : cells.map Prod.fst = above.cells.keys := listed.keys
  refine ⟨ofCells_formed fit, fun i => ?_⟩
  rw [ofCells_append_holdsAt (SortedTable.keys_nodup belowFormed.ascending)
    (keys ▸ SortedTable.keys_nodup aboveFormed.ascending) fit, listed.exists_iff, keys,
    ← holdsAt_iff (belowFormed.of_le grown), holdsAt_of_le belowFormed grown]
  constructor
  · rintro (⟨cell, member, rfl, holds⟩ | ⟨-, holds⟩)
    · exact holds
    · exact .inl holds
  · intro holds
    by_cases stored : i ∈ above.cells.keys
    · obtain ⟨cell, member, rfl⟩ := List.mem_map.mp stored
      exact .inl ⟨cell, member, rfl, holds⟩
    · refine .inr ⟨stored, holds.resolve_right fun added => ?_⟩
      obtain ⟨v, member, -⟩ := (holdsAt_iff aboveFormed).mp (own i added)
      exact stored (mem_keys member)

theorem union_ensures (sound : c.Sound) (left : a.Denotes n k c s P) (right : b.Denotes n k c s Q) :
    Build.Ensures (a.union b) c fun m d => m.Denotes n k d s (BinaryOp.denote P Q .union) := by
  unfold union
  refine ensures_of_sameDims left right ?_
  refine Build.Ensures.bind (listed_ensures s Prod.fst
    (fun cell => a.HoldsAt c s cell.1 ∨ b.HoldsAt c s cell.1)
    (fun cell => liftM (Circuit.or (valueAt a.cells.index cell.1) cell.2)) (fun _ => rfl) sound (by simp) ?_)
    (Build.grows_mapM _ fun _ => by simp) (by simp) ?_
  · intro cell member d grown reached
    rw [valueAt_index left.formed]
    exact Circuit.or_ensures reached ((get_means left.formed cell.1).of_le grown)
      ((stored_means right.formed member).of_le grown)
  intro cells d grown reached listed
  refine Build.ensures_pure reached ?_
  obtain ⟨formed, holdsAt⟩ := overlay_holdsAt left.formed right.formed rfl
    (right.capacity.trans left.capacity.symm) grown (fun _ => id) listed
  refine Denotes.of_index left.size left.arity formed ?_ ?_
  · rintro t (member | member)
    · exact left.fits member
    · exact right.fits member
  · intro t length inside
    rw [holdsAt, BinaryOp.denote, ← left.holdsAt length inside, ← right.holdsAt length inside]

theorem intersection_ensures (sound : c.Sound) (left : a.Denotes n k c s P)
    (right : b.Denotes n k c s Q) :
    Build.Ensures (a.intersection b) c fun m d =>
      m.Denotes n k d s (BinaryOp.denote P Q .intersection) := by
  unfold intersection
  refine ensures_of_sameDims left right ?_
  extract_lets theirs shared
  have mem_shared : ∀ i v w, (i, v, w) ∈ shared ↔
      (i, v) ∈ a.cells.entries ∧ (i, w) ∈ b.cells.entries := by
    intro i v w
    simp only [shared, theirs, List.mem_filterMap, SortedTable.index_eq_find? right.formed.ascending,
      Option.map_eq_some_iff, ← SortedTable.find?_eq_some right.formed.ascending]
    constructor
    · rintro ⟨⟨i, v⟩, stored, w, found, same⟩
      cases same
      exact ⟨stored, found⟩
    · rintro ⟨stored, found⟩
      exact ⟨(i, v), stored, w, found, rfl⟩
  clear_value shared
  refine Build.Ensures.bind (listed_ensures s Prod.fst
    (fun cell => a.HoldsAt c s cell.1 ∧ b.HoldsAt c s cell.1)
    (fun cell => liftM (Circuit.and cell.2.1 cell.2.2)) (fun _ => rfl) sound (by simp) ?_)
    (Build.grows_mapM _ fun _ => by simp) (by simp) ?_
  · rintro ⟨i, v, w⟩ member d grown reached
    obtain ⟨mine, other⟩ := (mem_shared i v w).mp member
    exact Circuit.and_ensures reached ((stored_means left.formed mine).of_le grown)
      ((stored_means right.formed other).of_le grown)
  intro cells d grown reached listed
  refine Build.ensures_pure reached ?_
  obtain ⟨formed, holdsAt⟩ := listed.holdsAt a.dims
    (fun i => a.HoldsAt c s i ∧ b.HoldsAt c s i)
    fun cell member => left.formed.lt ((mem_shared cell.1 cell.2.1 cell.2.2).mp member).1
  refine Denotes.of_index left.size left.arity formed (fun t member => left.fits member.1) ?_
  intro t length inside
  rw [holdsAt, BinaryOp.denote, ← left.holdsAt length inside, ← right.holdsAt length inside]
  refine and_iff_right_of_imp fun holds => ?_
  obtain ⟨v, mine, -⟩ := (holdsAt_iff left.formed).mp holds.1
  obtain ⟨w, other, -⟩ := (holdsAt_iff right.formed).mp holds.2
  exact key_mem ((mem_shared _ v w).mpr ⟨mine, other⟩)

theorem difference_ensures (sound : c.Sound) (left : a.Denotes n k c s P)
    (right : b.Denotes n k c s Q) :
    Build.Ensures (a.difference b) c fun m d =>
      m.Denotes n k d s (BinaryOp.denote P Q .difference) := by
  unfold difference
  refine ensures_of_sameDims left right ?_
  refine Build.Ensures.bind (listed_ensures s Prod.fst
    (fun cell => a.HoldsAt c s cell.1 ∧ ¬ b.HoldsAt c s cell.1)
    (fun cell => liftM (Circuit.and cell.2 (valueAt b.cells.index cell.1).not)) (fun _ => rfl) sound
    (by simp) ?_)
    (Build.grows_mapM _ fun _ => by simp) (by simp) ?_
  · intro cell member d grown reached
    rw [valueAt_index right.formed]
    exact Circuit.and_ensures reached ((stored_means left.formed member).of_le grown)
      (Value.not_means reached.labelled ((get_means right.formed cell.1).of_le grown))
  intro cells d grown reached listed
  refine Build.ensures_pure reached ?_
  obtain ⟨formed, holdsAt⟩ := listed.holdsAt a.dims
    (fun i => a.HoldsAt c s i ∧ ¬ b.HoldsAt c s i) fun cell member => left.formed.lt member
  refine Denotes.of_index left.size left.arity formed (fun t member => left.fits member.1) ?_
  intro t length inside
  rw [holdsAt, BinaryOp.denote, ← left.holdsAt length inside, ← right.holdsAt length inside]
  refine and_iff_right_of_imp fun holds => ?_
  obtain ⟨v, member, -⟩ := (holdsAt_iff left.formed).mp holds.1
  exact mem_keys member

/-- Rows of tuples that begin with the same atom have as many cells as there are tuples of the
remaining columns. -/
theorem Denotes.row (meant : m.Denotes n (k + 1) c s P) (positive : 0 < n) :
    m.dims.capacity / m.dims.size = n ^ k := by
  rw [meant.capacity, meant.size, pow_succ, Nat.mul_div_cancel _ positive]

theorem encodeIndex_div_row {t : List Nat} (length : t.length = k + 1)
    (inside : ∀ a ∈ t, a < n) : encodeIndex n t / n ^ k = t.headD 0 := by
  obtain ⟨first, back, rfl⟩ := List.exists_cons_of_length_eq_add_one length
  have size : back.length = k := by simpa using length
  have split := encodeIndex_append_split n [first] back fun a member =>
    inside a (List.mem_cons_of_mem first member)
  rw [size, encodeIndex_singleton] at split
  exact split.1

theorem head?_eq_iff {t u : List Nat} (tSome : t.length = k + 1) (uSome : u.length = k + 1) :
    u.head? = t.head? ↔ u.headD 0 = t.headD 0 := by
  obtain ⟨first, back, rfl⟩ := List.exists_cons_of_length_eq_add_one tSome
  obtain ⟨other, rest, rfl⟩ := List.exists_cons_of_length_eq_add_one uSome
  simp

theorem shadowed_iff (positive : 0 < n) (right : b.Denotes n (k + 1) c s Q) {t : List Nat}
    (length : t.length = k + 1) (inside : ∀ x ∈ t, x < n) :
    (∃ j, b.HoldsAt c s j ∧ j / n ^ k = encodeIndex n t / n ^ k) ↔
      ∃ u, Q u ∧ u.head? = t.head? := by
  simp only [right.holdsAt_iff positive]
  constructor
  · rintro ⟨j, ⟨u, member, rfl⟩, same⟩
    obtain ⟨size, within⟩ := right.fits member
    rw [encodeIndex_div_row size within, encodeIndex_div_row length inside] at same
    exact ⟨u, member, (head?_eq_iff length size).mpr same⟩
  · rintro ⟨u, member, same⟩
    obtain ⟨size, within⟩ := right.fits member
    refine ⟨_, ⟨u, member, rfl⟩, ?_⟩
    rw [encodeIndex_div_row size within, encodeIndex_div_row length inside]
    exact (head?_eq_iff length size).mp same

/-- Where the cells of a relation are grouped by their rows, a group is true exactly if a cell of its
row is. -/
theorem Grouped.rows {d : Circuit} {row : Nat} {cells : List (Nat × Value)}
    (formed : m.WellFormed c)
    (grouped : Grouped c d s (m.cells.entries.map fun cell => (cell.1 / row, cell.2)) cells) (i : Nat) :
    (Matrix.valueAt (Std.HashMap.ofList cells) i).Means d s (∃ j, m.HoldsAt c s j ∧ j / row = i) := by
  refine (grouped.valueAt i).congr ?_
  simp only [List.mem_map, Prod.mk.injEq, holdsAt_iff formed]
  constructor
  · rintro ⟨v, ⟨⟨j, w⟩, member, rfl, rfl⟩, holds⟩
    exact ⟨j, ⟨w, member, holds⟩, rfl⟩
  · rintro ⟨j, ⟨w, member, holds⟩, rfl⟩
    exact ⟨w, ⟨(j, w), member, rfl, rfl⟩, holds⟩

theorem override_ensures (positive : 0 < n) (sound : c.Sound) (left : a.Denotes n (k + 1) c s P)
    (right : b.Denotes n (k + 1) c s Q) :
    Build.Ensures (a.override b) c fun m d =>
      m.Denotes n (k + 1) d s (BinaryOp.denote P Q .override) := by
  unfold override
  refine ensures_of_sameDims left right ?_
  have someRows : n ^ k ≠ 0 := Nat.pos_iff_ne_zero.mp (Nat.pow_pos positive)
  dsimp only
  rw [left.row positive, left.size, if_neg (by omega)]
  -- The first pass says which rows the second relation has tuples in, the second pass keeps the others.
  refine Build.Ensures.bind (anyOfGroups_ensures s sound ?_) (by simp) ?_ ?_
  · intro i v member
    obtain ⟨⟨j, w⟩, stored, same⟩ := List.mem_map.mp member
    exact (Prod.mk.inj same).2 ▸ right.formed.inside stored
  · intro rows
    refine Build.grows_bind ?_ (by simp)
    exact Build.grows_mapM _ fun _ => by simp
  intro rows d grown reached grouped
  refine Build.Ensures.bind (listed_ensures s Prod.fst
    (fun cell => b.HoldsAt c s cell.1 ∨
      a.HoldsAt c s cell.1 ∧ ¬ ∃ j, b.HoldsAt c s j ∧ j / n ^ k = cell.1 / n ^ k)
    (fun cell => do
      let kept ← Circuit.and cell.2 (valueAt (Std.HashMap.ofList rows) (cell.1 / n ^ k)).not
      Circuit.or kept (valueAt b.cells.index cell.1))
    (fun _ => by simp only [bind_assoc]) reached (by simp) ?_)
    (Build.grows_mapM _ fun _ => by simp) (by simp) ?_
  · intro cell member e further sound
    have shadow := grouped.rows right.formed (cell.1 / n ^ k)
    refine Build.Ensures.bind (Circuit.and_ensures sound
      ((stored_means left.formed member).of_le (grown.trans further))
      (Value.not_means sound.labelled (shadow.of_le further))) (by simp) (by simp) ?_
    intro kept f more final meant
    rw [valueAt_index right.formed]
    exact (Circuit.or_ensures final meant ((get_means right.formed cell.1).of_le
      (grown.trans (further.trans more)))).imp fun v e _ either => either.congr or_comm
  intro cells e further final listed
  refine Build.ensures_pure final ?_
  have own : ∀ i, (a.HoldsAt c s i ∧ ¬ ∃ j, b.HoldsAt c s j ∧ j / n ^ k = i / n ^ k) →
      a.HoldsAt c s i := fun _ => And.left
  obtain ⟨formed, holdsAt⟩ := overlay_holdsAt right.formed left.formed
    (right.capacity.trans left.capacity.symm) rfl (grown.trans further) own listed
  refine Denotes.of_index left.size left.arity formed ?_ ?_
  · rintro t (member | ⟨member, -⟩)
    · exact right.fits member
    · exact left.fits member
  · intro t length inside
    have spared : (∀ u, Q u → u.head? ≠ t.head?) ↔ ¬ ∃ u, Q u ∧ u.head? = t.head? := by
      simp
    rw [holdsAt, BinaryOp.denote, spared, shadowed_iff positive right length inside,
      left.holdsAt length inside, right.holdsAt length inside]

theorem ensures_of_make {α : Type} {size arity : Nat} {next : Dims → Build α}
    {post : α → Circuit → Prop} (ensured : Build.Ensures (next ⟨size, arity⟩) c post) :
    Build.Ensures (liftM (Dims.make size arity) >>= next) c post := by
  unfold Dims.make Dims.make?
  cases capacity? size arity with
  | none => exact Build.ensures_throw
  | some capacity => exact ensured

theorem Denotes.product_fits (left : a.Denotes n k c s P) (right : b.Denotes n l c s Q) :
    ∀ t, BinaryOp.denote P Q .product t → t.length = k + l ∧ ∀ x ∈ t, x < n := by
  rintro t ⟨front, back, inFront, inBack, rfl⟩
  obtain ⟨frontSize, frontInside⟩ := left.fits inFront
  obtain ⟨backSize, backInside⟩ := right.fits inBack
  refine ⟨by rw [List.length_append, frontSize, backSize], fun x member => ?_⟩
  exact (List.mem_append.mp member).elim (frontInside x) (backInside x)

theorem concatenated_iff (left : a.Denotes n k c s P) (right : b.Denotes n l c s Q) {t : List Nat}
    (length : t.length = k + l) (inside : ∀ x ∈ t, x < n) :
    (∃ i j, a.HoldsAt c s i ∧ b.HoldsAt c s j ∧ i * n ^ l + j = encodeIndex n t) ↔
      BinaryOp.denote P Q .product t := by
  obtain ⟨front, back, rfl, frontSize⟩ : ∃ front back, t = front ++ back ∧ front.length = k :=
    ⟨t.take k, t.drop k, (List.take_append_drop k t).symm, List.length_take_of_le (by omega)⟩
  have backSize : back.length = l := by simpa [frontSize] using length
  have frontInside : ∀ x ∈ front, x < n := fun x member => inside x (by simp [member])
  have backInside : ∀ x ∈ back, x < n := fun x member => inside x (by simp [member])
  constructor
  · rintro ⟨i, j, inFront, inBack, sum⟩
    obtain ⟨quotient, remainder⟩ := rows_split i (right.capacity ▸ inBack.lt right.formed)
    have parts := encodeIndex_append_split n front back backInside
    rw [backSize, ← sum, quotient, remainder] at parts
    rw [parts.1] at inFront
    rw [parts.2] at inBack
    exact ⟨front, back, (left.holdsAt frontSize frontInside).mp inFront,
      (right.holdsAt backSize backInside).mp inBack, rfl⟩
  · rintro ⟨front', back', inFront, inBack, same⟩
    obtain ⟨rfl, rfl⟩ := List.append_inj same (frontSize.trans (left.fits inFront).1.symm)
    exact ⟨_, _, (left.holdsAt frontSize frontInside).mpr inFront,
      (right.holdsAt backSize backInside).mpr inBack, by rw [encodeIndex_append, backSize]⟩

theorem product_ensures (sound : c.Sound) (left : a.Denotes n k c s P)
    (right : b.Denotes n l c s Q) :
    Build.Ensures (a.product b) c fun m d =>
      m.Denotes n (k + l) d s (BinaryOp.denote P Q .product) := by
  unfold product
  rw [left.size, left.arity, right.arity]
  refine ensures_of_make ?_
  extract_lets stride pairs
  have isStride : stride = n ^ l := right.capacity
  have mem_pairs : ∀ x v w, (x, v, w) ∈ pairs ↔ ∃ i j, (i, v) ∈ a.cells.entries ∧
      (j, w) ∈ b.cells.entries ∧ i * n ^ l + j = x := by
    intro x v w
    simp only [pairs, isStride, List.mem_flatMap, List.mem_map, Prod.mk.injEq]
    constructor
    · rintro ⟨⟨i, v⟩, mine, ⟨j, w⟩, other, rfl, rfl, rfl⟩
      exact ⟨i, j, mine, other, rfl⟩
    · rintro ⟨i, j, mine, other, rfl⟩
      exact ⟨(i, v), mine, (j, w), other, rfl, rfl, rfl⟩
  clear_value pairs
  -- The index of a concatenation gives back the indices of its parts.
  have split : ∀ i j w, (j, w) ∈ b.cells.entries →
      (i * n ^ l + j) / n ^ l = i ∧ (i * n ^ l + j) % n ^ l = j :=
    fun i j w other => rows_split i (right.capacity ▸ right.formed.lt other)
  have bounded : ∀ cell ∈ pairs, cell.1 < (⟨n, k + l⟩ : Dims).capacity := by
    rintro ⟨x, v, w⟩ member
    obtain ⟨i, j, mine, other, rfl⟩ := (mem_pairs x v w).mp member
    exact rows_lt (left.capacity ▸ left.formed.lt mine) (right.capacity ▸ right.formed.lt other)
  refine Build.Ensures.bind (listed_ensures s Prod.fst
    (fun cell => a.HoldsAt c s (cell.1 / n ^ l) ∧ b.HoldsAt c s (cell.1 % n ^ l))
    (fun cell => liftM (Circuit.and cell.2.1 cell.2.2)) (fun _ => rfl) sound (by simp) ?_)
    (Build.grows_mapM _ fun _ => by simp) (by simp) ?_
  · rintro ⟨x, v, w⟩ member d grown reached
    obtain ⟨i, j, mine, other, rfl⟩ := (mem_pairs x v w).mp member
    obtain ⟨quotient, remainder⟩ := split i j w other
    rw [quotient, remainder]
    exact Circuit.and_ensures reached ((stored_means left.formed mine).of_le grown)
      ((stored_means right.formed other).of_le grown)
  intro cells d grown reached listed
  refine Build.ensures_pure reached ?_
  obtain ⟨formed, holdsAt⟩ := listed.holdsAt ⟨n, k + l⟩
    (fun x => a.HoldsAt c s (x / n ^ l) ∧ b.HoldsAt c s (x % n ^ l)) bounded
  refine Denotes.of_index rfl rfl formed (left.product_fits right) fun t length inside => ?_
  rw [holdsAt, ← concatenated_iff left right length inside]
  constructor
  · rintro ⟨-, inFront, inBack⟩
    exact ⟨_, _, inFront, inBack, Nat.div_add_mod' _ _⟩
  · rintro ⟨i, j, one, two, sum⟩
    obtain ⟨v, mine, -⟩ := (holdsAt_iff left.formed).mp one
    obtain ⟨w, other, -⟩ := (holdsAt_iff right.formed).mp two
    obtain ⟨quotient, remainder⟩ := split i j w other
    rw [← sum, quotient, remainder]
    exact ⟨key_mem ((mem_pairs _ v w).mpr ⟨i, j, mine, other, rfl⟩), one, two⟩

theorem joined_iff (positive : 0 < n) (left : a.Denotes n (k + 1) c s P)
    (right : b.Denotes n (l + 1) c s Q) {t : List Nat} (length : t.length = k + l)
    (inside : ∀ x ∈ t, x < n) :
    (∃ i j, a.HoldsAt c s i ∧ b.HoldsAt c s j ∧ j / n ^ l = i % n ∧
      i / n * n ^ l + j % n ^ l = encodeIndex n t) ↔ BinaryOp.denote P Q .join t := by
  have read : ∀ front x y back, P (front ++ [x]) → Q (y :: back) →
      encodeIndex n (front ++ [x]) / n = encodeIndex n front ∧
      encodeIndex n (front ++ [x]) % n = x ∧ encodeIndex n (y :: back) / n ^ l = y ∧
      encodeIndex n (y :: back) % n ^ l = encodeIndex n back ∧
      encodeIndex n front * n ^ l + encodeIndex n back = encodeIndex n (front ++ back) := by
    intro front x y back inLeft inRight
    obtain ⟨-, leftInside⟩ := left.fits inLeft
    obtain ⟨size, rightInside⟩ := right.fits inRight
    have backSize : back.length = l := by simpa using size
    have one := encodeIndex_append_split n front [x] fun z member => leftInside z (by simp_all)
    have two := encodeIndex_append_split n [y] back fun z member => rightInside z (by simp_all)
    rw [List.length_singleton, pow_one, encodeIndex_singleton] at one
    rw [backSize, encodeIndex_singleton] at two
    exact ⟨one.1, one.2, two.1, two.2, by rw [encodeIndex_append, backSize]⟩
  simp only [left.holdsAt_iff positive, right.holdsAt_iff positive, BinaryOp.denote]
  constructor
  · rintro ⟨i, j, ⟨u, inLeft, rfl⟩, ⟨w, inRight, rfl⟩, same, joined⟩
    obtain ⟨size, leftInside⟩ := left.fits inLeft
    obtain ⟨width, rightInside⟩ := right.fits inRight
    obtain ⟨front, x, rfl⟩ : ∃ front x, u = front ++ [x] :=
      ⟨u.dropLast, _, (List.dropLast_append_getLast (by rintro rfl; cases size)).symm⟩
    obtain ⟨y, back, rfl⟩ := List.exists_cons_of_length_eq_add_one width
    obtain ⟨frontIndex, last, first, backIndex, sum⟩ := read front x y back inLeft inRight
    rw [first, last] at same
    subst same
    rw [frontIndex, backIndex, sum] at joined
    refine ⟨front, y, back, inLeft, inRight, ?_⟩
    simp only [List.length_append, List.length_cons, List.length_nil] at size width
    refine (encodeIndex_injective n (front ++ back) t ?_ ?_ inside joined).symm
    · rw [List.length_append]
      omega
    · intro z member
      rcases List.mem_append.mp member with inFront | inBack
      · exact leftInside z (by simp [inFront])
      · exact rightInside z (by simp [inBack])
  · rintro ⟨front, x, back, inLeft, inRight, rfl⟩
    obtain ⟨frontIndex, last, first, backIndex, sum⟩ := read front x x back inLeft inRight
    refine ⟨_, _, ⟨_, inLeft, rfl⟩, ⟨_, inRight, rfl⟩, by rw [first, last], ?_⟩
    rw [frontIndex, backIndex, sum]

theorem Denotes.join_fits (left : a.Denotes n (k + 1) c s P) (right : b.Denotes n (l + 1) c s Q) :
    ∀ t, BinaryOp.denote P Q .join t → t.length = k + l ∧ ∀ x ∈ t, x < n := by
  rintro t ⟨front, x, back, inLeft, inRight, rfl⟩
  obtain ⟨frontSize, frontInside⟩ := left.fits inLeft
  obtain ⟨backSize, backInside⟩ := right.fits inRight
  simp only [List.length_append, List.length_cons, List.length_nil] at frontSize backSize
  refine ⟨by rw [List.length_append]; omega, fun z member => ?_⟩
  rcases List.mem_append.mp member with inFront | inBack
  · exact frontInside z (by simp [inFront])
  · exact backInside z (by simp [inBack])

theorem join_ensures (positive : 0 < n) (sound : c.Sound) (left : a.Denotes n (k + 1) c s P)
    (right : b.Denotes n (l + 1) c s Q) :
    Build.Ensures (a.join b) c fun m d => m.Denotes n (k + l) d s (BinaryOp.denote P Q .join) := by
  unfold join
  dsimp only
  have width : b.dims.capacity / n = n ^ l := right.size ▸ right.row positive
  have wide : n ^ l ≠ 0 := Nat.pos_iff_ne_zero.mp (Nat.pow_pos positive)
  rw [left.size, left.arity, right.arity, show k + 1 + (l + 1) - 2 = k + l by omega, width]
  refine ensures_of_make ?_
  rw [if_neg (by omega), if_neg wide]
  generalize isPairs : List.flatMap _ a.cells.entries = pairs
  have mem_pairs : ∀ x v w, (x, v, w) ∈ pairs ↔ ∃ i j, (i, v) ∈ a.cells.entries ∧
      (j, w) ∈ b.cells.entries ∧ j / n ^ l = i % n ∧ i / n * n ^ l + j % n ^ l = x := by
    intro x v w
    simp only [← isPairs, List.mem_flatMap, List.mem_map, getD_groupByKey, List.mem_filter,
      Prod.mk.injEq, beq_iff_eq]
    constructor
    · rintro ⟨⟨i, v⟩, mine, ⟨r, w⟩, ⟨group, ⟨⟨⟨j, w⟩, other, rfl⟩, row⟩, same⟩, rfl, rfl, rfl⟩
      cases same
      exact ⟨i, j, mine, other, row, rfl⟩
    · rintro ⟨i, j, mine, other, row, rfl⟩
      exact ⟨(i, v), mine, (j % n ^ l, w), ⟨(j / n ^ l, j % n ^ l, w), ⟨⟨(j, w), other, rfl⟩, row⟩,
        rfl⟩, rfl, rfl, rfl⟩
  clear isPairs
  refine Build.Ensures.bind (listed_ensures s Prod.fst
    (fun cell => cell.2.1.eval c s = true ∧ cell.2.2.eval c s = true)
    (fun cell => liftM (Circuit.and cell.2.1 cell.2.2)) (fun _ => rfl) sound (by simp) ?_)
    (Build.grows_mapM _ fun _ => by simp) (by simp) ?_
  · rintro ⟨x, v, w⟩ member d grown reached
    obtain ⟨i, j, mine, other, -, -⟩ := (mem_pairs x v w).mp member
    exact Circuit.and_ensures reached ((Value.means_eval (left.formed.inside mine)).of_le grown)
      ((Value.means_eval (right.formed.inside other)).of_le grown)
  intro terms d grown reached listed
  refine Build.Ensures.bind (anyOfGroups_ensures s reached fun i v member => ?_) (by simp) (by simp)
    ?_
  · obtain ⟨cell, -, -, meant⟩ := listed.item member
    exact meant.1
  intro cells e further final grouped
  refine Build.ensures_pure final ?_
  have fit : ∀ i v, (i, v) ∈ cells → i < (⟨n, k + l⟩ : Dims).capacity ∧ v.In e := by
    intro x v member
    obtain ⟨known, within⟩ := grouped.origin x v member
    rw [listed.keys] at known
    obtain ⟨⟨x, v, w⟩, isPair, rfl⟩ := List.mem_map.mp known
    obtain ⟨i, j, mine, -, -, rfl⟩ := (mem_pairs x v w).mp isPair
    have front : i / n < n ^ k := by
      refine Nat.div_lt_of_lt_mul ?_
      rw [Nat.mul_comm, ← pow_succ]
      exact left.capacity ▸ left.formed.lt mine
    have back : j % n ^ l < n ^ l := Nat.mod_lt j (by omega)
    exact ⟨rows_lt front back, within⟩
  refine Denotes.of_index rfl rfl (ofCells_formed fit) (left.join_fits right) ?_
  intro t length inside
  -- What is left is about indices only.
  rw [ofCells_holdsAt_of_nodup grouped.distinct fit, grouped.holds, listed.exists_iff,
    ← joined_iff positive left right length inside]
  constructor
  · rintro ⟨⟨x, v, w⟩, isPair, isIndex, holds⟩
    obtain ⟨i, j, mine, other, row, sum⟩ := (mem_pairs x v w).mp isPair
    rw [← isIndex]
    exact ⟨i, j, (holdsAt_iff left.formed).mpr ⟨v, mine, holds.1⟩,
      (holdsAt_iff right.formed).mpr ⟨w, other, holds.2⟩, row, sum⟩
  · rintro ⟨i, j, one, two, row, sum⟩
    obtain ⟨v, mine, first⟩ := (holdsAt_iff left.formed).mp one
    obtain ⟨w, other, second⟩ := (holdsAt_iff right.formed).mp two
    exact ⟨(_, v, w), (mem_pairs _ v w).mpr ⟨i, j, mine, other, row, sum⟩, rfl, first, second⟩

theorem swap_encodeIndex (x : Nat) {y : Nat} (yInside : y < n) :
    encodeIndex n [x, y] % n * n + encodeIndex n [x, y] / n = encodeIndex n [y, x] := by
  have parts := encodeIndex_append_split n [x] [y] (by simpa using yInside)
  rw [List.length_singleton, pow_one, encodeIndex_singleton, encodeIndex_singleton,
    List.singleton_append] at parts
  rw [parts.1, parts.2, encodeIndex_cons, List.length_singleton, pow_one, encodeIndex_singleton]

theorem Denotes.pair (meant : m.Denotes n 2 c s P) {t : List Nat} (member : P t) :
    ∃ x y, t = [x, y] ∧ x < n ∧ y < n := by
  obtain ⟨length, inside⟩ := meant.fits member
  obtain ⟨x, y, rfl⟩ := List.length_eq_two.mp length
  exact ⟨x, y, rfl, inside x (by simp), inside y (by simp)⟩

theorem transpose_denotes (positive : 0 < n) (meant : m.Denotes n 2 c s P) {turned : Matrix}
    (ok : m.transpose = .ok turned) : turned.Denotes n 2 c s (UnaryOp.denote P n .transpose) := by
  have binary : m.isBinary = .ok () := by
    rw [isBinary, meant.arity, if_pos rfl]
  unfold transpose at ok
  rw [binary, meant.dims_eq] at ok
  cases ok
  have swap : ∀ i, i < n ^ 2 → ∃ x y, x < n ∧ y < n ∧ i = encodeIndex n [x, y] := by
    intro i bound
    obtain ⟨x, y, same⟩ := List.length_eq_two.mp (length_decodeIndex n 2 i)
    have inside := decodeIndex_lt positive 2 i
    rw [same] at inside
    refine ⟨x, y, inside x (by simp), inside y (by simp), ?_⟩
    rw [← same, encodeIndex_decodeIndex n 2 i bound]
  have listed : Listed c s m.cells.entries (fun cell => cell.1 % n * n + cell.1 / n)
      (fun cell => m.HoldsAt c s ((cell.1 % n * n + cell.1 / n) % n * n +
        (cell.1 % n * n + cell.1 / n) / n))
      (m.cells.entries.map fun cell => (cell.1 % n * n + cell.1 / n, cell.2)) := by
    refine List.forall₂_map_right_iff.mpr (List.forall₂_same.mpr ?_)
    intro cell member
    refine ⟨rfl, ?_⟩
    obtain ⟨x, y, xInside, yInside, isIndex⟩ :=
      swap cell.1 (meant.capacity ▸ meant.formed.lt member)
    dsimp only
    rw [isIndex, swap_encodeIndex x yInside, swap_encodeIndex y xInside, ← isIndex]
    exact stored_means meant.formed member
  obtain ⟨formed, holdsAt⟩ := listed.holdsAt ⟨n, 2⟩
    (fun i => m.HoldsAt c s (i % n * n + i / n)) fun cell member => by
      obtain ⟨x, y, xInside, yInside, isIndex⟩ :=
        swap cell.1 (meant.capacity ▸ meant.formed.lt member)
      rw [isIndex, swap_encodeIndex x yInside]
      exact encodeIndex_lt n [y, x] (by simp [xInside, yInside])
  refine Denotes.of_index rfl rfl formed ?_ ?_
  · rintro t ⟨x, y, isPair, rfl⟩
    obtain ⟨-, inside⟩ := meant.fits isPair
    refine ⟨rfl, ?_⟩
    simpa [and_comm] using inside
  intro t length inside
  obtain ⟨y, x, rfl⟩ := List.length_eq_two.mp length
  have yInside : y < n := inside y (by simp)
  have xInside : x < n := inside x (by simp)
  rw [holdsAt, swap_encodeIndex y xInside,
    meant.holdsAt rfl (by simp [xInside, yInside] : ∀ z ∈ [x, y], z < n)]
  constructor
  · rintro ⟨-, isPair⟩
    exact ⟨x, y, isPair, rfl⟩
  · rintro ⟨x', y', isPair, same⟩
    obtain ⟨rfl, rfl⟩ : y = y' ∧ x = x' := by simpa using same
    refine ⟨?_, isPair⟩
    obtain ⟨v, stored, -⟩ := (holdsAt_iff meant.formed).mp
      ((meant.holdsAt_iff positive).mpr ⟨_, isPair, rfl⟩)
    rw [← swap_encodeIndex x yInside]
    exact List.mem_map.mpr ⟨_, stored, rfl⟩

end ModelFinder.Matrix
