import ModelFinder.Circuit.Relational
import ModelFinder.Proofs.Circuit.Gates
import ModelFinder.Proofs.Data.Keyed
import ModelFinder.Proofs.Data.RowMajor

/-! Symbolic relations as sets. A well-formed symbolic relation has, under a valuation, the tuples at
the indices of its true cells; `Matrix.Denotes` says which these are. What is built from a list of
cells is described by the members of the list. -/
namespace ModelFinder

namespace Matrix

variable {c d : Circuit} {s : Nat → Bool} {m : Matrix} {i : Nat}

def HoldsAt (m : Matrix) (c : Circuit) (s : Nat → Bool) (i : Nat) : Prop :=
  (m.get i).eval c s = true

theorem mem_keys {v : Value} (member : (i, v) ∈ m.cells.entries) : i ∈ m.cells.keys :=
  key_mem member

theorem mem_values {v : Value} (member : (i, v) ∈ m.cells.entries) : v ∈ m.cells.values :=
  List.mem_map_of_mem member

theorem WellFormed.lt (formed : m.WellFormed c) {v : Value} (member : (i, v) ∈ m.cells.entries) :
    i < m.dims.capacity :=
  formed.bounded i (mem_keys member)

theorem WellFormed.inside (formed : m.WellFormed c) {v : Value}
    (member : (i, v) ∈ m.cells.entries) : v.In c :=
  (formed.values v (mem_values member)).2

theorem WellFormed.of_le (formed : m.WellFormed c) (grown : c ≤ d) : m.WellFormed d where
  ascending := formed.ascending
  bounded := formed.bounded
  values v member := ⟨(formed.values v member).1, (formed.values v member).2.of_le grown⟩

theorem get_in (formed : m.WellFormed c) (i : Nat) : (m.get i).In c := by
  unfold get
  cases found : m.cells.find? i with
  | none => trivial
  | some v => exact formed.inside ((SortedTable.find?_eq_some formed.ascending).mp found)

theorem get_means (formed : m.WellFormed c) (i : Nat) : (m.get i).Means c s (m.HoldsAt c s i) :=
  Value.means_eval (get_in formed i)

theorem holdsAt_iff (formed : m.WellFormed c) :
    m.HoldsAt c s i ↔ ∃ v, (i, v) ∈ m.cells.entries ∧ v.eval c s = true := by
  unfold HoldsAt get
  simp only [← SortedTable.find?_eq_some formed.ascending]
  cases m.cells.find? i with
  | none => simp [Value.eval]
  | some v => simp

theorem HoldsAt.lt (formed : m.WellFormed c) (holds : m.HoldsAt c s i) : i < m.dims.capacity := by
  obtain ⟨v, member, -⟩ := (holdsAt_iff formed).mp holds
  exact formed.lt member

theorem holdsAt_of_le (formed : m.WellFormed c) (grown : c ≤ d) :
    m.HoldsAt d s i ↔ m.HoldsAt c s i := by
  unfold HoldsAt
  rw [Value.eval_of_le grown (get_in formed i)]

theorem valueAt_index (formed : m.WellFormed c) (i : Nat) :
    valueAt m.cells.index i = m.get i := by
  rw [valueAt, Std.HashMap.getD_eq_getD_getElem?, SortedTable.index_eq_find? formed.ascending, get]

section Cells

variable {dims : Dims} {cells : List (Nat × Value)}

theorem mem_ofCells {v : Value} : (i, v) ∈ (ofCells dims cells).cells.entries ↔
    (Std.HashMap.ofList cells)[i]? = .some v ∧ v ≠ .const false := by
  simp [ofCells, List.mem_filter, SortedTable.mem_ofList]

theorem ofCells_formed (fit : ∀ i v, (i, v) ∈ cells → i < dims.capacity ∧ v.In c) :
    (ofCells dims cells).WellFormed c := by
  constructor
  · exact (SortedTable.ofList_ascending cells).sublist (List.filter_sublist.map _)
  · intro i member
    obtain ⟨⟨i, v⟩, stored, rfl⟩ := List.mem_map.mp member
    exact (fit i v (mem_of_ofList (mem_ofCells.mp stored).1)).1
  · intro v member
    obtain ⟨⟨i, v⟩, stored, rfl⟩ := List.mem_map.mp member
    obtain ⟨found, notFalse⟩ := mem_ofCells.mp stored
    exact ⟨notFalse, (fit i v (mem_of_ofList found)).2⟩

theorem ofCells_holdsAt (fit : ∀ i v, (i, v) ∈ cells → i < dims.capacity ∧ v.In c) :
    (ofCells dims cells).HoldsAt c s i ↔
      ∃ v, (Std.HashMap.ofList cells)[i]? = .some v ∧ v.eval c s = true := by
  rw [holdsAt_iff (ofCells_formed fit)]
  refine exists_congr fun v => ?_
  rw [mem_ofCells, and_assoc]
  refine and_congr_right fun _ => and_iff_right_of_imp ?_
  rintro holds rfl
  cases holds

theorem ofCells_holdsAt_of_nodup (distinct : (cells.map Prod.fst).Nodup)
    (fit : ∀ i v, (i, v) ∈ cells → i < dims.capacity ∧ v.In c) :
    (ofCells dims cells).HoldsAt c s i ↔ ∃ v, (i, v) ∈ cells ∧ v.eval c s = true := by
  rw [ofCells_holdsAt fit]
  simp only [ofList_eq_some distinct]

theorem ofCells_append_holdsAt {later : List (Nat × Value)} (distinct : (cells.map Prod.fst).Nodup)
    (laterDistinct : (later.map Prod.fst).Nodup)
    (fit : ∀ i v, (i, v) ∈ cells ++ later → i < dims.capacity ∧ v.In c) :
    (ofCells dims (cells ++ later)).HoldsAt c s i ↔
      (∃ v, (i, v) ∈ later ∧ v.eval c s = true) ∨
        i ∉ later.map Prod.fst ∧ ∃ v, (i, v) ∈ cells ∧ v.eval c s = true := by
  rw [ofCells_holdsAt fit, ofList_append]
  simp only [← ofList_eq_some distinct, ← ofList_eq_some laterDistinct, ← ofList_eq_none]
  cases (Std.HashMap.ofList later)[i]? with
  | none => simp
  | some v => simp

theorem ofIndices_formed {indices : List Nat} (fit : ∀ i ∈ indices, i < dims.capacity) :
    (ofIndices dims indices).WellFormed c := by
  refine ofCells_formed fun i v member => ?_
  obtain ⟨i, isIndex, same⟩ := List.mem_map.mp member
  obtain ⟨rfl, rfl⟩ := Prod.mk.inj same
  exact ⟨fit i isIndex, trivial⟩

theorem ofIndices_holdsAt {indices : List Nat} (fit : ∀ i ∈ indices, i < dims.capacity) :
    (ofIndices dims indices).HoldsAt c s i ↔ i ∈ indices := by
  rw [holdsAt_iff (ofIndices_formed fit)]
  constructor
  · rintro ⟨v, member, -⟩
    obtain ⟨i, isIndex, same⟩ := List.mem_map.mp (mem_of_ofList (mem_ofCells.mp member).1)
    obtain ⟨rfl, -⟩ := Prod.mk.inj same
    exact isIndex
  · intro isIndex
    refine ⟨.const true, mem_ofCells.mpr ⟨?_, by simp⟩, rfl⟩
    cases found : (Std.HashMap.ofList (indices.map (·, Value.const true)))[i]? with
    | none =>
      refine absurd ?_ (ofList_eq_none.mp found)
      simpa using isIndex
    | some v =>
      obtain ⟨j, -, same⟩ := List.mem_map.mp (mem_of_ofList found)
      rw [(Prod.mk.inj same).2]

end Cells

section Listed

variable {α : Type} {items : List α} {cells : List (Nat × Value)}

def Listed (c : Circuit) (s : Nat → Bool) (items : List α) (key : α → Nat) (p : α → Prop)
    (cells : List (Nat × Value)) : Prop :=
  List.Forall₂ (fun a cell => cell.1 = key a ∧ cell.2.Means c s (p a)) items cells

variable {key : α → Nat} {p : α → Prop}

theorem Listed.keys (listed : Listed c s items key p cells) :
    cells.map Prod.fst = items.map key := by
  induction listed with
  | nil => rfl
  | cons here _ ih => rw [List.map_cons, List.map_cons, ih, here.1]

theorem Listed.item (listed : Listed c s items key p cells) {v : Value}
    (member : (i, v) ∈ cells) : ∃ a ∈ items, i = key a ∧ v.Means c s (p a) :=
  forall₂_right listed member

theorem Listed.exists_iff (listed : Listed c s items key p cells) :
    (∃ v, (i, v) ∈ cells ∧ v.eval c s = true) ↔ ∃ a ∈ items, key a = i ∧ p a := by
  constructor
  · rintro ⟨v, member, holds⟩
    obtain ⟨a, isItem, rfl, meant⟩ := listed.item member
    exact ⟨a, isItem, rfl, meant.2.mp holds⟩
  · rintro ⟨a, isItem, rfl, holds⟩
    obtain ⟨⟨i, v⟩, member, rfl, meant⟩ := forall₂_left listed isItem
    exact ⟨v, member, meant.2.mpr holds⟩

theorem listed_ensures (s : Nat → Bool) (key : α → Nat) (p : α → Prop) (op : α → Build Value)
    {step : α → Build (Nat × Value)} (shape : ∀ a, step a = do return (key a, ← op a))
    (sound : c.Sound) (grows : ∀ a, Build.Grows (op a))
    (each : ∀ a ∈ items, ∀ d, c ≤ d → d.Sound →
      Build.Ensures (op a) d fun v e => v.Means e s (p a)) :
    Build.Ensures (items.mapM step) c fun cells d => Listed d s items key p cells := by
  refine Build.ensures_mapM
    (fun a (cell : Nat × Value) d => cell.1 = key a ∧ cell.2.Means d s (p a)) sound (fun a => by simp [shape, grows]) ?_ ?_
  · intro a cell c d grown here
    exact ⟨here.1, here.2.of_le grown⟩
  · intro a member d grown reached
    rw [shape]
    refine Build.Ensures.bind (each a member d grown reached) (grows a) (by simp) ?_
    intro v e _ final meant
    exact Build.ensures_pure final ⟨rfl, meant⟩

/-- If the truth of every cell depends on its index only, it does not matter which of several cells
at one index counts. -/
theorem Listed.holdsAt (dims : Dims) (q : Nat → Prop)
    (listed : Listed c s items key (fun a => q (key a)) cells)
    (bounded : ∀ a ∈ items, key a < dims.capacity) :
    (ofCells dims cells).WellFormed c ∧
      ∀ i, (ofCells dims cells).HoldsAt c s i ↔ i ∈ items.map key ∧ q i := by
  have fit : ∀ i v, (i, v) ∈ cells → i < dims.capacity ∧ v.In c := by
    intro i v member
    obtain ⟨a, isItem, rfl, meant⟩ := listed.item member
    exact ⟨bounded a isItem, meant.1⟩
  refine ⟨ofCells_formed fit, fun i => ?_⟩
  rw [ofCells_holdsAt fit, ← listed.keys]
  constructor
  · rintro ⟨v, found, holds⟩
    have member := mem_of_ofList found
    obtain ⟨a, -, rfl, meant⟩ := listed.item member
    exact ⟨key_mem member, meant.2.mp holds⟩
  · rintro ⟨known, holds⟩
    cases found : (Std.HashMap.ofList cells)[i]? with
    | none => exact absurd known (ofList_eq_none.mp found)
    | some v =>
      obtain ⟨a, -, rfl, meant⟩ := listed.item (mem_of_ofList found)
      exact ⟨v, rfl, meant.2.mpr holds⟩

end Listed

structure Denotes (m : Matrix) (n k : Nat) (c : Circuit) (s : Nat → Bool)
    (tuples : List Nat → Prop) : Prop where
  size : m.dims.size = n
  arity : m.dims.arity = k
  formed : m.WellFormed c
  holds : ∀ t, m.Holds c s t ↔ tuples t

variable {n k : Nat} {tuples : List Nat → Prop}

theorem dims_make {size arity : Nat} {dims : Dims} (made : Dims.make size arity = .ok dims) :
    dims = ⟨size, arity⟩ := by
  unfold Dims.make Dims.make? at made
  cases found : capacity? size arity with
  | none => simp [found] at made
  | some capacity => simpa [found] using made.symm

theorem Denotes.dims_eq (meant : m.Denotes n k c s tuples) : m.dims = ⟨n, k⟩ := by
  rw [← meant.size, ← meant.arity]

theorem Denotes.capacity (meant : m.Denotes n k c s tuples) : m.dims.capacity = n ^ k := by
  rw [meant.dims_eq]
  rfl

theorem Denotes.fits (meant : m.Denotes n k c s tuples) {t : List Nat} (member : tuples t) :
    t.length = k ∧ ∀ a ∈ t, a < n := by
  obtain ⟨length, inside, -⟩ := (meant.holds t).mpr member
  exact ⟨length.trans meant.arity, fun a found => meant.size ▸ inside a found⟩

theorem Denotes.holdsAt (meant : m.Denotes n k c s tuples) {t : List Nat} (length : t.length = k)
    (inside : ∀ a ∈ t, a < n) : m.HoldsAt c s (encodeIndex n t) ↔ tuples t := by
  rw [← meant.holds, Holds, meant.size, meant.arity]
  exact ⟨fun holds => ⟨length, inside, holds⟩, fun holds => holds.2.2⟩

theorem Denotes.holdsAt_iff (meant : m.Denotes n k c s tuples) (positive : 0 < n) :
    m.HoldsAt c s i ↔ ∃ t, tuples t ∧ encodeIndex n t = i := by
  constructor
  · intro holds
    have bound := meant.capacity ▸ holds.lt meant.formed
    refine ⟨decodeIndex n k i, ?_, encodeIndex_decodeIndex n k i bound⟩
    rw [← meant.holdsAt (length_decodeIndex n k i) (decodeIndex_lt positive k i),
      encodeIndex_decodeIndex n k i bound]
    exact holds
  · rintro ⟨t, member, rfl⟩
    obtain ⟨length, inside⟩ := meant.fits member
    exact (meant.holdsAt length inside).mpr member

theorem Denotes.of_index (size : m.dims.size = n) (arity : m.dims.arity = k)
    (formed : m.WellFormed c) (fits : ∀ t, tuples t → t.length = k ∧ ∀ a ∈ t, a < n)
    (holdsAt : ∀ t, t.length = k → (∀ a ∈ t, a < n) →
      (m.HoldsAt c s (encodeIndex n t) ↔ tuples t)) : m.Denotes n k c s tuples := by
  refine ⟨size, arity, formed, fun t => ?_⟩
  rw [Holds, size, arity]
  constructor
  · rintro ⟨length, inside, holds⟩
    exact (holdsAt t length inside).mp holds
  · intro member
    obtain ⟨length, inside⟩ := fits t member
    exact ⟨length, inside, (holdsAt t length inside).mpr member⟩

theorem Denotes.of_le (meant : m.Denotes n k c s tuples) (grown : c ≤ d) :
    m.Denotes n k d s tuples := by
  refine ⟨meant.size, meant.arity, meant.formed.of_le grown, fun t => ?_⟩
  rw [← meant.holds]
  exact and_congr_right fun _ => and_congr_right fun _ => holdsAt_of_le meant.formed grown

theorem Denotes.congr (meant : m.Denotes n k c s tuples) {same : List Nat → Prop}
    (equal : ∀ t, tuples t ↔ same t) : m.Denotes n k c s same :=
  ⟨meant.size, meant.arity, meant.formed, fun t => (meant.holds t).trans (equal t)⟩

theorem Denotes.singleton (meant : m.Denotes n k c s tuples) (positive : 0 < n) {v : Value}
    (member : (i, v) ∈ m.cells.entries) {s' : Nat → Bool} :
    (ofIndices m.dims [i]).Denotes n k d s' (· = decodeIndex n k i) := by
  have bound := meant.formed.lt member
  have fit : ∀ j ∈ [i], j < m.dims.capacity := by simpa using bound
  rw [meant.capacity] at bound
  refine Denotes.of_index meant.size meant.arity (ofIndices_formed fit) ?_ ?_
  · rintro t rfl
    exact ⟨length_decodeIndex n k i, decodeIndex_lt positive k i⟩
  · intro t length inside
    rw [ofIndices_holdsAt fit, List.mem_singleton]
    constructor
    · rintro rfl
      rw [← length]
      exact (decodeIndex_encodeIndex n t inside).symm
    · rintro rfl
      exact encodeIndex_decodeIndex n k i bound

end Matrix

end ModelFinder
