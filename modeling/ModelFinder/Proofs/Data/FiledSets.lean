import ModelFinder.Proofs.Data.Bounds
import ModelFinder.Proofs.Data.Tuples

/-! Tuple sets that keep their tuples. A tuple carries the index that it was given when it was made, and
a set files its tuples under indices. Forgetting the tuples and keeping the keys commutes with every
operation, and the tuples on file are those that the keys stand for. -/
namespace ModelFinder

/-- A tuple with the index that it was given when it was made. -/
structure IndexedTuple where
  tuple : Tuple
  index : Nat

namespace IndexedTuple

def ofAtoms (u : Universe) (atoms : List String) : Except Error IndexedTuple :=
  (fun t => ⟨t, t.index⟩) <$> Tuple.ofAtoms u atoms

def ofIndex (u : Universe) (arity index : Nat) : Except Error IndexedTuple :=
  (fun t => ⟨t, index⟩) <$> Tuple.ofIndex u arity index

inductive Made : IndexedTuple → Prop
  | ofAtoms {u : Universe} {atoms : List String} {t : IndexedTuple} (ok : ofAtoms u atoms = .ok t) :
      Made t
  | ofIndex {u : Universe} {arity index : Nat} {t : IndexedTuple}
      (ok : ofIndex u arity index = .ok t) : Made t

structure Coded (t : IndexedTuple) : Prop where
  inside : t.tuple.Inside
  index : t.index = t.tuple.index

variable {u : Universe} {atoms : List String} {arity index : Nat} {t : IndexedTuple}

theorem ofAtoms_eq_ok (ok : ofAtoms u atoms = .ok t) :
    Tuple.ofAtoms u atoms = .ok t.tuple ∧ t.index = t.tuple.index := by
  obtain ⟨tuple, made, rfl⟩ := map_eq_ok.mp ok
  exact ⟨made, rfl⟩

theorem ofIndex_eq_ok (ok : ofIndex u arity index = .ok t) :
    Tuple.ofIndex u arity index = .ok t.tuple ∧ t.index = index ∧ t.tuple.index = index := by
  obtain ⟨tuple, made, rfl⟩ := map_eq_ok.mp ok
  obtain ⟨rfl, bound⟩ := Tuple.ofIndex_eq_ok made
  exact ⟨made, rfl, encodeIndex_decodeIndex u.size arity index bound⟩

theorem Made.built (made : t.Made) : t.tuple.Built := by
  cases made with
  | ofAtoms ok => exact .ofAtoms (ofAtoms_eq_ok ok).1
  | ofIndex ok => exact .ofIndex (ofIndex_eq_ok ok).1

theorem Made.coded (made : t.Made) : t.Coded := by
  refine ⟨made.built.inside, ?_⟩
  cases made with
  | ofAtoms ok => exact (ofAtoms_eq_ok ok).2
  | ofIndex ok =>
    obtain ⟨-, given, computed⟩ := ofIndex_eq_ok ok
    exact given.trans computed.symm

end IndexedTuple

/-- A set of tuples of one arity over one universe, filed under their indices. -/
structure FiledSet where
  univ : Universe
  arity : Nat
  entries : SortedTable Nat IndexedTuple

namespace FiledSet

def tuples (k : FiledSet) : List Tuple := k.entries.values.map IndexedTuple.tuple

def bare (k : FiledSet) : TupleSet := ⟨k.univ, k.arity, .ofList k.entries.keys⟩

def has (k : FiledSet) (key : Nat) : Bool := (k.entries.find? key).isSome

def put (k : FiledSet) (key : Nat) (t : IndexedTuple) : FiledSet :=
  { k with entries := k.entries.insert key t }

def putNew (k : FiledSet) (key : Nat) (t : IndexedTuple) : FiledSet :=
  if k.has key then k else k.put key t

def empty (u : Universe) (arity : Nat) : FiledSet := ⟨u, arity, .empty⟩

def offer (k : FiledSet) (key : Nat) : FiledSet :=
  match IndexedTuple.ofIndex k.univ k.arity key with
  | .ok t => k.put key t
  | .error _ => k

def all (u : Universe) (arity : Nat) : FiledSet :=
  (List.range ((u.capacity? arity).getD 0)).foldl offer (empty u arity)

def contains (k : FiledSet) (t : IndexedTuple) : Bool :=
  t.tuple.univ == k.univ && t.tuple.arity == k.arity && k.has t.index

def insert (k : FiledSet) (t : IndexedTuple) : Except Error FiledSet := do
  k.bare.compatible t.tuple.univ t.tuple.arity
  return k.putNew t.index t

def union (k other : FiledSet) : Except Error FiledSet := do
  k.bare.compatible other.univ other.arity
  return other.entries.entries.foldl (fun both entry => both.putNew entry.1 entry.2) k

def erase (k : FiledSet) (t : IndexedTuple) : FiledSet :=
  if k.contains t then { k with entries := k.entries.erase t.index } else k

def subset (k other : FiledSet) : Bool :=
  k.univ == other.univ && k.arity == other.arity && k.entries.keys.all other.has

/-- Equality of sets looks at the keys only. -/
def same (k other : FiledSet) : Bool :=
  k.univ == other.univ && k.arity == other.arity && k.entries.keys == other.entries.keys

def difference (k other : FiledSet) : Except Error FiledSet := do
  k.bare.compatible other.univ other.arity
  return { k with entries := ⟨k.entries.entries.filter fun entry => !other.has entry.1⟩ }

def ofIndices (u : Universe) (arity : Nat) (indices : List Nat) : Except Error FiledSet :=
  indices.foldlM (fun k key => do return k.put key (← IndexedTuple.ofIndex u arity key)) (empty u arity)

def product (k other : FiledSet) : Except Error FiledSet :=
  if other.univ ≠ k.univ then .error .foreignFactor
  else
    let arity := k.arity + other.arity
    match k.univ.capacity? other.arity with
    | none => .error (.tupleCapacity arity k.univ.size)
    | some stride =>
        (k.entries.values.product other.entries.values).foldlM (fun pairs (left, right) => do
          let t ← IndexedTuple.ofIndex k.univ arity (left.index * stride + right.index)
          return pairs.put t.index t) (empty k.univ arity)

def ofTuples (u : Universe) : List (List String) → Except Error FiledSet
  | [] => .error .noTuples
  | first :: rest =>
      (first :: rest).foldlM (fun k atoms =>
        if atoms.length ≠ first.length then .error .mixedArities
        else do k.insert (← IndexedTuple.ofAtoms u atoms)) (empty u first.length)

def ofAtom (u : Universe) (atom : String) : Except Error FiledSet := do
  (empty u 1).insert (← IndexedTuple.ofAtoms u [atom])

section Bare

variable {k other : FiledSet} {s : TupleSet} {t : IndexedTuple} {u : Universe} {arity key i : Nat}

theorem has_iff : k.has i = true ↔ i ∈ k.entries.keys := by
  simp [has, SortedTable.find?, SortedTable.keys, List.lookup_isSome_iff]

@[simp] theorem mem_bare : i ∈ k.bare.indices ↔ k.has i = true :=
  (IndexSet.mem_ofList _ i).trans has_iff.symm

@[simp] theorem has_empty : (empty u arity).has i = false := rfl

@[simp] theorem has_put : (k.put key t).has i = true ↔ i = key ∨ k.has i = true := by
  rw [has, put, SortedTable.find?_insert]
  split <;> simp_all [has]

@[simp] theorem has_putNew : (k.putNew key t).has i = true ↔ i = key ∨ k.has i = true := by
  unfold putNew
  split
  · rename_i found
    exact ⟨.inr, fun either => either.elim (fun same => same ▸ found) id⟩
  · exact has_put

theorem putNew_univ : (k.putNew key t).univ = k.univ := by
  unfold putNew
  split <;> rfl

theorem putNew_arity : (k.putNew key t).arity = k.arity := by
  unfold putNew
  split <;> rfl

theorem bare_eq (univ : k.univ = s.univ) (arity : k.arity = s.arity)
    (same : ∀ i, k.has i = true ↔ i ∈ s.indices) : k.bare = s := by
  obtain ⟨v, n, indices⟩ := s
  obtain rfl : k.univ = v := univ
  obtain rfl : k.arity = n := arity
  exact congrArg (TupleSet.mk k.univ k.arity) (IndexSet.ext_mem fun i => mem_bare.trans (same i))

theorem bare_empty : (empty u arity).bare = .empty u arity :=
  bare_eq rfl rfl fun i => by simp [TupleSet.empty]

theorem bare_put :
    (k.put key t).bare = { k.bare with indices := k.bare.indices.insert key } :=
  bare_eq rfl rfl fun i => by simp

theorem bare_putNew :
    (k.putNew key t).bare = { k.bare with indices := k.bare.indices.insert key } :=
  bare_eq putNew_univ putNew_arity fun i => by simp

theorem contains_bare (coded : t.Coded) : k.contains t = k.bare.contains t.tuple := by
  rw [contains, TupleSet.contains, ← coded.index, Bool.eq_iff_iff]
  simp [bare, IndexSet.mem_ofList, has_iff]

theorem subset_bare : k.subset other = k.bare.subset other.bare := by
  rw [Bool.eq_iff_iff]
  simp [subset, TupleSet.subset, IndexSet.subset_iff, has_iff, bare]

theorem insert_bare (coded : t.Coded) : bare <$> k.insert t = k.bare.insert t.tuple := by
  simp only [insert, TupleSet.insert, map_bind, map_pure, bare_putNew, coded.index]

theorem insert_union (set : IndexSet) (i : Nat) (rest : List Nat) :
    (set.insert i).union (.ofList rest) = set.union (.ofList (i :: rest)) :=
  IndexSet.ext_mem fun j => by
    simp only [IndexSet.mem_union, IndexSet.mem_insert, IndexSet.mem_ofList, List.mem_cons, or_assoc,
      or_left_comm]

theorem union_bare : bare <$> k.union other = k.bare.union other.bare := by
  have each (entries : List (Nat × IndexedTuple)) :
      (entries.foldl (fun both entry => both.putNew entry.1 entry.2) k).bare =
        { k.bare with indices := k.bare.indices.union (.ofList (entries.map Prod.fst)) } := by
    induction entries generalizing k with
    | nil => exact bare_eq rfl rfl fun i => by simp
    | cons entry rest ih =>
      rw [List.foldl_cons, ih, bare_putNew, List.map_cons, ← insert_union]
  simp only [union, TupleSet.union, map_bind, map_pure, each]
  rfl

theorem erase_bare (coded : t.Coded) : (k.erase t).bare = k.bare.erase t.tuple := by
  rw [erase, TupleSet.erase, contains_bare coded]
  split
  · refine bare_eq rfl rfl fun i => ?_
    rw [IndexSet.mem_erase, mem_bare, has_iff, has_iff, ← coded.index]
    simp [SortedTable.keys, SortedTable.erase]
  · rfl

theorem difference_bare : bare <$> k.difference other = k.bare.difference other.bare := by
  simp only [difference, TupleSet.difference, map_bind, map_pure]
  refine bind_congr fun _ => congrArg pure (bare_eq rfl rfl fun i => ?_)
  rw [IndexSet.mem_diff, mem_bare, mem_bare, has_iff, has_iff]
  simp [SortedTable.keys]

/-- A loop that makes a tuple of every item and files it under its index gives the set of their
indices, and fails as the making fails. -/
theorem foldlM_bare {α : Type} {make : α → Except Error Tuple}
    {step : FiledSet → α → Except Error FiledSet}
    (each : ∀ k item, k.univ = u → k.arity = arity → bare <$> step k item =
      (fun t => ⟨u, arity, k.bare.indices.insert t.index⟩) <$> make item)
    (items : List α) (univ : k.univ = u) (isArity : k.arity = arity) :
    bare <$> items.foldlM step k = (fun made : List Tuple =>
      ⟨u, arity, k.bare.indices.union (.ofList (made.map Tuple.index))⟩) <$> items.mapM make := by
  induction items generalizing k with
  | nil => exact congrArg Except.ok (bare_eq univ isArity fun i => by simp)
  | cons item rest ih =>
    have here := each k item univ isArity
    rw [List.foldlM_cons, List.mapM_cons, map_bind, map_bind]
    cases made : make item with
    | error error =>
      rw [made] at here
      cases run : step k item with
      | ok next => rw [run] at here; cases here
      | error fault => rw [run] at here; cases here; rfl
    | ok t =>
      rw [made] at here
      obtain ⟨next, run, isNext⟩ := map_eq_ok.mp here
      have later := ih (congrArg TupleSet.univ isNext) (congrArg TupleSet.arity isNext)
      have indices (ts : List Tuple) : next.bare.indices.union (.ofList (ts.map Tuple.index)) =
          k.bare.indices.union (.ofList ((t :: ts).map Tuple.index)) := by
        rw [isNext, List.map_cons, insert_union]
      simp only [indices] at later
      rw [run]
      refine later.trans ?_
      cases List.mapM make rest <;> rfl

theorem foldlM_empty_bare {α : Type} {step : FiledSet → α → Except Error FiledSet}
    (make : α → Except Error Tuple)
    (each : ∀ k item, k.univ = u → k.arity = arity → bare <$> step k item =
      (fun t => ⟨u, arity, k.bare.indices.insert t.index⟩) <$> make item) (items : List α) :
    bare <$> items.foldlM step (empty u arity) =
      (fun made : List Tuple => ⟨u, arity, .ofList (made.map Tuple.index)⟩) <$> items.mapM make := by
  have union (set : IndexSet) : IndexSet.empty.union set = set := IndexSet.ext_mem fun i => by simp
  refine (foldlM_bare each items rfl rfl).trans ?_
  simp only [bare_empty, TupleSet.empty, union]

theorem put_ofIndex_bare (univ : k.univ = u) (isArity : k.arity = arity) :
    bare <$> (do return k.put key (← IndexedTuple.ofIndex u arity key) : Except Error FiledSet) =
      (fun t => ⟨u, arity, k.bare.indices.insert t.index⟩) <$> Tuple.ofIndex u arity key := by
  rw [IndexedTuple.ofIndex]
  cases made : Tuple.ofIndex u arity key with
  | error error => rfl
  | ok t =>
    obtain ⟨rfl, bound⟩ := Tuple.ofIndex_eq_ok made
    have index : (Tuple.mk u (decodeIndex u.size arity key)).index = key :=
      encodeIndex_decodeIndex u.size arity key bound
    subst univ isArity
    refine congrArg Except.ok (bare_put.trans ?_)
    simp only [index]
    rfl

theorem ofIndices_bare (u : Universe) (arity : Nat) (indices : List Nat) :
    bare <$> ofIndices u arity indices = TupleSet.ofIndices u arity indices :=
  foldlM_empty_bare (Tuple.ofIndex u arity) (fun _ _ => put_ofIndex_bare) indices

theorem offer_spec (k : FiledSet) (key : Nat) : (k.offer key).univ = k.univ ∧
    (k.offer key).arity = k.arity ∧ ∀ i, (k.offer key).has i = true ↔
      k.has i = true ∨ (i = key ∧ ∃ t, Tuple.ofIndex k.univ k.arity key = .ok t) := by
  unfold offer IndexedTuple.ofIndex
  cases made : Tuple.ofIndex k.univ k.arity key with
  | error error => exact ⟨rfl, rfl, fun i => by simp [Functor.map, Except.map]⟩
  | ok t => exact ⟨rfl, rfl, fun i => by simp [Functor.map, Except.map, or_comm]⟩

theorem foldl_offer (keys : List Nat) (k : FiledSet) : (keys.foldl offer k).univ = k.univ ∧
    (keys.foldl offer k).arity = k.arity ∧ ∀ i, (keys.foldl offer k).has i = true ↔
      k.has i = true ∨ (i ∈ keys ∧ ∃ t, Tuple.ofIndex k.univ k.arity i = .ok t) := by
  induction keys generalizing k with
  | nil => simp
  | cons key rest ih =>
    obtain ⟨nextUniv, nextArity, nextHas⟩ := offer_spec k key
    obtain ⟨univ, isArity, has⟩ := ih (k.offer key)
    refine ⟨univ.trans nextUniv, isArity.trans nextArity, fun i => (has i).trans ?_⟩
    rw [nextHas, nextUniv, nextArity, List.mem_cons]
    constructor
    · rintro ((old | ⟨rfl, made⟩) | ⟨member, made⟩)
      · exact .inl old
      · exact .inr ⟨.inl rfl, made⟩
      · exact .inr ⟨.inr member, made⟩
    · rintro (old | ⟨rfl | member, made⟩)
      · exact .inl (.inl old)
      · exact .inl (.inr ⟨rfl, made⟩)
      · exact .inr ⟨member, made⟩

theorem all_bare (u : Universe) (arity : Nat) : (all u arity).bare = .all u arity := by
  obtain ⟨univ, isArity, has⟩ := foldl_offer (List.range ((u.capacity? arity).getD 0)) (empty u arity)
  refine bare_eq univ isArity fun i => (has i).trans ?_
  have possible : (∃ t, Tuple.ofIndex (empty u arity).univ (empty u arity).arity i = .ok t) ↔
      ∃ capacity, u.capacity? arity = some capacity ∧ i < capacity := Tuple.exists_ofIndex
  rw [TupleSet.all, IndexSet.mem_below, List.mem_range, possible]
  cases u.capacity? arity <;> simp

theorem insert_ofAtoms_bare (atoms : List String) :
    bare <$> (do k.insert (← IndexedTuple.ofAtoms u atoms)) =
      (do k.bare.insert (← Tuple.ofAtoms u atoms)) := by
  rw [IndexedTuple.ofAtoms]
  cases made : Tuple.ofAtoms u atoms with
  | error error => rfl
  | ok t => exact insert_bare ⟨(Tuple.Built.ofAtoms made).inside, rfl⟩

theorem ofAtom_bare (u : Universe) (atom : String) :
    bare <$> ofAtom u atom = TupleSet.ofAtom u atom := by
  rw [ofAtom, insert_ofAtoms_bare, bare_empty]
  rfl

theorem ofTuples_bare (u : Universe) (listed : List (List String)) :
    bare <$> ofTuples u listed = TupleSet.ofTuples u listed := by
  cases listed with
  | nil => rfl
  | cons first rest =>
    rw [ofTuples, TupleSet.ofTuples]
    refine foldlM_empty_bare (fun atoms =>
      if atoms.length ≠ first.length then .error .mixedArities else Tuple.ofAtoms u atoms)
      (fun k atoms univ isArity => ?_) (first :: rest)
    split
    · rfl
    · rename_i length
      rw [insert_ofAtoms_bare]
      cases made : Tuple.ofAtoms u atoms with
      | error error => rfl
      | ok t =>
        obtain ⟨rfl, tArity, -⟩ := Tuple.ofAtoms_eq_ok made
        have fits : t.arity = k.arity := tArity.trans ((not_not.mp length).trans isArity.symm)
        simp [TupleSet.insert, TupleSet.compatible, bare, univ, fits, isArity, bind, Except.bind,
          Functor.map, Except.map, pure, Except.pure]

end Bare

section Filed

variable {k other : FiledSet} {t : IndexedTuple} {u : Universe} {arity key : Nat}

structure Fitting (k : FiledSet) (t : IndexedTuple) : Prop where
  univ : t.tuple.univ = k.univ
  arity : t.tuple.arity = k.arity
  coded : t.Coded

structure Filed (k : FiledSet) : Prop where
  ascending : k.entries.keys.Pairwise (· < ·)
  index : ∀ key t, (key, t) ∈ k.entries.entries → t.index = key
  fitting : ∀ key t, (key, t) ∈ k.entries.entries → k.Fitting t

theorem Filed.toList_bare (filed : k.Filed) : k.bare.indices.toList = k.entries.keys :=
  IndexSet.eq_of_mem_iff k.bare.indices.ascending filed.ascending fun _ => mem_bare.trans has_iff

theorem Filed.map_index (filed : k.Filed) :
    k.entries.values.map IndexedTuple.index = k.entries.keys := by
  rw [SortedTable.values, List.map_map]
  exact List.map_congr_left fun entry member => filed.index entry.1 entry.2 member

theorem Filed.tuples_bare (filed : k.Filed) : k.bare.tuples = k.tuples := by
  rw [TupleSet.tuples, filed.toList_bare, tuples, SortedTable.keys, SortedTable.values, List.map_map,
    List.map_map]
  refine List.map_congr_left fun entry member => ?_
  obtain ⟨key, ⟨v, positions⟩, index⟩ := entry
  obtain ⟨univ, isArity, inside, coded⟩ := filed.fitting key _ member
  obtain rfl : index = key := filed.index key _ member
  obtain rfl : index = encodeIndex v.size positions := coded
  obtain rfl : v = k.univ := univ
  have decoded := decodeIndex_encodeIndex k.univ.size positions inside
  have length : positions.length = k.arity := isArity
  rw [length] at decoded
  exact congrArg (Tuple.mk k.univ) decoded

theorem Filed.same_bare (filed : k.Filed) (otherFiled : other.Filed) :
    k.same other = (k.bare == other.bare) := by
  have keys : k.bare.indices = other.bare.indices ↔ k.entries.keys = other.entries.keys := by
    rw [← filed.toList_bare, ← otherFiled.toList_bare]
    constructor
    · exact congrArg IndexSet.toList
    · intro lists
      exact IndexSet.ext_mem fun i => by rw [IndexSet.mem_def, IndexSet.mem_def, lists]
  rw [Bool.eq_iff_iff, beq_iff_eq]
  simp only [same, Bool.and_eq_true, beq_iff_eq, ← keys, and_assoc]
  exact (TupleSet.mk.injEq ..).symm.to_iff

theorem Filed.product_bare (filed : k.Filed) (otherFiled : other.Filed) :
    bare <$> k.product other = k.bare.product other.bare := by
  unfold product TupleSet.product
  by_cases foreign : other.univ ≠ k.univ
  · rw [if_pos foreign, if_pos (show other.bare.univ ≠ k.bare.univ from foreign)]
    rfl
  rw [if_neg foreign, if_neg (show ¬ other.bare.univ ≠ k.bare.univ from foreign)]
  cases countable : k.univ.capacity? other.arity with
  | none =>
    have uncountable : k.bare.univ.capacity? other.bare.arity = none := countable
    simp only [uncountable]
    rfl
  | some stride =>
    have isStride : k.bare.univ.capacity? other.bare.arity = some stride := countable
    simp only [isStride]
    let index (pair : IndexedTuple × IndexedTuple) : Nat := pair.1.index * stride + pair.2.index
    have listed : (k.bare.indices.toList.flatMap fun i =>
        other.bare.indices.toList.map fun j => i * stride + j) =
          (k.entries.values.product other.entries.values).map index := by
      rw [filed.toList_bare, otherFiled.toList_bare, ← filed.map_index, ← otherFiled.map_index]
      simp [List.product, List.flatMap_map, List.map_flatMap, index, Function.comp_def]
    rw [listed, TupleSet.ofIndices, List.mapM_map]
    refine foldlM_empty_bare (fun pair => Tuple.ofIndex k.univ (k.arity + other.arity) (index pair))
      (fun pairs pair univ isArity => ?_) (k.entries.values.product other.entries.values)
    refine Eq.trans ?_ (put_ofIndex_bare univ isArity)
    rw [IndexedTuple.ofIndex]
    cases Tuple.ofIndex k.univ (k.arity + other.arity) (index pair) <;> rfl

theorem Filed.empty (u : Universe) (arity : Nat) : (empty u arity).Filed :=
  ⟨.nil, fun _ _ absent => absurd absent List.not_mem_nil,
    fun _ _ absent => absurd absent List.not_mem_nil⟩

theorem Filed.put (filed : k.Filed) (fitting : k.Fitting t) : (k.put t.index t).Filed := by
  have entries {key : Nat} {r : IndexedTuple} (member : (key, r) ∈ (k.put t.index t).entries.entries) :
      (key, r) = (t.index, t) ∨ (key, r) ∈ k.entries.entries := SortedTable.mem_insertEntry member
  refine ⟨SortedTable.insertEntry_ascending t.index t filed.ascending, fun key r member => ?_,
    fun key r member => ?_⟩
  · rcases entries member with same | old
    · obtain ⟨rfl, rfl⟩ := Prod.mk.inj same
      rfl
    · exact filed.index key r old
  · rcases entries member with same | old
    · obtain ⟨rfl, rfl⟩ := Prod.mk.inj same
      exact ⟨fitting.univ, fitting.arity, fitting.coded⟩
    · obtain ⟨univ, isArity, coded⟩ := filed.fitting key r old
      exact ⟨univ, isArity, coded⟩

theorem Filed.putNew (filed : k.Filed) (fitting : k.Fitting t) : (k.putNew t.index t).Filed := by
  unfold FiledSet.putNew
  split
  · exact filed
  · exact filed.put fitting

theorem Filed.sublist {entries : List (Nat × IndexedTuple)} (filed : k.Filed)
    (fewer : entries.Sublist k.entries.entries) : (FiledSet.mk k.univ k.arity ⟨entries⟩).Filed := by
  refine ⟨filed.ascending.sublist (fewer.map Prod.fst), fun key t member => ?_, fun key t member => ?_⟩
  · exact filed.index key t (fewer.mem member)
  · obtain ⟨univ, isArity, coded⟩ := filed.fitting key t (fewer.mem member)
    exact ⟨univ, isArity, coded⟩

theorem Filed.put_ofIndex (filed : k.Filed) (ok : IndexedTuple.ofIndex k.univ k.arity key = .ok t) :
    (k.put key t).Filed := by
  obtain ⟨made, rfl, -⟩ := IndexedTuple.ofIndex_eq_ok ok
  obtain ⟨isTuple, -⟩ := Tuple.ofIndex_eq_ok made
  refine filed.put ⟨isTuple ▸ rfl, ?_, (IndexedTuple.Made.ofIndex ok).coded⟩
  rw [isTuple]
  exact length_decodeIndex ..

theorem Filed.offer (filed : k.Filed) : (k.offer key).Filed := by
  unfold FiledSet.offer
  split
  · rename_i ok
    exact filed.put_ofIndex ok
  · exact filed

theorem all_filed (u : Universe) (arity : Nat) : (all u arity).Filed :=
  List.foldlRecOn _ _ (.empty u arity) fun _ filed _ _ => filed.offer

theorem Filed.insert {larger : FiledSet} (filed : k.Filed) (made : t.Made)
    (ok : k.insert t = .ok larger) : larger.Filed := by
  obtain ⟨⟨⟩, fitting, rest⟩ := bind_eq_ok.mp ok
  obtain ⟨univ, isArity⟩ := TupleSet.compatible_eq_ok fitting
  exact pure_eq_ok.mp rest ▸ filed.putNew ⟨univ, isArity, made.coded⟩

theorem Filed.erase (filed : k.Filed) (t : IndexedTuple) : (k.erase t).Filed := by
  unfold FiledSet.erase
  split
  · exact filed.sublist List.filter_sublist
  · exact filed

theorem Filed.difference {rest : FiledSet} (filed : k.Filed) (ok : k.difference other = .ok rest) :
    rest.Filed := by
  obtain ⟨⟨⟩, -, made⟩ := bind_eq_ok.mp ok
  exact pure_eq_ok.mp made ▸ filed.sublist List.filter_sublist

theorem Filed.union {both : FiledSet} (filed : k.Filed) (otherFiled : other.Filed)
    (ok : k.union other = .ok both) : both.Filed := by
  obtain ⟨⟨⟩, fitting, made⟩ := bind_eq_ok.mp ok
  obtain ⟨univ, isArity⟩ := TupleSet.compatible_eq_ok fitting
  rw [← pure_eq_ok.mp made]
  have kept : ∀ all : FiledSet, all.Filed ∧ all.univ = k.univ ∧ all.arity = k.arity →
      ∀ entry ∈ other.entries.entries, (all.putNew entry.1 entry.2).Filed ∧
        (all.putNew entry.1 entry.2).univ = k.univ ∧ (all.putNew entry.1 entry.2).arity = k.arity := by
    rintro all ⟨allFiled, allUniv, allArity⟩ ⟨key, t⟩ member
    obtain ⟨tUniv, tArity, coded⟩ := otherFiled.fitting key t member
    obtain rfl := otherFiled.index key t member
    refine ⟨allFiled.putNew ⟨?_, ?_, coded⟩, putNew_univ.trans allUniv, putNew_arity.trans allArity⟩
    · exact tUniv.trans (univ.trans allUniv.symm)
    · exact tArity.trans (isArity.trans allArity.symm)
  exact (List.foldlRecOn other.entries.entries _ ⟨filed, rfl, rfl⟩ kept).1

/-- A loop from an empty set whose steps file tuples of the universe and the arity. -/
theorem foldlM_filed {α : Type} {step : FiledSet → α → Except Error FiledSet} {items : List α}
    {result : FiledSet}
    (each : ∀ k next item, k.Filed → k.univ = u → k.arity = arity → step k item = .ok next →
      next.Filed ∧ next.univ = u ∧ next.arity = arity)
    (ok : items.foldlM step (FiledSet.empty u arity) = .ok result) : result.Filed := by
  have kept := foldlM_invariant (fun k : FiledSet => k.Filed ∧ k.univ = u ∧ k.arity = arity)
    (fun item _ before after ⟨filed, univ, isArity⟩ ran =>
      each before after item filed univ isArity ran) ⟨.empty u arity, rfl, rfl⟩ ok
  exact kept.1

theorem ofIndices_filed {indices : List Nat} {result : FiledSet}
    (ok : ofIndices u arity indices = .ok result) : result.Filed := by
  refine foldlM_filed (fun k next key filed univ isArity ran => ?_) ok
  obtain ⟨t, made, rest⟩ := bind_eq_ok.mp ran
  obtain rfl := pure_eq_ok.mp rest
  subst univ isArity
  exact ⟨filed.put_ofIndex made, rfl, rfl⟩

theorem product_filed {pairs : FiledSet} (ok : k.product other = .ok pairs) : pairs.Filed := by
  unfold FiledSet.product at ok
  split at ok
  · cases ok
  simp only at ok
  split at ok
  · cases ok
  refine foldlM_filed (fun k next pair filed univ isArity ran => ?_) ok
  obtain ⟨t, made, rest⟩ := bind_eq_ok.mp ran
  obtain rfl := pure_eq_ok.mp rest
  rw [← univ, ← isArity] at made
  obtain ⟨-, index, -⟩ := IndexedTuple.ofIndex_eq_ok made
  exact ⟨index ▸ filed.put_ofIndex (index ▸ made), univ, isArity⟩

theorem insert_keeps {larger : FiledSet} (ok : k.insert t = .ok larger) :
    larger.univ = k.univ ∧ larger.arity = k.arity := by
  obtain ⟨⟨⟩, -, rest⟩ := bind_eq_ok.mp ok
  obtain rfl := pure_eq_ok.mp rest
  exact ⟨putNew_univ, putNew_arity⟩

theorem ofAtom_filed {atom : String} {result : FiledSet} (ok : ofAtom u atom = .ok result) :
    result.Filed := by
  obtain ⟨t, made, inserted⟩ := bind_eq_ok.mp ok
  exact (Filed.empty u 1).insert (.ofAtoms made) inserted

theorem ofTuples_filed {listed : List (List String)} {result : FiledSet}
    (ok : ofTuples u listed = .ok result) : result.Filed := by
  cases listed with
  | nil => cases ok
  | cons first rest =>
    refine foldlM_filed (fun k next atoms filed univ isArity ran => ?_) ok
    split at ran
    · cases ran
    obtain ⟨t, made, inserted⟩ := bind_eq_ok.mp ran
    obtain ⟨sameUniv, sameArity⟩ := insert_keeps inserted
    exact ⟨filed.insert (.ofAtoms made) inserted, sameUniv.trans univ, sameArity.trans isArity⟩

end Filed

end FiledSet

end ModelFinder
