import ModelFinder.Logic.Semantics
import ModelFinder.Proofs.Circuit.Constants
import ModelFinder.Proofs.Circuit.Matrix

/-! Which tuples have a cell. A stored cell need not be true under any valuation, but its index is that
of a tuple made of tuples with stored cells. An operator that takes tuples away may leave each of them
its cell. -/
namespace ModelFinder

/-- The tuples that an operator may make of tuples that may be there: what is taken away under some
valuations stays under others. -/
def BinaryOp.possible (left right : List Nat → Prop) : BinaryOp → List Nat → Prop
  | difference, t => left t
  | override, t => right t ∨ left t
  | op, t => op.denote left right t

namespace Build

variable {α β : Type} {first : Build α} {next : α → Build β} {between : α → Prop}
  {post weaker : β → Prop}

def Returns (action : Build β) (post : β → Prop) : Prop := ∀ c b d, action c = .ok (b, d) → post b

theorem returns_pure {b : β} (holds : post b) : Returns (pure b) post := by
  intro c a d run
  cases run
  exact holds

theorem returns_throw {error : Error} : Returns (throw error) post := by
  intro c a d run
  cases run

theorem returns_lift {result : Except Error β} (holds : ∀ b, result = .ok b → post b) :
    Returns (liftM result) post :=
  fun _ b _ run => holds b (lift_eq_ok.mp run).1

theorem returns_any (action : Build β) : Returns action fun _ => True := fun _ _ _ _ => trivial

theorem Returns.bind (here : Returns first between) (there : ∀ a, between a → Returns (next a) post) :
    Returns (first >>= next) post := by
  intro c b d run
  obtain ⟨a, e, before, after⟩ := bind_run.mp run
  exact there a (here c a e before) e b d after

theorem Returns.imp {action : Build β} (returns : Returns action post)
    (implied : ∀ b, post b → weaker b) : Returns action weaker :=
  fun c b d run => implied b (returns c b d run)

theorem returns_mapM {items : List α} {step : α → Build β} {made : α → β → Prop}
    (each : ∀ a ∈ items, Returns (step a) (made a)) :
    Returns (items.mapM step) fun results => ∀ b ∈ results, ∃ a ∈ items, made a b := by
  induction items with
  | nil => exact returns_pure (by simp)
  | cons item items ih =>
    rw [List.mapM_cons]
    refine (each item List.mem_cons_self).bind fun b here => ?_
    refine (ih fun a member => each a (List.mem_cons_of_mem item member)).bind fun rest there => ?_
    refine returns_pure (List.forall_mem_cons.mpr ⟨⟨item, List.mem_cons_self, here⟩, ?_⟩)
    intro b member
    obtain ⟨a, isItem, isMade⟩ := there b member
    exact ⟨a, List.mem_cons_of_mem item isItem, isMade⟩

end Build

namespace Matrix

variable {a b m : Matrix} {n k l : Nat} {P Q : List Nat → Prop}

/-- A symbolic relation of an arity over a number of atoms whose stored cells belong to tuples of a
set. -/
structure Spans (m : Matrix) (n k : Nat) (tuples : List Nat → Prop) : Prop where
  dims : m.dims = ⟨n, k⟩
  cells : ∀ cell ∈ m.cells.entries, cell.1 < n ^ k ∧ tuples (decodeIndex n k cell.1)

theorem Spans.imp (spans : m.Spans n k P) (implied : ∀ t, P t → Q t) : m.Spans n k Q :=
  ⟨spans.dims, fun cell stored => (spans.cells cell stored).imp_right (implied _)⟩

theorem ofCells_spans {cells : List (Nat × Value)}
    (each : ∀ cell ∈ cells, cell.1 < n ^ k ∧ P (decodeIndex n k cell.1)) :
    (ofCells ⟨n, k⟩ cells).Spans n k P :=
  ⟨rfl, fun _ stored => each _ (mem_of_ofList (mem_ofCells.mp stored).1)⟩

theorem ofIndices_spans {indices : List Nat}
    (each : ∀ i ∈ indices, i < n ^ k ∧ P (decodeIndex n k i)) :
    (ofIndices ⟨n, k⟩ indices).Spans n k P := by
  refine ofCells_spans fun cell member => ?_
  obtain ⟨i, isIndex, rfl⟩ := List.mem_map.mp member
  exact each i isIndex

theorem cell_returns (op : Synth Value) (index : Nat) :
    Build.Returns (do return (index, ← op) : Build (Nat × Value)) fun cell => cell.1 = index :=
  (Build.returns_any _).bind fun _ _ => Build.returns_pure rfl

theorem anyOfGroups_returns (terms : List (Nat × Value)) :
    Build.Returns (liftM (anyOfGroups terms)) fun cells =>
      ∀ cell ∈ cells, ∃ term ∈ terms, cell.1 = term.1 := by
  unfold anyOfGroups
  rw [Synth.lift_mapM]
  refine (Build.returns_mapM fun key _ => cell_returns _ key).imp fun cells made cell member => ?_
  obtain ⟨key, isKey, same⟩ := made cell member
  rw [Ascending.mem_sort, Std.HashMap.mem_keys, mem_groupByKey, List.mem_map] at isKey
  obtain ⟨term, isTerm, rfl⟩ := isKey
  exact ⟨term, isTerm, same⟩

theorem union_spans (left : a.Spans n k P) (right : b.Spans n k Q) :
    Build.Returns (a.union b) (Spans · n k (BinaryOp.possible P Q .union)) := by
  refine (Build.returns_any _).bind fun _ _ => ?_
  refine (Build.returns_mapM fun cell _ => cell_returns _ cell.1).bind fun cells made => ?_
  rw [left.dims]
  refine Build.returns_pure (ofCells_spans fun cell member => ?_)
  rcases List.mem_append.mp member with mine | new
  · exact (left.cells cell mine).imp_right .inl
  · obtain ⟨other, theirs, same⟩ := made cell new
    rw [same]
    exact (right.cells other theirs).imp_right .inr

theorem intersection_spans (left : a.Spans n k P) (right : b.Spans n k Q) :
    Build.Returns (a.intersection b) (Spans · n k (BinaryOp.possible P Q .intersection)) := by
  refine (Build.returns_any _).bind fun _ _ => ?_
  refine (Build.returns_mapM fun shared _ => cell_returns _ shared.1).bind fun cells made => ?_
  rw [left.dims]
  refine Build.returns_pure (ofCells_spans fun cell member => ?_)
  obtain ⟨shared, isShared, same⟩ := made cell member
  obtain ⟨mine, isMine, found⟩ := List.mem_filterMap.mp isShared
  obtain ⟨w, theirs, rfl⟩ := Option.map_eq_some_iff.mp found
  rw [same]
  obtain ⟨bound, first⟩ := left.cells mine isMine
  exact ⟨bound, first, (right.cells _ (mem_of_ofList theirs)).2⟩

theorem difference_spans (left : a.Spans n k P) :
    Build.Returns (a.difference b) (Spans · n k (BinaryOp.possible P Q .difference)) := by
  refine (Build.returns_any _).bind fun _ _ => ?_
  refine (Build.returns_mapM fun cell _ => cell_returns _ cell.1).bind fun cells made => ?_
  rw [left.dims]
  refine Build.returns_pure (ofCells_spans fun cell member => ?_)
  obtain ⟨mine, isMine, same⟩ := made cell member
  exact same ▸ left.cells mine isMine

theorem override_spans (left : a.Spans n k P) (right : b.Spans n k Q) :
    Build.Returns (a.override b) (Spans · n k (BinaryOp.possible P Q .override)) := by
  unfold override
  refine (Build.returns_any _).bind fun _ _ => ?_
  dsimp only
  split
  · exact Build.returns_throw
  refine (Build.returns_any _).bind fun rows _ => ?_
  refine (Build.returns_mapM fun cell _ => (Build.returns_any _).bind fun kept _ =>
    cell_returns _ cell.1).bind fun cells made => ?_
  rw [left.dims]
  refine Build.returns_pure (ofCells_spans fun cell member => ?_)
  rcases List.mem_append.mp member with theirs | new
  · exact (right.cells cell theirs).imp_right .inl
  · obtain ⟨mine, isMine, same⟩ := made cell new
    rw [same]
    exact (left.cells mine isMine).imp_right .inr

theorem product_spans (left : a.Spans n k P) (right : b.Spans n l Q) :
    Build.Returns (a.product b) (Spans · n (k + l) (BinaryOp.possible P Q .product)) := by
  unfold product
  rw [left.dims, right.dims]
  refine (Build.returns_lift fun dims made => dims_make made).bind fun dims isDims => ?_
  rw [isDims]
  refine (Build.returns_mapM fun pair _ => cell_returns _ pair.1).bind fun cells made => ?_
  refine Build.returns_pure (ofCells_spans fun cell member => ?_)
  obtain ⟨pair, isPair, same⟩ := made cell member
  obtain ⟨one, isMine, others⟩ := List.mem_flatMap.mp isPair
  obtain ⟨other, theirs, rfl⟩ := List.mem_map.mp others
  obtain ⟨firstBound, first⟩ := left.cells one isMine
  obtain ⟨secondBound, second⟩ := right.cells other theirs
  rw [same]
  exact ⟨rows_lt firstBound secondBound, _, _, first, second, decodeIndex_append k one.1 secondBound⟩

theorem join_spans (left : a.Spans n (k + 1) P) (right : b.Spans n (l + 1) Q) :
    Build.Returns (a.join b) (Spans · n (k + l) (BinaryOp.possible P Q .join)) := by
  unfold join
  rw [left.dims, right.dims]
  refine (Build.returns_lift fun dims made => dims_make made).bind fun dims isDims => ?_
  obtain rfl : dims = ⟨n, k + l⟩ := by
    rw [isDims, show k + 1 + (l + 1) - 2 = k + l by omega]
  dsimp only
  split
  · exact Build.returns_throw
  rename_i some
  have positive : 0 < n := Nat.pos_of_ne_zero some
  have rest : Dims.capacity ⟨n, l + 1⟩ / n = n ^ l := Nat.mul_div_cancel _ positive
  rw [rest, if_neg (Nat.pow_pos positive).ne']
  refine (Build.returns_mapM fun pair _ => cell_returns _ pair.1).bind fun terms made => ?_
  refine (anyOfGroups_returns terms).bind fun cells grouped => ?_
  refine Build.returns_pure (ofCells_spans fun cell member => ?_)
  obtain ⟨term, isTerm, isIndex⟩ := grouped cell member
  obtain ⟨pair, isPair, same⟩ := made term isTerm
  obtain ⟨one, isMine, others⟩ := List.mem_flatMap.mp isPair
  obtain ⟨⟨x, w⟩, inRow, rfl⟩ := List.mem_map.mp others
  rw [getD_groupByKey] at inRow
  obtain ⟨⟨row, entry⟩, inGroup, isEntry⟩ := List.mem_map.mp inRow
  obtain ⟨listed, inner⟩ := List.mem_filter.mp inGroup
  obtain ⟨other, theirs, split⟩ := List.mem_map.mp listed
  cases split
  cases isEntry
  -- The tuples of the two cells agree in the inner atom.
  obtain ⟨firstBound, first⟩ := left.cells one isMine
  obtain ⟨secondBound, second⟩ := right.cells other theirs
  have inner : other.1 / n ^ l = one.1 % n := by simpa using inner
  have front : one.1 / n < n ^ k := Nat.div_lt_of_lt_mul (by rwa [Nat.mul_comm, ← pow_succ])
  have back : other.1 % n ^ l < n ^ l := Nat.mod_lt _ (Nat.pow_pos positive)
  rw [decodeIndex] at first
  rw [decodeIndex_cons secondBound, inner] at second
  rw [isIndex, same]
  exact ⟨rows_lt front back, _, _, _, first, second, decodeIndex_append k _ back⟩

theorem decodeIndex_pair {x y : Nat} (inside : y < n) (also : x < n) :
    decodeIndex n 2 (x * n + y) = [x, y] := by
  have split := @decodeIndex_append n 1 y 1 x (by simpa using inside)
  simpa [decodeIndex, Nat.mod_eq_of_lt inside, Nat.mod_eq_of_lt also] using split

theorem transpose_spans (spans : m.Spans n 2 P) :
    Build.Returns (liftM m.transpose) (Spans · n 2 (UnaryOp.denote P n .transpose)) := by
  refine Build.returns_lift fun turned made => ?_
  obtain ⟨⟨⟩, -, rest⟩ := bind_eq_ok.mp made
  rw [← pure_eq_ok.mp rest, spans.dims]
  refine ofCells_spans fun cell member => ?_
  obtain ⟨stored, isStored, rfl⟩ := List.mem_map.mp member
  obtain ⟨bound, pair⟩ := spans.cells stored isStored
  have first : stored.1 / n < n := Nat.div_lt_of_lt_mul (by rwa [← pow_two])
  have second : stored.1 % n < n := Nat.mod_lt _ (Nat.zero_lt_of_lt first)
  rw [← Nat.div_add_mod' stored.1 n, decodeIndex_pair second first] at pair
  refine ⟨?_, _, _, pair, decodeIndex_pair first second⟩
  simpa using rows_lt (k := 1) (l := 1) (by simpa using second) (by simpa using first)

theorem square_spans (times : Nat) (spans : m.Spans n 2 (UnaryOp.denote P n .closure)) :
    Build.Returns (square times m) (Spans · n 2 (UnaryOp.denote P n .closure)) := by
  induction times generalizing m with
  | zero => exact Build.returns_pure spans
  | succ times ih =>
    refine (join_spans (k := 1) (l := 1) spans spans).bind fun composed joined => ?_
    refine (union_spans spans joined).bind fun larger both => ih (both.imp ?_)
    rintro t (path | ⟨front, z, back, ⟨x, y, first, left⟩, ⟨y', w, second, right⟩, rfl⟩)
    · exact path
    · have parts : front ++ [z] = [x] ++ [y] := left
      obtain ⟨rfl, inner⟩ := List.append_inj' parts rfl
      obtain rfl : z = y := List.head_eq_of_cons_eq inner
      obtain ⟨rfl, rfl⟩ : z = y' ∧ back = [w] := List.cons.inj right
      exact ⟨x, w, first.trans second, rfl⟩

theorem closure_spans (spans : m.Spans n 2 P) :
    Build.Returns m.closure (Spans · n 2 (UnaryOp.denote P n .closure)) := by
  have paths : m.Spans n 2 (UnaryOp.denote P n .closure) := by
    refine ⟨spans.dims, fun cell stored => ?_⟩
    obtain ⟨bound, pair⟩ := spans.cells cell stored
    obtain ⟨x, y, isPair⟩ := List.length_eq_two.mp (length_decodeIndex n 2 cell.1)
    rw [isPair] at pair ⊢
    exact ⟨bound, x, y, .single pair, rfl⟩
  exact (Build.returns_any _).bind fun _ _ => square_spans _ paths

theorem identity_spans : Build.Returns (liftM (identity n)) (Spans · n 2 (ConstExpr.denote n .iden)) := by
  refine Build.returns_lift fun diagonal made => ?_
  obtain ⟨dims, granted, rfl⟩ := map_eq_ok.mp made
  obtain rfl := dims_make granted
  refine ofIndices_spans fun i member => ?_
  obtain ⟨x, inRange, rfl⟩ := List.mem_map.mp member
  have inside : x < n := List.mem_range.mp inRange
  exact ⟨by simpa using rows_lt (k := 1) (l := 1) (by simpa using inside) (by simpa using inside),
    x, inside, decodeIndex_pair inside inside⟩

theorem reflexiveClosure_spans (spans : m.Spans n 2 P) :
    Build.Returns m.reflexiveClosure (Spans · n 2 (UnaryOp.denote P n .reflexiveClosure)) := by
  refine (closure_spans spans).bind fun paths closed => ?_
  rw [spans.dims]
  refine identity_spans.bind fun diagonal isDiagonal => ?_
  refine (union_spans closed isDiagonal).imp fun both either => either.imp ?_
  rintro t (⟨x, y, path, rfl⟩ | ⟨x, inside, rfl⟩)
  · exact ⟨x, y, .inl path, rfl⟩
  · exact ⟨x, x, .inr ⟨rfl, inside⟩, rfl⟩

end Matrix

end ModelFinder
