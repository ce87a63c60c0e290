import ModelFinder.Circuit.Relational
import ModelFinder.Proofs.Circuit.Ensures
import ModelFinder.Proofs.Data.Keyed

/-! Constants fold. What is computed from constants alone adds no gate and is constant, through every
operator on values and on symbolic relations. -/
namespace ModelFinder

def Value.Constant (v : Value) : Prop := ∃ b, v = .const b

def Matrix.Constant (m : Matrix) : Prop := ∀ cell ∈ m.cells.entries, cell.2.Constant

namespace Build

variable {α β : Type} {first : Build α} {next : α → Build β} {between : α → Prop} {post : β → Prop}

/-- Whatever the circuit, the computation leaves it as it is, with a result that has the property,
unless it fails. -/
def Folds (action : Build β) (post : β → Prop) : Prop :=
  ∀ c b d, action c = .ok (b, d) → c = d ∧ post b

theorem folds_pure {b : β} (holds : post b) : Folds (pure b) post := by
  intro c a d run
  cases run
  exact ⟨rfl, holds⟩

theorem folds_throw {error : Error} : Folds (throw error) post := by
  intro c a d run
  cases run

theorem folds_lift {result : Except Error β} (holds : ∀ b, result = .ok b → post b) :
    Folds (liftM result) post := by
  intro c b d run
  obtain ⟨ok, same⟩ := lift_eq_ok.mp run
  exact ⟨same, holds b ok⟩

theorem Folds.bind (here : Folds first between) (there : ∀ a, between a → Folds (next a) post) :
    Folds (first >>= next) post := by
  intro c b d run
  obtain ⟨a, e, before, after⟩ := bind_run.mp run
  obtain ⟨rfl, holds⟩ := here c a e before
  exact there a holds c b d after

theorem folds_mapM {items : List α} {step : α → Build β} (each : ∀ a ∈ items, Folds (step a) post) :
    Folds (items.mapM step) fun results => ∀ b ∈ results, post b := by
  induction items with
  | nil => exact folds_pure (by simp)
  | cons item items ih =>
    rw [List.mapM_cons]
    refine (each item List.mem_cons_self).bind fun b here => ?_
    refine (ih fun a member => each a (List.mem_cons_of_mem item member)).bind fun rest there => ?_
    exact folds_pure (List.forall_mem_cons.mpr ⟨here, there⟩)

theorem folds_foldlM (post : β → Prop) {items : List α} {step : β → α → Build β} {start : β}
    (initial : post start)
    (each : ∀ b, post b → ∀ a ∈ items, Folds (step b a) post) :
    Folds (items.foldlM step start) post := by
  induction items generalizing start with
  | nil => exact folds_pure initial
  | cons item items ih =>
    rw [List.foldlM_cons]
    refine (each start initial item List.mem_cons_self).bind fun b here => ?_
    exact ih here fun b holds a member => each b holds a (List.mem_cons_of_mem item member)

end Build

theorem Value.Constant.not {v : Value} (constant : v.Constant) : v.not.Constant := by
  obtain ⟨b, rfl⟩ := constant
  exact ⟨!b, rfl⟩

namespace Circuit

variable {a b : Value} {values : List Value}

theorem combine_folds (gate : List Int → Gate) (neutral : Bool)
    (constant : ∀ v ∈ values, v.Constant) :
    Build.Folds (liftM (combine gate neutral values)) Value.Constant := by
  have labels : ∀ {labels}, operands neutral values = some labels → labels = [] := by
    intro labels found
    unfold operands at found
    split at found
    · cases found
    · rw [← Option.some.inj found, List.filterMap_eq_nil_iff]
      intro v member
      obtain ⟨b, rfl⟩ := constant v member
      rfl
  intro c v d run
  unfold combine at run
  split at run
  · cases run
    exact ⟨rfl, _, rfl⟩
  · rename_i found
    rw [labels found, Ascending.sort_nil] at run
    cases run
    exact ⟨rfl, _, rfl⟩

theorem all_folds (constant : ∀ v ∈ values, v.Constant) :
    Build.Folds (liftM (all values)) Value.Constant :=
  combine_folds .and true constant

theorem any_folds (constant : ∀ v ∈ values, v.Constant) :
    Build.Folds (liftM (any values)) Value.Constant :=
  combine_folds .or false constant

theorem and_folds (left : a.Constant) (right : b.Constant) :
    Build.Folds (liftM (and a b)) Value.Constant :=
  all_folds (by simp [left, right])

theorem or_folds (left : a.Constant) (right : b.Constant) :
    Build.Folds (liftM (or a b)) Value.Constant :=
  any_folds (by simp [left, right])

theorem implies_folds (left : a.Constant) (right : b.Constant) :
    Build.Folds (liftM (implies a b)) Value.Constant :=
  or_folds left.not right

theorem iff_folds (left : a.Constant) (right : b.Constant) :
    Build.Folds (liftM (iff a b)) Value.Constant := by
  obtain ⟨x, rfl⟩ := left
  obtain ⟨y, rfl⟩ := right
  cases x <;> exact Build.folds_pure ⟨_, rfl⟩

end Circuit

namespace Matrix

variable {a b m : Matrix}

theorem ofCells_constant {dims : Dims} {cells : List (Nat × Value)}
    (constant : ∀ cell ∈ cells, cell.2.Constant) : (ofCells dims cells).Constant := by
  rintro ⟨i, v⟩ member
  have stored := (SortedTable.mem_ofList cells i v).mp (List.mem_filter.mp member).1
  exact constant _ (mem_of_ofList stored)

theorem empty_constant (dims : Dims) : (empty dims).Constant := by
  intro cell member
  cases member

theorem ofIndices_constant (dims : Dims) (indices : List Nat) :
    (ofIndices dims indices).Constant := by
  refine ofCells_constant fun cell member => ?_
  obtain ⟨i, -, rfl⟩ := List.mem_map.mp member
  exact ⟨true, rfl⟩

theorem valueAt_constant {cells : List (Nat × Value)} (constant : ∀ cell ∈ cells, cell.2.Constant)
    (i : Nat) : (valueAt (Std.HashMap.ofList cells) i).Constant := by
  rw [valueAt, Std.HashMap.getD_eq_getD_getElem?]
  cases found : (Std.HashMap.ofList cells)[i]? with
  | none => exact ⟨false, rfl⟩
  | some v => exact constant _ (mem_of_ofList found)

theorem Constant.values (constant : m.Constant) : ∀ v ∈ m.cells.values, v.Constant := by
  intro v member
  obtain ⟨cell, stored, rfl⟩ := List.mem_map.mp member
  exact constant cell stored

theorem cell_folds {op : Synth Value} (folds : Build.Folds (liftM op) Value.Constant) (index : Nat) :
    Build.Folds (do return (index, ← op) : Build (Nat × Value)) fun cell => cell.2.Constant :=
  folds.bind fun _ constant => Build.folds_pure constant

theorem cells_folds {α : Type} {items : List α} {step : α → Build (Nat × Value)}
    (each : ∀ a ∈ items, Build.Folds (step a) fun cell => cell.2.Constant) :
    Build.Folds (items.mapM step) fun cells => ∀ cell ∈ cells, cell.2.Constant :=
  Build.folds_mapM each

theorem checked_folds {α : Type} (result : Except Error α) :
    Build.Folds (liftM result) fun _ => True :=
  Build.folds_lift fun _ _ => trivial

theorem anyOfGroups_folds {terms : List (Nat × Value)}
    (constant : ∀ cell ∈ terms, cell.2.Constant) :
    Build.Folds (liftM (anyOfGroups terms)) fun cells => ∀ cell ∈ cells, cell.2.Constant := by
  unfold anyOfGroups
  rw [Synth.lift_mapM]
  refine Build.folds_mapM fun key _ => cell_folds (Circuit.any_folds fun v member => ?_) key
  rw [getD_groupByKey] at member
  obtain ⟨cell, isTerm, rfl⟩ := List.mem_map.mp member
  exact constant cell (List.mem_filter.mp isTerm).1

theorem union_folds (left : a.Constant) (right : b.Constant) :
    Build.Folds (a.union b) Constant := by
  refine (checked_folds _).bind fun _ _ => ?_
  refine (cells_folds fun cell stored => ?_).bind fun cells made => Build.folds_pure ?_
  · exact cell_folds (Circuit.or_folds (valueAt_constant left _) (right cell stored)) cell.1
  · exact ofCells_constant (List.forall_mem_append.mpr ⟨left, made⟩)

theorem intersection_folds (left : a.Constant) (right : b.Constant) :
    Build.Folds (a.intersection b) Constant := by
  refine (checked_folds _).bind fun _ _ => ?_
  refine (cells_folds fun shared stored => ?_).bind fun cells made =>
    Build.folds_pure (ofCells_constant made)
  obtain ⟨cell, isMine, found⟩ := List.mem_filterMap.mp stored
  obtain ⟨w, isTheirs, rfl⟩ := Option.map_eq_some_iff.mp found
  exact cell_folds (Circuit.and_folds (left cell isMine) (right _ (mem_of_ofList isTheirs))) cell.1

theorem difference_folds (left : a.Constant) (right : b.Constant) :
    Build.Folds (a.difference b) Constant := by
  refine (checked_folds _).bind fun _ _ => ?_
  refine (cells_folds fun cell stored => ?_).bind fun cells made =>
    Build.folds_pure (ofCells_constant made)
  exact cell_folds (Circuit.and_folds (left cell stored) (valueAt_constant right _).not) cell.1

theorem override_folds (left : a.Constant) (right : b.Constant) :
    Build.Folds (a.override b) Constant := by
  unfold override
  refine (checked_folds _).bind fun _ _ => ?_
  dsimp only
  split
  · exact Build.folds_throw
  refine (anyOfGroups_folds fun cell member => ?_).bind fun rows shadows => ?_
  · obtain ⟨stored, isStored, rfl⟩ := List.mem_map.mp member
    exact right stored isStored
  refine (cells_folds fun cell stored => ?_).bind fun cells made => Build.folds_pure ?_
  · refine (Circuit.and_folds (left cell stored) (valueAt_constant shadows _).not).bind ?_
    exact fun kept isKept => cell_folds (Circuit.or_folds isKept (valueAt_constant right _)) cell.1
  · exact ofCells_constant (List.forall_mem_append.mpr ⟨right, made⟩)

theorem join_folds (left : a.Constant) (right : b.Constant) : Build.Folds (a.join b) Constant := by
  unfold join
  refine (checked_folds _).bind fun dims _ => ?_
  dsimp only
  split
  · exact Build.folds_throw
  refine (cells_folds fun pair member => ?_).bind fun terms made => ?_
  · -- A pair is made of a cell of the first relation and one of a row of the second.
    obtain ⟨cell, stored, others⟩ := List.mem_flatMap.mp member
    obtain ⟨⟨k, w⟩, inRow, rfl⟩ := List.mem_map.mp others
    refine cell_folds (Circuit.and_folds (left cell stored) ?_) _
    rw [getD_groupByKey] at inRow
    obtain ⟨⟨key, entry⟩, grouped, same⟩ := List.mem_map.mp inRow
    have listed := (List.mem_filter.mp grouped).1
    split at listed
    · cases listed
    · obtain ⟨other, isTheirs, split⟩ := List.mem_map.mp listed
      cases split
      cases same
      exact right other isTheirs
  · exact (anyOfGroups_folds made).bind fun cells isConstant =>
      Build.folds_pure (ofCells_constant isConstant)

theorem product_folds (left : a.Constant) (right : b.Constant) :
    Build.Folds (a.product b) Constant := by
  unfold product
  refine (checked_folds _).bind fun dims _ => ?_
  refine (cells_folds fun pair member => ?_).bind fun cells made =>
    Build.folds_pure (ofCells_constant made)
  obtain ⟨one, isMine, others⟩ := List.mem_flatMap.mp member
  obtain ⟨other, isTheirs, rfl⟩ := List.mem_map.mp others
  exact cell_folds (Circuit.and_folds (left one isMine) (right other isTheirs)) _

theorem transpose_folds (constant : m.Constant) : Build.Folds (liftM m.transpose) Constant := by
  refine Build.folds_lift fun t made => ?_
  obtain ⟨⟨⟩, -, rest⟩ := bind_eq_ok.mp made
  rw [← pure_eq_ok.mp rest]
  refine ofCells_constant fun cell member => ?_
  obtain ⟨stored, isStored, rfl⟩ := List.mem_map.mp member
  exact constant stored isStored

theorem square_folds (times : Nat) (constant : m.Constant) :
    Build.Folds (square times m) Constant := by
  induction times generalizing m with
  | zero => exact Build.folds_pure constant
  | succ times ih =>
    refine (join_folds constant constant).bind fun s joined => ?_
    exact (union_folds constant joined).bind fun larger made => ih made

theorem closure_folds (constant : m.Constant) : Build.Folds m.closure Constant := by
  refine (checked_folds _).bind fun _ _ => ?_
  exact square_folds _ constant

theorem identity_constant {size : Nat} {diagonal : Matrix} (ok : identity size = .ok diagonal) :
    diagonal.Constant := by
  obtain ⟨dims, -, made⟩ := bind_eq_ok.mp ok
  rw [← pure_eq_ok.mp made]
  exact ofIndices_constant dims _

theorem reflexiveClosure_folds (constant : m.Constant) :
    Build.Folds m.reflexiveClosure Constant := by
  refine (closure_folds constant).bind fun paths isPaths => ?_
  refine (Build.folds_lift fun _ => identity_constant).bind fun diagonal isDiagonal => ?_
  exact union_folds isPaths isDiagonal

theorem subset_folds (left : a.Constant) (right : b.Constant) :
    Build.Folds (a.subset b) Value.Constant := by
  refine (checked_folds _).bind fun _ _ => ?_
  refine (Build.folds_mapM fun cell stored => ?_).bind fun terms made => Circuit.all_folds made
  exact Circuit.implies_folds (left cell stored) (valueAt_constant right _)

theorem equals_folds (left : a.Constant) (right : b.Constant) :
    Build.Folds (a.equals b) Value.Constant := by
  refine (subset_folds left right).bind fun forward one => ?_
  exact (subset_folds right left).bind fun backward other => Circuit.and_folds one other

theorem some_folds (constant : m.Constant) : Build.Folds (liftM m.some) Value.Constant :=
  Circuit.any_folds constant.values

theorem no_folds (constant : m.Constant) : Build.Folds (liftM m.no) Value.Constant := by
  unfold no
  rw [Synth.lift_bind]
  exact (some_folds constant).bind fun v isConstant => Build.folds_pure isConstant.not

theorem exclude_folds {apart : Array Value} {before v : Value}
    (parts : ∀ w ∈ apart.toList, w.Constant) (isBefore : before.Constant) (constant : v.Constant) :
    Build.Folds (liftM (exclude apart before v)) fun state =>
      (∀ w ∈ state.1.toList, w.Constant) ∧ state.2.Constant := by
  unfold exclude
  rw [Synth.lift_bind]
  refine (Circuit.and_folds constant isBefore).bind fun both isBoth => ?_
  rw [Synth.lift_bind]
  refine (Circuit.or_folds isBefore constant).bind fun any isAny => Build.folds_pure ⟨?_, isAny⟩
  rw [Array.toList_push]
  exact List.forall_mem_append.mpr ⟨parts, by simpa using isBoth.not⟩

theorem atMostOne_folds (constant : m.Constant) : Build.Folds (liftM m.atMostOne)
    fun found => found.1.Constant ∧ found.2.Constant := by
  unfold atMostOne
  rw [Synth.lift_bind, Synth.lift_foldlM]
  refine (Build.folds_foldlM (fun state : Array Value × Value =>
    (∀ v ∈ state.1.toList, v.Constant) ∧ state.2.Constant) ?_ ?_).bind ?_
  · exact ⟨by simp, _, rfl⟩
  · rintro ⟨apart, before⟩ ⟨parts, isBefore⟩ v member
    exact exclude_folds parts isBefore (constant.values v member)
  · rintro ⟨apart, some⟩ ⟨parts, isSome⟩
    rw [Synth.lift_bind]
    exact (Circuit.all_folds parts).bind fun lone isLone => Build.folds_pure ⟨isLone, isSome⟩

theorem lone_folds (constant : m.Constant) : Build.Folds (liftM m.lone) Value.Constant := by
  unfold lone
  rw [Synth.lift_bind]
  exact (atMostOne_folds constant).bind fun found holds => Build.folds_pure holds.1

theorem one_folds (constant : m.Constant) : Build.Folds (liftM m.one) Value.Constant := by
  unfold one
  rw [Synth.lift_bind]
  exact (atMostOne_folds constant).bind fun found holds => Circuit.and_folds holds.1 holds.2

end Matrix

end ModelFinder
