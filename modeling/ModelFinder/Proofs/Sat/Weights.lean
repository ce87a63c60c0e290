import Mathlib.Algebra.BigOperators.Group.List.Basic
import Mathlib.Algebra.Order.BigOperators.Group.List
import Mathlib.Algebra.Order.Ring.Nat
import ModelFinder.Proofs.Cnf.Clauses
import ModelFinder.Sat.Budget

/-! What weighted literals can weigh. The stages of a list of literals know the total from each literal
on, and where all weights that can come about are listed, tightening a budget to the largest of them
within it excludes no assignment. -/
namespace ModelFinder

section Weigh

variable {s t : Nat → Bool} {items other : List (Int × Nat)} {item : Int × Nat} {limit : Nat}

theorem weigh_eq_sum (s : Nat → Bool) (items : List (Int × Nat)) :
    weigh s items = ((items.filter fun item => litHolds s item.1).map (·.2)).sum := rfl

theorem weigh_cons : weigh s (item :: items) =
    (if litHolds s item.1 then item.2 else 0) + weigh s items := by
  simp only [weigh_eq_sum, List.filter_cons]
  split <;> simp

theorem weigh_append : weigh s (items ++ other) = weigh s items + weigh s other := by
  simp [weigh_eq_sum]

theorem weigh_perm (same : items.Perm other) : weigh s items = weigh s other :=
  ((same.filter _).map _).sum_eq

theorem weigh_congr (same : ∀ item ∈ items, litHolds s item.1 = litHolds t item.1) :
    weigh s items = weigh t items := by
  rw [weigh, weigh, List.filter_congr same]

theorem weigh_le_total : weigh s items ≤ (items.map (·.2)).sum :=
  ((List.filter_sublist.map _).sum_le_sum fun _ _ => Nat.zero_le _)

theorem le_weigh (member : item ∈ items) (holds : litHolds s item.1 = true) :
    item.2 ≤ weigh s items :=
  List.single_le_sum (fun _ _ => Nat.zero_le _) _
    (List.mem_map_of_mem (List.mem_filter.mpr ⟨member, holds⟩))

theorem weigh_eq_zero (none : ∀ item ∈ items, litHolds s item.1 = false) : weigh s items = 0 := by
  rw [weigh, List.filter_eq_nil_iff.mpr (by simpa using none)]
  rfl

theorem weigh_filter (keep : Int × Nat → Bool) :
    weigh s (items.filter keep) + weigh s (items.filter (!keep ·)) = weigh s items := by
  rw [← weigh_append]
  exact weigh_perm (List.filter_append_perm keep items)

theorem Weighted.weigh_congr (weighted : Weighted limit items)
    (same : ∀ v, 1 ≤ v → v ≤ limit → t v = s v) : weigh t items = weigh s items := by
  apply ModelFinder.weigh_congr
  intro item member
  obtain ⟨nonzero, small⟩ := weighted.known item member
  exact litHolds_congr (same _ (by omega) small)

end Weigh

namespace Stage

/-- The search for the largest of ascending numbers within a budget finds it, if the first is within
the budget and those from `high` on are not. -/
theorem lastWithin_spec {sums : Array Nat} (ascending : sums.toList.Pairwise (· < ·)) {budget : Nat}
    {steps low high : Nat} (enough : high - low ≤ steps) (some : low < high) (bound : high ≤ sums.size)
    (within : sums.getD low 0 ≤ budget)
    (beyond : ∀ i, high ≤ i → i < sums.size → budget < sums.getD i 0) :
    lastWithin sums budget steps low high ≤ budget ∧
      ∀ sum ∈ sums.toList, sum ≤ budget → sum ≤ lastWithin sums budget steps low high := by
  have order : ∀ i j, i < j → j < sums.size → sums.getD i 0 < sums.getD j 0 := by
    intro i j less small
    have ordered := List.pairwise_iff_getElem.mp ascending i j (by simp; omega) (by simpa) less
    simpa [Array.getElem?_eq_getElem, small, show i < sums.size by omega] using ordered
  induction steps generalizing low high with
  | zero => omega
  | succ steps ih =>
    rw [lastWithin]
    split
    · rename_i single
      refine ⟨within, fun sum member small => ?_⟩
      obtain ⟨i, isIndex, rfl⟩ := List.mem_iff_getElem.mp member
      have inside : i < sums.size := by simpa using isIndex
      have read : sums.toList[i] = sums.getD i 0 := by simp [inside]
      rw [read] at small ⊢
      rcases Nat.lt_trichotomy i low with before | rfl | after
      · exact Nat.le_of_lt (order i low before (by omega))
      · exact Nat.le_refl _
      · have above := beyond i (by omega) inside
        omega
    · rename_i several
      extract_lets middle
      split
      · rename_i affordable
        exact ih (by omega) (by omega) bound affordable beyond
      · rename_i excessive
        refine ih (by omega) (by omega) (by omega) within fun i above small => ?_
        rcases Nat.eq_or_lt_of_le above with rfl | after
        · exact Nat.lt_of_not_le excessive
        · exact Nat.lt_trans (Nat.lt_of_not_le excessive) (order _ i after small)

def items (stages : List Stage) : List (Int × Nat) := stages.map fun stage => (stage.item, stage.weight)

def left (stages : List Stage) (s : Nat → Bool) (number : Nat) : Nat :=
  weigh s (items (stages.drop number))

structure Lists (sums : Array Nat) (items : List (Int × Nat)) : Prop where
  ascending : sums.toList.Pairwise (· < ·)
  zero : 0 ∈ sums.toList
  weights : ∀ s, weigh s items ∈ sums.toList

/-- Each stage knows the total of the literals from it on and, if it lists weights, lists them all. -/
inductive Lined : List Stage → Prop
  | nil : Lined []
  | cons {stage : Stage} {rest : List Stage}
      (total : stage.total = ((items (stage :: rest)).map (·.2)).sum)
      (sums : ∀ sums, stage.sums = some sums → Lists sums (items (stage :: rest)))
      (others : Lined rest) : Lined (stage :: rest)

theorem extendSums_eq_some {sums more : Array Nat} {weight : Nat}
    (ok : extendSums weight sums = some more) :
    more.toList = (sums.toList.merge (sums.toList.map (· + weight)) Nat.ble).eraseReps := by
  simp only [extendSums] at ok
  split at ok
  · rw [← Option.some.inj ok]
  · cases ok

theorem extendSums_lists {sums more : Array Nat} {items : List (Int × Nat)} {item : Int × Nat}
    (lists : Lists sums items) (ok : extendSums item.2 sums = some more) :
    Lists more (item :: items) := by
  have members : ∀ sum, sum ∈ more.toList ↔
      sum ∈ sums.toList ∨ ∃ less ∈ sums.toList, less + item.2 = sum := by
    intro sum
    rw [extendSums_eq_some ok, Ascending.mem_eraseReps, List.mem_merge, List.mem_map]
  have ascending : more.toList.Pairwise (· < ·) := by
    rw [extendSums_eq_some ok]
    have sorted : sums.toList.Pairwise (Nat.ble · · = true) :=
      lists.ascending.imp fun less => Nat.ble_eq.mpr (Nat.le_of_lt less)
    have shifted : (sums.toList.map (· + item.2)).Pairwise (Nat.ble · · = true) := by
      refine List.pairwise_map.mpr (sorted.imp fun less => ?_)
      exact Nat.ble_eq.mpr (Nat.add_le_add_right (Nat.ble_eq.mp less) _)
    have transitive : ∀ i j k, Nat.ble i j = true → Nat.ble j k = true → Nat.ble i k = true := by
      simp only [Nat.ble_eq]
      omega
    have total : ∀ i j, (Nat.ble i j || Nat.ble j i) = true := by
      simp only [Bool.or_eq_true, Nat.ble_eq]
      omega
    have merged := List.pairwise_merge transitive total _ _ sorted shifted
    exact Ascending.eraseReps_pairwise (merged.imp Nat.ble_eq.mp)
  refine ⟨ascending, (members 0).mpr (.inl lists.zero), fun s => (members _).mpr ?_⟩
  rw [weigh_cons]
  split
  · exact .inr ⟨_, lists.weights s, Nat.add_comm ..⟩
  · rw [Nat.zero_add]
    exact .inl (lists.weights s)

/-- The stages of literals are those of the literals in order, each with what it has to know. -/
theorem ofItems_lined (literals : List (Int × Nat)) :
    items (ofItems literals) = literals ∧ Lined (ofItems literals) := by
  -- The total and the sums that the stages are built with are those of all literals so far.
  suffices whole : (literals.foldr precede (0, some #[0], [])).1 = (literals.map (·.2)).sum ∧
      (∀ sums, (literals.foldr precede (0, some #[0], [])).2.1 = some sums → Lists sums literals) ∧
      items (ofItems literals) = literals ∧ Lined (ofItems literals) from whole.2.2
  induction literals with
  | nil =>
    refine ⟨rfl, fun sums isSums => ?_, rfl, .nil⟩
    obtain rfl := Option.some.inj isSums
    exact ⟨List.pairwise_singleton .., List.mem_singleton_self 0, fun s => List.mem_singleton_self 0⟩
  | cons item rest ih =>
    obtain ⟨total, sums, same, lined⟩ := ih
    have total' : item.2 + (rest.foldr precede (0, some #[0], [])).1 =
        ((item :: rest).map (·.2)).sum := by
      rw [total, List.map_cons, List.sum_cons]
    have sums' : ∀ more, ((rest.foldr precede (0, some #[0], [])).2.1.bind (extendSums item.2)) =
        some more → Lists more (item :: rest) := by
      intro more isMore
      obtain ⟨fewer, isFewer, extended⟩ := Option.bind_eq_some_iff.mp isMore
      exact extendSums_lists (sums fewer isFewer) extended
    have same' : items (ofItems (item :: rest)) = item :: rest := congrArg (item :: ·) same
    refine ⟨total', sums', same', .cons ?_ ?_ lined⟩
    · exact total'.trans (congrArg (fun l => (List.map (·.2) l).sum) same'.symm)
    · intro more isMore
      exact same' ▸ sums' more isMore

section Lined

variable {stages : List Stage} {stage : Stage} {number budget : Nat} {s t : Nat → Bool}

theorem drop_eq_cons (found : stages[number]? = some stage) :
    stages.drop number = stage :: stages.drop (number + 1) := by
  obtain ⟨small, rfl⟩ := List.getElem?_eq_some_iff.mp found
  exact List.drop_eq_getElem_cons small

theorem Lined.drop (lined : Lined stages) (number : Nat) : Lined (stages.drop number) := by
  induction lined generalizing number with
  | nil =>
    rw [List.drop_nil]
    exact .nil
  | cons total sums others ih =>
    cases number with
    | zero => exact .cons total sums others
    | succ number => exact ih number

theorem left_of_none (absent : stages[number]? = none) : left stages s number = 0 := by
  rw [left, List.drop_eq_nil_of_le (List.getElem?_eq_none_iff.mp absent)]
  rfl

theorem left_eq (found : stages[number]? = some stage) : left stages s number =
    (if litHolds s stage.item then stage.weight else 0) + left stages s (number + 1) := by
  rw [left, drop_eq_cons found]
  exact weigh_cons

theorem Lined.total (lined : Lined stages) (found : stages[number]? = some stage) :
    stage.total = stage.weight + ((items (stages.drop (number + 1))).map (·.2)).sum := by
  have lined := lined.drop number
  rw [drop_eq_cons found] at lined
  cases lined with
  | cons total sums others => exact total

theorem Lined.left_le (lined : Lined stages) (found : stages[number]? = some stage) :
    left stages s number ≤ stage.total := by
  have rest := @weigh_le_total s (items (stages.drop (number + 1)))
  rw [lined.total found, left_eq found, left]
  split <;> omega

/-- Where a literal has all the weight that is left, nothing is left after it. -/
theorem Lined.left_after (lined : Lined stages) (found : stages[number]? = some stage)
    (alone : stage.total = stage.weight) : left stages s (number + 1) = 0 := by
  have rest := @weigh_le_total s (items (stages.drop (number + 1)))
  have total := lined.total found
  rw [left]
  omega

/-- A budget and what it is tightened to allow the same. -/
theorem Lined.tighten_iff (lined : Lined stages) (found : stages[number]? = some stage) :
    left stages s number ≤ stage.tighten budget ↔ left stages s number ≤ budget := by
  have lined := lined.drop number
  rw [drop_eq_cons found] at lined
  unfold tighten
  cases isSums : stage.sums with
  | none => rfl
  | some sums =>
    cases lined with
    | cons total lists others =>
      obtain ⟨ascending, zero, weights⟩ := lists sums isSums
      have some : 0 < sums.size := by
        simpa using List.length_pos_of_mem zero
      have first : sums.getD 0 0 = 0 := by
        obtain ⟨i, isIndex, isZero⟩ := List.mem_iff_getElem.mp zero
        rcases Nat.eq_zero_or_pos i with rfl | positive
        · simpa [some] using isZero
        · have less := List.pairwise_iff_getElem.mp ascending 0 i (by simpa) isIndex positive
          omega
      obtain ⟨within, largest⟩ := lastWithin_spec ascending (Nat.le_of_eq (Nat.sub_zero _)) some
        (Nat.le_refl _) (first ▸ Nat.zero_le budget) (fun i above small => absurd small (by omega))
      have weight := weights s
      rw [← drop_eq_cons found] at weight
      exact ⟨fun small => Nat.le_trans small within, largest _ weight⟩

end Lined

end Stage

end ModelFinder
