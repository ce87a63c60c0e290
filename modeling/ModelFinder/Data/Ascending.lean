import Std.Data.HashSet

/-! Strictly ascending lists: insertion that keeps order and drops repetitions, and finite sets of
numbers in canonical form. Two ascending lists with the same members are equal, so equality of the
stored form is equality of sets. -/
namespace ModelFinder

namespace Ascending

variable {α : Type} [LT α] [DecidableLT α]

def insert (x : α) : List α → List α
  | [] => [x]
  | y :: rest =>
      if x < y then x :: y :: rest
      else if y < x then y :: insert x rest
      else y :: rest

def sort [BEq α] (members : List α) : List α :=
  (members.mergeSort fun x y => !decide (y < x)).eraseReps

section Linear

variable {α : Type} [LE α] [LT α] [BEq α] [LawfulBEq α] [Std.IsLinearOrder α] [Std.LawfulOrderLT α]

theorem mem_loop {α : Type} [BEq α] [LawfulBEq α] (x y : α) (rest kept : List α) :
    x ∈ List.eraseRepsBy.loop (· == ·) y rest kept ↔ x ∈ kept ∨ x = y ∨ x ∈ rest := by
  induction rest generalizing y kept with
  | nil => simp [List.eraseRepsBy.loop, or_comm]
  | cons z rest ih =>
    rw [List.eraseRepsBy.loop]
    by_cases same : y = z
    · simp [same, ih]
    · have apart : (y == z) = false := beq_false_of_ne same
      simp only [apart, ih, List.mem_cons]
      constructor
      · rintro ((h | h) | h | h) <;> simp [h]
      · rintro (h | h | h | h) <;> simp [h]

theorem loop_pairwise (y : α) (rest kept : List α) (sorted : (y :: rest).Pairwise (· ≤ ·))
    (before : kept.Pairwise (· > ·)) (below : ∀ x ∈ kept, x < y) :
    (List.eraseRepsBy.loop (· == ·) y rest kept).Pairwise (· < ·) := by
  induction rest generalizing y kept with
  | nil =>
    rw [List.eraseRepsBy.loop, List.pairwise_reverse]
    exact List.pairwise_cons.mpr ⟨below, before⟩
  | cons z rest ih =>
    obtain ⟨above, restSorted⟩ := List.pairwise_cons.mp sorted
    rw [List.eraseRepsBy.loop]
    by_cases same : y = z
    · subst same
      simp only [beq_self_eq_true]
      exact ih y kept restSorted before below
    · have apart : (y == z) = false := beq_false_of_ne same
      have smaller : y < z := Std.lt_of_le_of_ne (above z List.mem_cons_self) same
      simp only [apart]
      refine ih z (y :: kept) restSorted (List.pairwise_cons.mpr ⟨below, before⟩) ?_
      intro x member
      rcases List.mem_cons.mp member with rfl | inKept
      · exact smaller
      · exact Std.lt_trans (below x inKept) smaller

theorem mem_eraseReps {α : Type} [BEq α] [LawfulBEq α] (x : α) (members : List α) :
    x ∈ members.eraseReps ↔ x ∈ members := by
  cases members with
  | nil => simp [List.eraseReps, List.eraseRepsBy]
  | cons y rest => simp [List.eraseReps, List.eraseRepsBy, mem_loop]

theorem eraseReps_pairwise {members : List α} (sorted : members.Pairwise (· ≤ ·)) :
    members.eraseReps.Pairwise (· < ·) := by
  cases members with
  | nil => simp [List.eraseReps, List.eraseRepsBy]
  | cons y rest => exact loop_pairwise y rest [] sorted .nil (by simp)

@[simp] theorem mem_sort {α : Type} [LT α] [DecidableLT α] [BEq α] [LawfulBEq α] (members : List α)
    (x : α) : x ∈ sort members ↔ x ∈ members := by
  simp [sort, mem_eraseReps, List.mem_mergeSort]

theorem sort_pairwise [DecidableLT α] (members : List α) : (sort members).Pairwise (· < ·) := by
  refine eraseReps_pairwise ?_
  have sorted := @List.pairwise_mergeSort α (fun x y => !decide (y < x))
    (by
      intro x y z
      simp only [Bool.not_eq_true', decide_eq_false_iff_not, Std.not_lt]
      exact Std.le_trans)
    (by
      intro x y
      simp only [Bool.or_eq_true, Bool.not_eq_true', decide_eq_false_iff_not, Std.not_lt]
      exact Std.le_total)
    members
  refine sorted.imp ?_
  intro x y
  simp [Std.not_lt]

@[simp] theorem sort_nil {α : Type} [LT α] [DecidableLT α] [BEq α] : sort ([] : List α) = [] := by
  simp [sort, List.eraseReps, List.eraseRepsBy]

@[simp] theorem sort_singleton {α : Type} [LT α] [DecidableLT α] [BEq α] (x : α) :
    sort [x] = [x] := by
  simp [sort, List.eraseReps, List.eraseRepsBy, List.eraseRepsBy.loop]

theorem sort_pair [DecidableLT α] {x y : α} (less : x < y) :
    sort [x, y] = [x, y] ∧ sort [y, x] = [x, y] := by
  have apart : (x == y) = false := beq_false_of_ne (Std.ne_of_lt less)
  have order : ¬ y < x := Std.not_lt.mpr (Std.le_of_lt less)
  simp [sort, List.mergeSort, List.MergeSort.Internal.splitInTwo, List.eraseReps,
    List.eraseRepsBy, List.eraseRepsBy.loop, less, order, apart]

end Linear

end Ascending

structure IndexSet where
  toList : List Nat
  ascending : toList.Pairwise (· < ·)

namespace IndexSet

instance : DecidableEq IndexSet := fun left right =>
  decidable_of_iff ((left.toList == right.toList) = true) <| by
    cases left
    cases right
    simp

theorem mem_insert_iff (x y : Nat) (members : List Nat) :
    y ∈ Ascending.insert x members ↔ y = x ∨ y ∈ members := by
  induction members with
  | nil => simp [Ascending.insert]
  | cons z rest ih =>
    simp only [Ascending.insert]
    split
    · simp
    · split
      · simp only [List.mem_cons, ih]
        constructor <;> (rintro (h | h | h) <;> simp [h])
      · have same : x = z := by omega
        simp [same]

theorem insert_pairwise (x : Nat) {members : List Nat} (ascending : members.Pairwise (· < ·)) :
    (Ascending.insert x members).Pairwise (· < ·) := by
  induction members with
  | nil => simp [Ascending.insert]
  | cons z rest ih =>
    obtain ⟨above, restAscending⟩ := List.pairwise_cons.mp ascending
    simp only [Ascending.insert]
    split
    · rename_i below
      refine List.pairwise_cons.mpr ⟨?_, ascending⟩
      intro y member
      rcases List.mem_cons.mp member with rfl | inRest
      · exact below
      · exact Nat.lt_trans below (above y inRest)
    · split
      · rename_i larger
        refine List.pairwise_cons.mpr ⟨?_, ih restAscending⟩
        intro y member
        rcases (mem_insert_iff x y rest).mp member with rfl | inRest
        · exact larger
        · exact above y inRest
      · exact ascending

theorem merge_pairwise {left right : List Nat} (leftAscending : left.Pairwise (· < ·))
    (rightAscending : right.Pairwise (· < ·)) :
    (left.merge right Nat.ble).eraseReps.Pairwise (· < ·) := by
  refine Ascending.eraseReps_pairwise ?_
  have sorted := @List.pairwise_merge Nat Nat.ble
    (by intro x y z; simp; omega) (by intro x y; simp; omega) left right
    (leftAscending.imp fun less => by simpa using Nat.le_of_lt less)
    (rightAscending.imp fun less => by simpa using Nat.le_of_lt less)
  exact sorted.imp fun less => by simpa using less

def empty : IndexSet := ⟨[], .nil⟩

instance : Inhabited IndexSet := ⟨empty⟩

instance : Membership Nat IndexSet := ⟨fun set x => x ∈ set.toList⟩

instance (x : Nat) (set : IndexSet) : Decidable (x ∈ set) :=
  inferInstanceAs (Decidable (x ∈ set.toList))

def contains (set : IndexSet) (x : Nat) : Bool := set.toList.contains x

def size (set : IndexSet) : Nat := set.toList.length

def isEmpty (set : IndexSet) : Bool := set.toList.isEmpty

def insert (set : IndexSet) (x : Nat) : IndexSet :=
  ⟨Ascending.insert x set.toList, insert_pairwise x set.ascending⟩

def erase (set : IndexSet) (x : Nat) : IndexSet :=
  ⟨set.toList.filter (· != x), set.ascending.filter _⟩

def union (left right : IndexSet) : IndexSet :=
  ⟨(left.toList.merge right.toList Nat.ble).eraseReps,
    merge_pairwise left.ascending right.ascending⟩

def diff (left right : IndexSet) : IndexSet :=
  let dropped := Std.HashSet.ofList right.toList
  ⟨left.toList.filter (!dropped.contains ·), left.ascending.filter _⟩

def subset (left right : IndexSet) : Bool :=
  let allowed := Std.HashSet.ofList right.toList
  left.toList.all (allowed.contains ·)

def ofList (members : List Nat) : IndexSet := ⟨Ascending.sort members, Ascending.sort_pairwise members⟩

def below (bound : Nat) : IndexSet := ⟨List.range bound, List.pairwise_lt_range⟩

theorem mem_def (set : IndexSet) (x : Nat) : x ∈ set ↔ x ∈ set.toList := Iff.rfl

@[simp] theorem contains_iff (set : IndexSet) (x : Nat) : set.contains x = true ↔ x ∈ set := by
  simp [contains, mem_def]

@[simp] theorem not_mem_empty (x : Nat) : x ∉ empty := by
  simp [mem_def, empty]

@[simp] theorem mem_insert (set : IndexSet) (x y : Nat) :
    y ∈ set.insert x ↔ y = x ∨ y ∈ set :=
  mem_insert_iff x y set.toList

@[simp] theorem mem_erase (set : IndexSet) (x y : Nat) : y ∈ set.erase x ↔ y ∈ set ∧ y ≠ x := by
  simp [mem_def, erase]

@[simp] theorem mem_diff (left right : IndexSet) (x : Nat) :
    x ∈ left.diff right ↔ x ∈ left ∧ x ∉ right := by
  simp [mem_def, diff]

@[simp] theorem mem_below (bound x : Nat) : x ∈ below bound ↔ x < bound := by
  simp [mem_def, below]

@[simp] theorem mem_union (left right : IndexSet) (x : Nat) :
    x ∈ left.union right ↔ x ∈ left ∨ x ∈ right := by
  simp [mem_def, union, Ascending.mem_eraseReps, List.mem_merge]

@[simp] theorem mem_ofList (members : List Nat) (x : Nat) : x ∈ ofList members ↔ x ∈ members := by
  simp [mem_def, ofList]

theorem subset_iff (left right : IndexSet) :
    left.subset right = true ↔ ∀ x ∈ left, x ∈ right := by
  simp [subset, mem_def]

theorem eq_of_mem_iff {left right : List Nat} (leftAscending : left.Pairwise (· < ·))
    (rightAscending : right.Pairwise (· < ·)) (same : ∀ x, x ∈ left ↔ x ∈ right) :
    left = right := by
  induction left generalizing right with
  | nil =>
    cases right with
    | nil => rfl
    | cons y rest => exact absurd ((same y).mpr List.mem_cons_self) List.not_mem_nil
  | cons x rest ih =>
    cases right with
    | nil => exact absurd ((same x).mp List.mem_cons_self) List.not_mem_nil
    | cons y others =>
      obtain ⟨aboveX, restAscending⟩ := List.pairwise_cons.mp leftAscending
      obtain ⟨aboveY, othersAscending⟩ := List.pairwise_cons.mp rightAscending
      have heads : x = y := by
        rcases List.mem_cons.mp ((same x).mp List.mem_cons_self) with found | found
        · exact found
        · rcases List.mem_cons.mp ((same y).mpr List.mem_cons_self) with known | known
          · exact known.symm
          · have first := aboveY x found
            have second := aboveX y known
            omega
      subst heads
      have tails : ∀ z, z ∈ rest ↔ z ∈ others := by
        intro z
        constructor
        · intro member
          have greater := aboveX z member
          rcases List.mem_cons.mp ((same z).mp (List.mem_cons_of_mem x member)) with equal | found
          · omega
          · exact found
        · intro member
          have greater := aboveY z member
          rcases List.mem_cons.mp ((same z).mpr (List.mem_cons_of_mem x member)) with equal | found
          · omega
          · exact found
      rw [ih restAscending othersAscending tails]

theorem ext_mem {left right : IndexSet} (same : ∀ x, x ∈ left ↔ x ∈ right) : left = right := by
  obtain ⟨leftList, leftAscending⟩ := left
  obtain ⟨rightList, rightAscending⟩ := right
  have lists : leftList = rightList := eq_of_mem_iff leftAscending rightAscending same
  subst lists
  rfl

end IndexSet

end ModelFinder
