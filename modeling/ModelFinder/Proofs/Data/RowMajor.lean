import ModelFinder.Data.Capacity
import Mathlib.Algebra.Order.Ring.Nat
import Mathlib.Data.List.Induction
import Mathlib.Tactic.Ring

/-! Row-major indices are a codec: below the number of tuples of an arity, indices and tuples of
positions correspond one to one and in order, and the index of a concatenation is found from the
indices of its parts. -/
namespace ModelFinder

theorem rows_lt {base k l i j : Nat} (first : i < base ^ k) (second : j < base ^ l) :
    i * base ^ l + j < base ^ (k + l) :=
  calc i * base ^ l + j < i * base ^ l + base ^ l := by omega
    _ = (i + 1) * base ^ l := by ring
    _ ≤ base ^ k * base ^ l := Nat.mul_le_mul_right _ first
    _ = base ^ (k + l) := (pow_add base k l).symm

/-- The number of rows and the index within a row are got back from an index. -/
theorem rows_split {width j : Nat} (i : Nat) (bound : j < width) :
    (i * width + j) / width = i ∧ (i * width + j) % width = j := by
  rw [Nat.mul_comm]
  constructor
  · rw [Nat.mul_add_div (Nat.zero_lt_of_lt bound), Nat.div_eq_of_lt bound, Nat.add_zero]
  · rw [Nat.mul_add_mod, Nat.mod_eq_of_lt bound]

theorem encodeIndex_snoc (base : Nat) (front : List Nat) (last : Nat) :
    encodeIndex base (front ++ [last]) = encodeIndex base front * base + last := by
  simp [encodeIndex]

theorem encodeIndex_singleton (base position : Nat) : encodeIndex base [position] = position := by
  simp [encodeIndex]

theorem encodeIndex_append (base : Nat) (front back : List Nat) :
    encodeIndex base (front ++ back) =
      encodeIndex base front * base ^ back.length + encodeIndex base back := by
  induction back using List.reverseRecOn with
  | nil => simp [encodeIndex]
  | append_singleton back last ih =>
    rw [← List.append_assoc, encodeIndex_snoc, ih, encodeIndex_snoc, List.length_append,
      List.length_singleton, pow_succ]
    ring

theorem encodeIndex_cons (base first : Nat) (back : List Nat) :
    encodeIndex base (first :: back) = first * base ^ back.length + encodeIndex base back := by
  simpa [encodeIndex] using encodeIndex_append base [first] back

theorem encodeIndex_lt (base : Nat) (positions : List Nat)
    (inside : ∀ a ∈ positions, a < base) :
    encodeIndex base positions < base ^ positions.length := by
  induction positions using List.reverseRecOn with
  | nil => simp [encodeIndex]
  | append_singleton front last ih =>
    have frontBound := ih fun a member => inside a (by simp [member])
    have lastBound : last < base ^ 1 := by simpa using inside last
    have whole := rows_lt frontBound lastBound
    rw [pow_one, ← encodeIndex_snoc] at whole
    rwa [List.length_append, List.length_singleton]

theorem encodeIndex_append_split (base : Nat) (front back : List Nat)
    (inside : ∀ a ∈ back, a < base) :
    encodeIndex base (front ++ back) / base ^ back.length = encodeIndex base front ∧
      encodeIndex base (front ++ back) % base ^ back.length = encodeIndex base back := by
  rw [encodeIndex_append]
  exact rows_split _ (encodeIndex_lt base back inside)

theorem length_decodeIndex (base arity index : Nat) :
    (decodeIndex base arity index).length = arity := by
  induction arity generalizing index with
  | zero => rfl
  | succ arity ih => simp [decodeIndex, ih]

theorem decodeIndex_lt {base : Nat} (positive : 0 < base) (arity index : Nat) :
    ∀ a ∈ decodeIndex base arity index, a < base := by
  induction arity generalizing index with
  | zero => simp [decodeIndex]
  | succ arity ih =>
    intro a member
    rcases List.mem_append.mp member with inFront | isLast
    · exact ih (index / base) a inFront
    · rw [List.mem_singleton.mp isLast]
      exact Nat.mod_lt index positive

theorem decodeIndex_encodeIndex (base : Nat) (positions : List Nat)
    (inside : ∀ a ∈ positions, a < base) :
    decodeIndex base positions.length (encodeIndex base positions) = positions := by
  induction positions using List.reverseRecOn with
  | nil => rfl
  | append_singleton front last ih =>
    have lastBound : last < base := inside last (by simp)
    obtain ⟨quotient, remainder⟩ := rows_split (encodeIndex base front) lastBound
    rw [List.length_append, List.length_singleton, encodeIndex_snoc, decodeIndex, quotient,
      remainder, ih fun a member => inside a (by simp [member])]

theorem encodeIndex_decodeIndex (base arity index : Nat) (bound : index < base ^ arity) :
    encodeIndex base (decodeIndex base arity index) = index := by
  induction arity generalizing index with
  | zero =>
    have zero : index = 0 := by simpa using bound
    simp [decodeIndex, encodeIndex, zero]
  | succ arity ih =>
    have smaller : index / base < base ^ arity :=
      Nat.div_lt_of_lt_mul (by rwa [Nat.mul_comm, ← pow_succ])
    rw [decodeIndex, encodeIndex_snoc, ih (index / base) smaller, Nat.mul_comm]
    exact Nat.div_add_mod index base

theorem decodeIndex_append {base l j : Nat} (k i : Nat) (bound : j < base ^ l) :
    decodeIndex base (k + l) (i * base ^ l + j) = decodeIndex base k i ++ decodeIndex base l j := by
  induction l generalizing j with
  | zero =>
    obtain rfl : j = 0 := by simpa using bound
    simp [decodeIndex]
  | succ l ih =>
    have positive : 0 < base := by
      by_contra zero
      simp [Nat.eq_zero_of_not_pos zero] at bound
    have smaller : j / base < base ^ l :=
      Nat.div_lt_of_lt_mul (by rwa [Nat.mul_comm, ← pow_succ])
    have whole : i * base ^ (l + 1) + j = base * (i * base ^ l) + j := by ring
    rw [← Nat.add_assoc, decodeIndex, decodeIndex, whole, Nat.mul_add_div positive, Nat.mul_add_mod,
      ih smaller, List.append_assoc]

theorem decodeIndex_cons {base l index : Nat} (bound : index < base ^ (l + 1)) :
    decodeIndex base (l + 1) index = index / base ^ l :: decodeIndex base l (index % base ^ l) := by
  have positive : 0 < base ^ l := by
    by_contra zero
    simp [pow_succ, Nat.eq_zero_of_not_pos zero] at bound
  have row : index / base ^ l < base := Nat.div_lt_of_lt_mul (by rwa [← pow_succ])
  have split := decodeIndex_append 1 (index / base ^ l) (Nat.mod_lt index positive)
  rw [Nat.div_add_mod', Nat.add_comm] at split
  simpa [decodeIndex, Nat.mod_eq_of_lt row] using split

theorem encodeIndex_injective (base : Nat) (left right : List Nat)
    (lengths : left.length = right.length) (leftInside : ∀ a ∈ left, a < base)
    (rightInside : ∀ a ∈ right, a < base)
    (same : encodeIndex base left = encodeIndex base right) : left = right := by
  rw [← decodeIndex_encodeIndex base left leftInside, same, lengths,
    decodeIndex_encodeIndex base right rightInside]

/-- Among tuples of one arity the smaller index is that of the tuple with the smaller position where
they first differ. -/
theorem encodeIndex_lt_iff {base : Nat} {left right : List Nat} (lengths : left.length = right.length)
    (leftInside : ∀ a ∈ left, a < base) (rightInside : ∀ a ∈ right, a < base) :
    encodeIndex base left < encodeIndex base right ↔ left < right := by
  induction left generalizing right with
  | nil =>
    obtain rfl : right = [] := List.eq_nil_of_length_eq_zero lengths.symm
    simp
  | cons a left ih =>
    obtain ⟨b, right, rfl⟩ := List.exists_cons_of_length_eq_add_one lengths.symm
    have same : left.length = right.length := Nat.succ.inj lengths
    have leftRest : ∀ c ∈ left, c < base := fun c member => leftInside c (by simp [member])
    have rightRest : ∀ c ∈ right, c < base := fun c member => rightInside c (by simp [member])
    have leftBound := encodeIndex_lt base left leftRest
    have rightBound := encodeIndex_lt base right rightRest
    rw [encodeIndex_cons, encodeIndex_cons, same, List.cons_lt_cons_iff,
      ← ih same leftRest rightRest]
    rw [same] at leftBound
    generalize base ^ right.length = weight at *
    -- The rest of a tuple never outweighs a step of its first position.
    rcases Nat.lt_trichotomy a b with smaller | rfl | larger
    · have step : (a + 1) * weight ≤ b * weight := Nat.mul_le_mul_right weight smaller
      rw [Nat.succ_mul] at step
      omega
    · omega
    · have step : (b + 1) * weight ≤ a * weight := Nat.mul_le_mul_right weight larger
      rw [Nat.succ_mul] at step
      omega

theorem capacity?_eq_some {size arity capacity : Nat}
    (found : capacity? size arity = some capacity) : capacity = size ^ arity := by
  unfold capacity? at found
  split at found
  · contradiction
  split at found
  · exact (Option.some.inj found).symm
  split at found
  · contradiction
  split at found
  · exact (Option.some.inj found).symm
  · contradiction

end ModelFinder
