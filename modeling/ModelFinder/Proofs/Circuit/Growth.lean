import ModelFinder.Circuit.Valuation
import Mathlib.Data.List.Forall2
import Mathlib.Order.Basic
import Mathlib.Tactic.Common

/-! Circuits only ever grow. A circuit is below those that have further gates; labels keep their
truth on the way up, and so do the values and symbolic relations made of them. -/
namespace ModelFinder

namespace Circuit

instance : Preorder Circuit where
  le c d := c.inputs = d.inputs ∧ c.gates.toList <+: d.gates.toList
  le_refl c := ⟨rfl, List.prefix_rfl⟩
  le_trans _ _ _ first second := ⟨first.1.trans second.1, first.2.trans second.2⟩

variable {c d : Circuit}

theorem empty_formed (inputs : Nat) (sharing : Bool) : (Circuit.empty inputs sharing).WellFormed where
  ordered i gate found := by simp [Circuit.empty] at found
  recorded _ i gate := by simp [Circuit.empty]

theorem input_eq_lit {label : Int} {v : Value} (labelled : c.Labelled)
    (ok : c.input label = .ok v) : v = .lit label ∧ 0 < label ∧ label ≤ c.inputs := by
  have small : signedWord c.inputs = c.inputs := by
    refine signedWord_of_natAbs_lt ?_
    simp only [Labelled, maxLabel, Value.trueLabel] at labelled
    omega
  unfold input at ok
  split at ok
  · rename_i bound
    rw [small] at bound
    exact ⟨(Except.ok.inj ok).symm, bound⟩
  · cases ok

theorem gate?_eq_some {label : Nat} {gate : Gate} :
    c.gate? label = some gate ↔ ∃ i, label = c.inputs + i + 1 ∧ c.gates[i]? = some gate := by
  unfold gate?
  split
  · rename_i isInput
    simp only [reduceCtorEq, false_iff, not_exists, not_and]
    intro i same
    omega
  · rename_i isGate
    constructor
    · exact fun found => ⟨label - c.inputs - 1, by omega, found⟩
    · rintro ⟨i, rfl, found⟩
      rwa [show c.inputs + i + 1 - c.inputs - 1 = i by omega]

theorem gate?_le {label : Nat} {gate : Gate}
    (found : c.gate? label = some gate) : 0 < label ∧ label ≤ c.maxLabel := by
  obtain ⟨i, rfl, isGate⟩ := gate?_eq_some.mp found
  have bound := (Array.getElem?_eq_some_iff.mp isGate).1
  rw [maxLabel]
  omega

theorem gate?_of_le (grown : c ≤ d) {label : Nat} (inUse : label ≤ c.maxLabel) :
    d.gate? label = c.gate? label := by
  obtain ⟨inputs, more, gates⟩ := grown
  unfold gate?
  rw [← inputs]
  split
  · rfl
  · have inside : label - c.inputs - 1 < c.gates.toList.length := by
      simp only [maxLabel] at inUse
      simp only [Array.length_toList]
      omega
    rw [← Array.getElem?_toList, ← Array.getElem?_toList, ← gates,
      List.getElem?_append_left inside]

theorem maxLabel_le (grown : c ≤ d) : c.maxLabel ≤ d.maxLabel := by
  have longer := grown.2.length_le
  simp only [Array.length_toList] at longer
  rw [maxLabel, maxLabel, grown.1]
  omega

theorem Labelled.of_le (grown : c ≤ d) (labelled : d.Labelled) : c.Labelled := by
  have smaller := maxLabel_le grown
  unfold Labelled at *
  omega

theorem truth_of_le (grown : c ≤ d) (s : Nat → Bool) {label : Nat} (inUse : label ≤ c.maxLabel) :
    d.truth s label = c.truth s label := by
  obtain ⟨inputs, more, gates⟩ := grown
  have beyond : label < c.inputs + 1 + c.gates.toList.length := by
    simp only [maxLabel] at inUse
    simp only [Array.length_toList]
    omega
  rw [truth, truth, ← gates, extend_append, ← inputs, extend_of_lt _ _ _ _ beyond]

end Circuit

theorem litHolds_congr {first second : Nat → Bool} {l : Int}
    (same : first l.natAbs = second l.natAbs) : litHolds first l = litHolds second l := by
  rw [litHolds, litHolds, same]

theorem litHolds_neg (truth : Nat → Bool) {l : Int} (nonzero : l ≠ 0) :
    litHolds truth (-l) = !litHolds truth l := by
  unfold litHolds
  by_cases positive : 0 < l
  · rw [if_neg (by omega), if_pos positive, Int.natAbs_neg]
  · rw [if_pos (by omega), if_neg positive, Int.natAbs_neg, Bool.not_not]

theorem litHolds_natCast {a : Nat → Bool} {v : Nat} (positive : 1 ≤ v) :
    litHolds a (v : Int) = a v := by
  rw [litHolds, if_pos (by omega), Int.natAbs_natCast]

theorem litHolds_neg_natCast {a : Nat → Bool} {v : Nat} (positive : 1 ≤ v) :
    litHolds a (-(v : Int)) = !a v := by
  rw [litHolds_neg a (by omega), litHolds_natCast positive]

theorem Gate.eval_congr {first second : Nat → Bool} {gate : Gate}
    (same : ∀ l ∈ gate.inputs, first l.natAbs = second l.natAbs) :
    gate.eval first = gate.eval second := by
  have literals : ∀ l ∈ gate.inputs, litHolds first l = litHolds second l :=
    fun l member => litHolds_congr (same l member)
  cases gate with
  | and inputs =>
    rw [eval, eval, Bool.eq_iff_iff, List.all_eq_true, List.all_eq_true]
    exact forall₂_congr fun l member => by rw [literals l member]
  | or inputs =>
    rw [eval, eval, Bool.eq_iff_iff, List.any_eq_true, List.any_eq_true]
    exact exists_congr fun l => and_congr_right fun member => by rw [literals l member]
  | ite cond yes no =>
    rw [eval, eval, literals cond (by simp [inputs]), literals yes (by simp [inputs]),
      literals no (by simp [inputs])]

theorem Circuit.truth_gate {c : Circuit} (formed : c.WellFormed) (s : Nat → Bool) {i : Nat}
    {gate : Gate} (found : c.gates[i]? = some gate) :
    c.truth s (c.inputs + i + 1) = gate.eval (c.truth s) := by
  rw [← Array.getElem?_toList] at found
  obtain ⟨bound, here⟩ := List.getElem?_eq_some_iff.mp found
  have split : c.gates.toList = c.gates.toList.take i ++ gate :: c.gates.toList.drop (i + 1) := by
    rw [← here, List.getElem_cons_drop, List.take_append_drop]
  have size : (c.gates.toList.take i).length = i := List.length_take_of_le (by omega)
  have full : c.truth s = extend s (c.inputs + 1) c.gates.toList := rfl
  rw [split, extend_append, size, extend] at full
  -- The gate was evaluated over the labels before it, which later gates leave alone.
  have before : ∀ l ∈ gate.inputs, extend s (c.inputs + 1) (c.gates.toList.take i) l.natAbs =
      c.truth s l.natAbs := by
    intro l member
    have smaller := (formed.ordered i gate (by rw [← Array.getElem?_toList, found])).1 l member
    have apart : l.natAbs ≠ c.inputs + 1 + i := by omega
    rw [full, extend_of_lt _ (c.inputs + 1 + i + 1) _ _ (by omega), if_neg apart]
  rw [← Gate.eval_congr before]
  nth_rewrite 1 [full]
  rw [extend_of_lt _ _ _ _ (by omega), if_pos (by omega)]

namespace Value

variable {c d : Circuit} {s : Nat → Bool} {v : Value} {p q : Prop}

theorem In.of_le (grown : c ≤ d) (inside : v.In c) : v.In d := by
  cases v with
  | const b => trivial
  | lit n => exact ⟨inside.1, Nat.le_trans inside.2 (Circuit.maxLabel_le grown)⟩

def Bounded (c : Circuit) (v : Value) : Prop := ∀ n, v = .lit n → n.natAbs ≤ c.maxLabel

theorem In.bounded (inside : v.In c) : v.Bounded c := by
  rintro n rfl
  exact inside.2

theorem Bounded.of_le (bounded : v.Bounded c) (grown : c ≤ d) : v.Bounded d :=
  fun n same => Nat.le_trans (bounded n same) (Circuit.maxLabel_le grown)

theorem eval_of_le (grown : c ≤ d) (inside : v.In c) : v.eval d s = v.eval c s := by
  cases v with
  | const b => rfl
  | lit n => exact litHolds_congr (Circuit.truth_of_le grown s inside.2)

def Means (c : Circuit) (s : Nat → Bool) (v : Value) (p : Prop) : Prop :=
  v.In c ∧ (v.eval c s = true ↔ p)

theorem Means.of_le (meant : v.Means c s p) (grown : c ≤ d) : v.Means d s p :=
  ⟨meant.1.of_le grown, by rw [eval_of_le grown meant.1]; exact meant.2⟩

theorem Means.congr (meant : v.Means c s p) (same : p ↔ q) : v.Means c s q :=
  ⟨meant.1, meant.2.trans same⟩

theorem forall_means {α : Type} {items : List α} {p : α → Prop} {values : List Value}
    (meant : List.Forall₂ (fun a v => v.Means c s (p a)) items values) :
    (∀ v ∈ values, v.eval c s = true) ↔ ∀ a ∈ items, p a := by
  induction meant with
  | nil => simp
  | cons here _ ih => simp [here.2, ih]

theorem exists_means {α : Type} {items : List α} {p : α → Prop} {values : List Value}
    (meant : List.Forall₂ (fun a v => v.Means c s (p a)) items values) :
    (∃ v ∈ values, v.eval c s = true) ↔ ∃ a ∈ items, p a := by
  induction meant with
  | nil => simp
  | cons here _ ih => simp [here.2, ih]

theorem means_const (b : Bool) : (const b).Means c s (b = true) := ⟨trivial, Iff.rfl⟩

theorem means_eval (inside : v.In c) : v.Means c s (v.eval c s = true) := ⟨inside, Iff.rfl⟩

theorem not_means (labelled : c.Labelled) (meant : v.Means c s p) : v.not.Means c s (¬ p) := by
  cases v with
  | const b =>
    refine ⟨trivial, ?_⟩
    rw [← meant.2]
    simp [not, eval]
  | lit n =>
    have small : n.natAbs < 2147483647 := by
      have bound := meant.1.2
      simp only [Circuit.Labelled, trueLabel] at labelled
      omega
    rw [not_lit small]
    refine ⟨⟨by have := meant.1.1; omega, by simpa using meant.1.2⟩, ?_⟩
    rw [← meant.2, eval, eval, litHolds_neg _ meant.1.1]
    simp

end Value

end ModelFinder
