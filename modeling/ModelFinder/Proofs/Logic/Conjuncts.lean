import ModelFinder.Logic.Semantics
import Mathlib.Tactic.Common

/-! Lists of formulas, member by member, and the splitting of a formula into conjuncts. -/
namespace ModelFinder

namespace Formula

variable {i : Interpretation} {ρ : Assignment} {fs : List Formula}

theorem allHold_iff : allHold i fs ρ ↔ ∀ f ∈ fs, f.holds i ρ := by
  induction fs with
  | nil => simp [allHold]
  | cons f fs ih => simp [allHold, ih]

theorem someHold_iff : someHold i fs ρ ↔ ∃ f ∈ fs, f.holds i ρ := by
  induction fs with
  | nil => simp [someHold]
  | cons f fs ih => simp [someHold, ih]

theorem wellSortedAll_iff : WellSortedAll fs ↔ ∀ f ∈ fs, f.WellSorted := by
  induction fs with
  | nil => simp [WellSortedAll]
  | cons f fs ih => simp [WellSortedAll, ih]

theorem mem_conjunctsAll {g : Formula} : g ∈ conjunctsAll fs ↔ ∃ f ∈ fs, g ∈ f.conjuncts := by
  induction fs with
  | nil => simp [conjunctsAll]
  | cons f fs ih => simp [conjunctsAll, ih]

mutual

theorem holds_conjuncts : (f : Formula) → (f.holds i ρ ↔ ∀ g ∈ f.conjuncts, g.holds i ρ)
  | const _ => by simp [conjuncts]
  | binary op left right => by
      have one := holds_conjuncts left
      have two := holds_conjuncts right
      cases op with
      | and => simp [conjuncts, holds, Connective.holds, one, two, or_imp, forall_and]
      | or | iff | implies => simp [conjuncts]
  | nary op parts => by
      have all := holds_conjunctsAll parts
      cases op with
      | and => simpa [conjuncts, holds] using all
      | or | iff | implies => simp [conjuncts]
  | not _ => by simp [conjuncts]
  | compare _ _ _ => by simp [conjuncts]
  | multiplicity _ _ => by simp [conjuncts]
  | quantified _ _ _ => by simp [conjuncts]

theorem holds_conjunctsAll : (fs : List Formula) →
    (allHold i fs ρ ↔ ∀ g ∈ conjunctsAll fs, g.holds i ρ)
  | [] => by simp [allHold, conjunctsAll]
  | f :: fs => by
      have here := holds_conjuncts f
      have there := holds_conjunctsAll fs
      simp [allHold, conjunctsAll, here, there, or_imp, forall_and]

end

mutual

theorem wellSorted_conjuncts : (f : Formula) → f.WellSorted → ∀ g ∈ f.conjuncts, g.WellSorted
  | const _, sorted => by simpa [conjuncts] using sorted
  | binary op left right, sorted => by
      obtain ⟨leftSorted, rightSorted⟩ := sorted
      have one := wellSorted_conjuncts left leftSorted
      have two := wellSorted_conjuncts right rightSorted
      cases op with
      | and =>
        intro g member
        rcases List.mem_append.mp member with inLeft | inRight
        · exact one g inLeft
        · exact two g inRight
      | or | iff | implies => simpa [conjuncts] using ⟨leftSorted, rightSorted⟩
  | nary op parts, sorted => by
      have all := wellSorted_conjunctsAll parts sorted
      cases op with
      | and => exact all
      | or | iff | implies => simpa [conjuncts] using sorted
  | not _, sorted => by simpa [conjuncts] using sorted
  | compare _ _ _, sorted => by simpa [conjuncts] using sorted
  | multiplicity _ _, sorted => by simpa [conjuncts] using sorted
  | quantified _ _ _, sorted => by simpa [conjuncts] using sorted

theorem wellSorted_conjunctsAll : (fs : List Formula) → WellSortedAll fs →
    ∀ g ∈ conjunctsAll fs, g.WellSorted
  | [], _ => by simp [conjunctsAll]
  | f :: fs, sorted => by
      intro g member
      rcases List.mem_append.mp member with here | there
      · exact wellSorted_conjuncts f sorted.1 g here
      · exact wellSorted_conjunctsAll fs sorted.2 g there

end

theorem relationLeavesAll_append (gs : List Formula) :
    relationLeavesAll (fs ++ gs) = relationLeavesAll fs ++ relationLeavesAll gs := by
  induction fs with
  | nil => rfl
  | cons f fs ih => simp [relationLeavesAll, ih]

mutual

theorem relationLeaves_conjuncts : (f : Formula) →
    relationLeavesAll f.conjuncts = f.relationLeaves
  | const _ => by simp [conjuncts, relationLeavesAll]
  | binary op left right => by
      have one := relationLeaves_conjuncts left
      have two := relationLeaves_conjuncts right
      cases op with
      | and => simp [conjuncts, relationLeavesAll_append, relationLeaves, one, two]
      | or | iff | implies => simp [conjuncts, relationLeavesAll]
  | nary op parts => by
      have all := relationLeaves_conjunctsAll parts
      cases op with
      | and => simp [conjuncts, relationLeaves, all]
      | or | iff | implies => simp [conjuncts, relationLeavesAll]
  | not _ => by simp [conjuncts, relationLeavesAll]
  | compare _ _ _ => by simp [conjuncts, relationLeavesAll]
  | multiplicity _ _ => by simp [conjuncts, relationLeavesAll]
  | quantified _ _ _ => by simp [conjuncts, relationLeavesAll]

theorem relationLeaves_conjunctsAll : (fs : List Formula) →
    relationLeavesAll (conjunctsAll fs) = relationLeavesAll fs
  | [] => rfl
  | f :: fs => by
      have here := relationLeaves_conjuncts f
      have there := relationLeaves_conjunctsAll fs
      simp [conjunctsAll, relationLeavesAll_append, relationLeavesAll, here, there]

end

theorem holds_orAll : (orAll fs).holds i ρ ↔ ∃ f ∈ fs, f.holds i ρ := by
  match fs with
  | [] => simp [orAll, holds]
  | [f] => simp [orAll]
  | f :: g :: rest => exact someHold_iff

theorem wellSorted_orAll (sorted : ∀ f ∈ fs, f.WellSorted) : (orAll fs).WellSorted := by
  match fs with
  | [] => trivial
  | [f] => exact sorted f List.mem_cons_self
  | f :: g :: rest => exact wellSortedAll_iff.mpr sorted

theorem relationLeaves_orAll : (orAll fs).relationLeaves = relationLeavesAll fs := by
  match fs with
  | [] => rfl
  | [f] => simp [orAll, relationLeavesAll]
  | f :: g :: rest => rfl

theorem mem_relationLeavesAll {r : Relation} :
    r ∈ relationLeavesAll fs ↔ ∃ f ∈ fs, r ∈ f.relationLeaves := by
  induction fs with
  | nil => simp [relationLeavesAll]
  | cons f fs ih => simp [relationLeavesAll, ih]

end Formula

end ModelFinder
