import ModelFinder.Proofs.Finder.Calls

/-! The formulas that one enumeration goes through: the formula asked for and, after each formula that
folds to true, its residue. They all speak about the unknown tuples of the first. -/
namespace ModelFinder

/-- The formula and the bounds that an enumeration works on once so many formulas folded to true. -/
inductive Formula.Stage (f : Formula) (b : Bounds) (sharing logged : Bool) :
    Nat → Formula → Bounds → Prop where
  | first : Stage f b sharing logged 0 f b
  | residue {round : Nat} {g h : Formula} {c d : Bounds} {result : Folded}
      (stage : f.Stage b sharing logged round g c)
      (folded : g.encode c sharing logged = .ok (.folded result)) (isTrue : result.value = true)
      (ok : Residue.ofFolded (round + 1) result = .ok (h, d)) :
      f.Stage b sharing logged (round + 1) h d

def Formula.FitsThroughout (f : Formula) (b : Bounds) (sharing logged : Bool) : Prop :=
  ∀ round g c, f.Stage b sharing logged round g c → g.Fits c sharing

theorem Bounds.Extends.trans {b c d : Bounds} (first : b.Extends c) (second : c.Extends d) :
    b.Extends d := by
  obtain ⟨more, entries, exact⟩ := first.entries
  obtain ⟨further, entries', exact'⟩ := second.entries
  refine ⟨second.univ.trans first.univ, second.ints.trans first.ints, more ++ further, ?_, ?_⟩
  · rw [entries', entries, List.append_assoc]
  · intro entry member
    rcases List.mem_append.mp member with old | new
    · exact exact entry old
    · exact exact' entry new

namespace Formula.Stage

variable {f g : Formula} {b c : Bounds} {sharing logged : Bool} {round : Nat}

theorem sound (stage : f.Stage b sharing logged round g c) (regular : b.Regular)
    (sorted : f.WellSorted) : b.Extends c ∧ c.Regular ∧ g.WellSorted := by
  induction stage with
  | first => exact ⟨.refl b, regular, sorted⟩
  | @residue round g h c d result _ folded _ ok ih =>
    obtain ⟨extended, regular', sorted'⟩ := ih
    obtain ⟨rfl, bounds⟩ := Formula.folded_eq folded
    obtain ⟨residue, asks, made⟩ := Residue.ofFolded_asks regular' (round + 1) bounds
    obtain ⟨rfl, rfl⟩ := Prod.mk.inj (Except.ok.inj (ok.symm.trans made))
    refine ⟨extended.trans asks.extended, asks.regular, ?_⟩
    split
    · trivial
    · exact asks.wellSorted sorted'

/-- A formula that needs a search is the only stage. -/
theorem eq_of_clauses {e : Encoding} (encoded : f.encode b sharing logged = .ok (.clauses e))
    (stage : f.Stage b sharing logged round g c) : round = 0 ∧ g = f ∧ c = b := by
  induction stage with
  | first => exact ⟨rfl, rfl, rfl⟩
  | residue _ folded _ _ ih =>
    obtain ⟨-, rfl, rfl⟩ := ih
    rw [encoded] at folded
    cases folded

/-- Where the residue of a formula needs a search, there are two stages. -/
theorem eq_of_residue {e : Encoding} {result : Folded} {h : Formula} {d : Bounds}
    (folded : f.encode b sharing logged = .ok (.folded result))
    (ok : Residue.ofFolded 1 result = .ok (h, d))
    (encoded : h.encode d sharing logged = .ok (.clauses e))
    (stage : f.Stage b sharing logged round g c) :
    round = 0 ∧ g = f ∧ c = b ∨ round = 1 ∧ g = h ∧ c = d := by
  induction stage with
  | first => exact .inl ⟨rfl, rfl, rfl⟩
  | residue _ folded' _ ok' ih =>
    rcases ih with ⟨rfl, rfl, rfl⟩ | ⟨-, rfl, rfl⟩
    · rw [folded] at folded'
      obtain rfl := Encoded.folded.inj (Except.ok.inj folded')
      obtain ⟨rfl, rfl⟩ := Prod.mk.inj (Except.ok.inj (ok'.symm.trans ok))
      exact .inr ⟨rfl, rfl, rfl⟩
    · rw [encoded] at folded'
      cases folded'

/-- At a later stage that needs a search the unknown tuples can be counted. -/
theorem countable {e : Encoding} (regular : b.Regular) (sorted : f.WellSorted)
    (fits : f.FitsThroughout b sharing logged) (stage : f.Stage b sharing logged (round + 1) g c)
    (encodes : e.Encodes g c) {var i : Nat} {r : Relation} (stands : e.numbering.StandsFor var r i) :
    (c.univ.capacity? r.arity).isSome = true := by
  cases stage with
  | @residue _ g' _ c' _ result stage folded isTrue ok =>
    obtain ⟨-, regular', sorted'⟩ := stage.sound regular sorted
    obtain ⟨rfl, isBounds, -, value⟩ :=
      Formula.encode_folded regular' sorted' (fits _ _ _ stage) folded
    obtain ⟨residue, asks, made⟩ := Residue.ofFolded_asks regular' (round + 1) isBounds
    obtain ⟨rfl, rfl⟩ := Prod.mk.inj (Except.ok.inj (ok.symm.trans made))
    obtain ⟨range, g, -, -, isAsked, -⟩ := asks.change_of_stands regular'
      (encodes.numbering ▸ encodes.numbers) (encodes.numbering ▸ stands)
    rw [if_neg (List.isEmpty_eq_false_iff_exists_mem.mpr ⟨g, isAsked⟩ ▸ Bool.false_ne_true)]
      at encodes
    exact asks.countable regular' (fun s i agrees => (value s i agrees).mp isTrue) encodes stands

end Formula.Stage

theorem Formula.Fits.throughout {f : Formula} {b : Bounds} {sharing logged : Bool} {e : Encoding}
    (fits : f.Fits b sharing) (encoded : f.encode b sharing logged = .ok (.clauses e)) :
    f.FitsThroughout b sharing logged := by
  intro round g c stage
  obtain ⟨-, rfl, rfl⟩ := stage.eq_of_clauses encoded
  exact fits

theorem Formula.unknownCount_lt {f : Formula} {b : Bounds} {sharing logged : Bool}
    {encoded : Encoded} (fits : f.Fits b sharing) (ok : f.encode b sharing logged = .ok encoded) :
    b.unknownCount < 2147483647 := by
  obtain ⟨values, root, circuit, run, -⟩ := encode_eq_ok ok
  have few := fits _ _ run
  omega

end ModelFinder
