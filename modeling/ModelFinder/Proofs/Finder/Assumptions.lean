import ModelFinder.Finder.Enumeration
import ModelFinder.Proofs.Encoding.Dependence
import ModelFinder.Proofs.Encoding.Worlds
import ModelFinder.Proofs.Sat.Refinement

/-! What a lifted enumeration assumes. Each tuple that a solution or the lifters give is made true by
an assumption, or the lower bound has it, or its relation is not bound; a tuple of a bound relation
that is none of these lies outside the upper bound and is refused. -/
namespace ModelFinder

def Instance.Gives (m : Instance) (r : Relation) (t : Tuple) : Prop :=
  ∃ set, (r, set) ∈ m.relations.entries ∧ t ∈ set.tuples

def Given (solution : Solution) (lifters : Instance) (r : Relation) (t : Tuple) : Prop :=
  (∃ m, solution.model? = some m ∧ m.Gives r t) ∨ lifters.Gives r t

/-- The assumptions demand what is given of bound relations: the variables of the given tuples are
assumed, and the other given tuples are in lower bounds. -/
structure Demands (b : Bounds) (given : Relation → Tuple → Prop) (units : List Int) : Prop where
  sound : ∀ l ∈ units, ∃ (var : Nat) (r : Relation) (t : Tuple), l = var ∧ given r t ∧
    t.arity = r.arity ∧ (Numbering.ofBounds b).StandsFor var r t.index
  complete : ∀ r t, given r t →
    (∃ var : Nat, (var : Int) ∈ units ∧ t.arity = r.arity ∧
      (Numbering.ofBounds b).StandsFor var r t.index) ∨
    ∀ range, b.range? r = some range → range.lower.contains t = true

variable {σ : Type} {b c : Bounds} {r : Relation} {t : Tuple} {solution : Solution}
  {lifters m : Instance} {u : Universe} {units : List Int}

theorem Instance.Over.univ_of_gives (isOver : m.Over u) (gives : m.Gives r t) : t.univ = u := by
  obtain ⟨set, listed, member⟩ := gives
  obtain ⟨i, -, rfl⟩ := List.mem_map.mp member
  exact isOver.values _ listed

def asked (solution : Solution) (lifters : Instance) : List (Relation × Tuple) :=
  ((solution.model?.map (·.relations.entries)).getD [] ++ lifters.relations.entries).flatMap
    fun (r, set) => set.tuples.map (r, ·)

theorem mem_asked : (r, t) ∈ asked solution lifters ↔ Given solution lifters r t := by
  have listed : ∀ entries : List (Relation × TupleSet),
      (r, t) ∈ entries.flatMap (fun (r, set) => set.tuples.map (r, ·)) ↔
        ∃ set, (r, set) ∈ entries ∧ t ∈ set.tuples := by
    intro entries
    simp only [List.mem_flatMap, List.mem_map, Prod.exists, Prod.mk.injEq]
    constructor
    · rintro ⟨q, set, member, u, isTuple, rfl, rfl⟩
      exact ⟨set, member, isTuple⟩
    · rintro ⟨set, member, isTuple⟩
      exact ⟨r, set, member, t, isTuple, rfl, rfl⟩
  rw [asked, List.flatMap_append, List.mem_append, listed, listed, Given, Instance.Gives]
  apply or_congr_left
  cases solution.model? <;> simp [Instance.Gives]

theorem lift_eq (solver : σ) (f : Formula) (o : Options) (n : Numbering)
    (incremental : o.solver.incremental = true) : lift solver f b o n solution lifters =
      (fun found => .make solver f b o (Ascending.sort found.flatten)) <$>
        (asked solution lifters).mapM fun item => liftAssumption n b item.1 item.2 := by
  rw [lift, Options.requireIncremental, if_pos incremental]
  rfl

section Single

variable {n : Numbering} (formed : c.WellFormed) (numbers : n.Numbers c)

include formed numbers

theorem liftAssumption_eq_ok {units : List Int} (ok : liftAssumption n b r t = .ok units) :
    (∃ var : Nat, units = [(var : Int)] ∧ t.arity = r.arity ∧ n.StandsFor var r t.index) ∨
      units = [] ∧ ∀ range, b.range? r = some range → range.lower.contains t = true := by
  unfold liftAssumption at ok
  cases found : n.var? r t with
  | some var =>
    rw [found] at ok
    obtain ⟨arity, stands⟩ := (numbers.var?_eq_some formed).mp found
    exact .inl ⟨var, (Except.ok.inj ok).symm, arity, stands⟩
  | none =>
    rw [found] at ok
    refine .inr ?_
    cases bound : b.range? r with
    | none =>
      rw [bound] at ok
      exact ⟨(Except.ok.inj ok).symm, fun range impossible => by cases impossible⟩
    | some range =>
      rw [bound] at ok
      simp only at ok
      split at ok
      · rename_i lower
        refine ⟨(Except.ok.inj ok).symm, fun other same => ?_⟩
        obtain rfl := Option.some.inj same
        exact lower
      · cases ok

end Single

/-- A tuple is refused exactly if it lies outside the upper bound of its relation. -/
theorem liftAssumption_eq_error {n : Numbering} {error : Error} (regular : b.Regular)
    (numbers : n.Numbers b) (same : b.contains r = true → t.univ = b.univ) :
    liftAssumption n b r t = .error error ↔ error = .outsideUpper t.render r.name ∧
      ∃ range, b.range? r = some range ∧ range.upper.contains t = false := by
  unfold liftAssumption
  cases bound : b.range? r with
  | none => cases n.var? r t <;> simp
  | some range =>
    obtain ⟨lowerUniv, upperUniv, lowerArity, upperArity, contained⟩ :=
      regular.formed.ranges r range bound
    have univ := same (Bounds.contains_iff.mpr ⟨range, bound⟩)
    have unknown : (∃ var, n.var? r t = some var) ↔
        t.arity = r.arity ∧ t.index ∈ range.upper.indices ∧ t.index ∉ range.lower.indices := by
      simp only [numbers.var?_eq_some regular.formed, exists_and_left]
      rw [← numbers.mem_unknowns bound, Bounds.mem_unknowns]
    have upper : range.upper.contains t = true ↔
        t.arity = r.arity ∧ t.index ∈ range.upper.indices := by
      rw [TupleSet.contains_iff, upperUniv, upperArity]
      exact and_iff_right univ
    have lower : range.lower.contains t = true ↔
        t.arity = r.arity ∧ t.index ∈ range.lower.indices := by
      rw [TupleSet.contains_iff, lowerUniv, lowerArity]
      exact and_iff_right univ
    have part := (TupleSet.le_iff.mp contained).2.2 t.index
    simp only [Option.some.injEq, exists_eq_left']
    rw [← Bool.not_eq_true, upper]
    cases found : n.var? r t with
    | some var =>
      obtain ⟨arity, isUpper, -⟩ := unknown.mp ⟨var, found⟩
      simp [arity, isUpper]
    | none =>
      -- A tuple without a variable is in both bounds or in neither.
      have known : ¬ (t.arity = r.arity ∧ t.index ∈ range.upper.indices ∧
          t.index ∉ range.lower.indices) := by
        rw [← unknown, found]
        simp
      simp only
      split
      · rename_i isLower
        obtain ⟨arity, member⟩ := lower.mp isLower
        simp [arity, part member]
      · rename_i notLower
        rw [lower] at notLower
        rw [Except.error.injEq]
        constructor
        · rintro rfl
          exact ⟨rfl, fun ⟨arity, isUpper⟩ =>
            known ⟨arity, isUpper, fun member => notLower ⟨arity, member⟩⟩⟩
        · exact fun both => both.1.symm

/-- The assumptions of a lifted enumeration demand what was given, whichever bounds with further
markers the numbering was made for. -/
theorem lift_demands {solver : σ} {f : Formula} {o : Options} {start : Enumeration σ}
    (extended : b.Extends c) (formed : c.WellFormed) (numbers : (Numbering.ofBounds c).Numbers c)
    (ok : lift solver f b o (.ofBounds c) solution lifters = .ok start) :
    ∃ units, start = .make solver f b o units ∧ Demands b (Given solution lifters) units := by
  obtain ⟨⟨⟩, -, rest⟩ := bind_eq_ok.mp ok
  obtain ⟨found, traversed, made⟩ := bind_eq_ok.mp rest
  have pairs : List.Forall₂ (fun item lits => liftAssumption (.ofBounds c) b item.1 item.2 =
      .ok lits) (asked solution lifters) found := mapM_eq_ok.mp traversed
  refine ⟨_, (pure_eq_ok.mp made).symm, ?_, ?_⟩
  · intro l member
    obtain ⟨lits, isFound, isLit⟩ := List.mem_flatten.mp ((Ascending.mem_sort _ _).mp member)
    obtain ⟨⟨r, t⟩, isAsked, assumed⟩ := forall₂_right pairs isFound
    rcases liftAssumption_eq_ok formed numbers assumed with ⟨var, rfl, arity, stands⟩ | ⟨rfl, -⟩
    · exact ⟨var, r, t, List.mem_singleton.mp isLit, mem_asked.mp isAsked, arity,
        extended.standsFor.mp stands⟩
    · cases isLit
  · intro r t given
    obtain ⟨lits, isFound, assumed⟩ := forall₂_left pairs (mem_asked.mpr given)
    rcases liftAssumption_eq_ok formed numbers assumed with ⟨var, rfl, arity, stands⟩ | ⟨-, lower⟩
    · refine .inl ⟨var, ?_, arity, extended.standsFor.mp stands⟩
      exact (Ascending.mem_sort _ _).mpr
        (List.mem_flatten.mpr ⟨_, isFound, List.mem_singleton_self _⟩)
    · exact .inr lower

namespace Demands

variable {given : Relation → Tuple → Prop}

theorem stands (demands : Demands b given units) (extended : b.Extends c) {l : Int}
    (member : l ∈ units) :
    ∃ (var : Nat) (r : Relation) (i : Nat), l = var ∧ (Numbering.ofBounds c).StandsFor var r i := by
  obtain ⟨var, r, t, isVar, -, -, stands⟩ := demands.sound l member
  exact ⟨var, r, t.index, isVar, extended.standsFor.mpr stands⟩

/-- An assignment meets the demands exactly if the instance it depicts has all given tuples of bound
relations. -/
theorem meets_iff (demands : Demands b given units) (isOver : ∀ r t, given r t → t.univ = b.univ)
    (extended : b.Extends c) (regular : c.Regular) (numbers : (Numbering.ofBounds c).Numbers c)
    {a : Nat → Bool} (depicts : (Numbering.ofBounds c).Depicts c a m) :
    Meets a units ↔ ∀ r t, given r t → b.contains r = true → m.Has r t := by
  constructor
  · intro met r t isGiven bound
    obtain ⟨range, found⟩ := Bounds.contains_iff.mp bound
    obtain ⟨-, -, arity, -⟩ := regular.formed.ranges r range (extended.range? found)
    have univ : t.univ = c.univ := (isOver r t isGiven).trans extended.univ.symm
    apply (depicts.has_iff (extended.range? found)).mpr
    rcases demands.complete r t isGiven with ⟨var, member, sameArity, stands⟩ | lower
    · have stands' := extended.standsFor.mpr stands
      have chosen := met _ member
      rw [litHolds_natCast (stands'.bounds numbers).1] at chosen
      exact ⟨univ, sameArity, .inr ⟨var, stands', chosen⟩⟩
    · obtain ⟨-, sameArity, isLower⟩ := TupleSet.contains_iff.mp (lower range found)
      exact ⟨univ, sameArity.trans arity, .inl isLower⟩
  · intro has l member
    obtain ⟨var, r, t, rfl, isGiven, -, stands⟩ := demands.sound l member
    obtain ⟨e, isEntry, rfl, -⟩ := id stands
    have known : e.relation ∈ b.relations.keys := by
      rw [← Numbering.ofBounds_relations]
      exact List.mem_map_of_mem isEntry
    obtain ⟨range, found⟩ := Option.isSome_iff_exists.mp ((Table.contains_iff _).mpr known)
    have stands' := extended.standsFor.mpr stands
    have there := has _ t isGiven ((Table.contains_iff _).mpr known)
    obtain ⟨-, -, isLower | ⟨other, same, chosen⟩⟩ :=
      (depicts.has_iff (extended.range? found)).mp there
    · have unknown := (numbers.mem_unknowns (extended.range? found)).mpr ⟨var, stands'⟩
      exact absurd isLower (Bounds.mem_unknowns.mp unknown).2
    · rw [litHolds_natCast (stands'.bounds numbers).1,
        numbers.var_unique regular.formed stands' same]
      exact chosen

end Demands

end ModelFinder
