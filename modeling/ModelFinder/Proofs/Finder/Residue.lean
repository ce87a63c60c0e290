import ModelFinder.Finder.Enumeration
import ModelFinder.Proofs.Encoding.Dependence
import ModelFinder.Proofs.Encoding.Progress

/-! What a formula that folds to true goes on with. The residue asks for some relation to differ from
its lower bound, with the help of marker relations that have the lower bounds as exact values. It can
always be encoded, never folds where there is a choice, and is true exactly where some unknown tuple
is chosen. -/
namespace ModelFinder

/-- The formula says that the relation differs from its lower bound, given what the bounds say of
markers. -/
inductive Residue.Change (c : Bounds) (r : Relation) (range : Range) : Formula → Prop where
  | nonempty (empty : range.lower.isEmpty = true) : Change c r range (.multiplicity .some (.rel r))
  | differs {marker : Relation} (arity : marker.arity = r.arity)
      (exactly : c.range? marker = some ⟨range.lower, range.lower⟩) :
      Change c r range (.not (.compare .equals (.rel r) (.rel marker)))

structure Residue.Asks (b : Bounds) (listed : List (Relation × Range)) (residue : Residue) : Prop where
  extended : b.Extends residue.bounds
  regular : residue.bounds.Regular
  meant : ∀ g ∈ residue.changes, ∃ entry ∈ listed, entry.2.lower ≠ entry.2.upper ∧
    Change residue.bounds entry.1 entry.2 g
  asked : ∀ entry ∈ listed, entry.2.lower ≠ entry.2.upper →
    ∃ g ∈ residue.changes, Change residue.bounds entry.1 entry.2 g

namespace Residue

variable {b c : Bounds} {r : Relation} {range : Range} {residue : Residue}
  {listed : List (Relation × Range)}

theorem Change.extended {g : Formula} (change : Change b r range g)
    (kept : ∀ q range, b.range? q = some range → c.range? q = some range) :
    Change c r range g := by
  cases change with
  | nonempty empty => exact .nonempty empty
  | differs arity exactly => exact .differs arity (kept _ _ exactly)

theorem Asks.skip (asks : Asks b listed residue) (same : range.lower = range.upper) :
    Asks b (listed ++ [(r, range)]) residue := by
  refine ⟨asks.extended, asks.regular, ?_, ?_⟩
  · intro g member
    obtain ⟨entry, isListed, change⟩ := asks.meant g member
    exact ⟨entry, List.mem_append_left _ isListed, change⟩
  · intro entry member choice
    rcases List.mem_append.mp member with old | new
    · exact asks.asked entry old choice
    · rw [List.mem_singleton.mp new] at choice
      exact absurd same choice

theorem Asks.change (asks : Asks b listed residue) (choice : range.lower ≠ range.upper)
    (extended : b.Extends c) (regular : c.Regular)
    (kept : ∀ q range, residue.bounds.range? q = some range → c.range? q = some range)
    {g : Formula} (change : Change c r range g) :
    Asks b (listed ++ [(r, range)]) ⟨c, residue.changes ++ [g]⟩ := by
  refine ⟨extended, regular, ?_, ?_⟩
  · intro h member
    rcases List.mem_append.mp member with old | new
    · obtain ⟨entry, isListed, isChoice, isChange⟩ := asks.meant h old
      exact ⟨entry, List.mem_append_left _ isListed, isChoice, isChange.extended kept⟩
    · rw [List.mem_singleton.mp new]
      exact ⟨(r, range), List.mem_append_right _ (List.mem_singleton_self _), choice, change⟩
  · intro entry member isChoice
    rcases List.mem_append.mp member with old | new
    · obtain ⟨h, isAsked, isChange⟩ := asks.asked entry old isChoice
      exact ⟨h, List.mem_append_left _ isAsked, isChange.extended kept⟩
    · rw [List.mem_singleton.mp new]
      exact ⟨g, List.mem_append_right _ (List.mem_singleton_self _), change⟩

/-- Adding the change of a relation succeeds, with a marker of its own if there is a lower bound. -/
theorem Asks.add (asks : Asks b listed residue) (regular : b.Regular)
    (bound : b.range? r = some range) (round : Nat) :
    ∃ next, residue.add round r range = .ok next ∧ Asks b (listed ++ [(r, range)]) next := by
  unfold Residue.add
  split
  · rename_i same
    exact ⟨residue, rfl, asks.skip same⟩
  split
  · rename_i choice empty
    exact ⟨_, rfl, asks.change choice asks.extended asks.regular (fun _ _ => id) (.nonempty empty)⟩
  · rename_i choice _
    obtain ⟨lowerUniv, upperUniv, lowerArity, upperArity, contained⟩ :=
      regular.formed.ranges r range bound
    let marker : Relation :=
      ⟨residue.bounds.freshId, s!"{r.name}_trivial{round}", r.arity, r.arity_pos⟩
    have absent : marker ∉ residue.bounds.relations.keys := by
      intro known
      exact absurd (Bounds.id_lt_freshId known) (Nat.lt_irrefl _)
    have part : range.lower.subset range.lower = true := TupleSet.le_iff.mpr ⟨rfl, rfl, fun _ => id⟩
    have made : residue.bounds.bindExactly marker range.lower = .ok { residue.bounds with
        relations := residue.bounds.relations.insert marker ⟨range.lower, range.lower⟩ } := by
      have univ := lowerUniv.trans asks.extended.univ.symm
      rw [Bounds.bindExactly, Bounds.bind, if_neg (by simp [univ]),
        if_neg (by simp [marker, lowerArity]), if_pos part]
    have fits : range.lower.Fits := by
      intro i member
      rw [lowerUniv, lowerArity]
      exact regular.lower_lt bound member
    refine ⟨_, bind_eq_ok.mpr ⟨_, made, rfl⟩, asks.change choice
      (asks.extended.insert range.lower absent) (asks.regular.bind fits made) ?_ (.differs rfl ?_)⟩
    · intro q other found
      rw [Bounds.range?, Table.find?_insert, if_neg]
      · exact found
      · rintro rfl
        apply absent
        apply (Table.contains_iff _).mp
        rw [Table.contains, show residue.bounds.relations.find? marker = some other from found]
        rfl
    · rw [Bounds.range?, Table.find?_insert, if_pos rfl]

theorem asks_foldlM (regular : b.Regular) (round : Nat) {rest : List (Relation × Range)}
    (bound : ∀ entry ∈ rest, b.range? entry.1 = some entry.2) (asks : Asks b listed residue) :
    ∃ result, rest.foldlM (fun (residue : Residue) (r, range) => residue.add round r range) residue =
      .ok result ∧ Asks b (listed ++ rest) result := by
  induction rest generalizing listed residue with
  | nil => exact ⟨residue, rfl, by rwa [List.append_nil]⟩
  | cons entry rest ih =>
    obtain ⟨next, added, asks'⟩ := asks.add regular (bound entry List.mem_cons_self) round
    obtain ⟨result, ok, all⟩ :=
      ih (fun other member => bound other (List.mem_cons_of_mem entry member)) asks'
    refine ⟨result, bind_eq_ok.mpr ⟨next, added, ok⟩, ?_⟩
    rwa [List.append_assoc] at all

/-- The residue of a formula that folded asks for the change of every relation with a choice. -/
theorem ofFolded_asks (regular : b.Regular) (round : Nat) {f : Folded} (bounds : f.bounds = b) :
    ∃ residue, Asks b b.relations.entries residue ∧
      ofFolded round f = .ok (if residue.changes.isEmpty then .const false
        else .binary .and f.formula (.orAll residue.changes), residue.bounds) := by
  have start : Asks b [] ⟨b, []⟩ := ⟨.refl b, regular, by simp, by simp⟩
  obtain ⟨residue, ok, asks⟩ := asks_foldlM regular round
    (fun entry member => (Bounds.mem_entries regular.formed).mp member) start
  refine ⟨residue, asks, ?_⟩
  rw [ofFolded, bounds]
  exact bind_eq_ok.mpr ⟨residue, ok, rfl⟩

variable {s : Nat → Bool} {i : Interpretation} {g : Formula}

/-- A change is true exactly if some unknown tuple of the relation is chosen. -/
theorem Change.holds_iff (change : Change c r range g) (regular : c.Regular)
    (numbers : (Numbering.ofBounds c).Numbers c) (agrees : (Leaves.ofBounds c).Agrees s i)
    (bound : c.range? r = some range) (countable : (c.univ.capacity? r.arity).isSome = true) :
    g.holds i .none ↔ ∃ var j, (Numbering.ofBounds c).StandsFor var r j ∧ s var = true := by
  have tuples := agrees.tuples r range bound countable
  -- The tuple of a variable, as the interpretation has it.
  have tuple : ∀ var j, (Numbering.ofBounds c).StandsFor var r j → j ∉ range.lower.indices ∧
      ∃ t, t.length = r.arity ∧ (∀ a ∈ t, a < i.size) ∧ encodeIndex i.size t = j := by
    intro var j stands
    have unknown := (numbers.mem_unknowns bound).mpr ⟨var, stands⟩
    have below := regular.unknowns_lt bound unknown
    rw [show c.univ.size = i.size from agrees.size.symm] at below
    exact ⟨(Bounds.mem_unknowns.mp unknown).2, decodeIndex i.size r.arity j,
      length_decodeIndex _ _ _, decodeIndex_lt agrees.size_pos _ _,
      encodeIndex_decodeIndex _ _ _ below⟩
  cases change with
  | nonempty empty =>
    refine (agrees.exists_tuple ⟨regular, numbers⟩ bound countable).trans ?_
    constructor
    · rintro ⟨j, lower | ⟨var, stands, holds⟩⟩
      · rw [IndexSet.mem_def, List.isEmpty_iff.mp empty] at lower
        cases lower
      · exact ⟨var, j, stands, holds⟩
    · rintro ⟨var, j, stands, holds⟩
      exact ⟨j, .inr ⟨var, stands, holds⟩⟩
  | @differs marker arity exactly =>
    have none : ∀ var j, ¬ (Numbering.ofBounds c).StandsFor var marker j := by
      intro var j stands
      have unknown := Bounds.mem_unknowns.mp ((numbers.mem_unknowns exactly).mpr ⟨var, stands⟩)
      exact unknown.2 unknown.1
    have marked := agrees.tuples marker _ exactly (by rw [arity]; exact countable)
    constructor
    · intro apart
      by_contra absent
      apply apart
      intro t
      show i.tuples r t ↔ i.tuples marker t
      rw [tuples, marked, arity]
      apply and_congr_right
      intro _
      apply and_congr_right
      intro _
      constructor
      · rintro (lower | ⟨var, stands, holds⟩)
        · exact .inl lower
        · exact absurd ⟨var, _, stands, holds⟩ absent
      · rintro (lower | ⟨var, stands, -⟩)
        · exact .inl lower
        · exact absurd stands (none var _)
    · rintro ⟨var, j, stands, holds⟩ same
      obtain ⟨notLower, t, length, inside, rfl⟩ := tuple var j stands
      have member := (same t).mp ((tuples t).mpr ⟨length, inside, .inr ⟨var, stands, holds⟩⟩)
      obtain ⟨-, -, lower | ⟨other, also, -⟩⟩ := (marked t).mp member
      · exact notLower lower
      · exact none other _ also

variable (regular : b.Regular) (asks : Asks b b.relations.entries residue)
  (countable : ∀ r ∈ b.relations.keys, (b.univ.capacity? r.arity).isSome = true)

include regular asks

theorem Asks.change_of_stands (numbers : (Numbering.ofBounds residue.bounds).Numbers residue.bounds)
    {var j : Nat} (stands : (Numbering.ofBounds residue.bounds).StandsFor var r j) :
    ∃ range g, (r, range) ∈ b.relations.entries ∧ range.lower ≠ range.upper ∧
      g ∈ residue.changes ∧ Change residue.bounds r range g := by
  obtain ⟨e, member, rfl, -⟩ := asks.extended.standsFor.mp stands
  have known : e.relation ∈ b.relations.keys := by
    rw [← Numbering.ofBounds_relations]
    exact List.mem_map_of_mem member
  obtain ⟨⟨r, range⟩, listed, isRelation⟩ := List.mem_map.mp known
  obtain rfl : r = e.relation := isRelation
  have bound := asks.extended.range? ((Bounds.mem_entries regular.formed).mp listed)
  have unknown := Bounds.mem_unknowns.mp ((numbers.mem_unknowns bound).mpr ⟨var, stands⟩)
  have choice : range.lower ≠ range.upper := by
    intro same
    exact unknown.2 (same ▸ unknown.1)
  obtain ⟨g, isAsked, change⟩ := asks.asked _ listed choice
  exact ⟨range, g, listed, choice, isAsked, change⟩

include countable

/-- The changes together ask for some unknown tuple to be chosen. -/
theorem Asks.holds_iff (numbers : (Numbering.ofBounds residue.bounds).Numbers residue.bounds)
    (agrees : (Leaves.ofBounds residue.bounds).Agrees s i) :
    (Formula.orAll residue.changes).holds i .none ↔
      ∃ var, 1 ≤ var ∧ var ≤ (Numbering.ofBounds residue.bounds).count ∧ s var = true := by
  have each : ∀ r range g, (r, range) ∈ b.relations.entries → Change residue.bounds r range g →
      (g.holds i .none ↔
        ∃ var j, (Numbering.ofBounds residue.bounds).StandsFor var r j ∧ s var = true) := by
    intro r range g listed change
    have bound := asks.extended.range? ((Bounds.mem_entries regular.formed).mp listed)
    have countable' := countable r (List.mem_map_of_mem listed)
    rw [← asks.extended.univ] at countable'
    exact change.holds_iff asks.regular numbers agrees bound countable'
  rw [Formula.holds_orAll]
  constructor
  · rintro ⟨g, member, holds⟩
    obtain ⟨⟨r, range⟩, listed, -, change⟩ := asks.meant g member
    obtain ⟨var, j, stands, chosen⟩ := (each r range g listed change).mp holds
    obtain ⟨lower, upper⟩ := stands.bounds numbers
    exact ⟨var, lower, upper, chosen⟩
  · rintro ⟨var, lower, upper, chosen⟩
    obtain ⟨r, j, stands⟩ := numbers.exists_stands lower upper
    obtain ⟨range, g, listed, -, isAsked, change⟩ := asks.change_of_stands regular numbers stands
    exact ⟨g, isAsked, (each _ range g listed change).mpr ⟨var, j, stands, chosen⟩⟩

end Residue

namespace Formula

variable {leaves : Leaves} {inputs : Nat} {fs : List Formula}

def Grounds (leaves : Leaves) (inputs : Nat) (f : Formula) : Prop :=
  ∀ c, c.inputs = inputs → ∃ v d, f.ground leaves .empty c = .ok (v, d)

theorem groundAll_succeeds (each : ∀ f ∈ fs, f.Grounds leaves inputs) {c : Circuit}
    (start : c.inputs = inputs) : ∃ vs d, groundAll leaves fs .empty c = .ok (vs, d) := by
  induction fs generalizing c with
  | nil => exact ⟨[], c, by rw [groundAll]; rfl⟩
  | cons f fs ih =>
    obtain ⟨v, d, here⟩ := each f List.mem_cons_self c start
    have grown := grows_ground leaves f .empty c v d here
    obtain ⟨vs, e, there⟩ :=
      ih (fun g member => each g (List.mem_cons_of_mem f member)) (grown.1.symm.trans start)
    refine ⟨v :: vs, e, ?_⟩
    rw [groundAll]
    exact Build.bind_run.mpr ⟨v, d, here, Build.bind_run.mpr ⟨vs, e, there, rfl⟩⟩

theorem groundAll_append {gs : List Formula} {c d e : Circuit} {vs ws : List Value}
    (first : groundAll leaves fs .empty c = .ok (vs, d))
    (second : groundAll leaves gs .empty d = .ok (ws, e)) :
    groundAll leaves (fs ++ gs) .empty c = .ok (vs ++ ws, e) := by
  induction fs generalizing c vs with
  | nil =>
    rw [groundAll] at first
    cases first
    exact second
  | cons f fs ih =>
    rw [groundAll] at first
    obtain ⟨v, between, here, rest⟩ := Build.bind_run.mp first
    obtain ⟨us, final, there, done⟩ := Build.bind_run.mp rest
    cases done
    rw [List.cons_append, groundAll]
    exact Build.bind_run.mpr ⟨v, between, here, Build.bind_run.mpr ⟨_, e, ih there, rfl⟩⟩

/-- A disjunction whose members stand for themselves is its own conjunct. -/
theorem grounds_conjuncts_orAll (some : fs ≠ []) (single : ∀ f ∈ fs, f.conjuncts = [f])
    (each : ∀ f ∈ fs, f.Grounds leaves inputs) :
    ∀ g ∈ (orAll fs).conjuncts, g.Grounds leaves inputs := by
  match fs with
  | [] => exact absurd rfl some
  | [f] =>
    intro g member
    rw [orAll, single f List.mem_cons_self] at member
    exact each g member
  | f :: h :: rest =>
    intro g member c start
    rw [show (orAll (f :: h :: rest)).conjuncts = [nary .or (f :: h :: rest)] from rfl] at member
    rw [List.mem_singleton.mp member]
    obtain ⟨vs, d, run⟩ := groundAll_succeeds each start
    refine ⟨(Circuit.any vs d).1, (Circuit.any vs d).2, ?_⟩
    rw [ground]
    exact Build.bind_run.mpr ⟨vs, d, run, rfl⟩

end Formula

theorem Formula.encode_of_run {f : Formula} {b : Bounds} {sharing : Bool} (logged : Bool)
    (covered : b.covers f = .ok ()) {out : (List Value × Value) × Circuit}
    (run : groundConjuncts (.ofBounds b) f.conjuncts ((Leaves.ofBounds b).circuit sharing) =
      .ok out) : ∃ encoded, f.encode b sharing logged = .ok encoded := by
  obtain ⟨⟨values, root⟩, circuit⟩ := out
  cases root with
  | const value => exact ⟨_, bind_eq_ok.mpr ⟨(), covered, bind_eq_ok.mpr ⟨_, run, rfl⟩⟩⟩
  | lit number => exact ⟨_, bind_eq_ok.mpr ⟨(), covered, bind_eq_ok.mpr ⟨_, run, rfl⟩⟩⟩

namespace Residue

variable {b c : Bounds} {r : Relation} {range : Range} {residue : Residue} {g : Formula}

theorem Change.grounds (change : Change c r range g) (proper : (Leaves.ofBounds c).Proper)
    (bound : c.range? r = some range) (countable : (c.univ.capacity? r.arity).isSome = true)
    (small : (Numbering.ofBounds c).count < 2147483648) :
    g.Grounds (.ofBounds c) (Numbering.ofBounds c).count := by
  intro d inputs
  obtain ⟨m, run, dims⟩ := Leaves.relation_succeeds proper bound countable inputs small
  cases change with
  | nonempty empty =>
    refine ⟨(m.some d).1, (m.some d).2, ?_⟩
    rw [Formula.ground]
    exact Build.bind_run.mpr ⟨m, d, run, rfl⟩
  | @differs marker arity exactly =>
    obtain ⟨k, also, sameDims⟩ := Leaves.relation_succeeds proper exactly
      (show (c.univ.capacity? marker.arity).isSome = true from arity ▸ countable) inputs small
    have same : m.dims = k.dims := by rw [dims, sameDims, arity]
    obtain ⟨v, e, compared, -⟩ := Matrix.equals_yields same d
    refine ⟨v.not, e, ?_⟩
    have arities : (Expr.rel r).arity = (Expr.rel marker).arity := arity.symm
    rw [Formula.ground, Formula.ground_compare, if_pos arities]
    exact Build.bind_run.mpr ⟨v, e, Build.bind_run.mpr ⟨m, d, run,
      Build.bind_run.mpr ⟨k, d, also, compared⟩⟩, rfl⟩

theorem Change.relationLeaves (change : Change c r range g) (bound : c.range? r = some range) :
    ∀ q ∈ g.relationLeaves, c.contains q = true := by
  have known : ∀ {q other}, c.range? q = some other → c.contains q = true := by
    intro q other found
    rw [Bounds.contains, Table.contains, show c.relations.find? q = some other from found]
    rfl
  intro q member
  cases change with
  | nonempty empty =>
    rw [List.mem_singleton.mp member]
    exact known bound
  | differs arity exactly =>
    rcases List.mem_append.mp member with isRelation | isMarker
    · rw [List.mem_singleton.mp isRelation]
      exact known bound
    · rw [List.mem_singleton.mp isMarker]
      exact known exactly

theorem Change.wellSorted (change : Change c r range g) : g.WellSorted := by
  cases change with
  | nonempty empty => trivial
  | differs arity exactly => exact ⟨trivial, trivial⟩

theorem Change.conjuncts (change : Change c r range g) : g.conjuncts = [g] := by
  cases change <;> rfl

theorem Asks.changes_eq_nil (asks : Asks b b.relations.entries residue) (regular : b.Regular) :
    residue.changes = [] ↔ b.unknownCount = 0 := by
  rw [Bounds.unknownCount_eq regular.formed, Bounds.unknownTotal, List.sum_eq_zero_iff_forall_eq_nat]
  simp only [List.mem_map, forall_exists_index, and_imp, forall_apply_eq_imp_iff₂,
    List.length_eq_zero_iff]
  constructor
  · intro none entry listed
    by_contra some
    have choice : entry.2.lower ≠ entry.2.upper := by
      intro same
      obtain ⟨i, member⟩ := List.exists_mem_of_ne_nil _ some
      have unknown := Bounds.mem_unknowns.mp member
      exact unknown.2 (same ▸ unknown.1)
    obtain ⟨g, isAsked, -⟩ := asks.asked entry listed choice
    rw [none] at isAsked
    cases isAsked
  · intro exact
    apply List.eq_nil_iff_forall_not_mem.mpr
    intro g member
    obtain ⟨entry, listed, choice, -⟩ := asks.meant g member
    have fitting := regular.formed.ranges _ _ ((Bounds.mem_entries regular.formed).mp listed)
    obtain ⟨i, unknown⟩ := Bounds.exists_unknown fitting.2.2.2.2 choice
    rw [exact entry listed] at unknown
    cases unknown

section Encoding

variable {f : Formula} {sharing logged : Bool} {result : Folded}

abbrev formula (residue : Residue) (f : Formula) : Formula :=
  .binary .and f (.orAll residue.changes)

variable (regular : b.Regular) (asks : Asks b b.relations.entries residue)
  (countable : ∀ r ∈ b.relations.keys, (b.univ.capacity? r.arity).isSome = true)

theorem Asks.wellSorted (asks : Asks b b.relations.entries residue) (sorted : f.WellSorted) :
    (residue.formula f).WellSorted := by
  refine ⟨sorted, Formula.wellSorted_orAll fun g member => ?_⟩
  obtain ⟨entry, -, -, change⟩ := asks.meant g member
  exact change.wellSorted

include asks

include regular countable

theorem Asks.changes_ground (small : b.unknownCount < 2147483647) : ∀ g ∈ residue.changes,
    g.Grounds (.ofBounds residue.bounds) (Numbering.ofBounds residue.bounds).count := by
  intro g member
  obtain ⟨numbers, count⟩ := asks.extended.numbers asks.regular.formed small
  obtain ⟨⟨r, range⟩, listed, -, change⟩ := asks.meant g member
  have bound := asks.extended.range? ((Bounds.mem_entries regular.formed).mp listed)
  have countable' := countable r (List.mem_map_of_mem listed)
  rw [← asks.extended.univ] at countable'
  exact change.grounds ⟨asks.regular, numbers⟩ bound countable' (by omega)

/-- The residue can be grounded after the formula, whose grounding its bounds leave as it was. -/
theorem Asks.encode_succeeds (small : b.unknownCount < 2147483647) (some : residue.changes ≠ [])
    {encoded : Encoded} (ok : f.encode b sharing logged = .ok encoded) :
    ∃ encoded, (residue.formula f).encode residue.bounds sharing logged = .ok encoded := by
  obtain ⟨⟨⟩, covered, -⟩ := bind_eq_ok.mp ok
  obtain ⟨values, root, circuit, run, -⟩ := Formula.encode_eq_ok ok
  obtain ⟨values', between, first, -⟩ := Build.bind_run.mp run
  have bound := Bounds.covers_eq_ok.mp covered
  -- The formula is grounded as it was before.
  have alike := asks.extended.alike (show ∀ r ∈ Formula.relationLeavesAll f.conjuncts,
    b.contains r = true from Formula.relationLeaves_conjuncts f ▸ bound)
  have start : (Leaves.ofBounds residue.bounds).circuit sharing =
      (Leaves.ofBounds b).circuit sharing :=
    congrArg (Circuit.empty · sharing) asks.extended.numbering.1
  have again := first
  rw [← Formula.groundAll_congr _ alike .empty, ← start] at again
  have inputs : between.inputs = (Numbering.ofBounds residue.bounds).count :=
    ((Formula.grows_groundAll _ _ _ _ _ _ again).1).symm
  -- The changes are grounded after it.
  have single : ∀ g ∈ residue.changes, g.conjuncts = [g] := by
    intro g member
    obtain ⟨entry, -, -, change⟩ := asks.meant g member
    exact change.conjuncts
  obtain ⟨more, final, second⟩ := Formula.groundAll_succeeds
    (Formula.grounds_conjuncts_orAll some single (asks.changes_ground regular countable small)) inputs
  have all := Formula.groundAll_append again second
  apply Formula.encode_of_run logged
  · apply Bounds.covers_eq_ok.mpr
    intro r member
    rcases List.mem_append.mp member with inFormula | inChanges
    · obtain ⟨range, found⟩ := Option.isSome_iff_exists.mp
        (show (b.range? r).isSome = true from bound r inFormula)
      rw [Bounds.contains, Table.contains,
        show residue.bounds.relations.find? r = _ from asks.extended.range? found]
      rfl
    · rw [Formula.relationLeaves_orAll] at inChanges
      obtain ⟨g, isAsked, inChange⟩ := Formula.mem_relationLeavesAll.mp inChanges
      obtain ⟨entry, listed, -, change⟩ := asks.meant g isAsked
      apply change.relationLeaves _ r inChange
      exact asks.extended.range? ((Bounds.mem_entries regular.formed).mp listed)
  · exact Build.bind_run.mpr ⟨_, _, all, rfl⟩

/-- Where the formula is true whatever is chosen, the residue is true where something is chosen. -/
theorem Asks.formula_holds (small : b.unknownCount < 2147483647)
    (always : ∀ s i, (Leaves.ofBounds b).Agrees s i → f.holds i .none) {s : Nat → Bool}
    {i : Interpretation} (agrees : (Leaves.ofBounds residue.bounds).Agrees s i) :
    (residue.formula f).holds i .none ↔
      ∃ var, 1 ≤ var ∧ var ≤ (Numbering.ofBounds residue.bounds).count ∧ s var = true := by
  rw [← asks.holds_iff regular countable (asks.extended.numbers asks.regular.formed small).1 agrees]
  exact and_iff_right (always s i (asks.extended.agrees agrees))

/-- The residue of a formula that folded to true does not fold: it is false where nothing is chosen
and true where everything is. -/
theorem Asks.encode_clauses (small : b.unknownCount < 2147483647) (choice : b.unknownCount ≠ 0)
    (sorted : f.WellSorted) (fits : (residue.formula f).Fits residue.bounds sharing)
    (always : ∀ s i, (Leaves.ofBounds b).Agrees s i → f.holds i .none)
    {encoded : Encoded} (ok : f.encode b sharing logged = .ok encoded) :
    ∃ e, (residue.formula f).encode residue.bounds sharing logged = .ok (.clauses e) := by
  have some : residue.changes ≠ [] := fun none => choice ((asks.changes_eq_nil regular).mp none)
  obtain ⟨encoded', ok'⟩ := asks.encode_succeeds regular countable small some ok
  cases encoded' with
  | clauses e => exact ⟨e, ok'⟩
  | folded result =>
    obtain ⟨numbers, count⟩ := asks.extended.numbers asks.regular.formed small
    obtain ⟨-, -, -, folds⟩ := Formula.encode_folded asks.regular (asks.wellSorted sorted) fits ok'
    have truth : ∀ s : Nat → Bool, result.value = true ↔
        ∃ var, 1 ≤ var ∧ var ≤ (Numbering.ofBounds residue.bounds).count ∧ s var = true := by
      intro s
      have agrees := (Numbering.instanceAt_depicts asks.regular numbers s).agrees asks.regular numbers
      rw [folds s _ agrees, asks.formula_holds regular countable small always agrees]
    have isTrue := (truth fun _ => true).mpr ⟨1, Nat.le_refl 1, by omega, rfl⟩
    obtain ⟨var, -, -, impossible⟩ := (truth fun _ => false).mp isTrue
    cases impossible

end Encoding

/-! A residue cannot be encoded at all if some unknown tuple cannot be counted: its clauses would have
to tell apart what such tuples make of it, and they know nothing of them. -/
section Counting

def lowest (b : Bounds) : Interpretation where
  size := b.univ.size
  tuples r t := ∃ range, b.range? r = some range ∧ t.length = r.arity ∧
    (∀ a ∈ t, a < b.univ.size) ∧ encodeIndex b.univ.size t ∈ range.lower.indices

def flipped (i : Interpretation) (r : Relation) : Interpretation :=
  { i with tuples := fun q t => if q = r then ¬ i.tuples q t else i.tuples q t }

theorem lowest_agrees (c : Bounds) : (Leaves.ofBounds c).Agrees (fun _ => false) (lowest c) := by
  refine ⟨rfl, fun r range found _ t => ?_⟩
  constructor
  · rintro ⟨range', found', length, inside, member⟩
    obtain rfl := Option.some.inj (found.symm.trans found')
    exact ⟨length, inside, .inl member⟩
  · rintro ⟨length, inside, member | ⟨_, _, impossible⟩⟩
    · exact ⟨range, found, length, inside, member⟩
    · cases impossible

/-- Clauses do not see a change of a relation whose tuples cannot be counted. -/
theorem flipped_agrees (uncountable : ¬ (c.univ.capacity? r.arity).isSome = true) :
    (Leaves.ofBounds c).Agrees (fun _ => false) (flipped (lowest c) r) := by
  refine ⟨rfl, fun q range found countable t => ?_⟩
  have apart : q ≠ r := by
    rintro rfl
    exact uncountable countable
  rw [show (flipped (lowest c) r).tuples q t ↔ (lowest c).tuples q t by simp [flipped, apart]]
  exact (lowest_agrees c).tuples q range found countable t

theorem Change.marker_iff {marker : Relation} (arity : marker.arity = r.arity)
    (bound : c.range? r = some range) (exactly : c.range? marker = some ⟨range.lower, range.lower⟩)
    (t : List Nat) : (lowest c).tuples r t ↔ (lowest c).tuples marker t := by
  simp [lowest, bound, exactly, arity]

theorem Change.lowest_none (bound : c.range? r = some range) (empty : range.lower.isEmpty = true)
    (t : List Nat) : ¬ (lowest c).tuples r t := by
  rintro ⟨range', found, -, -, member⟩
  obtain rfl := Option.some.inj (bound.symm.trans found)
  rw [IndexSet.mem_def, List.isEmpty_iff.mp empty] at member
  cases member

theorem Change.not_lowest (change : Change c r range g) (bound : c.range? r = some range) :
    ¬ g.holds (lowest c) .none := by
  cases change with
  | nonempty empty =>
    rintro ⟨t, member⟩
    exact lowest_none bound empty t member
  | differs arity exactly => exact fun apart => apart (marker_iff arity bound exactly)

theorem Change.flipped (change : Change c r range g) (bound : c.range? r = some range)
    (choice : range.lower ≠ range.upper) : g.holds (flipped (lowest c) r) .none := by
  cases change with
  | nonempty empty => exact ⟨[], (if_pos rfl).mpr (lowest_none bound empty [])⟩
  | @differs marker arity exactly =>
    have apart : marker ≠ r := by
      rintro rfl
      exact choice (congrArg Range.upper (Option.some.inj (bound.symm.trans exactly))).symm
    intro same
    have here : (Residue.flipped (lowest c) r).tuples r [] ↔
        (Residue.flipped (lowest c) r).tuples marker [] := same []
    simp only [Residue.flipped, if_true, if_neg apart, marker_iff arity bound exactly] at here
    exact iff_not_self here.symm

/-- Where the residue of a formula that is always true has clauses, the unknown tuples can be
counted. -/
theorem Asks.countable {f : Formula} {encoding : Encoding} (regular : b.Regular)
    (asks : Asks b b.relations.entries residue)
    (always : ∀ s i, (Leaves.ofBounds b).Agrees s i → f.holds i .none)
    (encodes : encoding.Encodes (residue.formula f) residue.bounds) {var i : Nat}
    (stands : encoding.numbering.StandsFor var r i) :
    (residue.bounds.univ.capacity? r.arity).isSome = true := by
  by_contra uncountable
  obtain ⟨range, g, listed, choice, isAsked, change⟩ :=
    asks.change_of_stands regular (encodes.numbering ▸ encodes.numbers)
      (encodes.numbering ▸ stands)
  have bounds : ∀ q range, (q, range) ∈ b.relations.entries →
      residue.bounds.range? q = some range :=
    fun q range listed => asks.extended.range? ((Bounds.mem_entries regular.formed).mp listed)
  have flips := flipped_agrees (c := residue.bounds) uncountable
  have lowest_false : ¬ (residue.formula f).holds (lowest residue.bounds) .none := by
    rintro ⟨-, changed⟩
    obtain ⟨h, member, holds⟩ := Formula.holds_orAll.mp changed
    obtain ⟨⟨q, range⟩, listed, -, change⟩ := asks.meant h member
    exact change.not_lowest (bounds q range listed) holds
  have flipped_true : (residue.formula f).holds (flipped (lowest residue.bounds) r) .none :=
    ⟨always _ _ (asks.extended.agrees flips),
      Formula.holds_orAll.mpr ⟨g, isAsked, change.flipped (bounds r range listed) choice⟩⟩
  -- No variable is true in either case, so the clauses can be satisfied in both or in neither.
  have exact := encodes.exact fun _ => false
  rw [encodes.numbering] at exact
  exact lowest_false ((exact _ (lowest_agrees residue.bounds)).mp ((exact _ flips).mpr flipped_true))

end Counting

end Residue

end ModelFinder
