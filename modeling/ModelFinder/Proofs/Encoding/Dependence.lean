import ModelFinder.Proofs.Encoding.Formulas

/-! Grounding depends on the universe and on the relations that are mentioned, and on nothing else of
the bounds. So bounds that give further relations exact values change neither the numbering nor the
circuit of a formula that does not mention them. -/
namespace ModelFinder

structure Leaves.Alike (l m : Leaves) (relations : List Relation) : Prop where
  univ : l.bounds.univ = m.bounds.univ
  relation : ∀ r ∈ relations, l.relation r = m.relation r

variable {l m : Leaves}

theorem Leaves.Alike.of_subset {some all : List Relation} (alike : l.Alike m all)
    (part : some ⊆ all) : l.Alike m some :=
  ⟨alike.univ, fun r member => alike.relation r (part member)⟩

theorem Expr.ground_congr (e : Expr) (alike : l.Alike m e.relationLeaves) (scope : Scope) :
    e.ground l scope = e.ground m scope := by
  induction e with
  | rel r => exact alike.relation r (by simp [relationLeaves])
  | var v => rfl
  | const c =>
    have same : l.const c = m.const c := by
      cases c <;> simp only [Leaves.const, alike.univ]
    simp only [Expr.ground, same]
  | binary op left right ihLeft ihRight =>
    have first := ihLeft (alike.of_subset (List.subset_append_left _ _))
    have second := ihRight (alike.of_subset (List.subset_append_right _ _))
    simp only [Expr.ground, first, second]
  | unary op body ih => simp only [Expr.ground, ih alike]

theorem unfoldDecls_congr (q : Quantifier) (body : Scope → Build Value) {decls : List Decl}
    (alike : l.Alike m (decls.flatMap (·.domain.relationLeaves))) (scope : Scope) (guard : Value)
    (acc : Array Value) :
    unfoldDecls l q body decls scope guard acc = unfoldDecls m q body decls scope guard acc := by
  induction decls generalizing scope guard acc with
  | nil => rfl
  | cons d rest ih =>
    have domain := d.domain.ground_congr (alike.of_subset (List.subset_append_left _ _)) scope
    have others := ih (alike.of_subset (List.subset_append_right _ _))
    simp only [unfoldDecls, domain, others]

mutual

theorem Formula.ground_congr : (f : Formula) → l.Alike m f.relationLeaves → (scope : Scope) →
    f.ground l scope = f.ground m scope
  | .const _, _, _ => rfl
  | .binary op left right, alike, scope => by
      have first := left.ground_congr (alike.of_subset (List.subset_append_left _ _)) scope
      have second := right.ground_congr (alike.of_subset (List.subset_append_right _ _)) scope
      simp only [Formula.ground, first, second]
  | .nary op parts, alike, scope => by
      simp only [Formula.ground, Formula.groundAll_congr parts alike scope]
  | .not body, alike, scope => by simp only [Formula.ground, body.ground_congr alike scope]
  | .compare op left right, alike, scope => by
      have first := left.ground_congr (alike.of_subset (List.subset_append_left _ _)) scope
      have second := right.ground_congr (alike.of_subset (List.subset_append_right _ _)) scope
      simp only [Formula.ground, first, second]
  | .multiplicity _ body, alike, scope => by
      simp only [Formula.ground, body.ground_congr alike scope]
  | .quantified q decls body, alike, scope => by
      have inner : body.ground l = body.ground m := by
        funext scope
        exact body.ground_congr (alike.of_subset (List.subset_append_right _ _)) scope
      have outer := unfoldDecls_congr q (body.ground m)
        (alike.of_subset (List.subset_append_left _ _)) scope (.const true) #[]
      simp only [Formula.ground, inner, outer]

theorem Formula.groundAll_congr : (fs : List Formula) → l.Alike m (Formula.relationLeavesAll fs) →
    (scope : Scope) → Formula.groundAll l fs scope = Formula.groundAll m fs scope
  | [], _, _ => rfl
  | f :: fs, alike, scope => by
      have first := f.ground_congr (alike.of_subset (List.subset_append_left _ _)) scope
      have others := Formula.groundAll_congr fs (alike.of_subset (List.subset_append_right _ _)) scope
      simp only [Formula.groundAll, first, others]

end

structure Bounds.Extends (b c : Bounds) : Prop where
  univ : c.univ = b.univ
  ints : c.ints = b.ints
  entries : ∃ more, c.relations.entries = b.relations.entries ++ more ∧
    ∀ entry ∈ more, entry.2.lower = entry.2.upper

namespace Bounds.Extends

variable {b c : Bounds} {r : Relation} {range : Range}

theorem refl (b : Bounds) : b.Extends b := ⟨rfl, rfl, [], by simp, by simp⟩

theorem range? (extended : b.Extends c) (found : b.range? r = some range) :
    c.range? r = some range := by
  obtain ⟨more, entries, -⟩ := extended.entries
  rw [Bounds.range?, Table.find?, entries, List.lookup_append,
    show b.relations.entries.lookup r = some range from found]
  rfl

theorem unknownCount (extended : b.Extends c) : c.unknownCount = b.unknownCount := by
  obtain ⟨more, entries, exact⟩ := extended.entries
  have nothing : (more.map fun entry => entry.2.upper.size - entry.2.lower.size).foldr (· + ·) 0 =
      0 := by
    clear entries
    induction more with
    | nil => rfl
    | cons entry more ih =>
      have rest := ih fun entry member => exact entry (List.mem_cons_of_mem _ member)
      simp [exact entry List.mem_cons_self] at rest ⊢
      exact rest
  rw [Bounds.unknownCount, entries, List.map_append, List.foldr_append, nothing]
  rfl

theorem insert (extended : b.Extends c) (tuples : TupleSet) (absent : r ∉ c.relations.keys) :
    b.Extends { c with relations := c.relations.insert r ⟨tuples, tuples⟩ } := by
  obtain ⟨more, entries, exact⟩ := extended.entries
  refine ⟨extended.univ, extended.ints, more ++ [(r, ⟨tuples, tuples⟩)], ?_, ?_⟩
  · rw [Table.insert_entries _ absent, entries, List.append_assoc]
  · intro entry member
    rcases List.mem_append.mp member with old | new
    · exact exact entry old
    · rw [List.mem_singleton.mp new]

end Bounds.Extends

namespace Numbering

theorem number_append (a : Allocator) (listed more : List (Relation × Range)) :
    number a (listed ++ more) = ((number a listed).1 ++ (number (number a listed).2 more).1,
      (number (number a listed).2 more).2) := by
  induction listed generalizing a with
  | nil => rfl
  | cons entry rest ih => simp only [List.cons_append, number, ih]

theorem number_exact (a : Allocator) {listed : List (Relation × Range)}
    (exact : ∀ entry ∈ listed, entry.2.lower = entry.2.upper) :
    (∀ e ∈ (number a listed).1, e.tuples = #[]) ∧ (number a listed).2.next = a.next := by
  induction listed generalizing a with
  | nil => exact ⟨by simp [number], rfl⟩
  | cons entry rest ih =>
    obtain ⟨r, range⟩ := entry
    have none : range.unknowns = [] := Bounds.unknowns_of_exact (exact _ List.mem_cons_self)
    obtain ⟨tuples, next⟩ := ih (a.allocate r range.unknowns.length).2
      fun entry member => exact entry (List.mem_cons_of_mem _ member)
    simp only [number]
    refine ⟨?_, ?_⟩
    · intro e member
      rcases List.mem_cons.mp member with rfl | later
      · rw [none]
      · exact tuples e later
    · rw [next, none]
      rfl

end Numbering

namespace Bounds.Extends

variable {b c : Bounds} {r : Relation} {range : Range}

theorem numbering (extended : b.Extends c) :
    (Numbering.ofBounds c).count = (Numbering.ofBounds b).count ∧
      ∃ more, (Numbering.ofBounds c).entries = (Numbering.ofBounds b).entries ++ more ∧
        ∀ e ∈ more, e.tuples = #[] := by
  obtain ⟨more, entries, exact⟩ := extended.entries
  have split := Numbering.number_append .empty b.relations.entries more
  obtain ⟨tuples, next⟩ :=
    Numbering.number_exact (Numbering.number .empty b.relations.entries).2 exact
  simp only [Numbering.ofBounds, entries, split, Allocator.total, next]
  exact ⟨trivial, _, rfl, tuples⟩

theorem entry_eq (extended : b.Extends c) (found : b.range? r = some range) :
    Numbering.entry? (.ofBounds c) r = Numbering.entry? (.ofBounds b) r := by
  obtain ⟨-, more, entries, -⟩ := extended.numbering
  have known : r ∈ (Numbering.ofBounds b).entries.map (·.relation) := by
    rw [Numbering.ofBounds_relations]
    apply (Table.contains_iff r).mp
    rw [Table.contains, show b.relations.find? r = some range from found]
    rfl
  obtain ⟨e, member, rfl⟩ := List.mem_map.mp known
  have some : ((Numbering.ofBounds b).entries.find? (·.relation == e.relation)).isSome = true :=
    List.find?_isSome.mpr ⟨e, member, by simp⟩
  rw [ Numbering.entry?, Numbering.entry?, entries, List.find?_append, Option.or_of_isSome some]

theorem standsFor (extended : b.Extends c) {var i : Nat} :
    (Numbering.ofBounds c).StandsFor var r i ↔ (Numbering.ofBounds b).StandsFor var r i := by
  obtain ⟨-, more, entries, none⟩ := extended.numbering
  unfold Numbering.StandsFor
  rw [entries]
  constructor
  · rintro ⟨e, member, isRelation, lower, found⟩
    rcases List.mem_append.mp member with old | new
    · exact ⟨e, old, isRelation, lower, found⟩
    · rw [none e new] at found
      cases found
  · rintro ⟨e, member, rest⟩
    exact ⟨e, List.mem_append_left _ member, rest⟩

theorem numbers (extended : b.Extends c) (formed : c.WellFormed)
    (small : b.unknownCount < 2147483647) :
    (Numbering.ofBounds c).Numbers c ∧ (Numbering.ofBounds c).count = b.unknownCount := by
  have words : c.unknownCount < wordBound := by
    rw [extended.unknownCount, wordBound]
    omega
  obtain ⟨numbers, count⟩ := Numbering.ofBounds_numbers formed words
  exact ⟨numbers, count.trans extended.unknownCount⟩

theorem alike (extended : b.Extends c) {relations : List Relation}
    (bound : ∀ r ∈ relations, b.contains r = true) :
    (Leaves.ofBounds c).Alike (.ofBounds b) relations := by
  refine ⟨extended.univ, fun r member => ?_⟩
  obtain ⟨range, found⟩ := Option.isSome_iff_exists.mp
    (show (b.range? r).isSome = true from bound r member)
  have entry := extended.entry_eq found
  simp only [Leaves.relation, Leaves.ofBounds, found, extended.range? found, extended.univ,
    Numbering.range, Numbering.unknowns, entry]

theorem agrees (extended : b.Extends c) {s : Nat → Bool} {i : Interpretation}
    (agree : (Leaves.ofBounds c).Agrees s i) : (Leaves.ofBounds b).Agrees s i := by
  have sameSize : i.size = b.univ.size := by
    rw [agree.size]
    exact congrArg Universe.size extended.univ
  refine ⟨sameSize, fun r range found countable t => ?_⟩
  have there := agree.tuples r range (extended.range? found)
    (show (c.univ.capacity? r.arity).isSome = true from extended.univ ▸ countable) t
  rw [there]
  simp only [Leaves.ofBounds, extended.standsFor]

end Bounds.Extends

end ModelFinder
