import ModelFinder.Proofs.Finder.Exhaustion
import ModelFinder.Proofs.Finder.Stages

/-! Enumeration of a formula that holds whatever is chosen. The lower bounds come first. The least
assignments of the residue choose one unknown tuple each, so the search that follows finds every
unknown tuple once. -/
namespace ModelFinder

def Bounds.choices (b : Bounds) : List (Relation × Nat) :=
  b.relations.entries.flatMap fun (r, range) => range.unknowns.map (r, ·)

/-- On the relations of the bounds, the instance has the lower bounds and one tuple besides. -/
structure Instance.AddsOne (b : Bounds) (choice : Relation × Nat) (m : Instance) : Prop where
  univ : m.univ = b.univ
  values : ∀ r range, b.range? r = some range → ∃ set, m.tuples? r = some set ∧
    set.univ = b.univ ∧ set.arity = r.arity ∧
      ∀ i, i ∈ set.indices ↔ i ∈ range.lower.indices ∨ (r, i) = choice

def Picks (count : Nat) (a : Nat → Bool) (var : Nat) : Prop :=
  ∀ v, 1 ≤ v → v ≤ count → (a v = true ↔ v = var)

section Choices

variable {b c : Bounds} {r : Relation} {i : Nat}

theorem Bounds.mem_choices (formed : b.WellFormed) :
    (r, i) ∈ b.choices ↔ ∃ range, b.range? r = some range ∧ i ∈ range.unknowns := by
  simp only [choices, List.mem_flatMap, List.mem_map]
  constructor
  · rintro ⟨⟨q, range⟩, listed, j, unknown, same⟩
    obtain ⟨rfl, rfl⟩ := Prod.mk.inj same
    exact ⟨range, (mem_entries formed).mp listed, unknown⟩
  · rintro ⟨range, found, unknown⟩
    exact ⟨(r, range), (mem_entries formed).mpr found, i, unknown, rfl⟩

theorem Bounds.choices_nodup (formed : b.WellFormed) : b.choices.Nodup := by
  apply List.nodup_flatMap.mpr
  constructor
  · intro entry _
    apply List.pairwise_map.mpr
    apply (unknowns_ascending entry.2).imp
    intro i j less same
    exact Nat.ne_of_lt less (Prod.mk.inj same).2
  · apply (List.pairwise_map.mp formed.distinct).imp
    intro entry other apart choice here there
    obtain ⟨i, -, rfl⟩ := List.mem_map.mp here
    obtain ⟨j, -, same⟩ := List.mem_map.mp there
    exact apart (Prod.mk.inj same).1.symm

theorem Bounds.length_choices (formed : b.WellFormed) : b.choices.length = b.unknownCount := by
  rw [unknownCount_eq formed, unknownTotal, choices, List.length_flatMap]
  simp only [List.length_map]

/-- Over further bounds as well, the unknown tuples are those with variables. -/
theorem Bounds.Extends.mem_choices (extended : b.Extends c) (regular : b.Regular)
    (numbers : (Numbering.ofBounds b).Numbers b) :
    (r, i) ∈ b.choices ↔ ∃ var, (Numbering.ofBounds c).StandsFor var r i := by
  rw [Bounds.mem_choices regular.formed]
  simp only [extended.standsFor]
  constructor
  · rintro ⟨range, found, unknown⟩
    exact (numbers.mem_unknowns found).mp unknown
  · rintro ⟨var, stands⟩
    obtain ⟨e, member, rfl, -⟩ := id stands
    obtain ⟨range, found, -⟩ := numbers.tuples e member
    exact ⟨range, found, (numbers.mem_unknowns found).mpr ⟨var, stands⟩⟩

theorem Bounds.Extends.addsOne (extended : b.Extends c) {n : Numbering} (numbers : n.Numbers c)
    {a : Nat → Bool} {var : Nat} {m : Instance} (depicts : n.Depicts c a m)
    (picks : Picks n.count a var) (stands : n.StandsFor var r i) : m.AddsOne b (r, i) := by
  refine ⟨depicts.univ.trans extended.univ, fun q range found => ?_⟩
  obtain ⟨set, isValue, univ, arity, members⟩ := depicts.values q range (extended.range? found)
  refine ⟨set, isValue, univ.trans extended.univ, arity, fun j => ?_⟩
  rw [members, Prod.mk.injEq]
  apply or_congr_right
  constructor
  · rintro ⟨v, isVar, chosen⟩
    obtain ⟨lower, upper⟩ := isVar.bounds numbers
    obtain rfl := (picks v lower upper).mp chosen
    exact numbers.stands_unique isVar stands
  · rintro ⟨rfl, rfl⟩
    obtain ⟨lower, upper⟩ := stands.bounds numbers
    exact ⟨var, stands, (picks var lower upper).mpr rfl⟩

end Choices

namespace Residue

variable {b : Bounds} {residue : Residue} {f : Formula} {encoding : Encoding}

section Least

variable (regular : b.Regular) (asks : Asks b b.relations.entries residue)
  (countable : ∀ r ∈ b.relations.keys, (b.univ.capacity? r.arity).isSome = true)
  (small : b.unknownCount < 2147483647)
  (always : ∀ s i, (Leaves.ofBounds b).Agrees s i → f.holds i .none)
  (encodes : encoding.Encodes (residue.formula f) residue.bounds)

include regular asks countable small always encodes

/-- A valuation extends to the clauses of the residue if it chooses anything. -/
theorem Asks.extends_iff (s : Nat → Bool) :
    (∃ a, (∀ v, 1 ≤ v → v ≤ encoding.numbering.count → a v = s v) ∧ encoding.Models a) ↔
      ∃ var, 1 ≤ var ∧ var ≤ encoding.numbering.count ∧ s var = true := by
  have agrees := (Numbering.instanceAt_depicts asks.regular encodes.numbers s).agrees asks.regular
    encodes.numbers
  have exact := encodes.exact s _ agrees
  rw [encodes.numbering] at exact agrees ⊢
  exact exact.trans (asks.formula_holds regular countable small always agrees)

theorem Asks.exists_picks {var : Nat} (lower : 1 ≤ var) (upper : var ≤ encoding.numbering.count) :
    ∃ a, encoding.Models a ∧ Picks encoding.numbering.count a var := by
  obtain ⟨a, same, models⟩ := (asks.extends_iff regular countable small always encodes
    fun v => decide (v = var)).mpr ⟨var, lower, upper, decide_eq_true rfl⟩
  refine ⟨a, models, fun v low high => ?_⟩
  rw [same v low high, decide_eq_true_eq]

/-- Below every assignment that chooses something lies one that chooses one tuple only. -/
theorem Asks.least_picks {a : Nat → Bool} (least : encoding.Least a) :
    ∃ var, 1 ≤ var ∧ var ≤ encoding.numbering.count ∧ Picks encoding.numbering.count a var := by
  obtain ⟨var, lower, upper, chosen⟩ := (asks.extends_iff regular countable small always encodes
    a).mp ⟨a, fun _ _ _ => rfl, least.1⟩
  obtain ⟨c, models, picks⟩ := asks.exists_picks regular countable small always encodes lower upper
  have below : Below encoding.numbering.count c a := by
    intro v low high isTrue
    obtain rfl := (picks v low high).mp isTrue
    exact chosen
  refine ⟨var, lower, upper, fun v low high => ⟨fun isTrue => ?_, ?_⟩⟩
  · exact (picks v low high).mp (least.2 c models below v low high isTrue)
  · rintro rfl
    exact chosen

/-- Least assignments of the residue, none in the cone of another and together below every assignment,
choose every unknown tuple once. -/
theorem Asks.choices_of_least {found : List ((Nat → Bool) × Instance)}
    (least : ∀ d ∈ found, encoding.Least d.1)
    (depicted : ∀ d ∈ found, encoding.numbering.Depicts residue.bounds d.1 d.2)
    (apart : (found.map Prod.fst).Pairwise fun a c => ¬ Below encoding.numbering.count a c)
    (covers : ∀ a, encoding.Models a → ∃ d ∈ found, Below encoding.numbering.count d.1 a) :
    ∃ order, order.Perm b.choices ∧
      List.Forall₂ (fun d choice => d.2.AddsOne b choice) found order := by
  have numbers := encodes.numbers
  obtain ⟨numbered, -⟩ := Numbering.ofBounds_numbers regular.formed
    (Nat.lt_trans small (by decide : 2147483647 < wordBound))
  have each : ∀ d ∈ found, ∃ choice : Relation × Nat, ∃ var,
      encoding.numbering.StandsFor var choice.1 choice.2 ∧
        Picks encoding.numbering.count d.1 var := by
    intro d member
    obtain ⟨var, lower, upper, picks⟩ :=
      asks.least_picks regular countable small always encodes (least d member)
    obtain ⟨r, i, stands⟩ := numbers.exists_stands lower upper
    exact ⟨(r, i), var, stands, picks⟩
  have : Nonempty (Relation × Nat) := ⟨⟨0, "", 1, Nat.one_pos⟩, 0⟩
  choose! choice var stands picks using each
  refine ⟨found.map choice, ?_, ?_⟩
  · apply (List.perm_ext_iff_of_nodup ?_ (Bounds.choices_nodup regular.formed)).mpr
    · rintro ⟨r, i⟩
      rw [asks.extended.mem_choices regular numbered, ← encodes.numbering]
      constructor
      · intro member
        obtain ⟨d, isFound, same⟩ := List.mem_map.mp member
        have isVar := stands d isFound
        rw [same] at isVar
        exact ⟨var d, isVar⟩
      · rintro ⟨v, isVar⟩
        obtain ⟨lower, upper⟩ := isVar.bounds numbers
        obtain ⟨a, models, only⟩ :=
          asks.exists_picks regular countable small always encodes lower upper
        obtain ⟨d, isFound, below⟩ := covers a models
        obtain ⟨low, high⟩ := (stands d isFound).bounds numbers
        have isTrue := below _ low high ((picks d isFound _ low high).mpr rfl)
        have same : var d = v := (only _ low high).mp isTrue
        have unique := numbers.stands_unique (stands d isFound) (same ▸ isVar)
        exact List.mem_map.mpr ⟨d, isFound, Prod.ext unique.1 unique.2⟩
    · apply List.pairwise_map.mpr
      apply (List.pairwise_map.mp apart).imp_of_mem
      intro d other isFound isOther above same
      have isVar := stands d isFound
      rw [same] at isVar
      have sameVar := numbers.var_unique asks.regular.formed isVar (stands other isOther)
      apply above
      intro v low high isTrue
      apply (picks other isOther v low high).mpr
      rw [← sameVar]
      exact (picks d isFound v low high).mp isTrue
  · apply List.forall₂_map_right_iff.mpr
    apply List.forall₂_same.mpr
    intro d isFound
    exact asks.extended.addsOne numbers (depicted d isFound) (picks d isFound) (stands d isFound)

end Least

end Residue

variable {σ : Type} [Backend σ] {held : σ → List Clause} {b : Bounds} {residue : Residue}
  {f : Formula}

/-- The search for the residue gives every unknown tuple once, then the end. -/
theorem Enumeration.answers_residue {e : Enumeration σ} {encoding : Encoding}
    (faithful : Faithful σ held) (reliable : Reliable σ) (fresh : held e.backend = [])
    (free : e.assumptions = []) (running : e.options.aborted = false)
    (unlimited : e.options.timeoutMs ≠ some 0)
    (pending : e.phase = .pending (residue.formula f) residue.bounds)
    (encoded : (residue.formula f).encode residue.bounds e.options.sharing e.options.logged =
      .ok (.clauses encoding))
    (encodes : encoding.Encodes (residue.formula f) residue.bounds) (regular : b.Regular)
    (asks : residue.Asks b b.relations.entries)
    (countable : ∀ r ∈ b.relations.keys, (b.univ.capacity? r.arity).isSome = true)
    (small : b.unknownCount < 2147483647)
    (always : ∀ s i, (Leaves.ofBounds b).Agrees s i → f.holds i .none) :
    ∃ (found : List (Instance × Statistics)) (order : List (Relation × Nat))
      (proof : Option Refutation) (last : Statistics), order.Perm b.choices ∧
      List.Forall₂ (fun d choice => d.1.AddsOne b choice) found order ∧
      ∀ further, e.answers (found.length + 1 + further) =
        found.map (fun d => .ok (.sat d.1 d.2)) ++
          .ok (.unsat proof last) :: List.replicate further (.error .exhausted) := by
  have start : e.Pursues held (residue.formula f) residue.bounds encoding [] [] :=
    ⟨fresh, free, unlimited, encoded, by simp, by simp, by rw [pending]; exact ⟨rfl, rfl, rfl⟩⟩
  obtain ⟨found, proof, last, final, reached, finished, apart, answers⟩ := start.exhausts faithful
    reliable (encodes.poses_nil asks.regular) running (by rw [hasNext, pending]) .nil
  have covers := reached.phase
  have least := reached.least
  rw [finished] at covers
  rw [Encoding.assume_nil] at least
  simp only [List.nil_append, Phase.Reached, Encoding.assume_nil] at covers least apart
  obtain ⟨order, permuted, related⟩ := asks.choices_of_least regular countable small always encodes
    least reached.depicted apart covers
  refine ⟨found.map fun d => (d.1.2, d.2), order, proof, last, permuted, ?_, fun further => ?_⟩
  · exact List.forall₂_map_left_iff.mpr (List.forall₂_map_left_iff.mp related)
  · rw [List.length_map, answers further, List.map_map]
    rfl

theorem Formula.encode_false (c : Bounds) (sharing logged : Bool) :
    ∃ result, (Formula.const false).encode c sharing logged = .ok (.folded result) ∧
      result.value = false :=
  ⟨_, rfl, rfl⟩

/-- Enumeration of a formula that folds is exact. A false one gives one answer. A true one gives the
lower bounds, then every instance with one unknown tuple besides, each once, and then the end, which
comes as the end of a search or, where nothing is unknown, without a search. -/
theorem solveAll_folded {solver : σ} (faithful : Faithful σ held) (reliable : Reliable σ)
    (fresh : held solver = []) (built : b.Built) (sorted : f.WellSorted) (o : Options)
    (fits : f.FitsThroughout b o.sharing o.logged)
    (countable : ∀ r ∈ b.relations.keys, (b.univ.capacity? r.arity).isSome = true)
    (incremental : o.solver.incremental = true) (running : o.aborted = false)
    (unlimited : o.timeoutMs ≠ some 0) {result : Folded}
    (folded : f.encode b o.sharing o.logged = .ok (.folded result)) :
    ∃ start, solveAll solver f b o = .ok start ∧
      (result.value = true → ∃ lowest stats, lowest.Lowest b ∧
        (b.unknownCount ≠ 0 → ∃ (found : List (Instance × Statistics))
          (order : List (Relation × Nat)) (proof : Option Refutation) (last : Statistics),
          found.length = b.unknownCount ∧ order.Perm b.choices ∧
          List.Forall₂ (fun d choice => d.1.AddsOne b choice) found order ∧
          ∀ further, start.answers (found.length + 2 + further) =
            .ok (.triviallySat lowest stats) :: found.map (fun d => .ok (.sat d.1 d.2)) ++
              .ok (.unsat proof last) :: List.replicate further (.error .exhausted)) ∧
        (b.unknownCount = 0 → ∃ proof last, ∀ further, start.answers (2 + further) =
          .ok (.triviallySat lowest stats) :: .ok (.triviallyUnsat proof last) ::
            List.replicate further (.error .exhausted))) ∧
      (result.value = false → ∃ proof stats, ∀ further, start.answers (1 + further) =
        .ok (.triviallyUnsat proof stats) :: List.replicate further (.error .exhausted)) := by
  have regular := built.regular
  have fits₀ := fits 0 f b .first
  have started : solveAll solver f b o = .ok (.make solver f b o []) := by
    rw [solveAll, Options.requireIncremental, if_pos incremental]
    rfl
  refine ⟨_, started, fun isTrue => ?_, fun isFalse => ?_⟩
  · obtain ⟨rfl, isBounds, -, value⟩ := Formula.encode_folded regular sorted fits₀ folded
    have small := Formula.unknownCount_lt fits₀ folded
    have always : ∀ s i, (Leaves.ofBounds b).Agrees s i → result.formula.holds i .none :=
      fun s i agrees => (value s i agrees).mp isTrue
    obtain ⟨residue, asks, made⟩ := Residue.ofFolded_asks regular 1 isBounds
    obtain ⟨lowest, stats, g, c, ⟨isLowest, -⟩, ok, isNext⟩ := Enumeration.next_folded_true
      (e := .make solver result.formula b o []) regular rfl folded isTrue
    obtain ⟨rfl, rfl⟩ := Prod.mk.inj (Except.ok.inj (ok.symm.trans made))
    have fits₁ := fits 1 _ _ (.residue .first folded isTrue ok)
    -- What comes next is a search for the residue, or its end at once if it asks for nothing.
    have nothing : residue.changes.isEmpty = true ↔ b.unknownCount = 0 :=
      List.isEmpty_iff.trans (asks.changes_eq_nil regular)
    refine ⟨lowest, stats, isLowest, fun choice => ?_, fun none => ?_⟩
    · rw [if_neg (mt nothing.mp choice)] at isNext fits₁
      obtain ⟨encoding, encoded⟩ := asks.encode_clauses regular countable small choice sorted fits₁
        always folded
      have encodes := Formula.encode_clauses asks.regular (asks.wellSorted sorted) fits₁ encoded
      obtain ⟨found, order, proof, last, permuted, related, answers⟩ :=
        Enumeration.answers_residue
          (e := ⟨solver, o, [], .pending (residue.formula result.formula) residue.bounds, 1, []⟩)
          faithful reliable fresh rfl running unlimited rfl encoded encodes regular asks countable
          small always
      refine ⟨found, order, proof, last, ?_, permuted, related, fun further => ?_⟩
      · rw [related.length_eq, permuted.length_eq, Bounds.length_choices regular.formed]
      · have calls : found.length + 2 + further = found.length + 1 + further + 1 := by omega
        rw [calls, Enumeration.answers, isNext]
        exact congrArg _ (answers further)
    · rw [if_pos (nothing.mpr none)] at isNext
      obtain ⟨refuted, again, isFalse⟩ :=
        Formula.encode_false residue.bounds o.sharing o.logged
      obtain ⟨last, isLast⟩ := Enumeration.next_folded_refuted
        (e := ⟨solver, o, [], .pending (.const false) residue.bounds, 1, []⟩) rfl again isFalse
      refine ⟨refuted.log.map .ofFolded, last, fun further => ?_⟩
      have calls : 2 + further = further + 1 + 1 := by omega
      rw [calls, Enumeration.answers, isNext, Enumeration.answers]
      simp only [Enumeration.make, Nat.zero_add, isLast]
      rw [Enumeration.answers_exhausted rfl]
  · obtain ⟨stats, isNext⟩ := Enumeration.next_folded_refuted
      (e := .make solver f b o []) rfl folded isFalse
    refine ⟨result.log.map .ofFolded, stats, fun further => ?_⟩
    rw [Nat.add_comm, Enumeration.answers, isNext, Enumeration.answers_exhausted rfl]

namespace Sample

def residual : Formula := .binary .and (.const true) formula

theorem true_run (leaves : Leaves) (c : Circuit) :
    groundConjuncts leaves (Formula.const true).conjuncts c =
      .ok (([.const true], .const true), c) := by
  have all : (liftM (Circuit.all [.const true]) : Build Value) c = .ok (.const true, c) := by
    simp [Synth.lift_run, Circuit.all, Circuit.combine, Circuit.operands, Ascending.sort,
      List.eraseReps]
    rfl
  exact Build.bind_run.mpr ⟨[.const true], c, rfl, Build.bind_run.mpr ⟨_, _, all, rfl⟩⟩

theorem true_encode (sharing : Bool) : (Formula.const true).encode bounds sharing false =
    .ok (.folded ⟨true, .const true, bounds, none⟩) :=
  bind_eq_ok.mpr ⟨(), rfl, bind_eq_ok.mpr ⟨_, true_run _ _, rfl⟩⟩

theorem true_residue : Residue.ofFolded 1 ⟨true, .const true, bounds, none⟩ =
    .ok (residual, bounds) := by
  have choice : range.lower ≠ range.upper := by
    intro same
    have unknown : 0 ∈ range.unknowns := unknowns ▸ List.mem_singleton_self 0
    exact (Bounds.mem_unknowns.mp unknown).2 (same ▸ (Bounds.mem_unknowns.mp unknown).1)
  have added : (⟨bounds, []⟩ : Residue).add 1 relation range = .ok ⟨bounds, [formula]⟩ := by
    rw [Residue.add, if_neg choice, if_pos]
    · rfl
    · rfl
  exact bind_eq_ok.mpr ⟨_, bind_eq_ok.mpr ⟨_, added, rfl⟩, rfl⟩

theorem residual_run (sharing : Bool) : groundConjuncts (.ofBounds bounds) residual.conjuncts
    ((Leaves.ofBounds bounds).circuit sharing) =
      .ok (([.const true, .lit 1], .lit 1), Circuit.empty 1 sharing) := by
  have start : (Leaves.ofBounds bounds).circuit sharing = Circuit.empty 1 sharing := by
    rw [leaves]
    rfl
  have operands : Circuit.operands true [.const true, .lit 1] = some [1] := by
    simp [Circuit.operands, label_one]
  have all : (liftM (Circuit.all [.const true, .lit 1]) : Build Value) (Circuit.empty 1 sharing) =
      .ok (.lit 1, Circuit.empty 1 sharing) :=
    congrArg Except.ok (combine_single _ (by decide) operands _)
  rw [start]
  apply Build.bind_run.mpr
  exact ⟨[.const true, .lit 1], _, Build.bind_run.mpr ⟨_, _, rfl, Build.bind_run.mpr ⟨_, _,
    Build.bind_run.mpr ⟨_, _, ground_run sharing, rfl⟩, rfl⟩⟩, Build.bind_run.mpr ⟨_, _, all, rfl⟩⟩

theorem residual_encode (sharing logged : Bool) :
    ∃ e, residual.encode bounds sharing logged = .ok (.clauses e) :=
  ⟨_, bind_eq_ok.mpr ⟨(), rfl, bind_eq_ok.mpr ⟨_, residual_run sharing, rfl⟩⟩⟩

theorem true_fits (sharing : Bool) : (Formula.const true).FitsThroughout bounds sharing false := by
  obtain ⟨e, encoded⟩ := residual_encode sharing false
  intro round g c stage result circuit ran
  rcases stage.eq_of_residue (true_encode sharing) true_residue encoded with
    ⟨-, rfl, rfl⟩ | ⟨-, rfl, rfl⟩
  · obtain ⟨-, rfl⟩ := Prod.mk.inj (Except.ok.inj ((true_run _ _).symm.trans ran))
    show bounds.unknownCount + 0 < 2147483647
    decide
  · obtain ⟨-, rfl⟩ := Prod.mk.inj (Except.ok.inj ((residual_run sharing).symm.trans ran))
    show bounds.unknownCount + 0 < 2147483647
    decide

end Sample

theorem sample_solveAll_folded :
    ∃ start, solveAll (⟨[]⟩ : Exhaustive) (.const true) Sample.bounds .standard = .ok start ∧
      ∃ lowest stats m found proof last, lowest.Lowest Sample.bounds ∧
        m.AddsOne Sample.bounds (Sample.relation, 0) ∧
        ∀ further, start.answers (3 + further) =
          .ok (.triviallySat lowest stats) :: .ok (.sat m found) :: .ok (.unsat proof last) ::
            List.replicate further (.error .exhausted) := by
  obtain ⟨start, started, answered, -⟩ := solveAll_folded Exhaustive.faithful Exhaustive.reliable
    (rfl : Exhaustive.clauses ⟨[]⟩ = []) Sample.built (f := .const true) trivial .standard
    (Sample.true_fits true) (by decide) rfl rfl (by decide) (Sample.true_encode true)
  obtain ⟨lowest, stats, isLowest, searched, -⟩ := answered rfl
  obtain ⟨found, order, proof, last, -, permuted, related, answers⟩ := searched (by decide)
  have choices : Sample.bounds.choices = [(Sample.relation, 0)] := by
    simp [Bounds.choices, Sample.bounds, Sample.unknowns]
  rw [choices, List.perm_singleton] at permuted
  rw [permuted] at related
  obtain ⟨d, rest, adds, none, rfl⟩ := List.forall₂_cons_right_iff.mp related
  obtain rfl := List.forall₂_nil_right_iff.mp none
  exact ⟨start, started, lowest, stats, d.1, d.2, proof, last, isLowest, adds, answers⟩

end ModelFinder
