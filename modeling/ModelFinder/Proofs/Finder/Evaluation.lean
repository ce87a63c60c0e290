import ModelFinder.Finder.Solve
import ModelFinder.Proofs.Encoding.Meaning
import ModelFinder.Proofs.Encoding.Resolution

/-! Evaluation and encoding agree. An instance makes bounds that leave no choice; evaluation over them
gives the truth of a formula, and never fails for want of a constant. Where a formula was encoded, it is
evaluated in the instance of every valuation, with the truth that the encoding gives it. -/
namespace ModelFinder

inductive Instance.Built : Instance → Prop
  | empty (u : Universe) : Built (.empty u)
  | insert {m next : Instance} {r : Relation} {set : TupleSet} (built : Built m) (setBuilt : set.Built)
      (ok : m.insert r set = .ok next) : Built next
  | insertInt {m next : Instance} {value : Int} {set : TupleSet} (built : Built m)
      (setBuilt : set.Built) (ok : m.insertInt value set = .ok next) : Built next

structure Instance.Regular (m : Instance) : Prop where
  distinct : m.relations.keys.Nodup
  values : ∀ r set, m.tuples? r = some set →
    set.univ = m.univ ∧ set.arity = r.arity ∧ set.Fits

namespace Instance

variable {m next : Instance} {r : Relation} {set : TupleSet}

theorem empty_regular (u : Universe) : (empty u).Regular :=
  ⟨List.nodup_nil, fun r set found => by cases found⟩

theorem Regular.insert (regular : m.Regular) (fits : set.Fits) (ok : m.insert r set = .ok next) :
    next.Regular := by
  obtain ⟨⟨univ, arity⟩, rfl⟩ := insert_eq_ok ok
  refine ⟨Table.insert_nodup regular.distinct r set, fun q other found => ?_⟩
  rw [tuples?_insert] at found
  split at found
  · rename_i same
    obtain rfl := Option.some.inj found
    exact ⟨univ, same ▸ arity, fits⟩
  · exact regular.values q other found

theorem Built.regular (built : m.Built) : m.Regular := by
  induction built with
  | empty u => exact empty_regular u
  | insert _ setBuilt ok ih => exact ih.insert setBuilt.fits ok
  | insertInt _ _ ok ih =>
    unfold Instance.insertInt at ok
    split at ok
    · cases ok
    · obtain rfl := Except.ok.inj ok
      exact ⟨ih.distinct, ih.values⟩

structure Pins (m : Instance) (b : Bounds) : Prop where
  univ : b.univ = m.univ
  regular : b.Regular
  ranges : ∀ r, b.range? r = (m.tuples? r).map fun set => ⟨set, set⟩

theorem Pins.exact {b : Bounds} (pins : m.Pins b) : b.Exact := by
  intro r range found
  rw [pins.ranges] at found
  obtain ⟨set, -, rfl⟩ := Option.map_eq_some_iff.mp found
  rfl

theorem bindExactly_of_fitting {b : Bounds} (univ : set.univ = b.univ) (arity : set.arity = r.arity) :
    b.bindExactly r set = .ok { b with relations := b.relations.insert r ⟨set, set⟩ } := by
  have part : set.subset set = true := TupleSet.le_iff.mpr ⟨rfl, rfl, fun _ => id⟩
  rw [Bounds.bindExactly, Bounds.bind, if_neg (by simp [univ]), if_neg (by simp [arity]), if_pos part]

/-- Values bound exactly one after the other, each of a relation of its own. -/
theorem bindAll_succeeds {entries : List (Relation × TupleSet)} {b : Bounds} (regular : b.Regular)
    (distinct : (entries.map Prod.fst).Nodup)
    (fitting : ∀ entry ∈ entries, entry.2.univ = b.univ ∧ entry.2.arity = entry.1.arity ∧
      entry.2.Fits) :
    ∃ next, entries.foldlM (fun (b : Bounds) (r, set) => b.bindExactly r set) b = .ok next ∧
      next.univ = b.univ ∧ next.Regular ∧ ∀ r, next.range? r =
        match entries.lookup r with
        | some set => some ⟨set, set⟩
        | none => b.range? r := by
  induction entries generalizing b with
  | nil => exact ⟨b, rfl, rfl, regular, fun _ => rfl⟩
  | cons entry rest ih =>
    obtain ⟨r, set⟩ := entry
    obtain ⟨fresh, restDistinct⟩ := List.nodup_cons.mp distinct
    obtain ⟨univ, arity, fits⟩ := fitting (r, set) List.mem_cons_self
    have bound := bindExactly_of_fitting univ arity
    obtain ⟨next, ok, sameUniv, isRegular, ranges⟩ := ih (regular.bind fits bound) restDistinct
      fun entry member => fitting entry (List.mem_cons_of_mem _ member)
    refine ⟨next, ?_, sameUniv, isRegular, fun q => ?_⟩
    · exact bind_eq_ok.mpr ⟨_, bound, ok⟩
    · rw [ranges, Bounds.range?, Table.find?_insert, List.lookup_cons]
      by_cases same : q = r
      · subst same
        have absent : rest.lookup q = none := List.lookup_eq_none_iff.mpr fun entry member =>
          bne_iff_ne.mpr fun equal => fresh (List.mem_map.mpr ⟨entry, member, equal.symm⟩)
        simp [absent]
      · have apart : (q == r) = false := beq_false_of_ne same
        rw [apart, if_neg same]
        rfl

theorem toBounds_succeeds (regular : m.Regular) : ∃ b, m.toBounds = .ok b ∧ m.Pins b := by
  obtain ⟨b, ok, univ, isRegular, ranges⟩ := bindAll_succeeds (Bounds.Built.empty m.univ).regular
    regular.distinct fun entry member =>
      regular.values entry.1 entry.2 ((Table.find?_eq_some regular.distinct).mpr member)
  refine ⟨b, ok, univ, isRegular, fun r => ?_⟩
  rw [ranges, tuples?, Table.find?]
  cases m.relations.entries.lookup r <;> rfl

theorem Pins.agrees {b : Bounds} (pins : m.Pins b) (s : Nat → Bool) :
    (Leaves.ofBounds b).Agrees s m.interpretation := by
  have exact := Leaves.ofBounds_exact pins.regular pins.exact
  refine Numbering.Depicts.agrees (n := .ofBounds b) ⟨pins.univ.symm, ?_⟩ pins.regular
    exact.proper.numbers
  intro r range found
  have isRange := found
  rw [pins.ranges] at isRange
  obtain ⟨set, isValue, rfl⟩ := Option.map_eq_some_iff.mp isRange
  obtain ⟨univ, -, arity, -⟩ := pins.regular.formed.ranges r _ found
  refine ⟨set, isValue, univ, arity, fun i => ⟨.inl, ?_⟩⟩
  rintro (member | ⟨var, stands, -⟩)
  · exact member
  · obtain ⟨positive, small⟩ := stands.bounds exact.proper.numbers
    rw [exact.count] at small
    exact absurd (positive.trans small) (by decide)

theorem Pins.closed {b : Bounds} (pins : m.Pins b) (sharing : Bool) :
    ((Leaves.ofBounds b).circuit sharing).Closed := by
  have count : (Leaves.ofBounds b).numbering.count = 0 :=
    (Leaves.ofBounds_exact pins.regular pins.exact).count
  refine ⟨⟨Circuit.empty_formed _ _, ?_⟩, count⟩
  show (Leaves.ofBounds b).numbering.count + 0 < Value.trueLabel
  rw [count]
  decide

end Instance

section Evaluate

variable {m : Instance} {f : Formula} {e : Expr} {sharing : Bool}

/-- Over bounds that leave no choice but an instance a formula has its truth there for its value. -/
theorem Instance.Pins.ground_eq {b : Bounds} (pins : m.Pins b) (sorted : f.WellSorted) {v : Value}
    {c : Circuit}
    (run : f.ground (.ofBounds b) .empty ((Leaves.ofBounds b).circuit sharing) = .ok (v, c)) :
    ∃ value, v = .const value ∧ (value = true ↔ f.holds m.interpretation .none) := by
  have exact := Leaves.ofBounds_exact pins.regular pins.exact
  have closed := pins.closed sharing
  obtain ⟨rfl, value, rfl⟩ := Formula.ground_folds exact f .empty Scope.empty_constant _ _ _ run
  obtain ⟨-, meant⟩ := Formula.ground_ensures exact.proper (pins.agrees fun _ => false) f sorted _
    .empty .none closed.sound Scope.agrees_empty _ _ run closed.sound.labelled
  exact ⟨value, rfl, meant.2⟩

theorem Formula.evaluate_of_ground {b : Bounds} (bounds : m.toBounds = .ok b)
    (covered : b.covers f = .ok ()) {value : Bool} {c : Circuit}
    (run : f.ground (.ofBounds b) .empty ((Leaves.ofBounds b).circuit sharing) =
      .ok (.const value, c)) : f.evaluate m sharing = .ok value :=
  bind_eq_ok.mpr ⟨b, bounds, bind_eq_ok.mpr ⟨(), covered, bind_eq_ok.mpr ⟨_, run, rfl⟩⟩⟩

/-- Evaluation fails by a fault of the input only, and a value is the truth of the formula. -/
theorem Formula.evaluate_spec (regular : m.Regular) (sorted : f.WellSorted) (sharing : Bool) :
    match f.evaluate m sharing with
    | .ok value => value = true ↔ f.holds m.interpretation .none
    | .error error => error.IsInput := by
  obtain ⟨b, bounds, pins⟩ := m.toBounds_succeeds regular
  have exact := Leaves.ofBounds_exact pins.regular pins.exact
  cases covered : b.covers f with
  | error error =>
    obtain ⟨r, -, rfl⟩ := Bounds.covers_eq_error covered
    have failed : f.evaluate m sharing = .error (.unboundRelation r.name) :=
      bind_eq_error.mpr (.inr ⟨b, bounds, bind_eq_error.mpr (.inl covered)⟩)
    rw [failed]
    exact .inl rfl
  | ok _ =>
    have ready : (Leaves.ofBounds b).Ready .empty ((Leaves.ofBounds b).circuit sharing) :=
      exact.proper.ready (pins.closed sharing).sound rfl Scope.empty_sized
    cases run : f.ground (.ofBounds b) .empty ((Leaves.ofBounds b).circuit sharing) with
    | error error =>
      have failed : f.evaluate m sharing = .error error := bind_eq_error.mpr (.inr ⟨b, bounds,
        bind_eq_error.mpr (.inr ⟨(), covered, bind_eq_error.mpr (.inl run)⟩)⟩)
      rw [failed]
      exact (Formula.ground_tame sorted ready).error run
    | ok result =>
      obtain ⟨v, c⟩ := result
      obtain ⟨value, rfl, truth⟩ := pins.ground_eq sorted run
      rw [evaluate_of_ground bounds covered run]
      exact truth

theorem Error.IsInput.not_illegalState {error : Error} (isInput : error.IsInput) :
    error.kind ≠ .illegalState := by
  rcases isInput with kind | kind | kind | kind <;> rw [kind] <;> decide

theorem TupleSet.ofIndices_error {u : Universe} {arity : Nat} {indices : List Nat} {error : Error}
    (failed : ofIndices u arity indices = .error error) : error.IsInput := by
  cases listed : indices.mapM (Tuple.ofIndex u arity) with
  | ok tuples =>
    rw [ofIndices, listed] at failed
    cases failed
  | error fault =>
    rw [ofIndices, listed] at failed
    obtain rfl := Except.error.inj failed
    obtain ⟨i, -, unread⟩ := mapM_eq_error listed
    unfold Tuple.ofIndex at unread
    split at unread
    · cases unread
      exact .inr (.inr (.inr rfl))
    · split at unread
      · cases unread
      · cases unread
        exact .inr (.inr (.inl rfl))

theorem Matrix.Constant.mem_trueIndices {x : Matrix} (constant : x.Constant) {c : Circuit}
    {s : Nat → Bool} (formed : x.WellFormed c) {i : Nat} :
    i ∈ x.trueIndices ↔ x.HoldsAt c s i := by
  rw [holdsAt_iff formed, trueIndices]
  constructor
  · intro member
    obtain ⟨⟨index, v⟩, stored, rfl⟩ := List.mem_map.mp member
    obtain ⟨isCell, isTrue⟩ := List.mem_filter.mp stored
    refine ⟨v, isCell, ?_⟩
    rw [eq_of_beq isTrue]
    rfl
  · rintro ⟨v, isCell, isTrue⟩
    refine List.mem_map.mpr ⟨(i, v), List.mem_filter.mpr ⟨isCell, ?_⟩, rfl⟩
    obtain ⟨b, rfl⟩ := constant _ isCell
    exact beq_iff_eq.mpr (congrArg Value.const isTrue)

/-- Evaluation of an expression fails by a fault of the input only, and a value is what the expression
denotes. -/
theorem Expr.evaluate_spec (regular : m.Regular) (sorted : e.WellSorted) (sharing : Bool) :
    match e.evaluate m sharing with
    | .ok set => ∀ t, (∃ tuple ∈ set.tuples, tuple.positions = t) ↔ e.denote m.interpretation .none t
    | .error error => error.IsInput := by
  obtain ⟨b, bounds, pins⟩ := m.toBounds_succeeds regular
  have exact := Leaves.ofBounds_exact pins.regular pins.exact
  have closed := pins.closed sharing
  have agrees := pins.agrees fun _ => false
  cases run : e.ground (.ofBounds b) .empty ((Leaves.ofBounds b).circuit sharing) with
  | error error =>
    have ready : (Leaves.ofBounds b).Ready .empty ((Leaves.ofBounds b).circuit sharing) :=
      exact.proper.ready closed.sound rfl Scope.empty_sized
    have failed : e.evaluate m sharing = .error error :=
      bind_eq_error.mpr (.inr ⟨b, bounds, bind_eq_error.mpr (.inl run)⟩)
    rw [failed]
    exact (ground_decides ready sorted).tame.error run
  | ok result =>
    obtain ⟨x, c⟩ := result
    obtain ⟨rfl, constant⟩ := ground_folds exact Scope.empty_constant e _ _ _ run
    have inScope : Scope.empty.Agrees m.interpretation.size ((Leaves.ofBounds b).circuit sharing)
        (fun _ => false) .none := Scope.agrees_empty
    obtain ⟨-, denotes⟩ := ground_ensures exact.proper agrees sorted closed.sound inScope _ _ run
      closed.sound.labelled
    have noneOpen : x.cells.values.any (·.const?.isNone) = false := by
      rw [List.any_eq_false]
      intro v member
      obtain ⟨bit, rfl⟩ := constant.values v member
      simp [Value.const?]
    have read : e.evaluate m sharing = TupleSet.ofIndices b.univ e.arity x.trueIndices := by
      have checked : e.evaluate m sharing =
          if x.cells.values.any (·.const?.isNone) then throw (.notConstant e.render)
          else TupleSet.ofIndices b.univ e.arity x.trueIndices := by
        rw [evaluate, bounds]
        show (StateT.run (e.ground (.ofBounds b) .empty) _ >>= _) = _
        rw [StateT.run, run]
        rfl
      rw [checked, noneOpen, if_neg Bool.false_ne_true]
    rw [read]
    cases made : TupleSet.ofIndices b.univ e.arity x.trueIndices with
    | error error => exact TupleSet.ofIndices_error made
    | ok set =>
      obtain ⟨rfl, bound⟩ := TupleSet.ofIndices_eq_ok made
      intro t
      have fits : TupleSet.Fits ⟨b.univ, e.arity, .ofList x.trueIndices⟩ := by
        intro i member
        exact bound i ((IndexSet.mem_ofList _ i).mp member)
      have size : b.univ.size = m.interpretation.size := congrArg Universe.size pins.univ
      have members (i : Nat) : i ∈ (IndexSet.ofList x.trueIndices) ↔
          x.HoldsAt ((Leaves.ofBounds b).circuit sharing) (fun _ => false) i :=
        (IndexSet.mem_ofList _ i).trans (constant.mem_trueIndices denotes.formed)
      rw [TupleSet.mem_positions fits, members, size]
      constructor
      · rintro ⟨length, inside, holds⟩
        exact (denotes.holdsAt length inside).mp holds
      · intro member
        obtain ⟨length, inside⟩ := denotes.fits member
        exact ⟨length, inside, (denotes.holdsAt length inside).mpr member⟩

theorem Numbering.interpret_regular {n : Numbering} {b : Bounds} {s : Nat → Bool}
    (regular : b.Regular) (numbers : n.Numbers b) (ok : n.interpret b s = .ok m) : m.Regular := by
  rw [interpret_eq] at ok
  refine foldlM_invariant Instance.Regular (fun entry member before after isRegular step => ?_)
    (Instance.empty_regular n.univ) ok
  obtain ⟨set, isSet, inserted⟩ := bind_eq_ok.mp step
  obtain ⟨range, found, isUnion⟩ := @valueAt_eq n b s regular numbers entry member
  obtain ⟨lowerUniv, -, lowerArity, -⟩ := regular.formed.ranges _ range found
  obtain ⟨univ, arity, members⟩ := withUnknowns_eq_ok (lowerUniv.trans numbers.univ.symm) lowerArity
    (isUnion.symm.trans isSet)
  refine isRegular.insert (fun i inSet => ?_) inserted
  rw [univ, arity, numbers.univ]
  rcases (members i).mp inSet with lower | isChosen
  · exact regular.lower_lt found lower
  · obtain ⟨var, stands, -⟩ := (mem_chosen regular numbers).mp isChosen
    exact regular.unknowns_lt found ((numbers.mem_unknowns found).mpr ⟨var, stands⟩)

/-- A formula that was encoded is evaluated in every instance that a valuation depicts. -/
theorem Formula.evaluate_of_encode {b : Bounds} {s : Nat → Bool} {logged : Bool} {result : Encoded}
    (regular : b.Regular) (sorted : f.WellSorted) (fits : f.Fits b sharing)
    (ok : f.encode b sharing logged = .ok result) (isRegular : m.Regular)
    (depicts : (Numbering.ofBounds b).Depicts b s m) (other : Bool) :
    ∃ value, f.evaluate m other = .ok value ∧ (value = true ↔ f.holds m.interpretation .none) := by
  obtain ⟨exactly, bounds, pins⟩ := m.toBounds_succeeds isRegular
  have closed := pins.closed other
  obtain ⟨⟨⟩, covered, -⟩ := bind_eq_ok.mp ok
  obtain ⟨values, root, circuit, run, -⟩ := encode_eq_ok ok
  obtain ⟨numbers, count, inputs, sound, -⟩ := ground_of_fits regular sorted fits run
  have bound : ∀ r, b.contains r = true → exactly.contains r = true := by
    intro r isBound
    obtain ⟨range, found⟩ := Bounds.contains_iff.mp isBound
    obtain ⟨set, isValue, -⟩ := depicts.values r range found
    exact Bounds.contains_iff.mpr ⟨⟨set, set⟩, by rw [pins.ranges, isValue]; rfl⟩
  have resolves : (Leaves.ofBounds b).Resolves (.ofBounds exactly) s m.interpretation := {
    proper := ⟨regular, numbers⟩
    agrees := depicts.agrees regular numbers
    exact := Leaves.ofBounds_exact pins.regular pins.exact
    same := pins.agrees s
    bound := bound }
  obtain ⟨start, d, each, between⟩ := groundAll_of_run run sound.labelled
  have empty : Scope.empty.Resolved m.interpretation.size .none := Scope.empty_resolved
  have conjuncts := groundAll_resolves resolves closed f.conjuncts
    (wellSortedAll_iff.mpr (wellSorted_conjuncts f sorted)) _ .empty .none values d start
    (resolves.ready start rfl empty) empty each between
  obtain ⟨v, ran⟩ := ground_of_conjuncts resolves.exact Scope.empty_constant f conjuncts
  obtain ⟨value, rfl, truth⟩ := pins.ground_eq sorted ran
  refine ⟨value, evaluate_of_ground bounds (Bounds.covers_eq_ok.mpr fun r leaf => ?_) ran, truth⟩
  exact bound r (Bounds.covers_eq_ok.mp covered r leaf)

end Evaluate

/-- For bounds that were built and a formula of well-sorted expressions. Where the tuples of all bound
relations can be counted and the tuples and gates of the formula can be labelled, the instance of
every valuation can be read off an encoding, and the formula is evaluated there, with or without
sharing, to true exactly if the valuation extends to the clauses and the assumptions; a formula that
folds is evaluated to the value that it folds to. In every instance that was built, evaluation does not
fail for want of a constant, and a value is the truth of the formula, or the tuples of the expression.
Over bounds that leave no choice a formula that is encoded folds, and no solver is asked. -/
theorem evaluation_agrees {f : Formula} {b : Bounds} (built : b.Built) (sorted : f.WellSorted)
    (o : Options) :
    (f.Fits b o.sharing →
      (∀ r range, b.range? r = some range → (b.univ.capacity? r.arity).isSome = true) →
      (∀ e, f.encode b o.sharing o.logged = .ok (.clauses e) → ∀ s, ∃ m,
        e.numbering.interpret b s = .ok m ∧ ∀ sharing, ∃ value, f.evaluate m sharing = .ok value ∧
          (value = true ↔ ∃ a, (∀ var, 1 ≤ var → var ≤ e.numbering.count → a var = s var) ∧
            Satisfies a e.cnf.clauses.toList ∧ Meets a e.assumptions)) ∧
      ∀ folded, f.encode b o.sharing o.logged = .ok (.folded folded) → ∀ s, ∃ m,
        (Numbering.ofBounds b).interpret b s = .ok m ∧
          ∀ sharing, f.evaluate m sharing = .ok folded.value) ∧
    (∀ m : Instance, m.Built → ∀ sharing,
      (∀ error, f.evaluate m sharing = .error error → error.kind ≠ .illegalState) ∧
      ∀ value, f.evaluate m sharing = .ok value →
        (value = true ↔ f.holds m.interpretation .none)) ∧
    (∀ e : Expr, e.WellSorted → ∀ m : Instance, m.Built → ∀ sharing,
      (∀ error, e.evaluate m sharing = .error error → error.kind ≠ .illegalState) ∧
      ∀ set, e.evaluate m sharing = .ok set →
        ∀ t, (∃ tuple ∈ set.tuples, tuple.positions = t) ↔ e.denote m.interpretation .none t) ∧
    (b.Exact → ∀ result, f.encode b o.sharing o.logged = .ok result → ∃ folded,
      result = .folded folded ∧
        ∀ search, withEncoding f b o search = ⟨Solution.ofFolded folded b, []⟩) := by
  have regular := built.regular
  refine ⟨fun fits countable => ?_, fun m isBuilt sharing => ?_, fun e eSorted m isBuilt sharing => ?_,
    fun exact result ok => ?_⟩
  · -- The instance of a valuation can be read, and it is the one that the valuation depicts.
    have read : (Numbering.ofBounds b).Numbers b → ∀ s, ∃ m,
        (Numbering.ofBounds b).interpret b s = .ok m ∧ m.Regular ∧
          (Numbering.ofBounds b).Depicts b s m := by
      intro numbers s
      obtain ⟨m, ok⟩ := @Numbering.interpret_succeeds (.ofBounds b) b s regular numbers
        fun var r i stands _ => by
          obtain ⟨entry, member, rfl, -⟩ := stands
          obtain ⟨range, found, -⟩ := numbers.tuples entry member
          exact countable _ range found
      exact ⟨m, ok, Numbering.interpret_regular regular numbers ok,
        (Numbering.interpret_eq_ok regular numbers ok).1⟩
    constructor
    · intro e ok s
      have encodes := Formula.encode_clauses regular sorted fits ok
      have numbers := encodes.numbering ▸ encodes.numbers
      obtain ⟨m, isRead, isRegular, depicts⟩ := read numbers s
      refine ⟨m, encodes.numbering ▸ isRead, fun sharing => ?_⟩
      obtain ⟨value, evaluated, truth⟩ :=
        Formula.evaluate_of_encode regular sorted fits ok isRegular depicts sharing
      refine ⟨value, evaluated, truth.trans (encodes.exact s _ ?_).symm⟩
      rw [encodes.numbering]
      exact depicts.agrees regular numbers
    · intro folded ok s
      obtain ⟨-, -, numbers, value⟩ := Formula.encode_folded regular sorted fits ok
      obtain ⟨m, isRead, isRegular, depicts⟩ := read numbers s
      refine ⟨m, isRead, fun sharing => ?_⟩
      obtain ⟨truth, evaluated, same⟩ :=
        Formula.evaluate_of_encode regular sorted fits ok isRegular depicts sharing
      have equal : truth = folded.value := Bool.eq_iff_iff.mpr
        (same.trans (value s _ (depicts.agrees regular numbers)).symm)
      rw [evaluated, equal]
  · have spec := Formula.evaluate_spec isBuilt.regular sorted sharing
    constructor
    · intro error failed
      rw [failed] at spec
      exact spec.not_illegalState
    · intro value evaluated
      rw [evaluated] at spec
      exact spec
  · have spec := Expr.evaluate_spec isBuilt.regular eSorted sharing
    constructor
    · intro error failed
      rw [failed] at spec
      exact spec.not_illegalState
    · intro set evaluated
      rw [evaluated] at spec
      exact spec
  · obtain ⟨folded, rfl⟩ := Formula.encode_exact regular exact ok
    refine ⟨folded, rfl, fun search => ?_⟩
    rw [withEncoding, ok]

theorem sample_evaluation_agrees :
    ∃ e, Fork.formula.encode Fork.bounds true false = .ok (.clauses e) ∧
      ∀ s : Nat → Bool, ∃ m, e.numbering.interpret Fork.bounds s = .ok m ∧
        ∀ sharing, ∃ value, Fork.formula.evaluate m sharing = .ok value ∧
          (value = true ↔ s 1 = true ∨ s 2 = true ∨ s 3 = true) := by
  have regular := Fork.built.regular
  obtain ⟨e, ok⟩ := Fork.encoded true false
  have encodes := Formula.encode_clauses regular Fork.sorted (Fork.fits true) ok
  have countable : ∀ r range, Fork.bounds.range? r = some range →
      (Fork.bounds.univ.capacity? r.arity).isSome = true := by
    intro r range found
    rcases List.mem_pair.mp ((Bounds.mem_entries regular.formed).mpr found) with same | same
    · obtain ⟨rfl, -⟩ := Prod.mk.inj same
      rfl
    · obtain ⟨rfl, -⟩ := Prod.mk.inj same
      rfl
  refine ⟨e, ok, fun s => ?_⟩
  obtain ⟨m, read, agrees⟩ := ((evaluation_agrees Fork.built Fork.sorted .standard).1
    (Fork.fits true) countable).1 e ok s
  refine ⟨m, read, fun sharing => ?_⟩
  obtain ⟨value, evaluated, truth⟩ := agrees sharing
  have depicts := Numbering.instanceAt_depicts regular Fork.numbers s
  refine ⟨value, evaluated, truth.trans ((encodes.exact s _ ?_).trans (Fork.holds_iff depicts))⟩
  rw [encodes.numbering]
  exact depicts.agrees regular Fork.numbers

end ModelFinder
