import ModelFinder.Proofs.Finder.Folded
import ModelFinder.Proofs.Finder.Lift

/-! What the solutions of a lifted enumeration have of what it was given. A model that a search finds
has all given tuples of bound relations. A formula that folds to true is answered by its lower bounds
all the same, which need not have them. -/
namespace ModelFinder

/-- A model that a search found has all given tuples of bound relations; one that was delivered
without a search has the lower bounds. -/
def Solution.Honours (b : Bounds) (given : Relation → Tuple → Prop) : Solution → Prop
  | sat m _ => ∀ r t, given r t → b.contains r = true → m.Has r t
  | triviallySat m _ => ∀ r range, b.range? r = some range → m.tuples? r = some range.lower
  | _ => True

variable {σ : Type} {held : σ → List Clause} {interruptions : σ → Nat} {f : Formula} {b : Bounds}
  {sharing logged : Bool} {units : List Int} {solution : Solution}

theorem Solution.Grounded.isOver (grounded : solution.Grounded f b sharing logged units) {m : Instance}
    (isModel : solution.model? = some m) : m.Over b.univ := by
  cases solution with
  | sat _ _ | triviallySat _ _ =>
    obtain rfl := Option.some.inj isModel
    exact grounded.1
  | unsat _ _ | triviallyUnsat _ _ => cases isModel

theorem Instance.Within.upper_contains {m : Instance} {u : Universe} {r : Relation} {range : Range}
    {t : Tuple} (within : m.Within b) (regular : b.Regular) (isOver : m.Over u) (gives : m.Gives r t)
    (found : b.range? r = some range) : range.upper.contains t = true := by
  obtain ⟨set, listed, member⟩ := gives
  obtain ⟨value, isValue, -, below⟩ := within.2 r range found
  obtain rfl := Option.some.inj (isValue.symm.trans ((Table.find?_eq_some isOver.distinct).mpr listed))
  obtain ⟨univ, arity, indices⟩ := TupleSet.le_iff.mp below
  have fits : value.Fits := by
    intro i isIndex
    rw [univ, arity]
    exact regular.fits r range found i (indices i isIndex)
  obtain ⟨sameUniv, sameArity, isIndex⟩ :=
    TupleSet.contains_iff.mp (TupleSet.contains_of_mem fits member)
  exact TupleSet.contains_iff.mpr
    ⟨sameUniv.trans univ, sameArity.trans arity, indices _ isIndex⟩

theorem Solution.Grounded.inside (grounded : solution.Grounded f b sharing logged units)
    (posed : Posed f b sharing logged units) {m : Instance} (isModel : solution.model? = some m)
    {r : Relation} {range : Range} {t : Tuple} (gives : m.Gives r t)
    (found : b.range? r = some range) : range.upper.contains t = true := by
  have isOver := grounded.isOver isModel
  cases solution with
  | sat _ _ =>
    obtain rfl := Option.some.inj isModel
    obtain ⟨-, round, g, c, stage, within, -⟩ := grounded
    obtain ⟨extended, regular, -⟩ := stage.sound posed.regular posed.sorted
    exact within.1.upper_contains regular isOver gives (extended.range? found)
  | triviallySat _ _ =>
    obtain rfl := Option.some.inj isModel
    obtain ⟨-, round, g, c, stage, lowest⟩ := grounded
    obtain ⟨extended, regular, -⟩ := stage.sound posed.regular posed.sorted
    exact (lowest.within regular).upper_contains regular isOver gives (extended.range? found)
  | unsat _ _ | triviallyUnsat _ _ => cases isModel

theorem Solution.Grounded.honours {given : Relation → Tuple → Prop}
    (grounded : solution.Grounded f b sharing logged units)
    (posed : Posed f b sharing logged units) (small : b.unknownCount < 2147483647)
    (demands : Demands b given units) (univ : ∀ r t, given r t → t.univ = b.univ) :
    solution.Honours b given := by
  cases solution with
  | sat m _ =>
    obtain ⟨-, round, g, c, stage, isModel, met⟩ := grounded
    obtain ⟨extended, regular, -⟩ := stage.sound posed.regular posed.sorted
    obtain ⟨numbers, -⟩ := extended.numbers regular.formed small
    have depicts := Numbering.valuation_depicts regular numbers isModel.1
    exact (demands.meets_iff univ extended regular numbers depicts).mp met
  | triviallySat m _ =>
    obtain ⟨-, round, g, c, stage, lowest⟩ := grounded
    obtain ⟨extended, -⟩ := stage.sound posed.regular posed.sorted
    intro r range found
    rw [lowest.values, extended.range? found]
    rfl
  | unsat _ _ | triviallyUnsat _ _ => trivial

theorem Enumeration.Tracks.live {e : Enumeration σ} {latest : Option Instance} {loaded : Loaded σ}
    (tracks : e.Tracks held f b sharing logged units latest) (live : e.loaded? = some loaded) :
    ∃ round g c, f.Stage b sharing logged round g c ∧
      g.encode c sharing logged = .ok (.clauses loaded.encoding) := by
  have tracked := tracks.phase
  unfold loaded? at live
  split at live
  · rename_i s c model isPhase
    rw [isPhase] at tracked
    obtain ⟨g, searches⟩ := tracked.searches
    obtain rfl := Option.some.inj live
    exact ⟨e.trivialCount, g, c, searches.stage, searches.encoded⟩
  · cases live

variable [Backend σ]

/-- Where a lift with the numbering of a live enumeration and one of its solutions succeeds, every
model that a search finds has all tuples that the solution and the lifters give to bound relations,
and every model delivered without a search has the lower bounds. -/
theorem lift_honours (oracle : Oracle σ held interruptions) (built : b.Built)
    (sorted : f.WellSorted) (o : Options) (fits : f.FitsThroughout b o.sharing o.logged)
    {first second : σ} (fresh : held first = []) (also : held second = [])
    {all lifted : Enumeration σ} {earlier : List Request} {loaded : Loaded σ} {call : Call σ}
    {lifters : Instance} (started : solveAll first f b o = .ok all)
    (live : (all.after earlier).loaded? = some loaded) (isCall : call ∈ all.serve earlier)
    (delivered : call.answer = .ok solution) (isOver : lifters.Over b.univ)
    (ok : lift second f b o loaded.encoding.numbering solution lifters = .ok lifted)
    (later : List Request) :
    ∀ call ∈ lifted.serve later, ∀ answer, call.answer = .ok answer →
      answer.Honours b (Given solution lifters) := by
  have regular := built.regular
  obtain ⟨_, posed, tracks⟩ := Started.tracks regular sorted fits fresh (.all started)
  have grounded := tracks.grounded oracle posed earlier call isCall solution delivered
  have univ : ∀ r t, Given solution lifters r t → t.univ = b.univ :=
    fun r t given => given.univ (fun m => grounded.isOver) isOver
  obtain ⟨round, g, c, stage, encoded⟩ := (tracks.after oracle posed earlier).live live
  obtain ⟨extended, regular', sorted'⟩ := stage.sound regular sorted
  have encodes := Formula.encode_clauses regular' sorted' (fits round g c stage) encoded
  have small : b.unknownCount < 2147483647 :=
    extended.unknownCount ▸ Formula.unknownCount_lt (fits round g c stage) encoded
  -- The numbering may be that of a later stage, but the given tuples have the same variables there.
  rw [encodes.numbering] at ok
  obtain ⟨units, rfl, demands⟩ :=
    lift_demands extended regular'.formed (encodes.numbering ▸ encodes.numbers) ok
  have posed' : Posed f b o.sharing o.logged units :=
    ⟨regular, sorted, fits, fun l => demands.stands (.refl b)⟩
  intro call member answer isAnswer
  have answered := (Enumeration.make_tracks also).grounded oracle posed' later call member answer
    isAnswer
  exact answered.honours posed' small demands univ

theorem Enumeration.live_of_sat {e : Enumeration σ} {m : Instance} {stats : Statistics}
    (answer : e.next.1 = .ok (.sat m stats)) : ∃ loaded, e.next.2.loaded? = some loaded := by
  have advanced : ∀ s b previous, (e.advance s b previous).1 = .ok (.sat m stats) →
      ∃ loaded, (e.advance s b previous).2.loaded? = some loaded := by
    intro s b previous answer
    unfold advance at answer ⊢
    simp only at answer ⊢
    split at answer
    · exact ⟨_, rfl⟩
    · cases answer
    · exact ⟨_, rfl⟩
    · cases answer
  have folded : ∀ result b, (e.answerFolded result b).1 ≠ .ok (.sat m stats) := by
    intro result b same
    unfold answerFolded at same
    cases answer : Solution.ofFolded result b with
    | error error =>
      rw [answer] at same
      cases same
    | ok solution =>
      have trivial := Solution.ofFolded_isTrivial answer
      rw [answer] at same
      simp only at same
      split at same
      · split at same
        · cases same
        · obtain rfl := Except.ok.inj same
          cases trivial
      · obtain rfl := Except.ok.inj same
        cases trivial
  unfold next at answer ⊢
  split at answer
  · cases answer
  · exact advanced _ _ _ answer
  · split at answer
    · cases answer
    · exact absurd answer (folded _ _)
    · exact advanced _ _ _ answer

namespace Sample

def always (units : List Int) : Enumeration Exhaustive :=
  .make ⟨[]⟩ (.const true) bounds .standard units

theorem always_next (units : List Int) : ∃ lowest stats, lowest.Lowest bounds ∧
    (always units).next = (.ok (.triviallySat lowest stats),
      { always units with trivialCount := 1, phase := .pending residual bounds }) := by
  obtain ⟨lowest, stats, g, c, ⟨isLowest, -⟩, ok, isNext⟩ :=
    Enumeration.next_folded_true (e := always units) built.regular rfl (true_encode true) rfl
  obtain ⟨rfl, rfl⟩ := Prod.mk.inj (Except.ok.inj (ok.symm.trans true_residue))
  exact ⟨lowest, stats, isLowest, isNext⟩

theorem residual_next : ∃ m stats, m.AddsOne bounds (relation, 0) ∧
    ({ always [] with trivialCount := 1, phase := .pending residual bounds } :
      Enumeration Exhaustive).next.1 = .ok (.sat m stats) := by
  have regular := built.regular
  have fits := true_fits true 1 _ _ (.residue .first (true_encode true) rfl true_residue)
  obtain ⟨encoding, encoded⟩ := residual_encode true false
  obtain ⟨residue, asks, made⟩ := Residue.ofFolded_asks regular 1
    (f := ⟨true, .const true, bounds, none⟩) rfl
  obtain ⟨isResidual, isBounds⟩ := Prod.mk.inj (Except.ok.inj (true_residue.symm.trans made))
  cases some : residue.changes.isEmpty with
  | true =>
    rw [some] at isResidual
    cases isResidual
  | false =>
    rw [some] at isResidual
    have isFormula : residual = residue.formula (.const true) := isResidual
    rw [isFormula, isBounds] at encoded fits
    have encodes := Formula.encode_clauses asks.regular (asks.wellSorted (f := .const true) trivial)
      fits encoded
    obtain ⟨found, order, proof, last, permuted, related, answers⟩ :=
      Enumeration.answers_residue
        (e := { always [] with trivialCount := 1, phase := .pending residual bounds })
        Exhaustive.faithful Exhaustive.reliable (rfl : Exhaustive.clauses ⟨[]⟩ = []) rfl rfl
        (by decide) (by rw [isFormula, isBounds]) encoded encodes regular asks (by decide)
        (by decide) fun _ _ _ => rfl
    have choices : bounds.choices = [(relation, 0)] := by
      simp [Bounds.choices, bounds, unknowns]
    rw [choices, List.perm_singleton] at permuted
    rw [permuted] at related
    obtain ⟨d, rest, adds, -, rfl⟩ := List.forall₂_cons_right_iff.mp related
    exact ⟨d.1, d.2, adds, (List.cons.inj (answers 0)).1⟩

theorem lifted_run : ∃ (call : Call Exhaustive) (loaded : Loaded Exhaustive)
    (lifted : Enumeration Exhaustive) (m : Instance) (stats : Statistics) (t : Tuple),
    ((always []).after [.next, .next]).loaded? = some loaded ∧
      call ∈ (always []).serve [.next, .next] ∧ call.answer = .ok (.sat m stats) ∧
      m.Gives relation t ∧
      lift (⟨[]⟩ : Exhaustive) (.const true) bounds .standard loaded.encoding.numbering
        (.sat m stats) (.empty univ) = .ok lifted := by
  have regular := built.regular
  have oracle := Exhaustive.reliable.oracle Exhaustive.faithful
  obtain ⟨lowest, stats₀, isLowest, isNext⟩ := always_next []
  obtain ⟨m, stats, adds, answer⟩ := residual_next
  have second : (always []).next.2.next.1 = .ok (.sat m stats) := by
    rw [isNext]
    exact answer
  obtain ⟨loaded, live⟩ := Enumeration.live_of_sat second
  obtain ⟨encoding, encoded⟩ := residual_encode true false
  obtain ⟨_, posed, tracks⟩ := Started.tracks (f := .const true) (o := .standard) regular trivial
    (true_fits true) (rfl : Exhaustive.clauses ⟨[]⟩ = []) (.all (rfl : solveAll ⟨[]⟩ (.const true) bounds .standard =
      .ok (always [])))
  have isCall : (⟨(always []).next.2, (always []).next.2.next.1, (always []).next.2.next.2⟩ :
      Call Exhaustive) ∈ (always []).serve [.next, .next] := by
    simp [Enumeration.serve]
  have grounded := tracks.grounded oracle posed [.next, .next] _ isCall _ second
  have isOver := grounded.isOver rfl
  -- Over these bounds, all stages have the same numbering.
  obtain ⟨round, g, c, stage, isEncoding⟩ := (tracks.after oracle posed [.next, .next]).live live
  have same : c = bounds := by
    rcases stage.eq_of_residue (true_encode true) true_residue encoded with
      ⟨-, -, rfl⟩ | ⟨-, -, rfl⟩ <;> rfl
  have encodes := posed.encodes stage isEncoding
  rw [same] at encodes
  -- The model has the tuple with the only index.
  obtain ⟨set, isValue, setUniv, setArity, members⟩ := adds.values relation range rfl
  have gives : m.Gives relation ⟨set.univ, decodeIndex set.univ.size set.arity 0⟩ := by
    refine ⟨set, (Table.find?_eq_some isOver.distinct).mp isValue, List.mem_map.mpr ⟨0, ?_, rfl⟩⟩
    exact (members 0).mpr (.inr rfl)
  rcases lift_outcome (f := .const true) (o := .standard) (⟨[]⟩ : Exhaustive) rfl regular
    encodes.numbers (fun r t (given : Given (.sat m stats) (.empty univ) r t) _ =>
      given.univ (fun m => grounded.isOver) (Instance.empty_over univ)) with
    ⟨-, r, t, range, given, found, outside⟩ | ⟨⟨lifted, ok⟩, -⟩
  · rcases given with ⟨_, isModel, gives⟩ | ⟨set, absent, -⟩
    · rw [grounded.inside posed isModel gives found] at outside
      cases outside
    · cases absent
  · exact ⟨_, loaded, lifted, m, stats, _, live, isCall, second, gives, ok⟩

end Sample

/-- A lift of the model with the only tuple, for a formula that is always true. -/
theorem sample_lift_honours : ∃ (call : Call Exhaustive) (loaded : Loaded Exhaustive)
    (lifted : Enumeration Exhaustive) (m : Instance) (stats : Statistics),
    solveAll ⟨[]⟩ (.const true) Sample.bounds .standard = .ok (Sample.always []) ∧
      ((Sample.always []).after [.next, .next]).loaded? = some loaded ∧
      call ∈ (Sample.always []).serve [.next, .next] ∧ call.answer = .ok (.sat m stats) ∧
      lift (⟨[]⟩ : Exhaustive) (.const true) Sample.bounds .standard loaded.encoding.numbering
        (.sat m stats) (.empty Sample.univ) = .ok lifted ∧
      ∀ call ∈ lifted.serve [.next, .next], ∀ answer, call.answer = .ok answer →
        answer.Honours Sample.bounds (Given (.sat m stats) (.empty Sample.univ)) := by
  obtain ⟨call, loaded, lifted, m, stats, t, live, isCall, delivered, -, ok⟩ := Sample.lifted_run
  refine ⟨call, loaded, lifted, m, stats, rfl, live, isCall, delivered, ok, ?_⟩
  exact lift_honours (Exhaustive.reliable.oracle Exhaustive.faithful) Sample.built
    (f := .const true) trivial .standard (Sample.true_fits true)
    (rfl : Exhaustive.clauses ⟨[]⟩ = []) (rfl : Exhaustive.clauses ⟨[]⟩ = []) rfl live isCall
    delivered (Instance.empty_over Sample.univ) ok [.next, .next]

/-- The first solution of that lift, which is a satisfiable one, does not have the given tuple. -/
theorem lift_forgets : ∃ (call : Call Exhaustive) (loaded : Loaded Exhaustive)
    (lifted : Enumeration Exhaustive) (m lowest : Instance) (stats other : Statistics) (t : Tuple),
    solveAll ⟨[]⟩ (.const true) Sample.bounds .standard = .ok (Sample.always []) ∧
      ((Sample.always []).after [.next, .next]).loaded? = some loaded ∧
      call ∈ (Sample.always []).serve [.next, .next] ∧ call.answer = .ok (.sat m stats) ∧
      lift (⟨[]⟩ : Exhaustive) (.const true) Sample.bounds .standard loaded.encoding.numbering
        (.sat m stats) (.empty Sample.univ) = .ok lifted ∧
      lifted.next.1 = .ok (.triviallySat lowest other) ∧
      Given (.sat m stats) (.empty Sample.univ) Sample.relation t ∧
      Sample.bounds.contains Sample.relation = true ∧ ¬ lowest.Has Sample.relation t := by
  obtain ⟨call, loaded, lifted, m, stats, t, live, isCall, delivered, gives, ok⟩ :=
    Sample.lifted_run
  obtain ⟨⟨⟩, -, rest⟩ := bind_eq_ok.mp ok
  obtain ⟨found, -, made⟩ := bind_eq_ok.mp rest
  obtain ⟨lowest, other, isLowest, isNext⟩ := Sample.always_next (Ascending.sort found.flatten)
  refine ⟨call, loaded, lifted, m, lowest, stats, other, t, rfl, live, isCall, delivered, ok, ?_,
    .inl ⟨m, rfl, gives⟩, by decide, ?_⟩
  · rw [← pure_eq_ok.mp made]
    exact congrArg Prod.fst isNext
  · rintro ⟨set, isValue, member⟩
    rw [isLowest.values] at isValue
    obtain rfl : Sample.range.lower = set := Option.some.inj isValue
    obtain ⟨-, -, impossible⟩ := TupleSet.contains_iff.mp member
    exact absurd impossible (by simp [Sample.range, TupleSet.empty])

end ModelFinder
