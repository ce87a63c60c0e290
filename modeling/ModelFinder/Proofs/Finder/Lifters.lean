import ModelFinder.Proofs.Finder.Assumptions
import ModelFinder.Proofs.Finder.Tracking
import ModelFinder.Proofs.Encoding.Meaning

/-! Lifters are exact. A session gives the variables that some model makes true together with given
ones, and a live enumeration the tuples that some larger model adds to the model delivered last. -/
namespace ModelFinder

variable {σ : Type} {held : σ → List Clause} {interruptions : σ → Nat} {f g : Formula}
  {b c : Bounds}

/-- An enumeration of a formula within bounds at its start: of all minimal models, or of those that
have the tuples of a solution and of lifters, by the numbering of a stage of the same formula. -/
inductive Started (solver : σ) (f : Formula) (b : Bounds) (o : Options) : Enumeration σ → Prop where
  | all {start : Enumeration σ} (ok : solveAll solver f b o = .ok start) : Started solver f b o start
  | lifted {start : Enumeration σ} {round : Nat} {g : Formula} {c : Bounds} {encoding : Encoding}
      {solution : Solution} {lifters : Instance}
      (stage : f.Stage b o.sharing o.logged round g c)
      (encoded : g.encode c o.sharing o.logged = .ok (.clauses encoding))
      (ok : lift solver f b o encoding.numbering solution lifters = .ok start) :
      Started solver f b o start

theorem Enumeration.make_tracks {solver : σ} {o : Options} {units : List Int}
    (fresh : held solver = []) :
    (Enumeration.make solver f b o units).Tracks held f b o.sharing o.logged units none :=
  ⟨fresh, rfl, rfl, rfl, .first, fun impossible => by cases impossible⟩

theorem Started.tracks {solver : σ} {o : Options} {start : Enumeration σ} (regular : b.Regular)
    (sorted : f.WellSorted) (fits : f.FitsThroughout b o.sharing o.logged)
    (fresh : held solver = []) (started : Started solver f b o start) :
    ∃ units, Posed f b o.sharing o.logged units ∧
      start.Tracks held f b o.sharing o.logged units none := by
  cases started with
  | all ok =>
    obtain ⟨⟨⟩, -, made⟩ := bind_eq_ok.mp ok
    obtain rfl := pure_eq_ok.mp made
    exact ⟨[], ⟨regular, sorted, fits, by simp⟩, Enumeration.make_tracks fresh⟩
  | @lifted round g c encoding _ _ stage encoded ok =>
    obtain ⟨extended, regular', sorted'⟩ := stage.sound regular sorted
    have encodes := Formula.encode_clauses regular' sorted' (fits round g c stage) encoded
    rw [encodes.numbering] at ok
    obtain ⟨units, rfl, demands⟩ := lift_demands extended regular'.formed
      (encodes.numbering ▸ encodes.numbers) ok
    refine ⟨units, ⟨regular, sorted, fits, fun l member => ?_⟩,
      Enumeration.make_tracks fresh⟩
    exact demands.stands (.refl b) member

section Models

variable {encoding : Encoding} (regular : b.Regular) (encodes : encoding.Encodes f b)

include regular encodes

theorem Encoding.Encodes.exists_models_iff {vars : List Nat}
    (primary : ∀ v ∈ vars, 1 ≤ v ∧ v ≤ encoding.numbering.count) :
    (∃ a, encoding.Models a ∧ ∀ v ∈ vars, a v = true) ↔
      ∃ m, f.IsModel b m ∧ ∀ v ∈ vars, encoding.numbering.valuation m v = true := by
  have numbers := encodes.numbers
  constructor
  · rintro ⟨a, models, chosen⟩
    have depicts := Numbering.instanceAt_depicts regular numbers a
    refine ⟨_, encodes.isModel regular models depicts, fun v member => ?_⟩
    rw [depicts.valuation_eq regular numbers (primary v member).1 (primary v member).2]
    exact chosen v member
  · rintro ⟨m, isModel, chosen⟩
    obtain ⟨a, models, depicts⟩ := encodes.exists_models regular isModel
    refine ⟨a, models, fun v member => ?_⟩
    rw [← depicts.valuation_eq regular numbers (primary v member).1 (primary v member).2]
    exact chosen v member

end Models

variable [Backend σ] {s : Session σ} {preserved : List Nat}

/-- The lifters that a session gives, in terms of models. -/
theorem Session.lifters_models (oracle : Oracle σ held interruptions) (regular : b.Regular)
    (encodes : s.loaded.encoding.Encodes f b) (ready : s.Ready held (liveOf s.ledger.entries))
    (primary : ∀ v ∈ preserved, 1 ≤ v ∧ v ≤ s.numPrimary) :
    match (s.lifters preserved).1 with
    | .ok vars => vars.Pairwise (· < ·) ∧ ∀ v, v ∈ vars ↔
        (1 ≤ v ∧ v ≤ s.numPrimary) ∧ v ∉ preserved ∧ ∃ m, f.IsModel b m ∧
          ∀ w ∈ v :: preserved, s.loaded.encoding.numbering.valuation m w = true
    | .error failure => failure = .aborted ∧ Stopped interruptions s (s.lifters preserved).2 := by
  obtain ⟨-, -, outcome⟩ := lifters_ready oracle ready primary
  generalize s.lifters preserved = out at outcome
  obtain ⟨answer, after⟩ := out
  match answer, outcome with
  | .ok vars, ⟨ascending, members⟩ =>
    refine ⟨ascending, fun v => (members v).trans ?_⟩
    apply and_congr_right
    intro bound
    apply and_congr_right
    intro _
    rw [← encodes.exists_models_iff regular (List.forall_mem_cons.mpr ⟨bound, primary⟩)]
    apply exists_congr
    intro a
    rw [admits_iff_models, Encoding.assume_nil, List.forall_mem_cons]
    exact and_congr_right' And.comm
  | .error failure, stopped => exact stopped

omit [Backend σ] in
/-- The tuples of lifters are those that some larger model adds. -/
theorem Session.Keeps.lifters_has {vars lifted : List Nat} {units : List Int}
    {m answer : Instance} (regular : c.Regular) (encodes : s.loaded.encoding.Encodes g c)
    (keeps : s.Keeps c units vars m)
    (members : ∀ v, v ∈ lifted ↔ (1 ≤ v ∧ v ≤ s.numPrimary) ∧ v ∉ vars ∧ ∃ larger,
      g.IsModel c larger ∧
        ∀ w ∈ v :: vars, s.loaded.encoding.numbering.valuation larger w = true)
    (ok : s.loaded.encoding.numbering.instanceOf lifted = .ok answer) {r : Relation} {t : Tuple} :
    answer.Has r t ↔ c.contains r = true ∧ ¬ m.Has r t ∧ ∃ larger, g.IsModel c larger ∧
      Instance.PartOf c m larger ∧ larger.Has r t := by
  have numbers := encodes.numbers
  have depicts := Numbering.valuation_depicts regular numbers keeps.within
  rw [Numbering.instanceOf_eq_ok regular numbers ok]
  -- A model is larger exactly if it makes the kept variables true.
  have larger_iff : ∀ larger, larger.Within c → (Instance.PartOf c m larger ↔
      ∀ w ∈ vars, s.loaded.encoding.numbering.valuation larger w = true) := by
    intro larger within
    rw [depicts.partOf_iff regular numbers (Numbering.valuation_depicts regular numbers within)]
    constructor
    · intro below w member
      obtain ⟨⟨lower, upper⟩, isTrue⟩ := (keeps.true_iff w).mp member
      exact below w lower upper isTrue
    · intro all w lower upper isTrue
      exact all w ((keeps.true_iff w).mpr ⟨⟨lower, upper⟩, isTrue⟩)
  constructor
  · rintro ⟨univ, arity, v, isLifted, stands⟩
    obtain ⟨e, isEntry, rfl, -⟩ := id stands
    obtain ⟨range, found, -⟩ := numbers.tuples e isEntry
    obtain ⟨primary, apart, larger, isModel, all⟩ := (members v).mp isLifted
    obtain ⟨chosen, kept⟩ := List.forall_mem_cons.mp all
    have unknown := Bounds.mem_unknowns.mp ((numbers.mem_unknowns found).mpr ⟨v, stands⟩)
    refine ⟨?_, fun has => ?_, larger, isModel, (larger_iff larger isModel.1).mpr kept, ?_⟩
    · exact Bounds.contains_iff.mpr ⟨range, found⟩
    · obtain ⟨-, -, lower | ⟨w, same, isTrue⟩⟩ := (depicts.has_iff found).mp has
      · exact unknown.2 lower
      · rw [← numbers.var_unique regular.formed stands same] at isTrue
        exact apart ((keeps.true_iff v).mpr ⟨primary, isTrue⟩)
    · apply ((Numbering.valuation_depicts regular numbers isModel.1).has_iff found).mpr
      exact ⟨univ, arity, .inr ⟨v, stands, chosen⟩⟩
  · rintro ⟨bound, absent, larger, isModel, part, has⟩
    obtain ⟨range, found⟩ := Bounds.contains_iff.mp bound
    have drawn := Numbering.valuation_depicts regular numbers isModel.1
    obtain ⟨univ, arity, lower | ⟨v, stands, chosen⟩⟩ := (drawn.has_iff found).mp has
    · exact absurd ((depicts.has_iff found).mpr ⟨univ, arity, .inl lower⟩) absent
    · refine ⟨univ, arity, v, (members v).mpr ⟨stands.bounds numbers, fun member => ?_, larger,
        isModel, List.forall_mem_cons.mpr ⟨chosen, ?_⟩⟩, stands⟩
      · apply absent
        apply (depicts.has_iff found).mpr
        exact ⟨univ, arity, .inr ⟨v, stands, ((keeps.true_iff v).mp member).2⟩⟩
      · exact (larger_iff larger isModel.1).mp part

/-- Without an abort, the lifters of a session do not depend on what its ledger has on record. -/
theorem Session.exists_lifters (faithful : Faithful σ held) (reliable : Reliable σ)
    {encoding : Encoding} (regular : b.Regular) (encodes : encoding.Encodes f b)
    (primary : ∀ v ∈ preserved, 1 ≤ v ∧ v ≤ encoding.numbering.count) :
    ∃ vars : List Nat, vars.Pairwise (· < ·) ∧
      (∀ v, v ∈ vars ↔ (1 ≤ v ∧ v ≤ encoding.numbering.count) ∧ v ∉ preserved ∧
        ∃ m, f.IsModel b m ∧ ∀ w ∈ v :: preserved, encoding.numbering.valuation m w = true) ∧
      ∀ s : Session σ, s.loaded.encoding = encoding → s.Ready held (liveOf s.ledger.entries) →
        s.control.aborted = false → (s.lifters preserved).1 = .ok vars := by
  classical
  let vars := (List.range' 1 encoding.numbering.count).filter fun v => decide (v ∉ preserved ∧
    ∃ m, f.IsModel b m ∧ ∀ w ∈ v :: preserved, encoding.numbering.valuation m w = true)
  have ascending : vars.Pairwise (· < ·) := (List.pairwise_lt_range' ..).filter _
  have members : ∀ v, v ∈ vars ↔ (1 ≤ v ∧ v ≤ encoding.numbering.count) ∧ v ∉ preserved ∧
      ∃ m, f.IsModel b m ∧ ∀ w ∈ v :: preserved, encoding.numbering.valuation m w = true := by
    intro v
    rw [List.mem_filter, List.mem_range'_1, decide_eq_true_eq]
    apply and_congr_left'
    omega
  refine ⟨vars, ascending, members, ?_⟩
  rintro s rfl ready running
  have lifted := s.lifters_models (reliable.oracle faithful) regular encodes ready primary
  generalize s.lifters preserved = out at lifted
  obtain ⟨answer, after⟩ := out
  match answer, lifted with
  | .ok found, ⟨also, same⟩ =>
    apply congrArg Except.ok
    apply IndexSet.eq_of_mem_iff also ascending
    exact fun v => (same v).trans (members v).symm
  | .error failure, ⟨_, stopped⟩ =>
    rcases stopped with raised | interrupted
    · rw [running] at raised
      cases raised
    · exact absurd interrupted (Nat.lt_irrefl 0)

theorem Enumeration.Tracks.lifters_tuples (oracle : Oracle σ held interruptions)
    {sharing logged : Bool} {units : List Int} {m answer : Instance} {e : Enumeration σ}
    (posed : Posed f b sharing logged units)
    (tracks : e.Tracks held f b sharing logged units (some m)) (ok : e.lifters.1 = .ok answer) :
    ∃ round g c s vars, e.phase = .live s c (some vars) ∧
      s.Searches held f b sharing logged round g c ∧
      ∀ r t, answer.Has r t ↔ c.contains r = true ∧ ¬ m.Has r t ∧
        ∃ larger, g.IsModel c larger ∧ Instance.PartOf c m larger ∧ larger.Has r t := by
  have tracked := tracks.phase
  unfold Enumeration.lifters at ok
  split at ok
  · rename_i s c vars isPhase
    rw [isPhase] at tracked
    obtain ⟨g, searches⟩ := tracked.searches
    have primary := tracked.primary vars rfl
    have running : s.control.limitMs ≠ some 0 := fun zero => by cases tracked.expired zero
    have keeps : s.Keeps c units vars m := by
      rcases tracked.keeps m rfl with ⟨impossible, -⟩ | ⟨_, same, keeps⟩
      · cases impossible
      · exact Option.some.inj same ▸ keeps
    have regular := posed.stage_regular searches.stage
    have encodes := posed.encodes searches.stage searches.encoded
    obtain ⟨models, excluding⟩ := searches.excluding running
    have armed : s.arm.Excluding held models := excluding.controlled running
    have lifted := s.arm.lifters_models oracle regular encodes armed.ready primary
    obtain ⟨continues, -⟩ := Session.lifters_excluding oracle armed primary
    simp only at ok
    generalize s.arm.lifters vars = out at lifted ok continues
    obtain ⟨answer', after⟩ := out
    match answer', lifted with
    | .ok found, ⟨_, members⟩ =>
      simp only at ok
      rw [continues.encoding] at ok
      refine ⟨_, g, c, s, vars, isPhase, searches, fun r t => ?_⟩
      exact keeps.lifters_has regular encodes members ok
    | .error failure, _ => cases ok
  · cases ok

/-- Lifters are exact. Every session over a stage of the formula, whatever cones are on record and
live, gives the other primary variables that some model makes true together with given ones,
ascending. And wherever an enumeration is, the lifters it gives have the tuples outside the model
delivered last that some larger model has. -/
theorem lifters_exact (oracle : Oracle σ held interruptions) (built : b.Built)
    (sorted : f.WellSorted) (o : Options) (fits : f.FitsThroughout b o.sharing o.logged) :
    (Reliable σ → ∀ round g c encoding, f.Stage b o.sharing o.logged round g c →
      g.encode c o.sharing o.logged = .ok (.clauses encoding) → ∀ preserved : List Nat,
        (∀ v ∈ preserved, 1 ≤ v ∧ v ≤ encoding.numbering.count) →
        ∃ vars : List Nat, vars.Pairwise (· < ·) ∧
          (∀ v, v ∈ vars ↔ (1 ≤ v ∧ v ≤ encoding.numbering.count) ∧ v ∉ preserved ∧
            ∃ m, g.IsModel c m ∧ ∀ w ∈ v :: preserved, encoding.numbering.valuation m w = true) ∧
          ∀ s : Session σ, s.loaded.encoding = encoding →
            s.Ready held (liveOf s.ledger.entries) → s.control.aborted = false →
              (s.lifters preserved).1 = .ok vars) ∧
    ∀ (solver : σ) (start : Enumeration σ), held solver = [] →
      Started solver f b o start → ∀ requests m answer,
        (delivered (start.serve requests)).getLast? = some m →
        (start.after requests).lifters.1 = .ok answer →
        ∃ round g c s vars, (start.after requests).phase = .live s c (some vars) ∧
          f.Stage b o.sharing o.logged round g c ∧
          g.encode c o.sharing o.logged = .ok (.clauses s.loaded.encoding) ∧
          ∀ r t, answer.Has r t ↔ c.contains r = true ∧ ¬ m.Has r t ∧
            ∃ larger, g.IsModel c larger ∧ Instance.PartOf c m larger ∧ larger.Has r t := by
  have regular := built.regular
  constructor
  · intro reliable round g c encoding stage encoded preserved primary
    obtain ⟨-, regular', sorted'⟩ := stage.sound regular sorted
    have encodes := Formula.encode_clauses regular' sorted' (fits round g c stage) encoded
    exact Session.exists_lifters oracle.faithful reliable regular' encodes primary
  · intro solver start fresh started requests m answer isLast ok
    obtain ⟨units, posed, tracks⟩ := started.tracks regular sorted fits fresh
    have reached := tracks.after oracle posed requests
    rw [isLast] at reached
    obtain ⟨round, g, c, s, vars, isPhase, searches, exact⟩ := reached.lifters_tuples oracle posed ok
    exact ⟨round, g, c, s, vars, isPhase, searches.stage, searches.encoded, exact⟩

/-- With the cone of the empty model on record, which excludes every model, the other tuples of the
fork still are lifters of the first. -/
theorem sample_lifters_exact : ∃ e : Encoding,
    Fork.formula.encode Fork.bounds true false = .ok (.clauses e) ∧
      ((Session.start (e.load (⟨[]⟩ : Exhaustive)) Options.standard.control).excludeCone.lifters
        [1]).1 = .ok [2, 3] := by
  obtain ⟨e, encoded⟩ := Fork.encoded true false
  have oracle := Exhaustive.reliable.oracle Exhaustive.faithful
  have encodes := Formula.encode_clauses Fork.built.regular Fork.sorted (Fork.fits true) encoded
  obtain ⟨vars, ascending, members, lifted⟩ := (lifters_exact oracle Fork.built Fork.sorted .standard
    ((Fork.fits true).throughout encoded)).1 Exhaustive.reliable 0 _ _ e .first encoded [1]
      (by simp [encodes.numbering, Fork.count])
  -- The instance with all tuples is a model, so it is a larger one for each of them.
  have depicts := Numbering.instanceAt_depicts Fork.built.regular Fork.numbers fun _ => true
  have isModel := (Fork.isModel_iff depicts).mpr (.inl rfl)
  have others : vars = [2, 3] := by
    apply IndexSet.eq_of_mem_iff ascending (by decide)
    intro v
    rw [members, encodes.numbering, Fork.count]
    constructor
    · rintro ⟨inside, apart, -⟩
      simp only [List.mem_cons, List.not_mem_nil, or_false] at apart ⊢
      omega
    · intro member
      have inside : 2 ≤ v ∧ v ≤ 3 := by
        simp only [List.mem_cons, List.not_mem_nil, or_false] at member
        omega
      refine ⟨by omega, by simp; omega, _, isModel, fun w isAsked => ?_⟩
      have known : 1 ≤ w ∧ w ≤ 3 := by
        simp only [List.mem_cons, List.not_mem_nil, or_false] at isAsked
        omega
      exact depicts.valuation_eq Fork.built.regular Fork.numbers known.1 (Fork.count ▸ known.2)
  obtain ⟨-, recorded⟩ := Session.excludeCone_excluding oracle
    (Session.start_excluding oracle (rfl : Exhaustive.clauses ⟨[]⟩ = []) encodes
      (show Options.standard.control.limitMs ≠ some 0 by decide))
  exact ⟨e, encoded, others ▸ lifted _ rfl recorded.ready rfl⟩

end ModelFinder
