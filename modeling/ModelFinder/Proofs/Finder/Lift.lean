import ModelFinder.Proofs.Finder.Exhaustion
import ModelFinder.Proofs.Finder.Lifters

/-! Lifted enumeration. It is refused exactly if a given tuple lies outside the upper bound of its
relation; otherwise it enumerates the minimal ones among the models that have all given tuples. -/
namespace ModelFinder

structure Instance.AllMinimal (b : Bounds) (wanted : Instance → Prop) (models : List Instance) :
    Prop where
  minimal : ∀ m ∈ models, Minimal b wanted m
  different : models.Pairwise fun m other => ¬ SameOn b m other
  complete : ∀ m, Minimal b wanted m → ∃ d ∈ models, SameOn b d m

def Formula.IsModelWith (f : Formula) (b : Bounds) (given : Relation → Tuple → Prop)
    (m : Instance) : Prop :=
  f.IsModel b m ∧ ∀ r t, given r t → b.contains r = true → m.Has r t

def Bounds.Exceeded (b : Bounds) (given : Relation → Tuple → Prop) : Prop :=
  ∃ r t range, given r t ∧ b.range? r = some range ∧ range.upper.contains t = false

variable {σ : Type} {held : σ → List Clause} {f : Formula} {b : Bounds} {o : Options}
  {encoding : Encoding} {solution : Solution} {lifters : Instance} {units : List Int}

theorem Given.univ (isOver : ∀ m, solution.model? = some m → m.Over b.univ)
    (liftersOver : lifters.Over b.univ) {r : Relation} {t : Tuple}
    (given : Given solution lifters r t) : t.univ = b.univ := by
  rcases given with ⟨m, isModel, gives⟩ | gives
  · exact (isOver m isModel).univ_of_gives gives
  · exact liftersOver.univ_of_gives gives

/-- Lifting is refused for a tuple outside an upper bound, and for no other reason. -/
theorem lift_outcome (solver : σ) (incremental : o.solver.incremental = true) (regular : b.Regular)
    {n : Numbering} (numbers : n.Numbers b)
    (univ : ∀ r t, Given solution lifters r t → b.contains r = true → t.univ = b.univ) :
    (∃ error, lift solver f b o n solution lifters = .error error ∧
        error.kind = .invalidArgument) ∧ b.Exceeded (Given solution lifters) ∨
      (∃ start, lift solver f b o n solution lifters = .ok start) ∧
        ¬ b.Exceeded (Given solution lifters) := by
  rw [lift_eq solver f o n incremental]
  cases traversed : (asked solution lifters).mapM
    fun item => liftAssumption n b item.1 item.2 with
  | error error =>
    obtain ⟨⟨r, t⟩, isAsked, refused⟩ := mapM_eq_error traversed
    have given := mem_asked.mp isAsked
    obtain ⟨rfl, range, found, outside⟩ :=
      (liftAssumption_eq_error regular numbers (univ r t given)).mp refused
    exact .inl ⟨⟨_, rfl, rfl⟩, r, t, range, given, found, outside⟩
  | ok found =>
    refine .inr ⟨⟨_, rfl⟩, ?_⟩
    rintro ⟨r, t, range, given, bound, outside⟩
    obtain ⟨lits, -, assumed⟩ := forall₂_left (mapM_eq_ok.mp traversed) (mem_asked.mpr given)
    have refused := (liftAssumption_eq_error regular numbers (univ r t given)).mpr
      ⟨rfl, range, bound, outside⟩
    cases refused.symm.trans assumed

/-- Under what is demanded, the encoding captures the models that have the given tuples. -/
theorem Demands.captures {given : Relation → Tuple → Prop} (demands : Demands b given units)
    (univ : ∀ r t, given r t → t.univ = b.univ) (regular : b.Regular)
    (encodes : encoding.Encodes f b) :
    (encoding.assume units).Captures b (f.IsModelWith b given) := by
  have meets : ∀ {a m}, encoding.numbering.Depicts b a m → (Meets a units ↔
      ∀ r t, given r t → b.contains r = true → m.Has r t) := by
    intro a m depicts
    rw [encodes.numbering] at depicts
    exact demands.meets_iff univ (.refl b) regular (encodes.numbering ▸ encodes.numbers) depicts
  constructor
  · intro a m models depicts
    obtain ⟨isModel, met⟩ := Encoding.models_assume.mp models
    exact ⟨encodes.isModel regular isModel depicts, (meets depicts).mp met⟩
  · rintro m ⟨isModel, has⟩
    obtain ⟨a, models, depicts⟩ := encodes.exists_models regular isModel
    exact ⟨a, Encoding.models_assume.mpr ⟨models, (meets depicts).mpr has⟩, depicts⟩

theorem Enumeration.Pursues.allMinimal {wanted : Instance → Prop} {e : Enumeration σ}
    {delivered : List ((Nat → Bool) × Instance)} (poses : encoding.Poses f b units)
    (captures : (encoding.assume units).Captures b wanted)
    (pursues : e.Pursues held f b encoding units delivered) (finished : e.phase = .exhausted)
    (apart : (delivered.map Prod.fst).Pairwise fun a c => ¬ Below encoding.numbering.count a c) :
    Instance.AllMinimal b wanted (delivered.map Prod.snd) := by
  refine ⟨?_, ?_, fun m minimal => pursues.complete poses captures finished minimal⟩
  · intro m member
    obtain ⟨d, isDelivered, rfl⟩ := List.mem_map.mp member
    exact pursues.minimal poses captures isDelivered
  · apply List.pairwise_map.mpr
    apply (List.pairwise_map.mp apart).imp_of_mem
    intro d other isDelivered isOther above same
    apply above
    exact ((pursues.depicted d isDelivered).partOf_iff poses.regular poses.encodes.numbers
      (pursues.depicted other isOther)).mp same.1

variable [Backend σ]

/-- Lifted enumeration is exact: for a formula that needs a search and relations whose tuples can be
counted, it is refused exactly if a given tuple is outside an upper bound, and otherwise delivers the
minimal ones among the models with the given tuples, each once, and then the end. -/
theorem lift_exact {solver : σ} (faithful : Faithful σ held) (reliable : Reliable σ)
    (fresh : held solver = []) (built : b.Built) (sorted : f.WellSorted) (o : Options)
    (fits : f.Fits b o.sharing)
    (countable : ∀ r ∈ b.relations.keys, (b.univ.capacity? r.arity).isSome = true)
    (incremental : o.solver.incremental = true) (running : o.aborted = false)
    (unlimited : o.timeoutMs ≠ some 0)
    (encoded : f.encode b o.sharing o.logged = .ok (.clauses encoding))
    (isOver : ∀ m, solution.model? = some m → m.Over b.univ) (liftersOver : lifters.Over b.univ) :
    ((∃ error, lift solver f b o encoding.numbering solution lifters = .error error ∧
        error.kind = .invalidArgument) ↔ b.Exceeded (Given solution lifters)) ∧
      (¬ b.Exceeded (Given solution lifters) →
        ∃ start, lift solver f b o encoding.numbering solution lifters = .ok start ∧
          ∃ (found : List (Instance × Statistics)) (proof : Option Refutation) (last : Statistics),
            Instance.AllMinimal b (f.IsModelWith b (Given solution lifters))
              (found.map Prod.fst) ∧
            ∀ further, start.answers (found.length + 1 + further) =
              found.map (fun d => .ok (.sat d.1 d.2)) ++
                .ok (.unsat proof last) :: List.replicate further (.error .exhausted)) := by
  have regular := built.regular
  have encodes := Formula.encode_clauses regular sorted fits encoded
  have univ : ∀ r t, Given solution lifters r t → t.univ = b.univ :=
    fun r t given => given.univ isOver liftersOver
  rcases lift_outcome (f := f) (o := o) solver incremental regular encodes.numbers
    (fun r t given _ => univ r t given) with ⟨refused, exceeded⟩ | ⟨⟨start, ok⟩, inside⟩
  · exact ⟨⟨fun _ => exceeded, fun _ => refused⟩, fun inside => absurd exceeded inside⟩
  refine ⟨⟨fun ⟨error, failed, _⟩ => ?_, fun exceeded => absurd exceeded inside⟩, fun _ => ?_⟩
  · rw [ok] at failed
    cases failed
  have numbers := encodes.numbers
  have lifted := ok
  rw [encodes.numbering] at lifted numbers
  obtain ⟨units, rfl, demands⟩ := lift_demands (.refl b) regular.formed numbers lifted
  have captures := demands.captures univ regular encodes
  have posed : Posed f b o.sharing o.logged units := by
    exact ⟨regular, sorted, fits.throughout encoded, fun l => demands.stands (.refl b)⟩
  have poses : encoding.Poses f b units := by
    refine ⟨encodes, regular, posed.mentions .first encodes, fun a _ var r i stands _ => ?_⟩
    obtain ⟨e, member, rfl, -⟩ := stands
    exact countable _ (encodes.numbers.relations ▸ List.mem_map_of_mem member)
  have pursues : (Enumeration.make solver f b o units).Pursues held f b encoding units [] :=
    ⟨fresh, rfl, unlimited, encoded, by simp, by simp, rfl, rfl, rfl⟩
  obtain ⟨found, proof, last, final, reached, finished, apart, answers⟩ :=
    pursues.exhausts faithful reliable poses running rfl .nil
  refine ⟨_, ok, found.map fun d => (d.1.2, d.2), proof, last, ?_, fun further => ?_⟩
  · have all := reached.allMinimal poses captures finished apart
    simpa [Function.comp_def] using all
  · rw [List.length_map, answers further, List.map_map]
    rfl

/-- The tuples of an instance within the bounds are never refused. -/
theorem Instance.Within.not_exceeded {m : Instance} {u : Universe} {stats : Statistics}
    (regular : b.Regular) (within : m.Within b) (isOver : m.Over b.univ) :
    ¬ b.Exceeded (Given (.sat m stats) (.empty u)) := by
  rintro ⟨r, t, range, ⟨_, isModel, set, listed, member⟩ | ⟨_, none, -⟩, found, outside⟩
  · obtain rfl := Option.some.inj isModel
    obtain ⟨value, isValue, -, contained⟩ := within.2 r range found
    obtain rfl := Option.some.inj
      (((Table.find?_eq_some isOver.distinct).mpr listed).symm.trans isValue)
    obtain ⟨univ, arity, below⟩ := TupleSet.le_iff.mp contained
    obtain ⟨-, upperUniv, -, upperArity, -⟩ := regular.formed.ranges r range found
    have fits : set.Fits := by
      rw [TupleSet.Fits, univ, upperUniv, arity, upperArity]
      exact fun i isIndex => regular.upper_lt found (below i isIndex)
    obtain ⟨isUniv, isArity, isIndex⟩ := TupleSet.contains_iff.mp (TupleSet.contains_of_mem fits member)
    rw [TupleSet.contains_iff.mpr ⟨isUniv.trans univ, isArity.trans arity, below _ isIndex⟩] at outside
    cases outside
  · cases none

/-- Lifting a minimal model of the fork is not refused, and the enumeration comes to its end. -/
theorem sample_lift_exact : ∃ e : Encoding,
    Fork.formula.encode Fork.bounds true false = .ok (.clauses e) ∧
      ∃ start, lift (⟨[]⟩ : Exhaustive) Fork.formula Fork.bounds .standard e.numbering
          (.sat (Fork.single 1) ⟨3, 5, 7, 0, 0⟩) (.empty Fork.univ) = .ok start ∧
        ∃ (found : List (Instance × Statistics)) (proof : Option Refutation) (last : Statistics),
          Instance.AllMinimal Fork.bounds (Fork.formula.IsModelWith Fork.bounds
            (Given (.sat (Fork.single 1) ⟨3, 5, 7, 0, 0⟩) (.empty Fork.univ))) (found.map Prod.fst) ∧
          start.answers (found.length + 1) =
            found.map (fun d => .ok (.sat d.1 d.2)) ++ [.ok (.unsat proof last)] := by
  obtain ⟨e, encoded⟩ := Fork.encoded true false
  have regular := Fork.built.regular
  have isOver : (Fork.single 1).Over Fork.bounds.univ := Numbering.instanceAt_over regular (· == 1)
  have givenOver : ∀ m, (Solution.sat (Fork.single 1) ⟨3, 5, 7, 0, 0⟩).model? = some m →
      m.Over Fork.bounds.univ := by
    rintro m isModel
    obtain rfl := Option.some.inj isModel
    exact isOver
  obtain ⟨start, ok, found, proof, last, all, answers⟩ := (lift_exact Exhaustive.faithful
    Exhaustive.reliable (rfl : Exhaustive.clauses ⟨[]⟩ = []) Fork.built Fork.sorted .standard
    (Fork.fits true) (by decide) rfl rfl (by decide) encoded givenOver (Instance.empty_over _)).2
      ((Fork.single_isModel (by decide)).1.not_exceeded regular isOver)
  exact ⟨e, encoded, start, ok, found, proof, last, all, answers 0⟩

end ModelFinder
