import ModelFinder.Proofs.Encoding.Logged
import ModelFinder.Proofs.Finder.Lifters
import ModelFinder.Proofs.Search.Refusals

/-! What the answer that there is no model, or none left, is worth with a log: it comes with conjuncts
that exclude all instances outside the cones of the models delivered. The cone of a model that cannot
be read is excluded as well, though the model is not delivered. -/
namespace ModelFinder

def Solution.found? : Solution → Option Instance
  | sat m _ => some m
  | _ => none

def foundModels {σ : Type} (calls : List (Call σ)) : List Instance :=
  calls.filterMap fun call => call.answer.toOption.bind Solution.found?

/-- The call found a model that it could not read, and there is more to come. -/
def Call.Unread {σ : Type} (call : Call σ) : Prop :=
  ∃ error, call.answer = .error error ∧ error.kind = .capacityExceeded ∧ call.after.hasNext = true

def Bounds.Uncountable (b : Bounds) (units : List Int) : Prop :=
  ∃ l ∈ units, ∃ r i, (Numbering.ofBounds b).StandsFor l.natAbs r i ∧ b.univ.capacity? r.arity = none

def Lost {σ : Type} (b : Bounds) (units : List Int) (calls : List (Call σ)) : Prop :=
  (∃ call ∈ calls, call.Unread) ∧ b.Uncountable units

/-- Every instance within the bounds that makes the core true and has the assumed tuples has all tuples
of some listed model. -/
def Refutation.Covers (p : Refutation) (b : Bounds) (units : List Int) (models : List Instance) :
    Prop :=
  ∀ m : Instance, m.Within b → (∀ g ∈ p.coreFormulas, g.holds m.interpretation .none) →
    Meets ((Numbering.ofBounds b).valuation m) units → ∃ d ∈ models, Instance.PartOf b d m

/-- The core consists of one or more conjuncts of the formula, and no instance within the bounds makes
all of them true. -/
structure Refutation.Refutes (p : Refutation) (f : Formula) (b : Bounds) : Prop where
  conjuncts : p.coreFormulas.Sublist f.conjuncts
  some : p.coreFormulas ≠ []
  unsatisfiable : ∀ m : Instance, m.Within b → ¬ ∀ g ∈ p.coreFormulas, g.holds m.interpretation .none

/-- A solution without a model, given after some calls, comes with a core of conjuncts of a stage. What
the core leaves open is covered by the models that the calls delivered, unless one was lost; the core
of a formula that folds leaves nothing open. -/
def Solution.Explained {σ : Type} (f : Formula) (b : Bounds) (sharing : Bool) (units : List Int)
    (earlier : List (Call σ)) : Solution → Prop
  | unsat proof _ => ∃ p round g c, proof = some p ∧ f.Stage b sharing true round g c ∧
      p.coreFormulas.Sublist g.conjuncts ∧
      (p.Covers c units (foundModels earlier) ∨ Lost b units earlier)
  | triviallyUnsat proof _ => ∃ p round g c, proof = some p ∧ f.Stage b sharing true round g c ∧
      p.Refutes g c
  | _ => True

section

variable {σ : Type} {held : σ → List Clause} {interruptions : σ → Nat} {f g : Formula}
  {b c : Bounds} {sharing : Bool} {units : List Int} {past earlier later : List (Call σ)}

theorem Lost.append (lost : Lost b units past) (later : List (Call σ)) :
    Lost b units (past ++ later) := by
  obtain ⟨⟨call, member, unread⟩, uncountable⟩ := lost
  exact ⟨⟨call, List.mem_append_left later member, unread⟩, uncountable⟩

theorem foundModels_append :
    foundModels (past ++ later) = foundModels past ++ foundModels later := List.filterMap_append

theorem foundModels_of_sat (call : Call σ) {m : Instance} {stats : Statistics}
    (found : call.answer = .ok (.sat m stats)) : foundModels [call] = [m] := by
  simp only [foundModels, List.filterMap_cons, found]
  rfl

/-- The cones are those of models that calls delivered, unless a model was lost. -/
def Numbering.Traces (n : Numbering) (b : Bounds) (units : List Int) (c : Bounds)
    (past : List (Call σ)) (cones : List (Nat → Bool)) : Prop :=
  Lost b units past ∨ ∀ d ∈ cones, ∃ m ∈ foundModels past, n.Depicts c d m

namespace Numbering.Traces

variable {n : Numbering} {cones : List (Nat → Bool)} {call : Call σ}

theorem append (traces : n.Traces b units c past cones) (later : List (Call σ)) :
    n.Traces b units c (past ++ later) cones := by
  refine traces.imp (·.append later) fun all d isCone => ?_
  obtain ⟨m, isFound, depicts⟩ := all d isCone
  rw [foundModels_append]
  exact ⟨m, List.mem_append_left _ isFound, depicts⟩

theorem add (traces : n.Traces b units c past cones) {a : Nat → Bool} {m : Instance}
    {stats : Statistics} (depicts : n.Depicts c a m) (answer : call.answer = .ok (.sat m stats)) :
    n.Traces b units c (past ++ [call]) (cones ++ [a]) := by
  refine (traces.append [call]).imp_right fun all d isCone => ?_
  rcases List.mem_append.mp isCone with old | new
  · exact all d old
  · rw [List.mem_singleton.mp new, foundModels_append, foundModels_of_sat call answer]
    exact ⟨m, List.mem_append_right _ (List.mem_singleton_self m), depicts⟩

end Numbering.Traces

def Session.Traced (held : σ → List Clause) (b : Bounds) (units : List Int) (c : Bounds)
    (past : List (Call σ)) (s : Session σ) : Prop :=
  s.control.limitMs ≠ some 0 → ∃ cones, s.Excluding held cones ∧
    s.loaded.encoding.numbering.Traces b units c past cones

def Phase.Traced (held : σ → List Clause) (b : Bounds) (units : List Int) (past : List (Call σ)) :
    Phase σ → Prop
  | .live s c _ => s.Traced held b units c past
  | _ => True

/-- Where a least model cannot be read, an assumption is about a tuple that cannot be counted. -/
theorem Posed.uncountable {round : Nat} {l : Loaded σ} {error : Error}
    (posed : Posed f b sharing true units) (stage : f.Stage b sharing true round g c)
    (encodes : l.encoding.Encodes g c) (least : (l.encoding.assume units).Least l.store.model)
    (unread : Solution.ofModel l c = .error error) : b.Uncountable units := by
  have regular := posed.stage_regular stage
  obtain ⟨extended, -⟩ := stage.sound posed.regular posed.sorted
  by_contra countable
  have counted : ∀ l' ∈ units, ∃ r i, l.encoding.numbering.StandsFor l'.natAbs r i ∧
      (c.univ.capacity? r.arity).isSome = true := by
    intro l' member
    obtain ⟨var, r, i, rfl, stands⟩ := posed.stage_stands stage encodes member
    refine ⟨r, i, stands, Option.isSome_iff_ne_none.mpr fun none => countable ?_⟩
    rw [encodes.numbering] at stands
    exact ⟨var, member, r, i, extended.standsFor.mp stands, extended.univ ▸ none⟩
  obtain ⟨solution, ok⟩ := Solution.ofModel_of_countable encodes regular fun _ _ _ stands chosen =>
    encodes.countable_assume regular counted least stands chosen
  cases ok.symm.trans unread

/-- A core with the failed assumptions of a search leaves open what the excluded cones cover. -/
theorem Refutation.covers_of_failed {encoding : Encoding} {log : Log} {failed : List Int}
    {cones : List (Nat → Bool)} {models : List Instance} (regular : c.Regular)
    (encodes : encoding.Encodes g c) (logs : encoding.Logs log g c)
    (primary : Mentions encoding.numbering.count units)
    (among : failed ⊆ encoding.assumptions ++ units)
    (refuted : ∀ a, Satisfies a encoding.cnf.clauses.toList → Meets a failed →
      ∃ d ∈ cones, Below encoding.numbering.count d a)
    (traced : ∀ d ∈ cones, ∃ m ∈ models, encoding.numbering.Depicts c d m) :
    (ofFailed log failed).Covers c units models := by
  intro m within core met
  rw [← encodes.numbering] at met
  obtain ⟨a, same, satisfies, meets⟩ := logs.extends encodes regular among primary within core met
  obtain ⟨d, isCone, below⟩ := refuted a satisfies meets
  obtain ⟨other, isFound, depicts⟩ := traced d isCone
  have drawn := Numbering.valuation_depicts regular encodes.numbers within
  refine ⟨other, isFound, (depicts.partOf_iff regular encodes.numbers drawn).mpr ?_⟩
  intro v lower upper isTrue
  rw [← same v lower upper]
  exact below v lower upper isTrue

theorem Refutation.refutes_of_failed {encoding : Encoding} {log : Log} {failed : List Int}
    (regular : b.Regular) (encodes : encoding.Encodes f b) (logs : encoding.Logs log f b)
    (among : failed ⊆ encoding.assumptions)
    (excluded : ∀ a, ¬ Allows encoding.cnf.clauses.toList [] failed a) :
    (ofFailed log failed).Refutes f b := by
  have covers : (ofFailed log failed).Covers b [] [] :=
    covers_of_failed regular encodes logs (List.forall_mem_nil _)
      (List.subset_append_of_subset_left [] among)
      (fun a satisfies meets => absurd ⟨satisfies, List.forall_mem_nil _, meets⟩ (excluded a))
      (List.forall_mem_nil _)
  have unsatisfiable : ∀ m : Instance, m.Within b →
      ¬ ∀ g ∈ (ofFailed log failed).coreFormulas, g.holds m.interpretation .none := by
    intro m within core
    obtain ⟨d, absent, -⟩ := covers m within core (List.forall_mem_nil _)
    cases absent
  refine ⟨logs.conjuncts ▸ coreFormulas_sublist _, fun none => ?_, unsatisfiable⟩
  have anyone := Numbering.instanceAt_depicts regular encodes.numbers fun _ => false
  apply unsatisfiable _ (anyone.within regular encodes.numbers)
  rw [none]
  exact List.forall_mem_nil _

theorem Solution.ofFailure_eq {l : Loaded σ} {log : Log} (isLog : l.encoding.log = some log) :
    ofFailure l = .unsat (some (.ofFailed log l.store.failed.get)) (.ofLoaded l) := by
  rw [ofFailure, isLog]
  rfl

theorem Loaded.conclude_unsat {l : Loaded σ} {answer : Except Failure Bool} {solution : Solution}
    (ok : l.conclude b answer = .ok solution) (isUnsat : solution.isSat = false) :
    answer = .ok false ∧ solution = .ofFailure l := by
  rcases answer with failure | _ | _
  · cases ok
  · exact ⟨rfl, (Except.ok.inj ok).symm⟩
  · obtain ⟨read, -, rest⟩ := bind_eq_ok.mp ok
    obtain ⟨m, -, made⟩ := bind_eq_ok.mp rest
    rw [← pure_eq_ok.mp made] at isUnsat
    cases isUnsat

variable [Backend σ]

/-- The failed assumptions of a search under recorded cone clauses exclude what lies in no cone. -/
theorem Session.search_failed (oracle : Oracle σ held interruptions) {s : Session σ}
    {cones : List (Nat → Bool)} (excluding : s.Excluding held cones)
    (mentions : Mentions s.loaded.encoding.cnf.numVars units)
    (refuted : (s.arm.ensureAsserted.findMinimal units).1 = .ok false) :
    (s.arm.ensureAsserted.findMinimal units).2.store.failed.get ⊆
        s.loaded.encoding.assumptions ++ units ∧
      ∀ a, Satisfies a s.loaded.encoding.cnf.clauses.toList →
        Meets a (s.arm.ensureAsserted.findMinimal units).2.store.failed.get →
        ∃ d ∈ cones, Below s.numPrimary d a := by
  obtain ⟨-, asserted, -⟩ := ensureAsserted_excluding oracle
    (show s.arm.Excluding held cones from excluding.controlled excluding.ready.unlimited)
  obtain ⟨-, among, excluded⟩ :=
    findMinimal_failed oracle.faithful asserted.ready.guarded mentions refuted
  refine ⟨among, fun a satisfies meets => ?_⟩
  by_contra absent
  refine excluded a ⟨satisfies, fun entry isLive => ?_, meets⟩
  obtain ⟨d, isCone, cone⟩ :=
    asserted.excluded entry.2 (List.mem_map_of_mem (mem_liveOf.mp isLive))
  exact (cone a).mpr fun below => absent ⟨d, isCone, below⟩

structure Enumeration.Explains (held : σ → List Clause) (f : Formula) (b : Bounds) (sharing : Bool)
    (units : List Int) (past : List (Call σ)) (e : Enumeration σ)
    (out : Except Error Solution × Enumeration σ) : Prop where
  traced : out.2.phase.Traced held b units (past ++ [⟨e, out.1, out.2⟩])
  explained : ∀ solution, out.1 = .ok solution → solution.Explained f b sharing units past

namespace Enumeration

variable {e before : Enumeration σ} {latest : Option Instance}

theorem advance_explains (oracle : Oracle σ held interruptions)
    (posed : Posed f b sharing true units)
    (tracks : e.Tracks held f b sharing true units latest) {s : Session σ}
    {previous : Option (List Nat)}
    (resumes : s.Resumes held f b sharing true units e.trivialCount latest c previous)
    (traced : s.Traced held b units c past) :
    Explains held f b sharing units past before (e.advance s c previous) := by
  obtain ⟨g, searches⟩ := resumes.searches
  have stage := searches.stage
  have regular := posed.stage_regular stage
  have encodes := posed.encodes stage searches.encoded
  obtain ⟨log, logs⟩ := Formula.encode_logs regular
    (stage.sound posed.regular posed.sorted).2.2 (posed.fits _ _ _ stage) searches.encoded
  obtain rfl := tracks.assumptions
  have advances := e.advance_advances s c previous
  by_cases expired : s.control.limitMs = some 0
  · obtain ⟨failure, failed⟩ := Session.findMinimal_expired (s := s.arm.ensureAsserted) expired rfl
      e.assumptions
    rw [failed] at advances
    generalize e.advance s c previous = out at advances ⊢
    cases advances with
    | aborted =>
      exact ⟨fun running => absurd expired running, fun solution impossible => by cases impossible⟩
    | failed => exact ⟨trivial, fun solution impossible => by cases impossible⟩
  obtain ⟨cones, excluding, known⟩ := traced expired
  have mentions := posed.mentions stage encodes
  have conflict := Session.search_failed oracle excluding mentions
  have searched := Session.search_excluding oracle excluding mentions
  generalize s.arm.ensureAsserted.findMinimal e.assumptions = search at searched conflict advances
  generalize e.advance s c previous = out at advances ⊢
  obtain ⟨answer, t⟩ := search
  obtain ⟨continues, excluded, outcome⟩ := searched
  have same : t.loaded.encoding = s.loaded.encoding := continues.encoding
  obtain ⟨further, recorded⟩ := Session.excludeCone_excluding oracle excluded
  have same' : t.excludeCone.loaded.encoding = s.loaded.encoding := further.encoding.trans same
  cases advances with
  | aborted =>
    refine ⟨fun _ => ⟨cones, excluded, (same ▸ known).append _⟩, fun solution impossible => ?_⟩
    cases impossible
  | failed other => exact absurd outcome.1 other
  | refuted =>
    refine ⟨trivial, fun solution isSolution => ?_⟩
    obtain rfl := Except.ok.inj isSolution
    obtain ⟨among, refuted⟩ := conflict rfl
    rw [Solution.ofFailure_eq (same ▸ logs.isLog)]
    refine ⟨_, e.trivialCount, g, c, rfl, stage, ?_, ?_⟩
    · exact logs.conjuncts ▸ Refutation.coreFormulas_sublist _
    · exact (Or.symm known).imp_left (Refutation.covers_of_failed regular encodes logs
        (posed.primary stage encodes) among refuted)
  | found read =>
    obtain ⟨m, rfl, depicts, -⟩ := Solution.ofModel_eq_ok (same ▸ encodes) regular read
    rw [same, ← same'] at depicts
    refine ⟨fun _ => ⟨_, recorded, (same' ▸ known).add depicts rfl⟩, fun solution isSolution => ?_⟩
    obtain rfl := Except.ok.inj isSolution
    trivial
  | unread read =>
    -- The cone is excluded, although the model is not delivered.
    obtain ⟨least, -⟩ := outcome
    rw [← same] at least encodes
    have kind := Solution.ofModel_eq_error encodes regular read
    have lost := posed.uncountable stage encodes least read
    refine ⟨fun _ => ⟨_, recorded, .inl ⟨⟨_, List.mem_append_right _ (List.mem_singleton_self _),
      _, rfl, kind, rfl⟩, lost⟩⟩, fun solution impossible => ?_⟩
    cases impossible

theorem Tracks.next_explains (oracle : Oracle σ held interruptions)
    (posed : Posed f b sharing true units)
    (tracks : e.Tracks held f b sharing true units latest) (traced : e.phase.Traced held b units past) :
    Explains held f b sharing units past e e.next := by
  have tracked := tracks.phase
  have steps := e.next_steps fun g c isPhase => by
    rw [isPhase] at tracked
    exact posed.stage_regular tracked.1
  obtain rfl := tracks.shares
  generalize e.next = out at steps ⊢
  cases steps with
  | exhausted isPhase =>
    refine ⟨?_, fun solution impossible => by cases impossible⟩
    rw [isPhase]
    trivial
  | resumed isPhase =>
    rw [isPhase] at tracked traced
    exact advance_explains oracle posed tracks tracked traced
  | rejected => exact ⟨trivial, fun solution impossible => by cases impossible⟩
  | started isPhase encoded =>
    rw [isPhase] at tracked
    rw [tracks.logs] at encoded
    obtain ⟨stage, later⟩ := tracked
    apply advance_explains oracle posed tracks (tracks.start_resumes oracle posed stage later encoded)
    intro running
    exact ⟨[], Session.start_excluding oracle tracks.fresh (posed.encodes stage encoded) running,
      .inr (List.forall_mem_nil _)⟩
  | lowest =>
    refine ⟨trivial, fun solution isSolution => ?_⟩
    obtain rfl := Except.ok.inj isSolution
    trivial
  | @refuted g c result stats isPhase folded isFalse =>
    rw [isPhase] at tracked
    rw [tracks.logs] at folded
    obtain ⟨stage, -⟩ := tracked
    obtain ⟨-, regular, sorted⟩ := stage.sound posed.regular posed.sorted
    refine ⟨trivial, fun solution isSolution => ?_⟩
    obtain rfl := Except.ok.inj isSolution
    obtain ⟨log, isLog, conjuncts, some, refuted⟩ :=
      Formula.refutes_folded regular sorted (posed.fits _ _ _ stage) folded isFalse
    refine ⟨.ofFolded log, e.trivialCount, g, c, by rw [isLog]; rfl, stage, ?_, some, refuted⟩
    exact conjuncts ▸ Refutation.coreFormulas_sublist _

theorem Tracks.lifters_traced (oracle : Oracle σ held interruptions)
    (tracks : e.Tracks held f b sharing true units latest) (traced : e.phase.Traced held b units past) :
    e.lifters.2.phase.Traced held b units past := by
  have tracked := tracks.phase
  unfold Enumeration.lifters
  split
  · rename_i s c model isPhase
    rw [isPhase] at tracked traced
    have running : s.control.limitMs ≠ some 0 := fun zero => by cases tracked.expired zero
    obtain ⟨cones, excluding, known⟩ := traced running
    have lifted := @Session.lifters_excluding σ _ held interruptions s.arm _ model oracle
      (excluding.controlled running) (tracked.primary model rfl)
    simp only
    generalize s.arm.lifters model = out at lifted
    obtain ⟨answer, t⟩ := out
    obtain ⟨continues, excluded⟩ := lifted
    have moved : t.Traced held b units c past := by
      refine fun _ => ⟨cones, excluded, ?_⟩
      rw [continues.encoding]
      exact known
    cases answer <;> exact moved
  · exact traced

omit [Backend σ] in
theorem setAborted_traced (traced : e.phase.Traced held b units past) (raised : Bool) :
    (e.setAborted raised).phase.Traced held b units past := by
  unfold Enumeration.setAborted
  cases isPhase : e.phase with
  | live s c model =>
    rw [isPhase] at traced
    intro running
    obtain ⟨cones, excluding, known⟩ := traced running
    exact ⟨cones, excluding.controlled running, known⟩
  | pending g c => trivial
  | exhausted => trivial

/-- Whatever is asked in whatever order, every answer is explained by the calls before it. -/
theorem Tracks.explained (oracle : Oracle σ held interruptions)
    (posed : Posed f b sharing true units)
    (tracks : e.Tracks held f b sharing true units latest)
    (traced : e.phase.Traced held b units past) {requests : List Request} {call : Call σ}
    (served : e.serve requests = earlier ++ call :: later) {solution : Solution}
    (answer : call.answer = .ok solution) :
    solution.Explained f b sharing units (past ++ earlier) := by
  induction requests generalizing e latest past earlier with
  | nil =>
    rw [serve] at served
    cases earlier <;> cases served
  | cons request rest ih =>
    cases request with
    | next =>
      obtain ⟨further, explained⟩ := tracks.next_explains oracle posed traced
      rw [serve] at served
      cases earlier with
      | nil =>
        obtain ⟨rfl, -⟩ := List.cons.inj served
        rw [List.append_nil]
        exact explained solution answer
      | cons first between =>
        obtain ⟨rfl, others⟩ := List.cons.inj served
        rw [← List.singleton_append, ← List.append_assoc]
        exact ih (tracks.next oracle posed).tracks further others
    | lifters => exact ih (tracks.lifters oracle) (tracks.lifters_traced oracle traced) served
    | abort raised => exact ih (tracks.setAborted raised) (setAborted_traced traced raised) served

end Enumeration

/-- With a log, the answer that there is no model comes with a refutation, whether the formula folds
or a search of any kind fails. -/
theorem solve_refutes (oracle : Oracle σ held interruptions) {solver : σ} (fresh : held solver = [])
    (regular : b.Regular) (sorted : f.WellSorted) {o : Options} (logged : o.logged = true)
    (fits : f.Fits b o.sharing) {solution : Solution}
    (ok : (solve solver f b o).result = .ok solution) (isUnsat : solution.isSat = false) :
    ∃ p, solution.refutation? = some p ∧ p.Refutes f b := by
  unfold solve withEncoding at ok
  rw [logged] at ok
  cases encoded : f.encode b o.sharing true with
  | error error =>
    rw [encoded] at ok
    cases ok
  | ok result =>
    rw [encoded] at ok
    cases result with
    | folded result =>
      cases value : result.value with
      | true =>
        obtain ⟨m, stats, answer, -⟩ := Solution.ofFolded_true regular (.ofBounds b)
          (Formula.folded_eq encoded).2 value
        cases answer.symm.trans ok
        cases isUnsat
      | false =>
        obtain ⟨stats, answer⟩ := @Solution.ofFolded_false b result value
        obtain ⟨log, isLog, conjuncts, some, refuted⟩ :=
          Formula.refutes_folded regular sorted fits encoded value
        cases answer.symm.trans ok
        refine ⟨.ofFolded log, by rw [isLog]; rfl, ?_, some, refuted⟩
        exact conjuncts ▸ Refutation.coreFormulas_sublist _
    | clauses e =>
      have encodes := Formula.encode_clauses regular sorted fits encoded
      obtain ⟨log, logs⟩ := Formula.encode_logs regular sorted fits encoded
      have guards : (e.load solver).store.Guards held e.cnf.clauses.toList e.cnf.numVars [] :=
        Encoding.load_guards oracle fresh encodes.mentions
      simp only at ok
      split at ok
      · have guarded : (Session.start (e.load solver) o.control).Guarded held
            e.cnf.clauses.toList [] := ⟨guards, encodes.roots, encodes.primary, encodes.small⟩
        obtain ⟨refuted, rfl⟩ := Loaded.conclude_unsat ok isUnsat
        obtain ⟨same, among, excluded⟩ := Session.findMinimal_failed oracle.faithful guarded
          (List.forall_mem_nil _) refuted
        rw [List.append_nil] at among
        rw [Solution.ofFailure_eq ((congrArg Encoding.log same).trans logs.isLog)]
        exact ⟨_, rfl, Refutation.refutes_of_failed regular encodes logs among excluded⟩
      · split at ok
        · cases ok
        · obtain ⟨refuted, rfl⟩ := Loaded.conclude_unsat ok isUnsat
          obtain ⟨among, excluded⟩ := Store.solve_failed oracle.faithful guards encodes.roots refuted
          rw [Solution.ofFailure_eq logs.isLog]
          exact ⟨_, rfl, Refutation.refutes_of_failed regular encodes logs among excluded⟩

omit [Backend σ] in
theorem Started.exists_make {solver : σ} {o : Options} {start : Enumeration σ}
    (started : Started solver f b o start) : ∃ units, start = .make solver f b o units := by
  cases started with
  | all ok =>
    obtain ⟨⟨⟩, -, made⟩ := bind_eq_ok.mp ok
    exact ⟨[], (pure_eq_ok.mp made).symm⟩
  | lifted _ _ ok =>
    obtain ⟨⟨⟩, -, rest⟩ := bind_eq_ok.mp ok
    obtain ⟨assumptions, -, made⟩ := bind_eq_ok.mp rest
    exact ⟨_, (pure_eq_ok.mp made).symm⟩

/-- Cores are sound. With a log, a single answer without a model comes with conjuncts that cannot hold
together within the bounds, and so does a formula of an enumeration that folds to false. Where an
enumeration ends with a failed search, the core and the assumptions leave nothing open within the
bounds that the models delivered before do not cover, or a model was found that could not be read. -/
theorem cores_sound_unless_unread (oracle : Oracle σ held interruptions) {solver : σ}
    (fresh : held solver = []) (built : b.Built) (sorted : f.WellSorted) (o : Options)
    (logged : o.logged = true) (fits : f.FitsThroughout b o.sharing o.logged) :
    (∀ solution, (solve solver f b o).result = .ok solution → solution.isSat = false →
      ∃ p, solution.refutation? = some p ∧ p.Refutes f b) ∧
    ∀ start, Started solver f b o start → ∀ requests earlier call later,
      start.serve requests = earlier ++ call :: later → ∀ solution, call.answer = .ok solution →
        solution.Explained f b o.sharing start.assumptions earlier := by
  have regular := built.regular
  constructor
  · intro solution ok isUnsat
    exact solve_refutes oracle fresh regular sorted logged (fits 0 f b .first) ok isUnsat
  · intro start started requests earlier call later served solution answer
    obtain ⟨units, posed, tracks⟩ := started.tracks regular sorted fits fresh
    rw [logged] at posed tracks
    rw [tracks.assumptions, ← List.nil_append earlier]
    apply tracks.explained oracle posed _ served answer
    obtain ⟨units, rfl⟩ := started.exists_make
    trivial

end

/-! The pair with a log. The only conjunct of a formula is assumed, and there is no clause. -/
namespace Sample

def logging : Options := { Options.standard with logLevel := 1 }

def denial : Formula := .multiplicity .no (.rel relation)

theorem Choice.denial_run {l : Leaves} {c : Circuit} (choice : Choice l c) :
    groundConjuncts l denial.conjuncts c = .ok (([.lit (-1)], .lit (-1)), c) := by
  obtain ⟨dims, ran⟩ := choice.relation_run
  have none : (Matrix.ofCells dims [(0, .lit 1)]).no c = (.lit (-1), c) := by
    show ((Matrix.ofCells dims [(0, .lit 1)]).some c).map Value.not id = _
    rw [some_run, Prod.map_apply, Value.not_lit (by decide)]
    rfl
  have ground : denial.ground l .empty c = .ok (.lit (-1), c) :=
    Build.bind_run.mpr ⟨_, _, ran, congrArg Except.ok none⟩
  have all : (liftM (Circuit.all [.lit (-1)]) : Build Value) c = .ok (.lit (-1), c) :=
    congrArg Except.ok (combine_run _ _ (by decide) c)
  apply Build.bind_run.mpr
  exact ⟨[.lit (-1)], _, Build.bind_run.mpr ⟨_, _, ground, rfl⟩, Build.bind_run.mpr ⟨_, _, all, rfl⟩⟩

def loggedPair (f : Formula) (label : Int) : Encoding :=
  ⟨pairEncoding.numbering, pair, some [⟨f, label⟩], ⟨2, #[]⟩, [label]⟩

section

variable {f : Formula} {label : Int} (first : label.natAbs = 1) (single : f.conjuncts = [f])
  (covered : pair.covers f = .ok ())
  (run : ∀ {l : Leaves} {c : Circuit}, Choice l c →
    groundConjuncts l f.conjuncts c = .ok (([.lit label], .lit label), c))

include first single covered run

theorem pair_logged : f.encode pair true true = .ok (.clauses (loggedPair f label)) := by
  have isLabel : (Value.lit label).label = label := Value.label_lit (by omega)
  refine bind_eq_ok.mpr ⟨(), covered, bind_eq_ok.mpr ⟨_, pair_run run true, ?_⟩⟩
  simp [Encoder.defineAll, Encoder.define, Encoder.reach, Encoder.visit, Encoder.empty, loggedPair,
    pairEncoding, pair_leaves, Circuit.empty, isLabel, first, Circuit.gate?, Circuit.maxLabel, single]

theorem pair_fitsThroughout : f.FitsThroughout pair true true :=
  (pair_fits run true).throughout (pair_logged first single covered run)

end

def pairModels (f : Formula) (units : List Int) : Enumeration Exhaustive :=
  .make ⟨[]⟩ f pair logging units

def pairFirst (f : Formula) (label : Int) (units : List Int) :
    Except Error Solution × Enumeration Exhaustive :=
  (pairModels f units).advance (.start ((loggedPair f label).load ⟨[]⟩) logging.control) pair none

theorem pair_next {f : Formula} {label : Int} (units : List Int)
    (encoded : f.encode pair true true = .ok (.clauses (loggedPair f label))) :
    (pairModels f units).next = pairFirst f label units := by
  have same : f.encode pair logging.sharing logging.logged = .ok (.clauses (loggedPair f label)) :=
    encoded
  simp only [Enumeration.next, pairModels, Enumeration.make, same]
  rfl

def widest : Instance := ⟨atoms, ⟨[(wide, first 64)]⟩, .empty⟩

def nothing : Solution := .unsat none ⟨0, 0, 0, 0, 0⟩

theorem pair_lift : lift (⟨[]⟩ : Exhaustive) denial pair logging
    (loggedPair denial (-1)).numbering nothing widest = .ok (pairModels denial [2]) := by
  have assumed : liftAssumption (loggedPair denial (-1)).numbering pair wide
      ⟨atoms, decodeIndex 2 64 0⟩ = .ok [2] := by decide +kernel
  have asked : asked nothing widest = [(wide, ⟨atoms, decodeIndex 2 64 0⟩)] := rfl
  rw [lift_eq _ _ _ _ rfl, asked, List.mapM_cons, List.mapM_nil]
  simp only [assumed]
  show Except.ok (Enumeration.make _ _ _ _ (Ascending.sort [2])) = _
  rw [Ascending.sort_singleton]
  rfl

end Sample

theorem exists_unsat (answer : Except Error Solution)
    (isUnsat : answer.toOption.map Solution.outcome = some .unsatisfiable) :
    ∃ proof stats, answer = .ok (.unsat proof stats) := by
  rcases answer with error | solution
  · cases isUnsat
  · cases solution with
    | unsat proof stats => exact ⟨proof, stats, rfl⟩
    | _ => cases isUnsat

/-- Over the pair, the model with the tuple is found first; the core of the end covers all others. -/
theorem sample_cores_sound : ∃ first second m stats p last,
    solveAll ⟨[]⟩ Sample.formula Sample.pair Sample.logging =
        .ok (Sample.pairModels Sample.formula []) ∧
      (Sample.pairModels Sample.formula []).serve [.next, .next] = [first, second] ∧
      first.answer = .ok (.sat m stats) ∧ second.answer = .ok (.unsat (some p) last) ∧
      p.Covers Sample.pair [] [m] := by
  have encoded := Sample.pair_logged (by decide) rfl rfl Sample.Choice.run
  have opened := Sample.pair_next [] encoded
  obtain ⟨-, explained⟩ := cores_sound_unless_unread
    (Exhaustive.reliable.oracle Exhaustive.faithful) (rfl : Exhaustive.clauses ⟨[]⟩ = [])
    Sample.pair_built Sample.sorted Sample.logging rfl
    (Sample.pair_fitsThroughout (by decide) rfl rfl Sample.Choice.run)
  obtain ⟨m, stats, isFound⟩ :
      ∃ m stats, (Sample.pairFirst Sample.formula 1 []).1 = .ok (.sat m stats) := ⟨_, _, rfl⟩
  obtain ⟨proof, last, isEnd⟩ := exists_unsat (Sample.pairFirst Sample.formula 1 []).2.next.1
    (by decide +kernel)
  rw [← opened] at isFound isEnd
  obtain ⟨p, round, g, c, rfl, stage, -, covers⟩ := explained _ (.all rfl) [.next, .next] [_] _ []
    rfl _ isEnd
  obtain ⟨-, rfl, rfl⟩ := stage.eq_of_clauses encoded
  refine ⟨_, _, m, stats, p, last, rfl, rfl, isFound, isEnd, ?_⟩
  rcases covers with covers | ⟨-, l, absent, -⟩
  · exact foundModels_of_sat ⟨_, _, _⟩ isFound ▸ covers
  · cases absent

/-- Under the assumption of the wide tuple, the first model cannot be read. Its cone is excluded all
the same, so that the end comes with a core that the model satisfies. -/
theorem unread_model_leaves_core_open : ∃ lifted first second p stats,
    lift (⟨[]⟩ : Exhaustive) Sample.denial Sample.pair Sample.logging
        (Sample.loggedPair Sample.denial (-1)).numbering Sample.nothing Sample.widest = .ok lifted ∧
      lifted.serve [.next, .next] = [first, second] ∧ first.Unread ∧
      second.answer = .ok (.unsat (some p) stats) ∧
      ¬ p.Covers Sample.pair lifted.assumptions (foundModels [first]) := by
  have regular := Sample.pair_built.regular
  have encoded := Sample.pair_logged (by decide) rfl rfl Sample.Choice.denial_run
  have fits := Sample.pair_fitsThroughout (by decide) rfl rfl Sample.Choice.denial_run
  have sorted : Sample.denial.WellSorted := trivial
  have encodes := Formula.encode_clauses regular sorted (fits 0 _ _ .first) encoded
  have oracle := Exhaustive.reliable.oracle Exhaustive.faithful
  have started : Started (⟨[]⟩ : Exhaustive) Sample.denial Sample.pair Sample.logging
      (Sample.pairModels Sample.denial [2]) :=
    .lifted (o := Sample.logging) .first encoded Sample.pair_lift
  obtain ⟨units, posed, tracks⟩ := started.tracks regular sorted fits
    (rfl : Exhaustive.clauses ⟨[]⟩ = [])
  obtain rfl : [2] = units := tracks.assumptions
  have opened := Sample.pair_next [2] encoded
  have unread : (Sample.pairFirst Sample.denial (-1) [2]).1 = .error (.tupleCapacity 64 2) := rfl
  have more : (Sample.pairFirst Sample.denial (-1) [2]).2.hasNext = true := by decide +kernel
  obtain ⟨proof, stats, isEnd⟩ := exists_unsat
    (Sample.pairFirst Sample.denial (-1) [2]).2.next.1 (by decide +kernel)
  rw [← opened] at unread more isEnd
  have served : (Sample.pairModels Sample.denial [2]).serve [.next, .next] = [_] ++ _ :: [] := rfl
  have traced : (Sample.pairModels Sample.denial [2]).phase.Traced Exhaustive.clauses Sample.pair [2]
      [] := trivial
  obtain ⟨p, round, g, c, rfl, stage, conjuncts, -⟩ :=
    tracks.explained oracle posed traced served isEnd
  obtain ⟨-, rfl, rfl⟩ := stage.eq_of_clauses encoded
  refine ⟨_, _, _, p, stats, Sample.pair_lift, rfl, ⟨_, unread, rfl, more⟩, isEnd, fun covers => ?_⟩
  -- The instance that has the wide tuple only.
  have models : (Sample.loggedPair Sample.denial (-1)).Models (· == 2) :=
    ⟨by simp [Satisfies, Sample.loggedPair], by unfold Meets; decide +kernel⟩
  obtain ⟨m, depicts⟩ : ∃ m, (Sample.loggedPair Sample.denial (-1)).numbering.Depicts Sample.pair
      (· == 2) m := ⟨_, Numbering.instanceAt_depicts regular encodes.numbers _⟩
  have isModel := encodes.isModel regular models depicts
  have core : ∀ g ∈ p.coreFormulas, g.holds m.interpretation .none := by
    intro g member
    obtain rfl := List.mem_singleton.mp (conjuncts.subset member)
    exact isModel.2
  have assumed : Meets ((Numbering.ofBounds Sample.pair).valuation m) [2] := by
    intro l member
    obtain rfl := List.mem_singleton.mp member
    rw [← encodes.numbering, litHolds, if_pos (by decide),
      depicts.valuation_eq regular encodes.numbers (by decide) (by decide +kernel)]
    rfl
  obtain ⟨d, absent, -⟩ := covers m isModel.1 core assumed
  simp [foundModels, unread, Except.toOption] at absent

end ModelFinder
