import ModelFinder.Proofs.Finder.Calls
import ModelFinder.Proofs.Finder.Runs
import ModelFinder.Proofs.Finder.Solve
import ModelFinder.Proofs.Search.Lifters

/-! Where an enumeration stands. Whatever was asked before, the cones of the models delivered are on
record and nothing else is, so a search under their clauses and the assumptions finds a least model
in none of them. A search that fails has no model left to find. -/
namespace ModelFinder

variable {σ : Type} {held : σ → List Clause} {interruptions : σ → Nat} {f : Formula} {b : Bounds}
  {encoding : Encoding} {units : List Int} {delivered : List ((Nat → Bool) × Instance)}

/-- An encoded formula can be searched under assumptions: they are about variables in use, and the
tuples of a least model can be counted. -/
structure Encoding.Poses (encoding : Encoding) (f : Formula) (b : Bounds) (units : List Int) :
    Prop where
  encodes : encoding.Encodes f b
  regular : b.Regular
  mentions : Mentions encoding.cnf.numVars units
  countable : ∀ a, (encoding.assume units).Least a → ∀ var r i,
    encoding.numbering.StandsFor var r i → a var = true → (b.univ.capacity? r.arity).isSome = true

theorem Encoding.Encodes.poses_nil (encodes : encoding.Encodes f b) (regular : b.Regular) :
    encoding.Poses f b [] := by
  refine ⟨encodes, regular, by simp [Mentions], fun a least var r i stands chosen => ?_⟩
  rw [assume_nil] at least
  exact encodes.countable regular least stands chosen

/-- The phase of an enumeration once models have been delivered. A live one knows the true primary
variables of the last. -/
def Phase.Reached (held : σ → List Clause) (f : Formula) (b : Bounds) (encoding : Encoding)
    (units : List Int) (aborted : Bool) (delivered : List ((Nat → Bool) × Instance)) :
    Phase σ → Prop
  | .pending g c => g = f ∧ c = b ∧ delivered = []
  | .live s c model => c = b ∧ s.loaded.encoding = encoding ∧
      s.Excluding held (delivered.map Prod.fst) ∧ s.control.aborted = aborted ∧
      ∀ vars, model = some vars → ∃ d, delivered.getLast? = some d ∧
        ∀ v, v ∈ vars ↔ (1 ≤ v ∧ v ≤ encoding.numbering.count) ∧ d.1 v = true
  | .exhausted => ∀ a, (encoding.assume units).Models a →
      ∃ d ∈ delivered, Below encoding.numbering.count d.1 a

namespace Enumeration

/-- The enumeration has delivered least models under its assumptions, each with the assignment it was
read from. -/
structure Pursues (held : σ → List Clause) (f : Formula) (b : Bounds) (encoding : Encoding)
    (units : List Int) (delivered : List ((Nat → Bool) × Instance)) (e : Enumeration σ) : Prop where
  fresh : held e.backend = []
  assumptions : e.assumptions = units
  unlimited : e.options.timeoutMs ≠ some 0
  encoded : f.encode b e.options.sharing e.options.logged = .ok (.clauses encoding)
  least : ∀ d ∈ delivered, (encoding.assume units).Least d.1
  depicted : ∀ d ∈ delivered, encoding.numbering.Depicts b d.1 d.2
  phase : e.phase.Reached held f b encoding units e.options.aborted delivered

/-- What a call for the next solution comes to where models have been delivered: another least model
in none of their cones, no answer because the call was aborted, or the end. -/
inductive Advanced (held : σ → List Clause) (f : Formula) (b : Bounds) (encoding : Encoding)
    (units : List Int) (delivered : List ((Nat → Bool) × Instance))
    (aborted : Enumeration σ → Prop) : Except Error Solution × Enumeration σ → Prop where
  | found {m : Instance} {stats : Statistics} {a : Nat → Bool} {after : Enumeration σ}
      (apart : ∀ d ∈ delivered, ¬ Below encoding.numbering.count d.1 a)
      (pursues : after.Pursues held f b encoding units (delivered ++ [(a, m)]))
      (more : after.hasNext = true) :
      Advanced held f b encoding units delivered aborted (.ok (.sat m stats), after)
  | aborted {after : Enumeration σ} (stopped : aborted after)
      (pursues : after.Pursues held f b encoding units delivered) (more : after.hasNext = true) :
      Advanced held f b encoding units delivered aborted (.error .aborted, after)
  | ended {proof : Option Refutation} {stats : Statistics} {after : Enumeration σ}
      (pursues : after.Pursues held f b encoding units delivered) (finished : after.phase = .exhausted) :
      Advanced held f b encoding units delivered aborted (.ok (.unsat proof stats), after)

variable {e : Enumeration σ} {announcements : List Announcement} {phase : Phase σ}

theorem Pursues.moved (pursues : e.Pursues held f b encoding units delivered)
    (reached : phase.Reached held f b encoding units e.options.aborted delivered) :
    { e with announcements, phase }.Pursues held f b encoding units delivered :=
  ⟨pursues.fresh, pursues.assumptions, pursues.unlimited, pursues.encoded, pursues.least,
    pursues.depicted, reached⟩

theorem Pursues.extended (pursues : e.Pursues held f b encoding units delivered) {a : Nat → Bool}
    {m : Instance} (least : (encoding.assume units).Least a)
    (depicts : encoding.numbering.Depicts b a m)
    (reached : phase.Reached held f b encoding units e.options.aborted (delivered ++ [(a, m)])) :
    { e with announcements, phase }.Pursues held f b encoding units (delivered ++ [(a, m)]) := by
  refine ⟨pursues.fresh, pursues.assumptions, pursues.unlimited, pursues.encoded, ?_, ?_, reached⟩
  · intro d member
    rcases List.mem_append.mp member with old | new
    · exact pursues.least d old
    · rw [List.mem_singleton.mp new]
      exact least
  · intro d member
    rcases List.mem_append.mp member with old | new
    · exact pursues.depicted d old
    · rw [List.mem_singleton.mp new]
      exact depicts

variable {wanted : Instance → Prop}

theorem Pursues.minimal (poses : encoding.Poses f b units)
    (captures : (encoding.assume units).Captures b wanted)
    (pursues : e.Pursues held f b encoding units delivered) {d : (Nat → Bool) × Instance}
    (member : d ∈ delivered) : Instance.Minimal b wanted d.2 := by
  have least := pursues.least d member
  exact (captures.minimal_iff poses.regular poses.encodes.numbers least.1
    (pursues.depicted d member)).mpr least

/-- At the end every minimal model has been delivered: it lies in the cone of a delivered one. -/
theorem Pursues.complete (poses : encoding.Poses f b units)
    (captures : (encoding.assume units).Captures b wanted)
    (pursues : e.Pursues held f b encoding units delivered) (finished : e.phase = .exhausted)
    {m : Instance} (minimal : Instance.Minimal b wanted m) :
    ∃ d ∈ delivered.map Prod.snd, Instance.SameOn b d m := by
  have covers := pursues.phase
  rw [finished] at covers
  have numbers := poses.encodes.numbers
  obtain ⟨a, models, depicts⟩ := captures.complete m minimal.1
  have least := (captures.minimal_iff poses.regular numbers models depicts).mp minimal
  obtain ⟨d, member, below⟩ := covers a models
  have above := least.2 d.1 (pursues.least d member).1 below
  have drawn := pursues.depicted d member
  exact ⟨d.2, List.mem_map_of_mem member,
    (drawn.partOf_iff poses.regular numbers depicts).mpr below,
    (depicts.partOf_iff poses.regular numbers drawn).mpr above⟩

end Enumeration

namespace Session

variable {s : Session σ} {models : List (Nat → Bool)}

/-- What a session excludes does not depend on its control. -/
theorem Excluding.controlled (excluding : s.Excluding held models) {control : Control}
    (unlimited : control.limitMs ≠ some 0) : { s with control }.Excluding held models :=
  ⟨⟨excluding.ready.guards, excluding.ready.roots, excluding.ready.primary, excluding.ready.small,
    unlimited⟩, excluding.fits, excluding.excluded, excluding.recorded⟩

theorem admits_iff_models {a : Nat → Bool} :
    s.Admits [] units a ↔ (s.loaded.encoding.assume units).Models a :=
  ⟨fun admits => ⟨admits.base, admits.assumptions⟩,
    fun models => ⟨models.1, by simp, models.2⟩⟩

variable [Backend σ]

theorem start_excluding (oracle : Oracle σ held interruptions) {solver : σ}
    (fresh : held solver = []) (encodes : encoding.Encodes f b) {control : Control}
    (unlimited : control.limitMs ≠ some 0) :
    (Session.start (encoding.load solver) control).Excluding held [] := by
  refine ⟨start_ready oracle fresh encodes unlimited, ?_, ?_, by simp⟩ <;>
    simp [Session.start, Ledger.empty, Ledger.clauses]

/-- A search under all recorded cone clauses: a model that it finds is least among all models, not
only among those outside the cones. -/
theorem search_excluding (oracle : Oracle σ held interruptions)
    (excluding : s.Excluding held models)
    (mentions : Mentions s.loaded.encoding.cnf.numVars units) :
    Continues interruptions s.arm (s.arm.ensureAsserted.findMinimal units).2 ∧
      (s.arm.ensureAsserted.findMinimal units).2.Excluding held models ∧
      match (s.arm.ensureAsserted.findMinimal units).1 with
      | .ok true =>
          (s.loaded.encoding.assume units).Least
            (s.arm.ensureAsserted.findMinimal units).2.value ∧
          ∀ d ∈ models,
            ¬ Below s.numPrimary d (s.arm.ensureAsserted.findMinimal units).2.value
      | .ok false => ∀ a, (s.loaded.encoding.assume units).Models a →
          ∃ d ∈ models, Below s.numPrimary d a
      | .error failure => failure = .aborted ∧
          Stopped interruptions s (s.arm.ensureAsserted.findMinimal units).2 := by
  obtain ⟨continues, asserted, live⟩ := ensureAsserted_excluding oracle
    (show s.arm.Excluding held models from excluding.controlled excluding.ready.unlimited)
  have searched := findMinimal_ready oracle asserted.ready
    (show Mentions _ units from continues.encoding.symm ▸ mentions)
  generalize s.arm.ensureAsserted = t at continues asserted live searched
  have count : t.numPrimary = s.numPrimary := continues.numPrimary
  have admits : ∀ a, t.Admits (liveOf t.ledger.entries) units a ↔
      (s.loaded.encoding.assume units).Models a ∧ ∀ d ∈ models, ¬ Below s.numPrimary d a := by
    intro a
    rw [asserted.admits_iff live, admits_iff_models, count, continues.encoding]
    rfl
  generalize t.findMinimal units = out at searched
  obtain ⟨answer, u⟩ := out
  obtain ⟨follows, ready, outcome⟩ := searched
  refine ⟨continues.trans follows.toContinues, asserted.of_follows follows ready, ?_⟩
  match answer, outcome with
  | .ok true, ⟨admitted, minimal⟩ =>
    obtain ⟨isModel, apart⟩ := (admits _).mp admitted
    refine ⟨⟨isModel, fun c other below => ?_⟩, apart⟩
    rw [count] at minimal
    apply minimal c _ below
    -- What lies below a model outside a cone lies outside the cone as well.
    apply (admits c).mpr
    exact ⟨other, fun d member covered => apart d member (covered.trans below)⟩
  | .ok false, refuted =>
    intro a isModel
    by_contra absent
    apply refuted a
    apply (admits a).mpr
    exact ⟨isModel, fun d member below => absent ⟨d, member, below⟩⟩
  | .error failure, ⟨aborted, stopped⟩ => exact ⟨aborted, continues.stopped stopped⟩

end Session

namespace Enumeration

variable {e : Enumeration σ} [Backend σ]

/-- A search in a session that excludes the cones of the models delivered. -/
theorem advance_advanced (oracle : Oracle σ held interruptions) (poses : encoding.Poses f b units)
    (pursues : e.Pursues held f b encoding units delivered)
    {s : Session σ} {previous : Option (List Nat)}
    (reached : (Phase.live s b previous).Reached held f b encoding units e.options.aborted delivered)
    (solver : interruptions s.store.backend = interruptions e.solver) :
    Advanced held f b encoding units delivered
      (fun after => e.options.aborted = true ∨ interruptions e.solver < interruptions after.solver)
      (e.advance s b previous) := by
  obtain ⟨-, isEncoding, excluding, control, known⟩ := reached
  have searched := Session.search_excluding oracle excluding
    (show Mentions _ units from isEncoding.symm ▸ poses.mentions)
  obtain rfl := pursues.assumptions
  have advances := e.advance_advances s b previous
  generalize s.arm.ensureAsserted.findMinimal e.assumptions = search at searched advances
  generalize e.advance s b previous = out at advances ⊢
  obtain ⟨answer, t⟩ := search
  obtain ⟨continues, excluded, outcome⟩ := searched
  have isEncoding' : t.loaded.encoding = encoding := continues.encoding.trans isEncoding
  have control' : t.control.aborted = e.options.aborted := by
    rw [continues.control]
    exact control
  have encodes' : t.loaded.encoding.Encodes f b := isEncoding' ▸ poses.encodes
  cases advances with
  | found read =>
    obtain ⟨least, apart⟩ := outcome
    rw [isEncoding] at least
    obtain ⟨m, rfl, depicts, -⟩ := Solution.ofModel_eq_ok encodes' poses.regular read
    obtain ⟨further, recorded⟩ := Session.excludeCone_excluding oracle excluded
    rw [isEncoding'] at depicts
    rw [Session.numPrimary, Loaded.numPrimary, isEncoding] at apart
    have apart' : ∀ d ∈ delivered, ¬ Below encoding.numbering.count d.1 t.value :=
      fun d member => apart _ (List.mem_map_of_mem member)
    apply Advanced.found apart' _ rfl
    apply pursues.extended least depicts
    refine ⟨rfl, further.encoding.trans isEncoding', ?_, ?_, ?_⟩
    · rw [List.map_append]
      exact recorded
    · rw [further.control]
      exact control'
    · intro vars isVars
      obtain rfl := Option.some.inj isVars
      refine ⟨(t.value, m), List.getLast?_concat .., fun v => ?_⟩
      rw [← isEncoding']
      exact Session.mem_truePrimaries
  | unread read =>
    obtain ⟨least, -⟩ := outcome
    rw [isEncoding] at least
    obtain ⟨solution, ok⟩ := Solution.ofModel_of_countable encodes' poses.regular
      (isEncoding'.symm ▸ poses.countable t.value least)
    cases ok.symm.trans read
  | refuted =>
    apply Advanced.ended _ rfl
    apply pursues.moved
    intro a models
    rw [isEncoding] at outcome
    obtain ⟨d, member, below⟩ := outcome a models
    obtain ⟨pair, isPair, rfl⟩ := List.mem_map.mp member
    rw [Session.numPrimary, Loaded.numPrimary, isEncoding] at below
    exact ⟨pair, isPair, below⟩
  | aborted =>
    obtain ⟨-, stopped⟩ := outcome
    apply Advanced.aborted _ _ rfl
    · rw [Session.Stopped, control, solver] at stopped
      exact stopped
    · apply pursues.moved
      exact ⟨rfl, isEncoding', excluded, control', known⟩
  | failed other => exact absurd outcome.1 other

/-- The next solution, where the end has not come. -/
theorem next_advanced (oracle : Oracle σ held interruptions) (poses : encoding.Poses f b units)
    (pursues : e.Pursues held f b encoding units delivered) (more : e.hasNext = true) :
    Advanced held f b encoding units delivered
      (fun after => e.options.aborted = true ∨ interruptions e.solver < interruptions after.solver)
      e.next := by
  have reached := pursues.phase
  cases isPhase : e.phase with
  | pending g c =>
    rw [isPhase] at reached
    obtain ⟨rfl, rfl, rfl⟩ := reached
    simp only [next, isPhase, pursues.encoded]
    apply advance_advanced oracle poses pursues
    · have excluding := Session.start_excluding oracle pursues.fresh poses.encodes
        (show e.options.control.limitMs ≠ some 0 from pursues.unlimited)
      exact ⟨rfl, rfl, excluding, rfl, fun vars none => by cases none⟩
    · rw [solver, isPhase]
      exact Encoding.load_interruptions oracle
  | live s c model =>
    rw [isPhase] at reached
    obtain rfl := reached.1
    simp only [next, isPhase]
    apply advance_advanced oracle poses pursues reached
    rw [solver, isPhase]
  | exhausted =>
    rw [hasNext, isPhase] at more
    cases more

/-- Asking for lifters changes neither the models delivered nor whether there is more. -/
theorem lifters_pursues (oracle : Oracle σ held interruptions)
    (pursues : e.Pursues held f b encoding units delivered) :
    e.lifters.2.Pursues held f b encoding units delivered ∧ e.lifters.2.hasNext = e.hasNext := by
  have reached := pursues.phase
  unfold lifters
  split
  · rename_i s c model isPhase
    rw [isPhase] at reached
    obtain ⟨rfl, isEncoding, excluding, control, known⟩ := reached
    have count : s.numPrimary = encoding.numbering.count := by
      rw [Session.numPrimary, Loaded.numPrimary, isEncoding]
    obtain ⟨d, -, isTrue⟩ := known model rfl
    have lifted := @Session.lifters_excluding σ _ held interruptions s.arm _ model oracle
      (excluding.controlled excluding.ready.unlimited)
      (count ▸ fun v member => ((isTrue v).mp member).1)
    simp only
    generalize s.arm.lifters model = out at lifted
    obtain ⟨answer, t⟩ := out
    obtain ⟨continues, excluded⟩ := lifted
    have moved : { e with phase := .live t c (some model) }.Pursues held f c encoding units
        delivered := by
      apply pursues.moved
      refine ⟨rfl, continues.encoding.trans isEncoding, excluded, ?_, known⟩
      rw [continues.control]
      exact control
    have more : { e with phase := .live t c (some model) }.hasNext = e.hasNext := by
      simp only [hasNext, isPhase]
    cases answer with
    | error failure => exact ⟨moved, more⟩
    | ok vars => exact ⟨moved, more⟩
  · exact ⟨pursues, rfl⟩

omit [Backend σ] in
theorem setAborted_pursues (pursues : e.Pursues held f b encoding units delivered) (raised : Bool) :
    (e.setAborted raised).Pursues held f b encoding units delivered ∧
      (e.setAborted raised).hasNext = e.hasNext := by
  have reached := pursues.phase
  have kept : ∀ phase, Phase.Reached held f b encoding units raised delivered phase →
      (⟨e.backend, { e.options with aborted := raised }, e.assumptions, phase, e.trivialCount,
        e.announcements⟩ : Enumeration σ).Pursues held f b encoding units delivered := by
    intro phase known
    exact ⟨pursues.fresh, pursues.assumptions, pursues.unlimited, pursues.encoded, pursues.least,
      pursues.depicted, known⟩
  unfold setAborted
  cases isPhase : e.phase with
  | pending g c =>
    rw [isPhase] at reached
    exact ⟨kept _ reached, by simp only [hasNext, isPhase]⟩
  | live s c model =>
    rw [isPhase] at reached
    obtain ⟨isBounds, isEncoding, excluding, -, known⟩ := reached
    have excluded : { s with control := { s.control with aborted := raised } }.Excluding held
        (delivered.map Prod.fst) := excluding.controlled excluding.ready.unlimited
    exact ⟨kept _ ⟨isBounds, isEncoding, excluded, rfl, known⟩, by simp only [hasNext, isPhase]⟩
  | exhausted =>
    rw [isPhase] at reached
    exact ⟨kept _ reached, by simp only [hasNext, isPhase]⟩

end Enumeration

end ModelFinder
