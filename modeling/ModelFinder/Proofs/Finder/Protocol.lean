import ModelFinder.Proofs.Encoding.Progress
import ModelFinder.Proofs.Finder.Enumeration
import ModelFinder.Proofs.Finder.Refutations
import ModelFinder.Proofs.Search.Frame

/-! What the answer of a call says about the calls to come, whatever the solver does. An aborted call
changes neither the model delivered last nor the excluded cones; a solution with a model leaves more to
come, a solution without one and any other failure end the sequence for good. The exception is a model
that was found but cannot be read: the call fails, and there is more to come. -/
namespace ModelFinder

variable {σ : Type}

namespace Enumeration

/-- The true variables of the model delivered last, which lifters are computed for. -/
def latest? (e : Enumeration σ) : Option (List Nat) :=
  match e.phase with
  | .live _ _ model => model
  | _ => none

def recorded (e : Enumeration σ) : List Clause :=
  match e.phase with
  | .live s _ _ => s.ledger.clauses
  | _ => []

end Enumeration

/-- The enumeration that a call leaves is what the answer says. -/
structure Call.Orderly (call : Call σ) : Prop where
  aborted : call.answer = .error .aborted → call.after.hasNext = true ∧
    call.after.latest? = call.before.latest? ∧ call.after.recorded = call.before.recorded
  failed : ∀ error, call.answer = .error error → error ≠ .aborted → call.after.hasNext = false
  answered : ∀ solution, call.answer = .ok solution → call.after.hasNext = solution.isSat

def Bounds.Overlarge (b : Bounds) : Prop :=
  ∃ r range, b.range? r = some range ∧ range.unknowns ≠ [] ∧ b.univ.capacity? r.arity = none

namespace Call

variable {call : Call σ} {error : Error}

theorem orderly_of_error (isError : call.answer = .error error) (other : error ≠ .aborted)
    (closed : call.after.hasNext = false) : call.Orderly := by
  constructor
  · intro isAborted
    exact absurd (Except.error.inj (isError.symm.trans isAborted)) other
  · exact fun _ _ _ => closed
  · intro solution isSolution
    cases isError.symm.trans isSolution

theorem orderly_of_ok {solution : Solution} (isSolution : call.answer = .ok solution)
    (agrees : call.after.hasNext = solution.isSat) : call.Orderly := by
  constructor
  · intro impossible
    cases isSolution.symm.trans impossible
  · intro error impossible
    cases isSolution.symm.trans impossible
  · intro other same
    obtain rfl := Except.ok.inj (isSolution.symm.trans same)
    exact agrees

theorem orderly_of_aborted (isAborted : call.answer = .error .aborted)
    (more : call.after.hasNext = true) (latest : call.after.latest? = call.before.latest?)
    (recorded : call.after.recorded = call.before.recorded) : call.Orderly := by
  constructor
  · exact fun _ => ⟨more, latest, recorded⟩
  · intro error isError other
    exact absurd (Except.error.inj (isError.symm.trans isAborted)) other
  · intro solution impossible
    cases isAborted.symm.trans impossible

end Call

theorem Error.IsInput.ne_aborted {error : Error} (isInput : error.IsInput) : error ≠ .aborted := by
  rintro rfl
  rcases isInput with kind | kind | kind | kind <;> cases kind

/-- The phase is that of a stage of the formula, so many formulas having folded to true before. -/
def Phase.Staged (f : Formula) (b : Bounds) (sharing logged : Bool) (round : Nat) : Phase σ → Prop
  | .pending g c => f.Stage b sharing logged round g c
  | .live s c _ => ∃ g, f.Stage b sharing logged round g c ∧
      g.encode c sharing logged = .ok (.clauses s.loaded.encoding)
  | .exhausted => True

structure Formula.Proper (f : Formula) (b : Bounds) (sharing logged : Bool) : Prop where
  regular : b.Regular
  sorted : f.WellSorted
  few : b.unknownCount < 2147483647
  fits : f.FitsThroughout b sharing logged

/-- A model that cannot be read has an unknown tuple of a relation whose tuples cannot be counted. -/
theorem Solution.overlarge_of_unread {l : Loaded σ} {error : Error} {f g : Formula} {b c : Bounds}
    {sharing logged : Bool} (proper : f.Proper b sharing logged)
    (extended : b.Extends c) (regular : c.Regular) (encodes : l.encoding.Encodes g c)
    (unread : Solution.ofModel l c = .error error) : b.Overlarge := by
  have small : b.unknownCount < wordBound := Nat.lt_trans proper.few (by decide)
  obtain ⟨numbers, -⟩ := Numbering.ofBounds_numbers proper.regular.formed small
  by_contra counted
  obtain ⟨solution, ok⟩ := Solution.ofModel_of_countable encodes regular fun var r i stands _ => by
    refine Option.isSome_iff_ne_none.mpr fun none => counted ?_
    rw [encodes.numbering] at stands
    have before := extended.standsFor.mp stands
    obtain ⟨entry, member, rfl, -⟩ := id before
    obtain ⟨range, found, -⟩ := numbers.tuples entry member
    have unknown := (numbers.mem_unknowns found).mpr ⟨var, before⟩
    exact ⟨_, range, found, List.ne_nil_of_mem unknown, extended.univ ▸ none⟩
  cases ok.symm.trans unread

namespace Enumeration

variable {e before : Enumeration σ} {f g : Formula} {b c : Bounds}
  {sharing logged : Bool}

structure Staged (f : Formula) (b : Bounds) (sharing logged : Bool) (e : Enumeration σ) : Prop where
  shares : e.options.sharing = sharing
  logs : e.options.logged = logged
  phase : e.phase.Staged f b sharing logged e.trivialCount

theorem Staged.setAborted (staged : e.Staged f b sharing logged) (raised : Bool) :
    (e.setAborted raised).Staged f b sharing logged := by
  have phase := staged.phase
  refine ⟨staged.shares, staged.logs, ?_⟩
  cases isPhase : e.phase with
  | _ =>
    rw [isPhase] at phase
    simp only [Enumeration.setAborted, isPhase]
    exact phase

/-- A call goes on through the stages and leaves what its answer says, unless it found a model that
cannot be read. -/
structure Obeys (f : Formula) (b : Bounds) (sharing logged : Bool) (before : Enumeration σ)
    (out : Except Error Solution × Enumeration σ) : Prop where
  staged : out.2.Staged f b sharing logged
  orderly : Call.Orderly ⟨before, out.1, out.2⟩ ∨ Call.Unread ⟨before, out.1, out.2⟩ ∧ b.Overlarge

variable [Backend σ]

theorem advance_obeys (proper : f.Proper b sharing logged) {s : Session σ}
    {previous : Option (List Nat)} (shares : e.options.sharing = sharing)
    (logs : e.options.logged = logged) (stage : f.Stage b sharing logged e.trivialCount g c)
    (encoded : g.encode c sharing logged = .ok (.clauses s.loaded.encoding))
    (latest : before.latest? = previous) (recorded : before.recorded = s.ledger.clauses) :
    Obeys f b sharing logged before (e.advance s c previous) := by
  obtain ⟨extended, regular, sorted⟩ := stage.sound proper.regular proper.sorted
  have encodes := Formula.encode_clauses regular sorted (proper.fits _ _ _ stage) encoded
  have follows := s.arm.ensureAsserted.findMinimal_follows e.assumptions
  have clauses : s.arm.ensureAsserted.ledger.clauses = s.ledger.clauses :=
    s.arm.ensureAsserted_clauses
  have advances := e.advance_advances s c previous
  generalize s.arm.ensureAsserted.findMinimal e.assumptions = search at follows advances
  generalize e.advance s c previous = out at advances ⊢
  obtain ⟨answer, t⟩ := search
  have same : t.loaded.encoding = s.loaded.encoding := follows.encoding
  rw [← same] at encoded encodes
  cases advances with
  | aborted =>
    refine ⟨⟨shares, logs, g, stage, encoded⟩, .inl ?_⟩
    refine Call.orderly_of_aborted rfl rfl latest.symm ?_
    rw [recorded, ← clauses, ← follows.ledger]
    rfl
  | @failed failure _ other =>
    refine ⟨⟨shares, logs, trivial⟩, .inl (Call.orderly_of_error rfl ?_ rfl)⟩
    cases failure with
    | aborted => exact absurd rfl other
    | _ => exact fun impossible => by cases impossible
  | refuted => exact ⟨⟨shares, logs, trivial⟩, .inl (Call.orderly_of_ok rfl rfl)⟩
  | found read =>
    obtain ⟨m, rfl, -⟩ := Solution.ofModel_eq_ok encodes regular read
    exact ⟨⟨shares, logs, g, stage, encoded⟩, .inl (Call.orderly_of_ok rfl rfl)⟩
  | unread read =>
    have kind := Solution.ofModel_eq_error encodes regular read
    exact ⟨⟨shares, logs, g, stage, encoded⟩, .inr ⟨⟨_, rfl, kind, rfl⟩,
      Solution.overlarge_of_unread proper extended regular encodes read⟩⟩

theorem Staged.next (proper : f.Proper b sharing logged)
    (staged : e.Staged f b sharing logged) : Obeys f b sharing logged e e.next := by
  have phase := staged.phase
  have steps := e.next_steps fun g c isPhase => by
    rw [isPhase] at phase
    exact (Formula.Stage.sound phase proper.regular proper.sorted).2.1
  obtain rfl := staged.shares
  obtain rfl := staged.logs
  generalize e.next = out at steps ⊢
  cases steps with
  | exhausted isPhase =>
    have closed : e.hasNext = false := by simp only [hasNext, isPhase]
    refine ⟨staged, .inl (Call.orderly_of_error rfl ?_ closed)⟩
    exact fun impossible => by cases impossible
  | resumed isPhase =>
    rw [isPhase] at phase
    obtain ⟨g, stage, encoded⟩ := phase
    refine advance_obeys proper rfl rfl stage encoded ?_ ?_
    · simp only [latest?, isPhase]
    · simp only [Enumeration.recorded, isPhase]
  | @rejected g c error isPhase encoded =>
    rw [isPhase] at phase
    obtain ⟨extended, regular, sorted⟩ := Formula.Stage.sound phase proper.regular proper.sorted
    have few : c.unknownCount < 2147483648 := by
      rw [extended.unknownCount]
      have := proper.few
      omega
    have isInput := Formula.encode_error regular sorted few encoded
    exact ⟨⟨rfl, rfl, trivial⟩, .inl (Call.orderly_of_error rfl isInput.ne_aborted rfl)⟩
  | started isPhase encoded =>
    rw [isPhase] at phase
    refine advance_obeys proper rfl rfl phase encoded ?_ ?_
    · simp only [latest?, isPhase]
    · simp only [Enumeration.recorded, isPhase]
      rfl
  | lowest isPhase folded isTrue _ _ residue =>
    rw [isPhase] at phase
    exact ⟨⟨rfl, rfl, .residue phase folded isTrue residue⟩, .inl (Call.orderly_of_ok rfl rfl)⟩
  | refuted => exact ⟨⟨rfl, rfl, trivial⟩, .inl (Call.orderly_of_ok rfl rfl)⟩

theorem Staged.lifters (staged : e.Staged f b sharing logged) :
    e.lifters.2.Staged f b sharing logged := by
  have phase := staged.phase
  cases isPhase : e.phase with
  | live s c model =>
    cases model with
    | some vars =>
      rw [isPhase] at phase
      obtain ⟨g, stage, encoded⟩ := phase
      have kept : (s.arm.lifters vars).2.loaded.encoding = s.loaded.encoding :=
        s.arm.lifters_encoding vars
      simp only [Enumeration.lifters, isPhase]
      generalize s.arm.lifters vars = out at kept
      obtain ⟨answer, t⟩ := out
      have encoded' : g.encode c sharing logged = .ok (.clauses t.loaded.encoding) := kept ▸ encoded
      cases answer with
      | error failure => exact ⟨staged.shares, staged.logs, g, stage, encoded'⟩
      | ok found => exact ⟨staged.shares, staged.logs, g, stage, encoded'⟩
    | none =>
      simpa only [Enumeration.lifters, isPhase] using staged
  | _ => simpa only [Enumeration.lifters, isPhase] using staged

theorem Staged.call (proper : f.Proper b sharing logged)
    (staged : e.Staged f b sharing logged) {requests : List Request} {earlier later : List (Call σ)}
    {call : Call σ} (served : e.serve requests = earlier ++ call :: later) :
    call.before.Staged f b sharing logged ∧ (call.answer, call.after) = call.before.next ∧
      ∃ rest, later = call.after.serve rest := by
  induction requests generalizing e earlier with
  | nil =>
    rw [serve] at served
    simp at served
  | cons request rest ih =>
    cases request with
    | next =>
      rw [serve] at served
      cases earlier with
      | nil =>
        obtain ⟨rfl, rfl⟩ := List.cons.inj served
        exact ⟨staged, rfl, rest, rfl⟩
      | cons first earlier =>
        obtain ⟨-, others⟩ := List.cons.inj served
        exact ih (staged.next proper).staged others
    | lifters => exact ih staged.lifters served
    | abort raised => exact ih (staged.setAborted raised) served

end Enumeration

/-- Every call of an enumeration of all models, or of those that contain a solution, leaves what its
answer says, whatever the solver does and whatever is asked in between, and a sequence that has ended
stays so. The exception is a found model with tuples that cannot be counted: that call fails although
there is more to come. -/
theorem calls_orderly_unless_unread [Backend σ] {solver : σ} {f : Formula} {b : Bounds}
    (built : b.Built) (sorted : f.WellSorted) (o : Options) (few : b.unknownCount < 2147483647)
    (fits : f.FitsThroughout b o.sharing o.logged) {start : Enumeration σ}
    (started : solveAll solver f b o = .ok start ∨
      ∃ n solution lifters, lift solver f b o n solution lifters = .ok start)
    {requests : List Request} {earlier later : List (Call σ)} {call : Call σ}
    (served : start.serve requests = earlier ++ call :: later) :
    (call.Orderly ∨ call.Unread ∧ b.Overlarge) ∧
      (call.after.hasNext = false → ∀ other ∈ later,
        other.answer = .error .exhausted ∧ other.after.hasNext = false) := by
  obtain ⟨units, rfl⟩ : ∃ units, start = .make solver f b o units := by
    rcases started with all | ⟨n, solution, lifters, lifted⟩
    · obtain ⟨_, -, made⟩ := bind_eq_ok.mp all
      exact ⟨[], (pure_eq_ok.mp made).symm⟩
    · obtain ⟨_, -, rest⟩ := bind_eq_ok.mp lifted
      obtain ⟨found, -, made⟩ := bind_eq_ok.mp rest
      exact ⟨_, (pure_eq_ok.mp made).symm⟩
  have staged : (Enumeration.make solver f b o units).Staged f b o.sharing o.logged :=
    ⟨rfl, rfl, .first⟩
  have proper : f.Proper b o.sharing o.logged := ⟨built.regular, sorted, few, fits⟩
  obtain ⟨before, answered, rest, rfl⟩ := staged.call proper served
  have obeyed := (before.next proper).orderly
  rw [← answered] at obeyed
  refine ⟨obeyed, fun closed other member => ?_⟩
  have finished : call.after.phase = .exhausted := by
    cases isPhase : call.after.phase with
    | exhausted => rfl
    | _ =>
      simp only [Enumeration.hasNext, isPhase] at closed
      cases closed
  obtain ⟨-, answer, after⟩ := Enumeration.serve_exhausted finished rest other member
  exact ⟨answer, after⟩

namespace Sample

def models : Enumeration Exhaustive := .make ⟨[]⟩ formula bounds .standard []

def opened : Except Error Solution × Enumeration Exhaustive :=
  models.advance (.start (encoding.load ⟨[]⟩) Options.standard.control) bounds none

theorem models_next : models.next = opened := by
  have encoded : formula.encode bounds Options.standard.sharing Options.standard.logged =
      .ok (.clauses encoding) := encoded_eq true
  simp only [Enumeration.next, models, Enumeration.make, encoded]
  rfl

end Sample

/-- A model is found; the next call is aborted; then the end is reached, and stays. -/
theorem sample_calls_orderly : ∃ first second third fourth,
    Sample.models.serve [.next, .abort true, .next, .abort false, .next, .next] =
        [first, second, third, fourth] ∧
      second.answer = .error .aborted ∧ second.after.latest? = some [1] ∧
      second.after.recorded = [[-1]] ∧ third.after.hasNext = false ∧
      fourth.answer = .error .exhausted := by
  have started : solveAll (⟨[]⟩ : Exhaustive) Sample.formula Sample.bounds .standard =
      .ok Sample.models := rfl
  have few : Sample.bounds.unknownCount < 2147483647 := by decide
  have orderly := fun earlier call later => @calls_orderly_unless_unread _ _ _ _ _ Sample.built
    Sample.sorted .standard few ((Sample.fits true).throughout (Sample.encoded_eq true)) _ (.inl started)
    [.next, .abort true, .next, .abort false, .next, .next] earlier later call
  have opened := Sample.models_next
  have stopped : (Sample.models.next.2.setAborted true).next.1 = .error .aborted := by
    rw [opened]
    rfl
  have latest : (Sample.models.next.2.setAborted true).latest? = some [1] := by
    rw [opened]
    decide +kernel
  have recorded : (Sample.models.next.2.setAborted true).recorded = [[-1]] := by
    rw [opened]
    decide +kernel
  have ended : (((Sample.models.next.2.setAborted true).next.2.setAborted false).next.2).hasNext =
      false := by
    rw [opened]
    decide +kernel
  obtain ⟨second, -⟩ := orderly [_] _ _ rfl
  obtain ⟨-, closed⟩ := orderly [_, _] _ _ rfl
  rcases second with second | ⟨⟨error, isError, kind, -⟩, -⟩
  · obtain ⟨-, sameLatest, sameRecorded⟩ := second.aborted stopped
    obtain ⟨exhausted, -⟩ := closed ended _ (List.mem_singleton_self _)
    exact ⟨_, _, _, _, rfl, stopped, sameLatest.trans latest, sameRecorded.trans recorded, ended,
      exhausted⟩
  · obtain rfl := Except.error.inj (stopped.symm.trans isError)
    cases kind

/-- Under the assumption of the wide tuple, the first model cannot be read: the call fails, but the
sequence goes on. -/
theorem unread_model_leaves_more : ∃ lifted call,
    lift (⟨[]⟩ : Exhaustive) Sample.denial Sample.pair Sample.logging
        (Sample.loggedPair Sample.denial (-1)).numbering Sample.nothing Sample.widest = .ok lifted ∧
      lifted.serve [.next] = [call] ∧ call.answer = .error (.tupleCapacity 64 2) ∧
      call.after.hasNext = true ∧ ¬ call.Orderly := by
  have encoded := Sample.pair_logged (by decide) rfl rfl Sample.Choice.denial_run
  have opened := Sample.pair_next [2] encoded
  have unread : (Sample.pairModels Sample.denial [2]).next.1 = .error (.tupleCapacity 64 2) := by
    rw [opened]
    rfl
  have more : (Sample.pairModels Sample.denial [2]).next.2.hasNext = true := by
    rw [opened]
    decide +kernel
  refine ⟨_, _, Sample.pair_lift, rfl, unread, more, fun orderly => ?_⟩
  have closed := orderly.failed _ unread (by decide)
  exact Bool.false_ne_true (closed.symm.trans more)

end ModelFinder
