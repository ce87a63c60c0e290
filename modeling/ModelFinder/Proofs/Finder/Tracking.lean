import ModelFinder.Proofs.Finder.Pursuit
import ModelFinder.Proofs.Finder.Stages

/-! What holds of an enumeration whatever it is asked, over all its stages and under any assumptions
about unknown tuples. Its solutions come from its stages, and while a search is live, the variables
that it keeps are those of the model delivered last. -/
namespace ModelFinder

def Enumeration.after {σ : Type} [Backend σ] (e : Enumeration σ) : List Request → Enumeration σ
  | [] => e
  | .next :: rest => e.next.2.after rest
  | .lifters :: rest => e.lifters.2.after rest
  | .abort raised :: rest => (e.setAborted raised).after rest

/-- A problem that can be enumerated under assumptions, which are variables of unknown tuples. -/
structure Posed (f : Formula) (b : Bounds) (sharing logged : Bool) (units : List Int) : Prop where
  regular : b.Regular
  sorted : f.WellSorted
  fits : f.FitsThroughout b sharing logged
  stands : ∀ l ∈ units, ∃ (var : Nat) (r : Relation) (i : Nat), l = var ∧
    (Numbering.ofBounds b).StandsFor var r i

/-- The model of a solution is a model of a stage that meets the assumptions, or the lower bounds. -/
def Solution.Grounded (f : Formula) (b : Bounds) (sharing logged : Bool) (units : List Int) :
    Solution → Prop
  | sat m _ => m.Over b.univ ∧ ∃ round g c, f.Stage b sharing logged round g c ∧ g.IsModel c m ∧
      Meets ((Numbering.ofBounds c).valuation m) units
  | triviallySat m _ => m.Over b.univ ∧ ∃ round g c, f.Stage b sharing logged round g c ∧ m.Lowest c
  | _ => True

variable {σ : Type} {held : σ → List Clause} {interruptions : σ → Nat} {f g : Formula}
  {b c : Bounds} {sharing logged : Bool} {units : List Int} {round : Nat} {latest : Option Instance}

structure Session.Keeps (c : Bounds) (units : List Int) (vars : List Nat) (m : Instance)
    (s : Session σ) : Prop where
  within : m.Within c
  true_iff : ∀ v, v ∈ vars ↔ (1 ≤ v ∧ v ≤ s.numPrimary) ∧
    s.loaded.encoding.numbering.valuation m v = true
  counted : ∀ l ∈ units, ∃ r i, s.loaded.encoding.numbering.StandsFor l.natAbs r i ∧
    (c.univ.capacity? r.arity).isSome = true

/-- The session searches a stage. Unless its time is over, it has cones on record and nothing
else. -/
structure Session.Searches (held : σ → List Clause) (f : Formula) (b : Bounds)
    (sharing logged : Bool) (round : Nat) (g : Formula) (c : Bounds) (s : Session σ) : Prop where
  stage : f.Stage b sharing logged round g c
  encoded : g.encode c sharing logged = .ok (.clauses s.loaded.encoding)
  excluding : s.control.limitMs ≠ some 0 → ∃ models, s.Excluding held models

/-- The session goes on after the model delivered last, which it found itself, or which came before
it as the lower bounds of an earlier stage. -/
structure Session.Resumes (held : σ → List Clause) (f : Formula) (b : Bounds)
    (sharing logged : Bool) (units : List Int) (round : Nat) (latest : Option Instance) (c : Bounds)
    (model : Option (List Nat)) (s : Session σ) : Prop where
  searches : ∃ g, s.Searches held f b sharing logged round g c
  primary : ∀ vars, model = some vars → ∀ v ∈ vars, 1 ≤ v ∧ v ≤ s.numPrimary
  expired : s.control.limitMs = some 0 → model = none
  keeps : ∀ m, latest = some m →
    model = none ∧ 0 < round ∨ ∃ vars, model = some vars ∧ s.Keeps c units vars m

def Phase.Tracked (held : σ → List Clause) (f : Formula) (b : Bounds) (sharing logged : Bool)
    (units : List Int) (round : Nat) (latest : Option Instance) : Phase σ → Prop
  | .pending g c => f.Stage b sharing logged round g c ∧ (latest.isSome = true → 0 < round)
  | .live s c model => s.Resumes held f b sharing logged units round latest c model
  | .exhausted => True

structure Enumeration.Tracks (held : σ → List Clause) (f : Formula) (b : Bounds)
    (sharing logged : Bool) (units : List Int) (latest : Option Instance) (e : Enumeration σ) :
    Prop where
  fresh : held e.backend = []
  assumptions : e.assumptions = units
  shares : e.options.sharing = sharing
  logs : e.options.logged = logged
  phase : e.phase.Tracked held f b sharing logged units e.trivialCount latest

/-- The answer to a call comes from a stage, and the enumeration that it leaves has delivered the
model of the answer last, if there is one. -/
structure Enumeration.Answered (held : σ → List Clause) (f : Formula) (b : Bounds)
    (sharing logged : Bool) (units : List Int) (latest : Option Instance)
    (out : Except Error Solution × Enumeration σ) : Prop where
  tracks : out.2.Tracks held f b sharing logged units
    ((out.1.toOption.bind Solution.model?).or latest)
  grounded : ∀ solution, out.1 = .ok solution → solution.Grounded f b sharing logged units

namespace Posed

variable (posed : Posed f b sharing logged units) (stage : f.Stage b sharing logged round g c)

include posed stage

theorem stage_regular : c.Regular := (stage.sound posed.regular posed.sorted).2.1

theorem encodes {encoding : Encoding} (encoded : g.encode c sharing logged = .ok (.clauses encoding)) :
    encoding.Encodes g c := by
  obtain ⟨-, regular, sorted⟩ := stage.sound posed.regular posed.sorted
  exact Formula.encode_clauses regular sorted (posed.fits round g c stage) encoded

/-- The assumptions are about the same variables at every stage. -/
theorem stage_stands {encoding : Encoding} (encodes : encoding.Encodes g c) {l : Int}
    (member : l ∈ units) : ∃ (var : Nat) (r : Relation) (i : Nat), l = var ∧
      encoding.numbering.StandsFor var r i := by
  obtain ⟨extended, -⟩ := stage.sound posed.regular posed.sorted
  obtain ⟨var, r, i, isVar, stands⟩ := posed.stands l member
  rw [encodes.numbering]
  exact ⟨var, r, i, isVar, extended.standsFor.mpr stands⟩

theorem primary {encoding : Encoding} (encodes : encoding.Encodes g c) :
    Mentions encoding.numbering.count units := by
  intro l member
  obtain ⟨var, r, i, rfl, stands⟩ := posed.stage_stands stage encodes member
  have bound := stands.bounds encodes.numbers
  omega

theorem mentions {encoding : Encoding} (encodes : encoding.Encodes g c) :
    Mentions encoding.cnf.numVars units := by
  intro l member
  obtain ⟨nonzero, bound⟩ := posed.primary stage encodes l member
  exact ⟨nonzero, Nat.le_trans bound encodes.primary⟩

section Read

variable {l : Loaded σ} (encodes : l.encoding.Encodes g c)
  (least : (l.encoding.assume units).Least l.store.model) {solution : Solution}
  (read : Solution.ofModel l c = .ok solution)

include encodes least read

theorem grounded_of_read : solution.Grounded f b sharing logged units := by
  have regular := posed.stage_regular stage
  obtain ⟨extended, -⟩ := stage.sound posed.regular posed.sorted
  obtain ⟨m, rfl, depicts, -⟩ := Solution.ofModel_eq_ok encodes regular read
  obtain ⟨isModel, met⟩ := Encoding.models_assume.mp least.1
  constructor
  · rw [← extended.univ, ← encodes.numbers.univ]
    exact Solution.ofModel_over read rfl
  · refine ⟨round, g, c, stage, encodes.isModel regular isModel depicts, fun l' member => ?_⟩
    obtain ⟨var, r, i, rfl, stands⟩ := posed.stage_stands stage encodes member
    obtain ⟨lower, upper⟩ := stands.bounds encodes.numbers
    have chosen := met _ member
    rw [litHolds_natCast lower] at chosen ⊢
    rw [← encodes.numbering, depicts.valuation_eq regular encodes.numbers lower upper]
    exact chosen

theorem counted_of_read : ∀ l' ∈ units, ∃ r i, l.encoding.numbering.StandsFor l'.natAbs r i ∧
    (c.univ.capacity? r.arity).isSome = true := by
  intro l' member
  obtain ⟨var, r, i, rfl, stands⟩ := posed.stage_stands stage encodes member
  have chosen := (Encoding.models_assume.mp least.1).2 _ member
  rw [litHolds_natCast (stands.bounds encodes.numbers).1] at chosen
  obtain ⟨m, isRead, -⟩ := bind_eq_ok.mp read
  rw [Loaded.interpret, encodes.bounds] at isRead
  exact ⟨r, i, stands, Numbering.interpret_countable (posed.stage_regular stage) encodes.numbers
    isRead stands chosen⟩

end Read

end Posed

namespace Session

variable {s t : Session σ} {vars : List Nat} {m : Instance}

theorem Keeps.of_encoding (keeps : s.Keeps c units vars m)
    (same : t.loaded.encoding = s.loaded.encoding) : t.Keeps c units vars m := by
  have count : t.numPrimary = s.numPrimary := by
    rw [Session.numPrimary, Loaded.numPrimary, same]
    rfl
  refine ⟨keeps.within, ?_, ?_⟩
  · rw [count, same]
    exact keeps.true_iff
  · rw [same]
    exact keeps.counted

theorem keeps_of_read (posed : Posed f b sharing logged units)
    (stage : f.Stage b sharing logged round g c) (encodes : s.loaded.encoding.Encodes g c)
    (least : (s.loaded.encoding.assume units).Least s.value) {stats : Statistics}
    (read : Solution.ofModel s.loaded c = .ok (.sat m stats)) :
    s.Keeps c units s.truePrimaries m := by
  have regular := posed.stage_regular stage
  obtain ⟨_, ⟨⟩, depicts, -⟩ := Solution.ofModel_eq_ok encodes regular read
  refine ⟨depicts.within regular encodes.numbers, fun v => ?_,
    posed.counted_of_read stage encodes least read⟩
  rw [mem_truePrimaries]
  apply and_congr_right
  intro bound
  rw [depicts.valuation_eq regular encodes.numbers bound.1 bound.2]
  rfl

theorem Resumes.of_encoding {model : Option (List Nat)}
    (resumes : s.Resumes held f b sharing logged units round latest c model)
    (same : t.loaded.encoding = s.loaded.encoding) (limit : t.control.limitMs = s.control.limitMs)
    (excluding : t.control.limitMs ≠ some 0 → ∃ models, t.Excluding held models) :
    t.Resumes held f b sharing logged units round latest c model := by
  obtain ⟨g, searches⟩ := resumes.searches
  have count : t.numPrimary = s.numPrimary := by
    rw [Session.numPrimary, Loaded.numPrimary, same]
    rfl
  refine ⟨⟨g, searches.stage, same ▸ searches.encoded, excluding⟩, count ▸ resumes.primary,
    limit ▸ resumes.expired, fun m isLatest => ?_⟩
  apply (resumes.keeps m isLatest).imp_right
  rintro ⟨vars, isVars, keeps⟩
  exact ⟨vars, isVars, keeps.of_encoding same⟩

/-- Once a model was delivered, the models that a search finds can be read: if it was found by a
search, the assumptions are about tuples that can be counted, and if it was not, the residue is. -/
theorem Resumes.readable {m : Instance} {model : Option (List Nat)} (posed : Posed f b sharing logged units)
    (resumes : s.Resumes held f b sharing logged units round (some m) c model)
    (same : t.loaded.encoding = s.loaded.encoding)
    (least : (t.loaded.encoding.assume units).Least t.value) :
    ∃ solution, Solution.ofModel t.loaded c = .ok solution := by
  obtain ⟨g, searches⟩ := resumes.searches
  have stage := searches.stage
  have regular := posed.stage_regular stage
  have encodes := same ▸ posed.encodes stage searches.encoded
  apply Solution.ofModel_of_countable encodes regular
  intro var r i stands chosen
  rcases resumes.keeps m rfl with ⟨-, later⟩ | ⟨vars, -, keeps⟩
  · obtain ⟨before, rfl⟩ := Nat.exists_eq_add_one_of_ne_zero (Nat.ne_of_gt later)
    exact stage.countable posed.regular posed.sorted posed.fits encodes stands
  · exact encodes.countable_assume regular (keeps.of_encoding same).counted least stands chosen

end Session

namespace Enumeration

variable {e : Enumeration σ} {phase : Phase σ} {announcements : List Announcement}

theorem Tracks.moved (tracks : e.Tracks held f b sharing logged units latest)
    {latest' : Option Instance}
    (tracked : phase.Tracked held f b sharing logged units e.trivialCount latest') :
    { e with announcements, phase }.Tracks held f b sharing logged units latest' :=
  ⟨tracks.fresh, tracks.assumptions, tracks.shares, tracks.logs, tracked⟩

variable [Backend σ]

theorem Tracks.start_resumes (oracle : Oracle σ held interruptions)
    (posed : Posed f b sharing logged units)
    (tracks : e.Tracks held f b sharing logged units latest)
    (stage : f.Stage b sharing logged e.trivialCount g c)
    (later : latest.isSome = true → 0 < e.trivialCount) {encoding : Encoding}
    (encoded : g.encode c sharing logged = .ok (.clauses encoding)) :
    (Session.start (encoding.load e.backend) e.options.control).Resumes held f b sharing logged units
      e.trivialCount latest c none := by
  refine ⟨⟨g, stage, encoded, fun running => ?_⟩, by simp, fun _ => rfl, ?_⟩
  · exact ⟨[], Session.start_excluding oracle tracks.fresh (posed.encodes stage encoded) running⟩
  · rintro m rfl
    exact .inl ⟨rfl, later rfl⟩

theorem advance_expired (tracks : e.Tracks held f b sharing logged units latest) {s : Session σ}
    {previous : Option (List Nat)}
    (resumes : s.Resumes held f b sharing logged units e.trivialCount latest c previous)
    (expired : s.control.limitMs = some 0) :
    Answered held f b sharing logged units latest (e.advance s c previous) := by
  obtain ⟨failure, failed⟩ := Session.findMinimal_expired (s := s.arm.ensureAsserted) expired rfl
    e.assumptions
  have advances := e.advance_advances s c previous
  rw [failed] at advances
  generalize e.advance s c previous = out at advances ⊢
  cases advances with
  | aborted =>
    refine ⟨tracks.moved ?_, fun solution impossible => by cases impossible⟩
    exact resumes.of_encoding rfl rfl fun running => absurd expired running
  | failed => exact ⟨tracks.moved trivial, fun solution impossible => by cases impossible⟩

theorem advance_tracks (oracle : Oracle σ held interruptions)
    (posed : Posed f b sharing logged units)
    (tracks : e.Tracks held f b sharing logged units latest) {s : Session σ}
    {previous : Option (List Nat)}
    (resumes : s.Resumes held f b sharing logged units e.trivialCount latest c previous) :
    Answered held f b sharing logged units latest (e.advance s c previous) := by
  by_cases expired : s.control.limitMs = some 0
  · exact advance_expired tracks resumes expired
  obtain ⟨g, searches⟩ := resumes.searches
  have stage := searches.stage
  have encodes := posed.encodes stage searches.encoded
  obtain ⟨models, excluding⟩ := searches.excluding expired
  have searched := Session.search_excluding oracle excluding (posed.mentions stage encodes)
  obtain rfl := tracks.assumptions
  have advances := e.advance_advances s c previous
  generalize s.arm.ensureAsserted.findMinimal e.assumptions = search at searched advances
  generalize e.advance s c previous = out at advances ⊢
  obtain ⟨answer, t⟩ := search
  obtain ⟨continues, excluded, outcome⟩ := searched
  have same : t.loaded.encoding = s.loaded.encoding := continues.encoding
  have limit : t.control.limitMs = s.control.limitMs :=
    (congrArg Control.limitMs continues.control :)
  rw [← same] at encodes
  obtain ⟨further, recorded⟩ := Session.excludeCone_excluding oracle excluded
  -- What is kept of a model that was found is kept of it once its cone is excluded.
  have running : t.excludeCone.control.limitMs ≠ some 0 := recorded.ready.unlimited
  have searches' : t.excludeCone.Searches held f b sharing logged e.trivialCount g c :=
    ⟨stage, (further.encoding.trans same) ▸ searches.encoded, fun _ => ⟨_, recorded⟩⟩
  have primary : ∀ vars, some t.truePrimaries = some vars →
      ∀ v ∈ vars, 1 ≤ v ∧ v ≤ t.excludeCone.numPrimary := by
    rintro _ ⟨⟩ v member
    exact further.numPrimary ▸ (Session.mem_truePrimaries.mp member).1
  cases advances with
  | aborted =>
    refine ⟨tracks.moved ?_, fun solution impossible => by cases impossible⟩
    exact resumes.of_encoding same limit fun _ => ⟨_, excluded⟩
  | failed other => exact absurd outcome.1 other
  | refuted =>
    refine ⟨tracks.moved trivial, fun solution isSolution => ?_⟩
    obtain rfl := Except.ok.inj isSolution
    trivial
  | found read =>
    obtain ⟨least, -⟩ := outcome
    rw [← same] at least
    obtain ⟨m, rfl, -⟩ := Solution.ofModel_eq_ok encodes (posed.stage_regular stage) read
    have keeps := (Session.keeps_of_read posed stage encodes least read).of_encoding
      further.encoding
    refine ⟨tracks.moved ⟨⟨g, searches'⟩, primary, fun zero => absurd zero running, ?_⟩, ?_⟩
    · intro m' isLatest
      obtain rfl : m = m' := Option.some.inj isLatest
      exact .inr ⟨_, rfl, keeps⟩
    · intro solution isSolution
      obtain rfl := Except.ok.inj isSolution
      exact posed.grounded_of_read stage encodes least read
  | unread read =>
    obtain ⟨least, -⟩ := outcome
    rw [← same] at least
    refine ⟨tracks.moved ⟨⟨g, searches'⟩, primary, fun zero => absurd zero running, ?_⟩,
      fun solution impossible => by cases impossible⟩
    rintro m rfl
    obtain ⟨solution, ok⟩ := resumes.readable posed same least
    cases ok.symm.trans read

theorem Tracks.next (oracle : Oracle σ held interruptions) (posed : Posed f b sharing logged units)
    (tracks : e.Tracks held f b sharing logged units latest) :
    Answered held f b sharing logged units latest e.next := by
  have tracked := tracks.phase
  have steps := e.next_steps fun g c isPhase => by
    rw [isPhase] at tracked
    exact posed.stage_regular tracked.1
  obtain rfl := tracks.shares
  obtain rfl := tracks.logs
  generalize e.next = out at steps ⊢
  cases steps with
  | exhausted => exact ⟨tracks, fun solution impossible => by cases impossible⟩
  | resumed isPhase =>
    rw [isPhase] at tracked
    exact advance_tracks oracle posed tracks tracked
  | rejected => exact ⟨tracks.moved trivial, fun solution impossible => by cases impossible⟩
  | started isPhase encoded =>
    rw [isPhase] at tracked
    obtain ⟨stage, later⟩ := tracked
    exact advance_tracks oracle posed tracks (tracks.start_resumes oracle posed stage later encoded)
  | lowest isPhase folded isTrue lowest isOver residue =>
    -- The lower bounds are delivered, and the residue waits for the next call.
    rw [isPhase] at tracked
    obtain ⟨stage, -⟩ := tracked
    constructor
    · exact ⟨tracks.fresh, tracks.assumptions, rfl, rfl, .residue stage folded isTrue residue,
        fun _ => Nat.succ_pos _⟩
    · intro solution isSolution
      obtain rfl := Except.ok.inj isSolution
      obtain ⟨extended, -⟩ := stage.sound posed.regular posed.sorted
      exact ⟨extended.univ ▸ isOver, e.trivialCount, _, _, stage, lowest⟩
  | refuted =>
    constructor
    · exact ⟨tracks.fresh, tracks.assumptions, rfl, rfl, trivial⟩
    · intro solution isSolution
      obtain rfl := Except.ok.inj isSolution
      trivial

theorem Tracks.lifters (oracle : Oracle σ held interruptions)
    (tracks : e.Tracks held f b sharing logged units latest) :
    e.lifters.2.Tracks held f b sharing logged units latest := by
  have tracked := tracks.phase
  unfold Enumeration.lifters
  split
  · rename_i s c model isPhase
    rw [isPhase] at tracked
    obtain ⟨g, searches⟩ := tracked.searches
    have running : s.control.limitMs ≠ some 0 := fun zero => by cases tracked.expired zero
    obtain ⟨models, excluding⟩ := searches.excluding running
    have lifted := @Session.lifters_excluding σ _ held interruptions s.arm _ model oracle
      (excluding.controlled running) (tracked.primary model rfl)
    simp only
    generalize s.arm.lifters model = out at lifted
    obtain ⟨answer, t⟩ := out
    obtain ⟨continues, excluded⟩ := lifted
    have moved : { e with phase := .live t c (some model) }.Tracks held f b sharing logged units
        latest :=
      tracks.moved (tracked.of_encoding continues.encoding
        (congrArg Control.limitMs continues.control :) fun _ => ⟨_, excluded⟩)
    cases answer with
    | error failure => exact moved
    | ok vars => exact moved
  · exact tracks

omit [Backend σ] in
theorem Tracks.setAborted (tracks : e.Tracks held f b sharing logged units latest) (raised : Bool) :
    (e.setAborted raised).Tracks held f b sharing logged units latest := by
  have tracked := tracks.phase
  unfold Enumeration.setAborted
  cases isPhase : e.phase with
  | live s c model =>
    rw [isPhase] at tracked
    obtain ⟨g, searches⟩ := tracked.searches
    have moved : Session.Resumes held f b sharing logged units e.trivialCount latest c model
        { s with control := { s.control with aborted := raised } } := by
      refine tracked.of_encoding rfl rfl fun running => ?_
      obtain ⟨models, excluding⟩ := searches.excluding running
      exact ⟨models, excluding.controlled running⟩
    exact ⟨tracks.fresh, tracks.assumptions, tracks.shares, tracks.logs, moved⟩
  | pending g c =>
    rw [isPhase] at tracked
    exact ⟨tracks.fresh, tracks.assumptions, tracks.shares, tracks.logs, tracked⟩
  | exhausted => exact ⟨tracks.fresh, tracks.assumptions, tracks.shares, tracks.logs, trivial⟩

/-- Whatever is asked in whatever order, the model delivered last is the one tracked. -/
theorem Tracks.after (oracle : Oracle σ held interruptions) (posed : Posed f b sharing logged units)
    (tracks : e.Tracks held f b sharing logged units latest) (requests : List Request) :
    (e.after requests).Tracks held f b sharing logged units
      ((delivered (e.serve requests)).getLast?.or latest) := by
  induction requests generalizing e latest with
  | nil => exact tracks
  | cons request rest ih =>
    cases request with
    | next =>
      have reached := ih (tracks.next oracle posed).tracks
      have last : ∀ (first : Option Instance) (models : List Instance),
          models.getLast?.or (first.or latest) =
            (first.toList ++ models).getLast?.or latest := by
        intro first models
        rw [List.getLast?_append]
        cases first <;> cases models.getLast? <;> rfl
      rw [last] at reached
      have listed : delivered (e.serve (.next :: rest)) =
          (e.next.1.toOption.bind Solution.model?).toList ++ delivered (e.next.2.serve rest) := by
        rw [serve, delivered, List.filterMap_cons, Call.model?]
        cases e.next.1.toOption.bind Solution.model? <;> rfl
      rw [listed]
      exact reached
    | lifters => exact ih (tracks.lifters oracle)
    | abort raised => exact ih (tracks.setAborted raised)

/-- Every solution of a run comes from a stage. -/
theorem Tracks.grounded (oracle : Oracle σ held interruptions)
    (posed : Posed f b sharing logged units)
    (tracks : e.Tracks held f b sharing logged units latest) (requests : List Request) :
    ∀ call ∈ e.serve requests, ∀ solution, call.answer = .ok solution →
      solution.Grounded f b sharing logged units := by
  induction requests generalizing e latest with
  | nil => exact fun call member => by cases member
  | cons request rest ih =>
    cases request with
    | next =>
      have answered := tracks.next oracle posed
      intro call member
      rcases List.mem_cons.mp member with rfl | later
      · exact answered.grounded
      · exact ih answered.tracks call later
    | lifters => exact ih (tracks.lifters oracle)
    | abort raised => exact ih (tracks.setAborted raised)

end Enumeration

end ModelFinder
