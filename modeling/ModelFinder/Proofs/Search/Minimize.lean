import ModelFinder.Proofs.Search.Session
import ModelFinder.Search.Minimize

/-! Minimization ends with a minimal model, unless a search fails or the solver refuses a constraint.
Each round keeps the false primary variables false and excludes the cone of the model at hand, so a
model found is strictly below it; the constraints of the earlier rounds hold below it anyway, so none
found means that there is none. However a run of rounds ends, its constraints are taken back. -/
namespace ModelFinder

section Below

variable {count : Nat} {a b c : Nat → Bool}

theorem Below.refl (count : Nat) (a : Nat → Bool) : Below count a a := fun _ _ _ => id

theorem Below.trans (first : Below count a b) (second : Below count b c) : Below count a c :=
  fun var lower upper holds => second var lower upper (first var lower upper holds)

theorem below_iff : Below count a b ↔
    ∀ var, 1 ≤ var → var ≤ count → b var = false → a var = false := by
  refine forall_congr' fun var => forall₂_congr fun _ _ => ?_
  cases a var <;> cases b var <;> simp

def StrictlyBelow (count : Nat) (a b : Nat → Bool) : Prop := Below count a b ∧ ¬ Below count b a

theorem exists_of_not_below (above : ¬ Below count a b) :
    ∃ var, 1 ≤ var ∧ var ≤ count ∧ a var = true ∧ b var = false := by
  by_contra absent
  apply above
  intro var lower upper holds
  cases value : b var with
  | true => rfl
  | false => exact absurd ⟨var, lower, upper, holds, value⟩ absent

end Below

theorem coneClause_holds {vars : List Nat} {a : Nat → Bool}
    (small : ∀ v ∈ vars, 1 ≤ v ∧ v < 2147483647) :
    (Ledger.coneClause vars).holds a = true ↔ ∃ v ∈ vars, a v = false := by
  have literal : ∀ v ∈ vars, litHolds a (-signedWord v) = !a v := by
    intro v member
    have bound := small v member
    rw [signedWord_of_natAbs_lt (by omega), litHolds_neg a (by omega), litHolds, if_pos (by omega),
      Int.natAbs_natCast]
  rw [Clause.holds_iff]
  simp only [Ledger.coneClause, List.mem_map]
  constructor
  · rintro ⟨l, ⟨v, member, rfl⟩, holds⟩
    rw [literal v member] at holds
    exact ⟨v, member, by simpa using holds⟩
  · rintro ⟨v, member, isFalse⟩
    exact ⟨_, ⟨v, member, rfl⟩, by rw [literal v member, isFalse]; rfl⟩

theorem coneClause_mentions {vars : List Nat} {limit : Nat} (small : ∀ v ∈ vars, 1 ≤ v ∧ v ≤ limit)
    (word : limit < 2147483647) : Mentions limit (Ledger.coneClause vars) := by
  intro l member
  obtain ⟨v, isVar, rfl⟩ := List.mem_map.mp member
  have bound := small v isVar
  rw [signedWord_of_natAbs_lt (by omega)]
  omega

namespace Session

variable {σ : Type} {held : σ → List Clause} {count interruptions : σ → Nat} {base : List Clause}
  {live extra : List (Nat × Clause)} {s t : Session σ} {assumptions units : List Int}
  {free : List Nat}

theorem mem_truePrimaries {v : Nat} :
    v ∈ s.truePrimaries ↔ (1 ≤ v ∧ v ≤ s.numPrimary) ∧ s.value v = true := by
  rw [truePrimaries, List.mem_filter, List.mem_range'_1]
  have range : 1 ≤ v ∧ v < 1 + s.numPrimary ↔ 1 ≤ v ∧ v ≤ s.numPrimary := by omega
  rw [range]

theorem Guarded.coneClause_mentions (guarded : s.Guarded held base live) :
    Mentions s.loaded.encoding.cnf.numVars (Ledger.coneClause s.truePrimaries) := by
  apply ModelFinder.coneClause_mentions _ guarded.small
  intro v member
  have bound := (mem_truePrimaries.mp member).1
  have inUse := guarded.primary
  omega

theorem coneClause_iff (small : s.numPrimary < 2147483647) (a : Nat → Bool) :
    (Ledger.coneClause s.truePrimaries).holds a = true ↔ ¬ Below s.numPrimary s.value a := by
  have bounds : ∀ v ∈ s.truePrimaries, 1 ≤ v ∧ v < 2147483647 := by
    intro v member
    have bound := (mem_truePrimaries.mp member).1
    omega
  rw [coneClause_holds bounds]
  constructor
  · rintro ⟨v, member, isFalse⟩ below
    obtain ⟨⟨lower, upper⟩, isTrue⟩ := mem_truePrimaries.mp member
    rw [below v lower upper isTrue] at isFalse
    cases isFalse
  · intro above
    obtain ⟨v, lower, upper, isTrue, isFalse⟩ := exists_of_not_below above
    exact ⟨v, mem_truePrimaries.mpr ⟨⟨lower, upper⟩, isTrue⟩, isFalse⟩

/-- Where a run of rounds stands: the model obeys the live constraints without those of the rounds,
`free` has all its true primary variables, and the constraints of the rounds hold strictly below
it. -/
structure Shrinking (held : σ → List Clause) (base : List Clause) (live : List (Nat × Clause))
    (assumptions : List Int) (extra : List (Nat × Clause)) (units : List Int) (free : List Nat)
    (s : Session σ) : Prop where
  guarded : s.Guarded held base (live ++ extra)
  model : Allows base live (s.loaded.encoding.assumptions ++ assumptions) s.value
  meets : ∀ a, Meets a units ↔ Meets a assumptions ∧
    ∀ v, 1 ≤ v → v ≤ s.numPrimary → v ∉ free → a v = false
  fits : Mentions s.loaded.encoding.cnf.numVars units
  primary : ∀ v ∈ free, 1 ≤ v ∧ v ≤ s.numPrimary
  outside : ∀ v, 1 ≤ v → v ≤ s.numPrimary → v ∉ free → s.value v = false
  implied : ∀ a, Below s.numPrimary a s.value → ¬ Below s.numPrimary s.value a →
    ∀ entry ∈ extra, entry.2.holds a = true

def MinimalOver (s : Session σ) (base : List Clause) (live : List (Nat × Clause))
    (assumptions : List Int) : Prop :=
  ∀ a, Allows base live (s.loaded.encoding.assumptions ++ assumptions) a →
    Below s.numPrimary a s.value → Below s.numPrimary s.value a

def Minimal (s : Session σ) (live : List (Nat × Clause)) (assumptions : List Int) : Prop :=
  ∀ a, s.Admits live assumptions a → Below s.numPrimary a s.value → Below s.numPrimary s.value a

/-- The assumptions of the next round: what is false stays false. -/
theorem Shrinking.assume (shrinking : s.Shrinking held base live assumptions extra units free) :
    Mentions s.loaded.encoding.cnf.numVars
        (units ++ (free.partition s.value).2.map fun (v : Nat) => -(v : Int)) ∧
      ∀ a, Meets a (units ++ (free.partition s.value).2.map fun (v : Nat) => -(v : Int)) ↔
        Meets a assumptions ∧ Below s.numPrimary a s.value := by
  have falsified : ∀ v, v ∈ (free.partition s.value).2 ↔ v ∈ free ∧ s.value v = false := by
    intro v
    simp [List.partition_eq_filter_filter]
  constructor
  · intro l member
    rcases List.mem_append.mp member with old | new
    · exact shrinking.fits l old
    · obtain ⟨v, isFalse, rfl⟩ := List.mem_map.mp new
      have bound := shrinking.primary v ((falsified v).mp isFalse).1
      have inUse := shrinking.guarded.primary
      omega
  · intro a
    have negations : Meets a ((free.partition s.value).2.map fun (v : Nat) => -(v : Int)) ↔
        ∀ v ∈ free, s.value v = false → a v = false := by
      simp only [Meets, List.forall_mem_map, falsified, and_imp]
      apply forall₂_congr
      intro v member
      have bound := shrinking.primary v member
      rw [litHolds_neg a (by omega), litHolds, if_pos (by omega), Int.natAbs_natCast]
      simp
    rw [meets_append, shrinking.meets, negations, and_assoc]
    apply and_congr_right
    intro _
    rw [below_iff]
    constructor
    · rintro ⟨unfree, freed⟩ v lower upper isFalse
      by_cases member : v ∈ free
      · exact freed v member isFalse
      · exact unfree v lower upper member
    · intro falls
      constructor
      · intro v lower upper absent
        exact falls v lower upper (shrinking.outside v lower upper absent)
      · intro v member isFalse
        have bound := shrinking.primary v member
        exact falls v bound.1 bound.2 isFalse

theorem mem_kept {v : Nat} :
    v ∈ (free.partition s.value).1 ↔ v ∈ free ∧ s.value v = true := by
  simp [List.partition_eq_filter_filter]

/-- The variables that are not kept for the next round are those that are false below the model. -/
theorem Shrinking.below_iff_kept
    (shrinking : s.Shrinking held base live assumptions extra units free) (a : Nat → Bool) :
    Below s.numPrimary a s.value ↔
      ∀ v, 1 ≤ v → v ≤ s.numPrimary → v ∉ (free.partition s.value).1 → a v = false := by
  rw [below_iff]
  refine forall_congr' fun v => forall₂_congr fun lower upper => imp_congr_left ?_
  rw [mem_kept]
  constructor
  · rintro isFalse ⟨-, isTrue⟩
    cases isFalse.symm.trans isTrue
  · intro absent
    by_cases member : v ∈ free
    · exact Bool.eq_false_iff.mpr fun isTrue => absent ⟨member, isTrue⟩
    · exact shrinking.outside v lower upper member

theorem length_truePrimaries_lt (count : t.numPrimary = s.numPrimary)
    (smaller : StrictlyBelow s.numPrimary t.value s.value) :
    t.truePrimaries.length < s.truePrimaries.length := by
  obtain ⟨below, strict⟩ := smaller
  have part : t.truePrimaries = s.truePrimaries.filter t.value := by
    rw [truePrimaries, truePrimaries, count, List.filter_filter]
    apply List.filter_congr
    intro v member
    rw [List.mem_range'_1] at member
    cases value : t.value v with
    | false => rfl
    | true => rw [below v member.1 (by omega) value, Bool.true_and]
  obtain ⟨v, lower, upper, isTrue, isFalse⟩ := exists_of_not_below strict
  rw [part]
  apply List.length_filter_lt_length_iff_exists.mpr
  exact ⟨v, mem_truePrimaries.mpr ⟨⟨lower, upper⟩, isTrue⟩, by simp [isFalse]⟩

theorem Shrinking.cone_iff (shrinking : s.Shrinking held base live assumptions extra units free)
    (a : Nat → Bool) : (Ledger.coneClause s.truePrimaries).holds a = true ↔
      ¬ Below s.numPrimary s.value a :=
  coneClause_iff (Nat.lt_of_le_of_lt shrinking.guarded.primary shrinking.guarded.small) a

/-- The next round starts from a model strictly below the one at hand. -/
theorem Shrinking.next (shrinking : s.Shrinking held base live assumptions extra units free)
    {handle : Nat} (follows : Follows count s t)
    (guarded : t.Guarded held base
      (live ++ extra ++ [(handle, Ledger.coneClause s.truePrimaries)]))
    (allowed : Allows base (live ++ extra ++ [(handle, Ledger.coneClause s.truePrimaries)])
      (s.loaded.encoding.assumptions ++
        (units ++ (free.partition s.value).2.map fun (v : Nat) => -(v : Int))) t.value) :
    t.Shrinking held base live assumptions (extra ++ [(handle, Ledger.coneClause s.truePrimaries)])
        (units ++ (free.partition s.value).2.map fun (v : Nat) => -(v : Int))
        (free.partition s.value).1 ∧
      StrictlyBelow s.numPrimary t.value s.value := by
  obtain ⟨fits, meets⟩ := shrinking.assume
  obtain ⟨roots, units_met⟩ := meets_append.mp allowed.assumptions
  obtain ⟨met, below⟩ := (meets t.value).mp units_met
  have strict : ¬ Below s.numPrimary s.value t.value := by
    apply (shrinking.cone_iff t.value).mp
    exact allowed.live _ (List.mem_append_right _ (List.mem_singleton_self _))
  have count := follows.numPrimary
  refine ⟨⟨?guarded, ?model, fun a => ?meets, ?fits, fun v member => ?primary,
    fun v lower upper absent => ?outside, fun a smaller apart entry member => ?implied⟩, below, strict⟩
  case guarded =>
    rw [← List.append_assoc]
    exact guarded
  case model =>
    rw [follows.encoding]
    refine ⟨allowed.base, fun entry member => ?_, meets_append.mpr ⟨roots, met⟩⟩
    exact allowed.live entry (List.mem_append_left _ (List.mem_append_left _ member))
  case meets => rw [meets a, shrinking.below_iff_kept a, count]
  case fits =>
    rw [follows.encoding]
    exact fits
  case primary =>
    rw [count]
    exact shrinking.primary v (mem_kept.mp member).1
  case outside =>
    rw [count] at upper
    exact (shrinking.below_iff_kept t.value).mp below v lower upper absent
  case implied =>
    -- Below the new model is below the old one, and misses what the new one misses.
    rw [count] at smaller apart
    have lower := smaller.trans below
    have misses : ¬ Below s.numPrimary s.value a := fun back => strict (back.trans smaller)
    rcases List.mem_append.mp member with old | new
    · exact shrinking.implied a lower misses entry old
    · rw [List.mem_singleton.mp new]
      exact (shrinking.cone_iff a).mpr misses

/-- Where no model satisfies the constraints of the rounds, the model at hand is minimal. -/
theorem Shrinking.minimal (shrinking : s.Shrinking held base live assumptions extra units free)
    {handle : Nat} (refuted : ∀ a, ¬ Allows base
      (live ++ extra ++ [(handle, Ledger.coneClause s.truePrimaries)])
      (s.loaded.encoding.assumptions ++
        (units ++ (free.partition s.value).2.map fun (v : Nat) => -(v : Int))) a) :
    s.MinimalOver base live assumptions := by
  intro a allowed below
  by_contra strict
  obtain ⟨roots, met⟩ := meets_append.mp allowed.assumptions
  apply refuted a
  refine ⟨allowed.base, fun entry member => ?_, meets_append.mpr ⟨roots, ?_⟩⟩
  · rcases List.mem_append.mp member with inBoth | new
    · rcases List.mem_append.mp inBoth with isLive | isExtra
      · exact allowed.live entry isLive
      · exact shrinking.implied a below strict entry isExtra
    · rw [List.mem_singleton.mp new]
      exact (shrinking.cone_iff a).mpr strict
  · exact (shrinking.assume.2 a).mpr ⟨met, below⟩

theorem Minimal.of_follows (follows : Follows count s t) (same : t.value = s.value)
    (minimal : s.Minimal live assumptions) : t.Minimal live assumptions := by
  intro a admits
  rw [follows.numPrimary, same]
  exact minimal a (follows.admits.mp admits)

theorem shrinking_start (guarded : s.Guarded held base live)
    (fits : Mentions s.loaded.encoding.cnf.numVars assumptions)
    (model : Allows base live (s.loaded.encoding.assumptions ++ assumptions) s.value) :
    s.Shrinking held base live assumptions [] assumptions (List.range' 1 s.numPrimary) := by
  have all : ∀ v, v ∈ List.range' 1 s.numPrimary ↔ 1 ≤ v ∧ v ≤ s.numPrimary := by
    intro v
    rw [List.mem_range'_1]
    omega
  refine ⟨?_, model, ?_, fits, ?_, ?_, by simp⟩
  · rw [List.append_nil]
    exact guarded
  · intro a
    rw [iff_self_and]
    intro _ v lower upper absent
    exact absurd ((all v).mpr ⟨lower, upper⟩) absent
  · exact fun v member => (all v).mp member
  · intro v lower upper absent
    exact absurd ((all v).mpr ⟨lower, upper⟩) absent

/-- The handles of extra constraints are those of no other live ones, and are all there are to take
back. -/
theorem filter_extra {live extra : List (Nat × Clause)}
    (fresh : ∀ entry ∈ extra, entry.1 ∉ live.map Prod.fst) :
    (live ++ extra).filter (·.1 ∉ extra.map Prod.fst) = live := by
  have kept : live.filter (·.1 ∉ extra.map Prod.fst) = live := by
    apply List.filter_eq_self.mpr
    intro entry member
    apply decide_eq_true
    intro known
    obtain ⟨other, isExtra, same⟩ := List.mem_map.mp known
    exact fresh other isExtra (same ▸ List.mem_map_of_mem member)
  have gone : extra.filter (·.1 ∉ extra.map Prod.fst) = [] := by
    apply List.filter_eq_nil_iff.mpr
    intro entry member
    simpa using ⟨entry.2, member⟩
  rw [List.filter_append, kept, gone, List.append_nil]

variable [Backend σ]

/-- Rounds leave the constraints that they added, whose handles they list, and no other trace. -/
theorem shrinkModel_guarded (faithful : Faithful σ held) (gauge : Gauge σ count)
    (limit rounds : Nat) (guarded : s.Guarded held base (live ++ extra))
    (fresh : ∀ entry ∈ extra, entry.1 ∉ live.map Prod.fst) :
    ∃ more, Maintains count s (shrinkModel limit s units free (extra.map Prod.fst) rounds).2 ∧
      (shrinkModel limit s units free (extra.map Prod.fst) rounds).2.Guarded held base
        (live ++ more) ∧
      (∀ entry ∈ more, entry.1 ∉ live.map Prod.fst) ∧
      (shrinkModel limit s units free (extra.map Prod.fst) rounds).1.handles =
        more.map Prod.fst := by
  induction limit generalizing s extra units free rounds with
  | zero => exact ⟨extra, .refl s, guarded, fresh, rfl⟩
  | succ limit ih =>
    unfold shrinkModel
    simp only
    split
    · exact ⟨extra, .refl s, guarded, fresh, rfl⟩
    · obtain ⟨added, -, constrained⟩ :=
        addConstraint_guarded faithful gauge guarded guarded.coneClause_mentions
      generalize s.addConstraint (Ledger.coneClause s.truePrimaries) = out at added constrained
      obtain ⟨given, between⟩ := out
      cases given with
      | none => exact ⟨extra, added, constrained.1, fresh, rfl⟩
      | some handle =>
        obtain ⟨unknown, kept⟩ := constrained
        simp only
        obtain ⟨searched, final⟩ := solve_guarded faithful gauge kept
          (units ++ (free.partition s.value).2.map fun (v : Nat) => -(v : Int))
        rw [List.append_assoc] at final
        have handles : extra.map Prod.fst ++ [handle] =
            (extra ++ [(handle, Ledger.coneClause s.truePrimaries)]).map Prod.fst := by simp
        have apart : ∀ entry ∈ extra ++ [(handle, Ledger.coneClause s.truePrimaries)],
            entry.1 ∉ live.map Prod.fst := by
          intro entry member
          rcases List.mem_append.mp member with old | new
          · exact fresh entry old
          · rw [List.mem_singleton.mp new]
            rw [List.map_append, List.mem_append, not_or] at unknown
            exact unknown.1
        generalize between.solve
          (units ++ (free.partition s.value).2.map fun (v : Nat) => -(v : Int)) = out
          at searched final
        obtain ⟨result, after⟩ := out
        have maintains := added.trans searched
        match result with
        | .ok true =>
          obtain ⟨more, further, rest⟩ := ih (rounds + 1) final apart
          rw [← handles] at further rest
          exact ⟨more, maintains.trans further, rest⟩
        | .ok false => exact ⟨_, maintains, final, apart, handles⟩
        | .error failure => exact ⟨_, maintains, final, apart, handles⟩

/-- The model at hand has true primary variables, and the constraint of the next round is refused. -/
def Refuses (s : Session σ) : Prop :=
  s.truePrimaries ≠ [] ∧ (s.addConstraint (Ledger.coneClause s.truePrimaries)).1 = none

/-- What a run comes to that finds no model below the one at hand: it keeps this model, which is
minimal unless the constraint of the round was refused or its search failed. -/
structure Concludes (count : σ → Nat) (base : List Clause) (live : List (Nat × Clause))
    (assumptions : List Int) (s : Session σ) (rounds : Nat) (ended : Rounds × Session σ) : Prop where
  value : ended.2.value = s.value
  follows : Follows count s ended.2
  outcome : match ended.1.result with
    | .ok n => n = rounds ∧ (s.MinimalOver base live assumptions ∨
        s.Refuses ∧ Refused Clause.compound count s.store.backend ended.2.store.backend)
    | .error failure => Failed count failure s ended.2

/-- A round either ends the run, whatever the limit, or finds a model strictly below. -/
theorem shrinkModel_round (faithful : Faithful σ held) (gauge : Gauge σ count) (rounds : Nat)
    (handles : List Nat) (shrinking : s.Shrinking held base live assumptions extra units free) :
    (∃ ended, (∀ limit, shrinkModel (limit + 1) s units free handles rounds = ended) ∧
      s.Concludes count base live assumptions rounds ended) ∨
    ∃ next handle, (∀ limit, shrinkModel (limit + 1) s units free handles rounds =
        shrinkModel limit next
          (units ++ (free.partition s.value).2.map fun (v : Nat) => -(v : Int))
          (free.partition s.value).1 (handles ++ [handle]) (rounds + 1)) ∧
      Follows count s next ∧
      next.Shrinking held base live assumptions
        (extra ++ [(handle, Ledger.coneClause s.truePrimaries)])
        (units ++ (free.partition s.value).2.map fun (v : Nat) => -(v : Int))
        (free.partition s.value).1 ∧
      StrictlyBelow s.numPrimary next.value s.value := by
  simp only [shrinkModel]
  by_cases none : s.truePrimaries.isEmpty
  · refine .inl ⟨(⟨.ok rounds, handles⟩, s), fun _ => if_pos none, rfl, .refl s, rfl, .inl ?_⟩
    intro a _ _ v lower upper isTrue
    have member : v ∈ s.truePrimaries := mem_truePrimaries.mpr ⟨⟨lower, upper⟩, isTrue⟩
    rw [List.isEmpty_iff.mp none] at member
    cases member
  simp only [if_neg none]
  obtain ⟨added, sameValue, constrained⟩ := addConstraint_guarded faithful gauge
    shrinking.guarded shrinking.guarded.coneClause_mentions
  generalize attempt : s.addConstraint (Ledger.coneClause s.truePrimaries) = out
    at added sameValue constrained
  obtain ⟨given, between⟩ := out
  cases given with
  | none =>
    have refused := constrained.2 (by simpa [Ledger.coneClause] using none)
    have refuses : s.Refuses :=
      ⟨fun isNil => none (List.isEmpty_iff.mpr isNil), congrArg Prod.fst attempt⟩
    exact .inl ⟨(⟨.ok rounds, handles⟩, between), fun _ => rfl, sameValue, added.toFollows, rfl,
      .inr ⟨refuses, refused⟩⟩
  | some handle =>
    obtain ⟨-, kept⟩ := constrained
    dsimp only
    have fits : Mentions between.loaded.encoding.cnf.numVars
        (units ++ (free.partition s.value).2.map fun (v : Nat) => -(v : Int)) :=
      added.encoding.symm ▸ shrinking.assume.1
    obtain ⟨searched, final⟩ := solve_guarded faithful gauge kept
      (units ++ (free.partition s.value).2.map fun (v : Nat) => -(v : Int))
    obtain ⟨same, answer⟩ := solve_decides faithful kept fits
    rw [added.encoding] at answer
    have failed := fun failure (isError : (between.solve
        (units ++ (free.partition s.value).2.map fun (v : Nat) => -(v : Int))).1 =
          .error failure) =>
      (⟨between, _, added.toFollows, isError, .refl _⟩ : Failed count failure s _)
    generalize between.solve
      (units ++ (free.partition s.value).2.map fun (v : Nat) => -(v : Int)) = out
      at searched final same answer failed
    obtain ⟨result, after⟩ := out
    have follows := (added.trans searched).toFollows
    match result, answer, same with
    | .ok true, allowed, _ =>
      obtain ⟨next, smaller⟩ := shrinking.next follows final allowed
      exact .inr ⟨after, handle, fun _ => rfl, follows, next, smaller⟩
    | .ok false, refuted, same =>
      exact .inl ⟨(⟨.ok rounds, handles ++ [handle]⟩, after), fun _ => rfl,
        (same (by simp)).trans sameValue, follows, rfl, .inl (shrinking.minimal refuted)⟩
    | .error failure, _, same =>
      exact .inl ⟨(⟨.error failure, handles ++ [handle]⟩, after), fun _ => rfl,
        (same (by simp)).trans sameValue, follows, failed failure rfl⟩

/-- A run goes strictly down from model to model, at most as often as there are true primary
variables, and then ends by itself. -/
theorem shrinkModel_descends (faithful : Faithful σ held) (gauge : Gauge σ count) (rounds : Nat)
    (handles : List Nat) (shrinking : s.Shrinking held base live assumptions extra units free) :
    ∃ found ≤ s.truePrimaries.length,
      (∀ j < found, StrictlyBelow s.numPrimary
        (shrinkModel (j + 1) s units free handles rounds).2.value
        (shrinkModel j s units free handles rounds).2.value) ∧
      Follows count s (shrinkModel found s units free handles rounds).2 ∧
      Allows base live (s.loaded.encoding.assumptions ++ assumptions)
        (shrinkModel found s units free handles rounds).2.value ∧
      ∃ ended, (∀ limit > found, shrinkModel limit s units free handles rounds = ended) ∧
        (shrinkModel found s units free handles rounds).2.Concludes count base live assumptions
          (rounds + found) ended := by
  -- On the number of true primary variables, which falls with every model found.
  induction size : s.truePrimaries.length using Nat.strongRecOn
    generalizing s extra units free rounds handles with
  | _ size ih =>
    rcases shrinkModel_round faithful gauge rounds handles shrinking with
      ⟨ended, run, concludes⟩ | ⟨next, handle, run, follows, further, smaller⟩
    · refine ⟨0, Nat.zero_le _, by simp, .refl s, shrinking.model, ended, ?_, concludes⟩
      intro limit positive
      obtain ⟨limit, rfl⟩ := Nat.exists_eq_add_one.mpr positive
      exact run limit
    · have fewer := length_truePrimaries_lt follows.numPrimary smaller
      obtain ⟨found, few, chain, later, model, ended, ends, concludes⟩ :=
        ih _ (size ▸ fewer) (rounds + 1) (handles ++ [handle]) further rfl
      refine ⟨found + 1, by omega, ?_, ?_, ?_, ended, ?_, ?_⟩
      · intro j small
        rw [run j]
        cases j with
        | zero => exact smaller
        | succ j =>
          rw [run j, ← follows.numPrimary]
          exact chain j (by omega)
      · rw [run found]
        exact follows.trans later
      · rw [run found, ← follows.encoding]
        exact model
      · intro limit large
        obtain ⟨limit, rfl⟩ := Nat.exists_eq_add_one.mpr (Nat.zero_lt_of_lt large)
        rw [run limit]
        exact ends limit (by omega)
      · rw [run found, Nat.add_comm found, ← Nat.add_assoc]
        exact concludes

/-- Rounds that are not stopped by a failed search end with a minimal model or a refused constraint. -/
theorem shrinkModel_minimal (faithful : Faithful σ held) (gauge : Gauge σ count) {limit : Nat}
    (rounds : Nat) (handles : List Nat)
    (shrinking : s.Shrinking held s.loaded.encoding.cnf.clauses.toList live assumptions extra units
      free)
    (enough : s.truePrimaries.length < limit) :
    (shrinkModel limit s units free handles rounds).2.Admits live assumptions
        (shrinkModel limit s units free handles rounds).2.value ∧
      match (shrinkModel limit s units free handles rounds).1.result with
      | .ok _ => (shrinkModel limit s units free handles rounds).2.Minimal live assumptions ∨
          Refused Clause.compound count s.store.backend
            (shrinkModel limit s units free handles rounds).2.store.backend
      | .error failure =>
          Failed count failure s (shrinkModel limit s units free handles rounds).2 := by
  obtain ⟨found, few, -, follows, model, ended, ends, concludes⟩ :=
    shrinkModel_descends faithful gauge rounds handles shrinking
  rw [ends limit (Nat.lt_of_le_of_lt few enough)]
  generalize (shrinkModel found s units free handles rounds).2 = last at follows model concludes
  have outcome := concludes.outcome
  refine ⟨?_, ?_⟩
  · rw [concludes.follows.admits, follows.admits, concludes.value]
    exact model
  split at outcome
  · refine outcome.2.imp (fun minimal => ?_) fun refused =>
      refused.2.widen follows.interruptions (Nat.le_refl _)
    rw [← follows.encoding] at minimal
    exact Minimal.of_follows concludes.follows concludes.value minimal
  · exact follows.failed outcome

/-- However minimization ends, it keeps the live constraints and leaves no trace of its own. -/
theorem minimize_guarded (faithful : Faithful σ held) (gauge : Gauge σ count)
    (guarded : s.Guarded held base live) (assumptions : List Int) :
    Maintains count s (s.minimize assumptions).2 ∧
      (s.minimize assumptions).2.Guarded held base live := by
  obtain ⟨more, maintains, left, fresh, handles⟩ := @shrinkModel_guarded σ held count base live []
    s assumptions (List.range' 1 s.numPrimary) _ faithful gauge (s.truePrimaries.length + 1) 0
    (by rwa [List.append_nil]) (by simp)
  rw [List.map_nil] at maintains left handles
  obtain ⟨removed, final, -⟩ := removeAll_guarded faithful gauge left (more.map Prod.fst)
  rw [filter_extra fresh] at final
  unfold minimize
  simp only [handles]
  exact ⟨maintains.trans removed, final⟩

/-- Minimization leaves a model of what it started from, and a minimal one unless a search failed or a
constraint was refused. -/
theorem minimize_minimal (faithful : Faithful σ held) (gauge : Gauge σ count)
    (guarded : s.Guarded held s.loaded.encoding.cnf.clauses.toList live)
    (fits : Mentions s.loaded.encoding.cnf.numVars assumptions)
    (admits : s.Admits live assumptions s.value) :
    s.Admits live assumptions (s.minimize assumptions).2.value ∧
      match (s.minimize assumptions).1 with
      | .ok _ => (s.minimize assumptions).2.Minimal live assumptions ∨
          Refused Clause.compound count s.store.backend (s.minimize assumptions).2.store.backend
      | .error failure => Failed count failure s (s.minimize assumptions).2 := by
  obtain ⟨more, maintains, left, -⟩ := @shrinkModel_guarded σ held count _ live [] s assumptions
    (List.range' 1 s.numPrimary) _ faithful gauge (s.truePrimaries.length + 1) 0
    (by rwa [List.append_nil]) (by simp)
  rw [List.map_nil] at maintains left
  obtain ⟨model, outcome⟩ := shrinkModel_minimal faithful gauge 0 []
    (shrinking_start guarded fits admits) (Nat.lt_add_one s.truePrimaries.length)
  unfold minimize
  simp only
  generalize shrinkModel (s.truePrimaries.length + 1) s assumptions (List.range' 1 s.numPrimary) []
    0 = out at maintains left model outcome
  obtain ⟨rounds, between⟩ := out
  obtain ⟨removed, -, value⟩ := removeAll_guarded faithful gauge left rounds.handles
  refine ⟨?_, ?_⟩
  · rw [value, ← maintains.admits]
    exact model
  · simp only at outcome ⊢
    split at outcome
    · exact outcome.imp (Minimal.of_follows removed.toFollows value) fun refused =>
        refused.widen (Nat.le_refl _) removed.interruptions
    · exact outcome.follows removed.toFollows

/-- Minimization keeps the live constraints and leaves a model that has no other one below it. -/
theorem minimize_ready (oracle : Oracle σ held interruptions) (ready : s.Ready held live)
    (fits : Mentions s.loaded.encoding.cnf.numVars assumptions)
    (admits : s.Admits live assumptions s.value) :
    Follows interruptions s (s.minimize assumptions).2 ∧
      (s.minimize assumptions).2.Ready held live ∧
      match (s.minimize assumptions).1 with
      | .ok _ => s.Admits live assumptions (s.minimize assumptions).2.value ∧
          ∀ a, s.Admits live assumptions a →
            Below s.numPrimary a (s.minimize assumptions).2.value →
            Below s.numPrimary (s.minimize assumptions).2.value a
      | .error failure => failure = .aborted ∧
          Stopped interruptions s (s.minimize assumptions).2 := by
  obtain ⟨maintains, guarded⟩ :=
    minimize_guarded oracle.faithful oracle.gauge ready.guarded assumptions
  obtain ⟨found, outcome⟩ :=
    minimize_minimal oracle.faithful oracle.gauge ready.guarded fits admits
  have follows := maintains.toFollows
  refine ⟨follows, ready.of_guarded follows.toContinues guarded, ?_⟩
  split at outcome
  · refine ⟨found, fun a other below => ?_⟩
    rw [← follows.numPrimary] at below ⊢
    exact outcome.resolve_right oracle.not_refused a (follows.admits.mpr other) below
  · exact outcome.stopped oracle ready.unlimited

/-- A search for a minimal model finds one if there is a model at all, unless it is aborted. -/
theorem findMinimal_ready (oracle : Oracle σ held interruptions) (ready : s.Ready held live)
    (fits : Mentions s.loaded.encoding.cnf.numVars assumptions) :
    Follows interruptions s (s.findMinimal assumptions).2 ∧
      (s.findMinimal assumptions).2.Ready held live ∧
      match (s.findMinimal assumptions).1 with
      | .ok true => s.Admits live assumptions (s.findMinimal assumptions).2.value ∧
          ∀ a, s.Admits live assumptions a →
            Below s.numPrimary a (s.findMinimal assumptions).2.value →
            Below s.numPrimary (s.findMinimal assumptions).2.value a
      | .ok false => ∀ a, ¬ s.Admits live assumptions a
      | .error failure => failure = .aborted ∧
          Stopped interruptions s (s.findMinimal assumptions).2 := by
  unfold findMinimal
  have searched := solve_ready oracle ready fits
  generalize s.solve assumptions = out at searched
  obtain ⟨result, between⟩ := out
  obtain ⟨solved, inOrder, answer⟩ := searched
  match result, answer with
  | .ok true, admits =>
    have minimized := minimize_ready oracle inOrder (solved.encoding.symm ▸ fits)
      (solved.admits.mpr admits)
    simp only
    generalize between.minimize assumptions = out at minimized
    obtain ⟨result, after⟩ := out
    obtain ⟨follows, final, outcome⟩ := minimized
    match result, outcome with
    | .ok _, ⟨found, minimal⟩ =>
      refine ⟨solved.trans follows, final, solved.admits.mp found, fun a other below => ?_⟩
      rw [← solved.numPrimary] at below ⊢
      exact minimal a (solved.admits.mpr other) below
    | .error failure, ⟨aborted, stopped⟩ =>
      exact ⟨solved.trans follows, final, aborted, solved.stopped stopped⟩
  | .ok false, refuted => exact ⟨solved, inOrder, refuted⟩
  | .error failure, aborted => exact ⟨solved, inOrder, aborted⟩

/-- Without a model, the failed assumptions are those of the search that came first. -/
theorem findMinimal_failed (faithful : Faithful σ held) (guarded : s.Guarded held base live)
    (fits : Mentions s.loaded.encoding.cnf.numVars assumptions)
    (refuted : (s.findMinimal assumptions).1 = .ok false) :
    (s.findMinimal assumptions).2.loaded.encoding = s.loaded.encoding ∧
      (s.findMinimal assumptions).2.store.failed.get ⊆
        s.loaded.encoding.assumptions ++ assumptions ∧
      ∀ a, ¬ Allows base live (s.findMinimal assumptions).2.store.failed.get a := by
  obtain ⟨maintains, -⟩ := solve_guarded faithful .zero guarded assumptions
  have failed := solve_failed faithful guarded fits
  unfold findMinimal at refuted ⊢
  generalize s.solve assumptions = out at refuted maintains failed ⊢
  obtain ⟨result, between⟩ := out
  match result with
  | .ok true =>
    simp only at refuted
    split at refuted <;> cases refuted
  | .ok false => exact ⟨maintains.encoding, failed rfl⟩
  | .error failure => cases refuted

theorem findMinimal_expired (expired : s.control.limitMs = some 0) (running : s.control.running = true)
    (assumptions : List Int) : ∃ failure, s.findMinimal assumptions = (.error failure, s) := by
  obtain ⟨failure, searched⟩ := solve_expired expired running assumptions
  exact ⟨failure, by rw [findMinimal, searched]⟩

end Session

end ModelFinder
