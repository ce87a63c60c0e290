import ModelFinder.Proofs.Cnf.Clauses
import ModelFinder.Proofs.Data.Keyed
import ModelFinder.Proofs.Sat.Exhaustive

/-! A store refines a plain clause store, in which a constraint that is taken back is simply gone.
Guarded clauses stay in the solver for good, a refused addition uses a variable up and a refused
removal leaves a guard that nothing asserts; none of it can be told from the answers. -/
namespace ModelFinder

structure Allows (base : List Clause) (live : List (Nat × Clause)) (assumptions : List Int)
    (a : Nat → Bool) : Prop where
  base : Satisfies a base
  live : ∀ entry ∈ live, entry.2.holds a = true
  assumptions : Meets a assumptions

/-- A clause store without a solver: the variables handed out, the clauses accepted for good, and the
clauses of the live constraints under their handles. -/
structure PlainStore where
  handed : List Nat
  clauses : List Clause
  live : List (Nat × Clause)
deriving DecidableEq, Repr

namespace PlainStore

variable {p : PlainStore} {a b : Nat → Bool} {literals : List Int} {clause : Clause}

def empty : PlainStore := ⟨[], [], []⟩

def handOut (p : PlainStore) (last count : Nat) : PlainStore :=
  { p with handed := p.handed ++ List.range' (last + 1) count }

def offer (p : PlainStore) (clause : Clause) (accepted : Bool) : PlainStore :=
  if accepted then { p with clauses := p.clauses ++ [clause] } else p

def constrain (p : PlainStore) (clause : Clause) : (handle : Option Nat) → PlainStore
  | some handle => { p with live := p.live ++ [(handle, clause)] }
  | none => p

def release (p : PlainStore) (handle : Nat) : PlainStore :=
  { p with live := p.live.filter (·.1 ≠ handle) }

theorem mem_release {handle : Nat} {entry : Nat × Clause} :
    entry ∈ (p.release handle).live ↔ entry ∈ p.live ∧ entry.1 ≠ handle := by
  simp [release, List.mem_filter]

theorem mem_release_keys {handle selector : Nat} :
    selector ∈ (p.release handle).live.map Prod.fst ↔
      selector ∈ p.live.map Prod.fst ∧ selector ≠ handle := by
  simp only [List.mem_map, mem_release]
  constructor
  · rintro ⟨entry, ⟨old, apart⟩, rfl⟩
    exact ⟨⟨entry, old, rfl⟩, apart⟩
  · rintro ⟨⟨entry, old, rfl⟩, apart⟩
    exact ⟨entry, ⟨old, apart⟩, rfl⟩

theorem release_of_absent {handle : Nat} (absent : handle ∉ p.live.map Prod.fst) :
    p.release handle = p := by
  rw [release, filter_ne_of_absent absent]

def Knows (p : PlainStore) (literals : List Int) : Prop := ∀ l ∈ literals, l.natAbs ∈ p.handed

instance : Decidable (p.Knows literals) := inferInstanceAs (Decidable (∀ l ∈ literals, _))

theorem Knows.meets (knows : p.Knows literals) (same : ∀ v ∈ p.handed, a v = b v) :
    Meets a literals ↔ Meets b literals :=
  forall₂_congr fun l member => by rw [litHolds_congr (same _ (knows l member))]

theorem Knows.holds (knows : p.Knows clause) (same : ∀ v ∈ p.handed, a v = b v) :
    clause.holds a = clause.holds b := by
  rw [Bool.eq_iff_iff, Clause.holds_iff, Clause.holds_iff]
  refine exists_congr fun l => and_congr_right fun member => ?_
  rw [litHolds_congr (same _ (knows l member))]

theorem allows_agree (clauses : ∀ clause ∈ p.clauses, p.Knows clause)
    (constraints : ∀ entry ∈ p.live, p.Knows entry.2) (knows : p.Knows literals)
    (same : ∀ v ∈ p.handed, a v = b v) (allowed : Allows p.clauses p.live literals a) :
    Allows p.clauses p.live literals b := by
  refine ⟨fun clause member => ?_, fun entry member => ?_, (knows.meets same).mp allowed.assumptions⟩
  · rw [← (clauses clause member).holds same]
    exact allowed.base clause member
  · rw [← (constraints entry member).holds same]
    exact allowed.live entry member

end PlainStore

/-- A guarded clause says what the clause says where the selector is true. -/
theorem holds_guarded {a : Nat → Bool} {clause : Clause} {selector : Nat} (positive : 1 ≤ selector) :
    Clause.holds a (clause ++ [-(selector : Int)]) = true ↔
      (a selector = true → clause.holds a = true) := by
  rw [Clause.holds, List.any_append, Clause.holds]
  simp only [List.any_cons, List.any_nil, Bool.or_false, litHolds_neg_natCast positive]
  cases a selector <;> simp

namespace Store

variable {σ : Type} {held : σ → List Clause} {p : PlainStore} {st : Store σ} {clause : Clause}

/-- The store does the work of a plain store. Its solver implies the clause of a live constraint
whose selector is true, and allows every assignment in which the only true variables that were not
handed out are selectors of live constraints whose clauses hold. -/
structure Realizes (held : σ → List Clause) (p : PlainStore) (st : Store σ) : Prop where
  handed : ∀ v ∈ p.handed, 1 ≤ v ∧ v ≤ st.numVars
  selectors : ∀ selector, selector ∈ st.selectors ↔ selector ∈ p.live.map Prod.fst
  apart : ∀ selector ∈ p.live.map Prod.fst,
    1 ≤ selector ∧ selector ≤ st.numVars ∧ selector ∉ p.handed
  clauses : ∀ clause ∈ p.clauses, p.Knows clause
  constraints : ∀ entry ∈ p.live, p.Knows entry.2
  implied : ∀ a, Satisfies a (held st.backend) →
    Satisfies a p.clauses ∧ ∀ entry ∈ p.live, a entry.1 = true → entry.2.holds a = true
  allowed : ∀ a, Satisfies a p.clauses →
    (∀ v, 1 ≤ v → v ≤ st.numVars → v ∉ p.handed → a v = true →
      ∃ clause, (v, clause) ∈ p.live ∧ clause.holds a = true) → Satisfies a (held st.backend)

theorem empty_realizes {solver : σ} (fresh : held solver = []) :
    (Store.empty solver).Realizes held .empty where
  handed _ member := by cases member
  selectors selector := by simp [Store.empty, PlainStore.empty]
  apart _ member := by cases member
  clauses _ member := by cases member
  constraints _ member := by cases member
  implied _ _ := ⟨satisfies_nil, fun _ member => by cases member⟩
  allowed a _ _ := by
    show Satisfies a (held solver)
    rw [fresh]
    exact satisfies_nil

/-- What a search has to come to in a plain store, from the stores before and after it. -/
structure Answers (p : PlainStore) (assumptions : List Int) (before after : Store σ)
    (result : Except Failure Bool) : Prop where
  exact : ∀ answer, result = .ok answer →
    (answer = true ↔ ∃ a, Allows p.clauses p.live assumptions a)
  model : result = .ok true → Allows p.clauses p.live assumptions after.model
  failed : result = .ok false → after.failed.get ⊆ assumptions ∧
    ∀ a, ¬ Allows p.clauses p.live after.failed.get a
  kept : result ≠ .ok true → after.model = before.model
  undone : ∀ failure, result = .error failure → after.failed = before.failed

section Answers

variable {assumptions : List Int} {after : Store σ}

theorem answers_sat (allowed : Allows p.clauses p.live assumptions after.model) :
    Answers p assumptions st after (.ok true) where
  exact answer given := by
    obtain rfl := Except.ok.inj given
    exact iff_of_true rfl ⟨_, allowed⟩
  model _ := allowed
  failed isFalse := by cases isFalse
  kept other := absurd rfl other
  undone failure failed := by cases failed

/-- What excludes some of the assumptions excludes all of them. -/
theorem answers_unsat (part : after.failed.get ⊆ assumptions)
    (excluded : ∀ a, ¬ Allows p.clauses p.live after.failed.get a) (model : after.model = st.model) :
    Answers p assumptions st after (.ok false) where
  exact answer given := by
    obtain rfl := Except.ok.inj given
    refine iff_of_false (by simp) fun ⟨a, allowed⟩ => excluded a ⟨allowed.base, allowed.live, ?_⟩
    exact fun l member => allowed.assumptions l (part member)
  model isTrue := by cases isTrue
  failed _ := ⟨part, excluded⟩
  kept _ := model
  undone failure failed := by cases failed

theorem answers_error {failure : Failure} (model : after.model = st.model)
    (failed : after.failed = st.failed) : Answers p assumptions st after (.error failure) where
  exact answer given := by cases given
  model isTrue := by cases isTrue
  failed isFalse := by cases isFalse
  kept _ := model
  undone _ _ := failed

end Answers

/-- A model of what the solver holds and of the selectors is a model for the plain store. -/
theorem Realizes.of_solver (realizes : st.Realizes held p) {assumptions : List Int} {a : Nat → Bool}
    (satisfied : Satisfies a (held st.backend))
    (meets : Meets a (st.selectors.toList.map Int.ofNat ++ assumptions)) :
    Allows p.clauses p.live assumptions a := by
  obtain ⟨selected, assumed⟩ := meets_append.mp meets
  obtain ⟨clauses, guarded⟩ := realizes.implied a satisfied
  refine ⟨clauses, fun entry member => guarded entry member ?_, assumed⟩
  have isKey : entry.1 ∈ p.live.map Prod.fst := List.mem_map_of_mem member
  have holds := selected _ (List.mem_map_of_mem ((realizes.selectors entry.1).mpr isKey))
  rwa [Int.ofNat_eq_natCast, litHolds_natCast (realizes.apart entry.1 isKey).1] at holds

/-- A model for the plain store is completed by making true, of the variables in use that were not
handed out, exactly the selectors. Variables that are not in use may be anything. -/
theorem Realizes.complete (realizes : st.Realizes held p) {assumptions : List Int} {a : Nat → Bool}
    (knows : p.Knows assumptions) (allowed : Allows p.clauses p.live assumptions a) :
    ∃ c : Nat → Bool, ∀ d : Nat → Bool, (∀ v, 1 ≤ v → v ≤ st.numVars → d v = c v) →
      Satisfies d (held st.backend) ∧ Meets d (st.selectors.toList.map Int.ofNat ++ assumptions) ∧
        ∀ v ∈ p.handed, d v = a v := by
  let completed : Nat → Bool := fun v =>
    if v ∈ p.handed then a v else decide (v ∈ p.live.map Prod.fst)
  refine ⟨completed, fun d agrees => ?_⟩
  have same : ∀ v ∈ p.handed, a v = d v := by
    intro v member
    obtain ⟨positive, known⟩ := realizes.handed v member
    rw [agrees v positive known]
    exact (if_pos member).symm
  have others : ∀ v, 1 ≤ v → v ≤ st.numVars → v ∉ p.handed →
      d v = decide (v ∈ p.live.map Prod.fst) := by
    intro v positive known apart
    rw [agrees v positive known]
    exact if_neg apart
  have also := PlainStore.allows_agree realizes.clauses realizes.constraints knows same allowed
  refine ⟨realizes.allowed d also.base ?_, meets_append.mpr ⟨?_, also.assumptions⟩,
    fun v member => (same v member).symm⟩
  · intro v positive known apart isTrue
    rw [others v positive known apart, decide_eq_true_eq] at isTrue
    obtain ⟨entry, member, rfl⟩ := List.mem_map.mp isTrue
    exact ⟨entry.2, member, also.live entry member⟩
  · intro l member
    obtain ⟨selector, isSelector, rfl⟩ := List.mem_map.mp member
    have isKey := (realizes.selectors selector).mp isSelector
    obtain ⟨positive, known, apart⟩ := realizes.apart selector isKey
    rw [Int.ofNat_eq_natCast, litHolds_natCast positive, others selector positive known apart]
    exact decide_eq_true isKey

theorem Realizes.to_solver (realizes : st.Realizes held p) {assumptions : List Int} {a : Nat → Bool}
    (knows : p.Knows assumptions) (allowed : Allows p.clauses p.live assumptions a) :
    ∃ c, Satisfies c (held st.backend) ∧
      Meets c (st.selectors.toList.map Int.ofNat ++ assumptions) := by
  obtain ⟨c, completes⟩ := realizes.complete knows allowed
  obtain ⟨satisfied, meets, -⟩ := completes c fun _ _ _ => rfl
  exact ⟨c, satisfied, meets⟩

theorem Realizes.widen (realizes : st.Realizes held p) {next : Store σ}
    (more : st.numVars ≤ next.numVars) (selectors : next.selectors = st.selectors)
    (same : held next.backend = held st.backend) : next.Realizes held p := by
  refine ⟨fun v member => ?_, selectors ▸ realizes.selectors, fun selector member => ?_,
    realizes.clauses, realizes.constraints, same ▸ realizes.implied, fun a clauses guarded => ?_⟩
  · obtain ⟨positive, known⟩ := realizes.handed v member
    exact ⟨positive, Nat.le_trans known more⟩
  · obtain ⟨positive, known, apart⟩ := realizes.apart selector member
    exact ⟨positive, Nat.le_trans known more, apart⟩
  · rw [same]
    exact realizes.allowed a clauses fun v positive known =>
      guarded v positive (Nat.le_trans known more)

theorem Realizes.guard (realizes : st.Realizes held p) (knows : p.Knows clause) {next : Store σ}
    {selector : Nat} (isLast : next.numVars = selector) (fresh : st.numVars < selector)
    (selectors : next.selectors = st.selectors.insert selector)
    (meaning : ∀ a, Satisfies a (held next.backend) ↔ Satisfies a (held st.backend) ∧
      Clause.holds a (clause ++ [-(selector : Int)]) = true) :
    next.Realizes held (p.constrain clause (some selector)) := by
  have positive : 1 ≤ selector := by omega
  have unhanded : selector ∉ p.handed := by
    intro member
    have bound := realizes.handed selector member
    omega
  refine ⟨fun v member => ?_, fun other => ?_, fun other member => ?_, realizes.clauses, ?_,
    fun a satisfied => ?_, fun a clauses guarded => ?_⟩
  · have bound := realizes.handed v member
    omega
  · rw [selectors, IndexSet.mem_insert, realizes.selectors]
    simp [PlainStore.constrain, or_comm]
  · rcases List.mem_append.mp (List.map_append ▸ member) with old | new
    · obtain ⟨first, known, apart⟩ := realizes.apart other old
      exact ⟨first, by omega, apart⟩
    · obtain rfl : other = selector := List.mem_singleton.mp new
      exact ⟨positive, by omega, unhanded⟩
  · exact List.forall_mem_append.mpr ⟨realizes.constraints, List.forall_mem_singleton.mpr knows⟩
  · obtain ⟨before, new⟩ := (meaning a).mp satisfied
    obtain ⟨clauses, guarded⟩ := realizes.implied a before
    refine ⟨clauses, List.forall_mem_append.mpr ⟨guarded, ?_⟩⟩
    exact List.forall_mem_singleton.mpr ((holds_guarded positive).mp new)
  · refine (meaning a).mpr ⟨?_, (holds_guarded positive).mpr fun isTrue => ?_⟩
    · apply realizes.allowed a clauses
      intro v first known apart isTrue
      obtain ⟨found, member, holds⟩ := guarded v first (by omega) apart isTrue
      rcases List.mem_append.mp member with old | new
      · exact ⟨found, old, holds⟩
      · have := (Prod.mk.inj (List.mem_singleton.mp new)).1
        omega
    · obtain ⟨found, member, holds⟩ := guarded selector positive (by omega) unhanded isTrue
      rcases List.mem_append.mp member with old | new
      · have bound := (realizes.apart selector (key_mem old)).2.1
        omega
      · rwa [(Prod.mk.inj (List.mem_singleton.mp new)).2] at holds

/-- Without the constraint of a selector nothing that is still allowed makes the selector true, so
freeing it takes nothing away. -/
theorem Realizes.allowed_free (realizes : st.Realizes held p) {handle : Nat}
    (isLive : handle ∈ p.live.map Prod.fst) {a : Nat → Bool} (clauses : Satisfies a p.clauses)
    (guarded : ∀ v, 1 ≤ v → v ≤ st.numVars → v ∉ p.handed → a v = true →
      ∃ clause, (v, clause) ∈ (p.release handle).live ∧ clause.holds a = true) :
    Satisfies a (held st.backend) ∧ a handle = false := by
  constructor
  · apply realizes.allowed a clauses
    intro v first last unhanded isTrue
    obtain ⟨clause, member, holds⟩ := guarded v first last unhanded isTrue
    exact ⟨clause, (PlainStore.mem_release.mp member).1, holds⟩
  · obtain ⟨positive, known, apart⟩ := realizes.apart handle isLive
    apply Bool.eq_false_iff.mpr
    intro isTrue
    obtain ⟨clause, member, -⟩ := guarded handle positive known apart isTrue
    exact (PlainStore.mem_release.mp member).2 rfl

variable [Backend σ]

theorem addVariables_realizes (faithful : Faithful σ held) (realizes : st.Realizes held p)
    (count : Nat) : (st.addVariables count).Realizes held (p.handOut st.numVars count) := by
  have numVars : (st.addVariables count).numVars = st.numVars + count := by
    unfold addVariables
    split <;> simp_all
  have selectors : (st.addVariables count).selectors = st.selectors := by
    unfold addVariables
    split <;> rfl
  have same : held (st.addVariables count).backend = held st.backend := by
    unfold addVariables
    split
    · rfl
    · exact faithful.reserve _ _
  have new : ∀ v, v ∈ List.range' (st.numVars + 1) count ↔
      st.numVars < v ∧ v ≤ st.numVars + count := by
    intro v
    rw [List.mem_range'_1]
    omega
  have wider : ∀ literals, p.Knows literals → (p.handOut st.numVars count).Knows literals :=
    fun literals knows l member => List.mem_append_left _ (knows l member)
  constructor
  · intro v member
    rw [numVars]
    rcases List.mem_append.mp member with old | isNew
    · have bound := realizes.handed v old
      omega
    · have bound := (new v).mp isNew
      omega
  · rw [selectors]
    exact realizes.selectors
  · intro selector member
    obtain ⟨positive, known, apart⟩ := realizes.apart selector member
    rw [numVars]
    refine ⟨positive, by omega, fun both => ?_⟩
    rcases List.mem_append.mp both with old | isNew
    · exact apart old
    · have bound := (new selector).mp isNew
      omega
  · exact fun clause member => wider clause (realizes.clauses clause member)
  · exact fun entry member => wider entry.2 (realizes.constraints entry member)
  · rw [same]
    exact realizes.implied
  · -- The new variables are beyond those that the solver was told about.
    intro a clauses guarded
    rw [same]
    apply realizes.allowed a clauses
    intro v positive known apart isTrue
    apply guarded v positive (by omega) _ isTrue
    intro both
    rcases List.mem_append.mp both with old | isNew
    · exact apart old
    · have bound := (new v).mp isNew
      omega

theorem addClause_realizes (faithful : Faithful σ held) (realizes : st.Realizes held p)
    (knows : p.Knows clause) :
    (st.addClause clause).2.Realizes held (p.offer clause (st.addClause clause).1) := by
  cases added : Backend.add st.backend clause with
  | mk accepted next =>
    have unfolded : st.addClause clause =
        (accepted, { st with numClauses := st.numClauses + 1, backend := next }) := by
      simp only [addClause, push, added]
    rw [unfolded]
    cases accepted with
    | true =>
      have meaning := faithful.accept _ _ _ added
      refine ⟨realizes.handed, realizes.selectors, realizes.apart, ?_, realizes.constraints, ?_, ?_⟩
      · exact List.forall_mem_append.mpr ⟨realizes.clauses, List.forall_mem_singleton.mpr knows⟩
      · intro a satisfied
        obtain ⟨before, here⟩ := (meaning a).mp satisfied
        obtain ⟨clauses, guarded⟩ := realizes.implied a before
        exact ⟨satisfies_append.mpr ⟨clauses, by simpa using here⟩, guarded⟩
      · intro a satisfied guarded
        obtain ⟨clauses, here⟩ := satisfies_append.mp satisfied
        exact (meaning a).mpr ⟨realizes.allowed a clauses guarded, by simpa using here⟩
    | false =>
      have same : held next = held st.backend := faithful.refuse _ _ _ added
      refine ⟨realizes.handed, realizes.selectors, realizes.apart, realizes.clauses,
        realizes.constraints, ?_, ?_⟩
      · show ∀ a, Satisfies a (held next) → _
        rw [same]
        exact realizes.implied
      · show ∀ a, Satisfies a p.clauses → _ → Satisfies a (held next)
        rw [same]
        exact realizes.allowed

theorem addConstraint_eq (st : Store σ) (clause : Clause) : st.addConstraint clause =
    let offered := Backend.add (Backend.reserve st.backend (st.numVars + 1))
      (clause ++ [-((st.numVars + 1 : Nat) : Int)])
    (if offered.1 then some (st.numVars + 1) else none,
      { st with
        backend := offered.2, numVars := st.numVars + 1, auxVars := st.auxVars + 1,
        selectors := if offered.1 then st.selectors.insert (st.numVars + 1) else st.selectors }) := by
  simp only [addConstraint, addAuxiliaries, addVariables, push, if_neg Nat.one_ne_zero]
  split <;> simp_all

/-- A constraint is live under a variable of its own, or refused. -/
theorem addConstraint_realizes (faithful : Faithful σ held) (realizes : st.Realizes held p)
    (knows : p.Knows clause) :
    (st.addConstraint clause).2.Realizes held (p.constrain clause (st.addConstraint clause).1) ∧
      (∀ handle, (st.addConstraint clause).1 = some handle → handle = st.numVars + 1) ∧
      (st.addConstraint clause).2.model = st.model := by
  rw [addConstraint_eq]
  have same : held (Backend.reserve st.backend (st.numVars + 1)) = held st.backend :=
    faithful.reserve _ _
  cases added : Backend.add (Backend.reserve st.backend (st.numVars + 1))
    (clause ++ [-((st.numVars + 1 : Nat) : Int)]) with
  | mk accepted next =>
    cases accepted with
    | true =>
      simp only [↓reduceIte]
      refine ⟨realizes.guard knows rfl (Nat.lt_succ_self _) rfl fun a => ?_, fun _ given => ?_,
        trivial⟩
      · rw [← same]
        exact faithful.accept _ _ _ added a
      · exact (Option.some.inj given).symm
    | false =>
      -- The refused clause has used the variable up all the same.
      simp only [Bool.false_eq_true, ↓reduceIte]
      refine ⟨realizes.widen (Nat.le_succ _) rfl ?_, fun _ given => ?_, trivial⟩
      · exact (faithful.refuse _ _ _ added).trans same
      · cases given

/-- A constraint that is taken back is gone, whether or not its selector could be freed; a handle
that is not live changes nothing. -/
theorem removeConstraint_realizes (faithful : Faithful σ held) (realizes : st.Realizes held p)
    (handle : Nat) : (st.removeConstraint handle).Realizes held (p.release handle) ∧
      (st.removeConstraint handle).model = st.model := by
  unfold removeConstraint
  split
  · rename_i isLive
    rw [IndexSet.contains_iff, realizes.selectors] at isLive
    obtain ⟨positive, -, -⟩ := realizes.apart handle isLive
    cases added : Backend.add st.backend [-(handle : Int)] with
    | mk accepted next =>
      simp only [push, added]
      have fewer : ∀ a, Satisfies a (held st.backend) → Satisfies a p.clauses ∧
          ∀ entry ∈ (p.release handle).live, a entry.1 = true → entry.2.holds a = true := by
        intro a satisfied
        obtain ⟨clauses, guarded⟩ := realizes.implied a satisfied
        exact ⟨clauses, fun entry member => guarded entry (PlainStore.mem_release.mp member).1⟩
      refine ⟨⟨realizes.handed, fun selector => ?selectors, fun selector member => ?apart,
        realizes.clauses, fun entry member => ?constraints, fun a satisfied => ?implied,
        fun a clauses guarded => ?allowed⟩, trivial⟩
      case selectors =>
        show selector ∈ st.selectors.erase handle ↔ _
        rw [IndexSet.mem_erase, realizes.selectors, PlainStore.mem_release_keys]
      case apart => exact realizes.apart selector (PlainStore.mem_release_keys.mp member).1
      case constraints => exact realizes.constraints entry (PlainStore.mem_release.mp member).1
      case implied =>
        cases accepted with
        | true => exact fewer a ((faithful.accept _ _ _ added a).mp satisfied).1
        | false => exact fewer a (faithful.refuse _ _ _ added ▸ satisfied)
      case allowed =>
        obtain ⟨satisfied, isFalse⟩ := realizes.allowed_free isLive clauses guarded
        show Satisfies a (held next)
        cases accepted with
        | true =>
          refine (faithful.accept _ _ _ added a).mpr ⟨satisfied, ?_⟩
          simp [Clause.holds, litHolds_neg_natCast positive, isFalse]
        | false => exact (faithful.refuse _ _ _ added).symm ▸ satisfied
  · rename_i notLive
    rw [IndexSet.contains_iff, realizes.selectors] at notLive
    rw [PlainStore.release_of_absent notLive]
    exact ⟨realizes, rfl⟩

theorem solve_realizes (faithful : Faithful σ held) (realizes : st.Realizes held p)
    {assumptions : List Int} (knows : p.Knows assumptions) :
    (st.solve assumptions).2.Realizes held p ∧
      Answers p assumptions st (st.solve assumptions).2 (st.solve assumptions).1 := by
  -- Only the solver, the model and the failed assumptions change.
  have kept : ∀ next : Store σ, next.backend =
      (Backend.solve st.backend (st.selectors.toList.map Int.ofNat ++ assumptions)).2 →
      next.numVars = st.numVars → next.selectors = st.selectors → next.Realizes held p :=
    fun next backend numVars selectors =>
      realizes.widen (Nat.le_of_eq numVars.symm) selectors (backend ▸ faithful.keep _ _)
  unfold solve
  cases answer : (Backend.solve st.backend (st.selectors.toList.map Int.ofNat ++ assumptions)).1 with
  | sat model =>
    simp only [answer]
    have allowed : Allows p.clauses p.live assumptions
        fun v => decide (0 < v) && decide (v ≤ st.numVars) && model v := by
      obtain ⟨satisfied, meets⟩ := faithful.sat _ _ model answer
      apply PlainStore.allows_agree realizes.clauses realizes.constraints knows _
        (realizes.of_solver satisfied meets)
      intro v member
      obtain ⟨positive, known⟩ := realizes.handed v member
      simp [show 0 < v by omega, known]
    exact ⟨kept _ rfl rfl rfl, answers_sat allowed⟩
  | unsat core =>
    simp only [answer]
    obtain ⟨isCore, refuted⟩ := faithful.unsat _ _ core answer
    have part : core.get.filter assumptions.contains ⊆ assumptions := by
      intro l member
      exact List.contains_iff_mem.mp (List.mem_filter.mp member).2
    -- What the plain store allows under the failed assumptions would satisfy the whole core.
    have excluded : ∀ a, ¬ Allows p.clauses p.live (core.get.filter assumptions.contains) a := by
      intro a allowed
      obtain ⟨c, satisfied, meets⟩ :=
        realizes.to_solver (fun l member => knows l (part member)) allowed
      obtain ⟨selected, assumed⟩ := meets_append.mp meets
      refine refuted ⟨c, satisfied, fun l member => ?_⟩
      rcases List.mem_append.mp (isCore member) with isSelector | isAssumption
      · exact selected l isSelector
      · exact assumed l (List.mem_filter.mpr ⟨member, List.contains_iff_mem.mpr isAssumption⟩)
    exact ⟨kept _ rfl rfl rfl, answers_unsat part excluded rfl⟩
  | interrupted =>
    simp only [answer]
    exact ⟨kept _ rfl rfl rfl, answers_error rfl rfl⟩
  | failed message =>
    simp only [answer]
    exact ⟨kept _ rfl rfl rfl, answers_error rfl rfl⟩

inductive Command where
  | addVariables (count : Nat)
  | newVariable
  | addClause (clause : Clause)
  | addConstraint (clause : Clause)
  | removeConstraint (handle : Nat)
  | solve (assumptions : List Int)
deriving DecidableEq, Repr

def Command.literals : Command → List Int
  | addClause clause | addConstraint clause => clause
  | solve assumptions => assumptions
  | _ => []

def perform (st : Store σ) : Command → Store σ
  | .addVariables count => st.addVariables count
  | .newVariable => st.newVariable.2
  | .addClause clause => (st.addClause clause).2
  | .addConstraint clause => (st.addConstraint clause).2
  | .removeConstraint handle => st.removeConstraint handle
  | .solve assumptions => (st.solve assumptions).2

def account (st : Store σ) (p : PlainStore) : Command → PlainStore
  | .addVariables count => p.handOut st.numVars count
  | .newVariable => { p with handed := p.handed ++ [st.newVariable.1] }
  | .addClause clause => p.offer clause (st.addClause clause).1
  | .addConstraint clause => p.constrain clause (st.addConstraint clause).1
  | .removeConstraint handle => p.release handle
  | .solve _ => p

def run (st : Store σ) (p : PlainStore) : List Command → Store σ × PlainStore
  | [] => (st, p)
  | command :: rest => (st.perform command).run (st.account p command) rest

def Admissible (st : Store σ) (p : PlainStore) : List Command → Prop
  | [] => True
  | command :: rest => p.Knows command.literals ∧
      (st.perform command).Admissible (st.account p command) rest

theorem perform_realizes (faithful : Faithful σ held) (realizes : st.Realizes held p)
    {command : Command} (knows : p.Knows command.literals) :
    (st.perform command).Realizes held (st.account p command) := by
  cases command with
  | addVariables count => exact addVariables_realizes faithful realizes count
  | newVariable => exact addVariables_realizes faithful realizes 1
  | addClause clause => exact addClause_realizes faithful realizes knows
  | addConstraint clause => exact (addConstraint_realizes faithful realizes knows).1
  | removeConstraint handle => exact (removeConstraint_realizes faithful realizes handle).1
  | solve assumptions => exact (solve_realizes faithful realizes knows).1

theorem run_realizes (faithful : Faithful σ held) (realizes : st.Realizes held p)
    {commands : List Command} (admissible : st.Admissible p commands) :
    (st.run p commands).1.Realizes held (st.run p commands).2 := by
  induction commands generalizing st p with
  | nil => exact realizes
  | cons command rest ih =>
    exact ih (perform_realizes faithful realizes admissible.1) admissible.2

/-- A store refines a plain store: after any calls about variables handed out, whatever additions
were refused and whatever searches failed, a search answers for the clauses that were accepted and
the constraints that were added and not taken back. -/
theorem refines_plain (faithful : Faithful σ held) {solver : σ} (fresh : held solver = [])
    {commands : List Command} (admissible : (empty solver).Admissible .empty commands)
    {assumptions : List Int}
    (knows : ((empty solver).run .empty commands).2.Knows assumptions) :
    Answers ((empty solver).run .empty commands).2 assumptions
      ((empty solver).run .empty commands).1
      (((empty solver).run .empty commands).1.solve assumptions).2
      (((empty solver).run .empty commands).1.solve assumptions).1 :=
  (solve_realizes faithful (run_realizes faithful (empty_realizes fresh) admissible) knows).2

end Store

/-- The exhaustive solver under a schedule of faults: which additions it refuses and which searches
are interrupted. -/
structure Faulty where
  solver : Exhaustive
  refusals : List Bool
  interruptions : List Bool

namespace Faulty

instance : Backend Faulty where
  reset faulty := { faulty with solver := ⟨[]⟩ }
  reserve faulty _ := faulty
  add faulty clause :=
    match faulty.refusals with
    | true :: rest => (false, { faulty with refusals := rest })
    | other => (true, { faulty with solver := ⟨clause :: faulty.solver.clauses⟩, refusals := other.tail })
  solve faulty assumptions :=
    match faulty.interruptions with
    | true :: rest => (.interrupted, { faulty with interruptions := rest })
    | other => ((Backend.solve faulty.solver assumptions).1, { faulty with interruptions := other.tail })

theorem faithful : Faithful Faulty (·.solver.clauses) where
  reset _ := rfl
  reserve _ _ := rfl
  accept faulty clause next added := by
    simp only [Backend.add] at added
    split at added
    · cases added
    · cases added
      exact Exhaustive.faithful.accept faulty.solver clause _ rfl
  refuse faulty clause next added := by
    simp only [Backend.add] at added
    split at added
    · cases added
      rfl
    · cases added
  keep faulty assumptions := by
    simp only [Backend.solve]
    split <;> rfl
  sat faulty assumptions model answer := by
    rw [Backend.solve] at answer
    simp only [instBackend] at answer
    split at answer
    · cases answer
    · exact Exhaustive.faithful.sat faulty.solver assumptions model answer
  unsat faulty assumptions core answer := by
    rw [Backend.solve] at answer
    simp only [instBackend] at answer
    split at answer
    · cases answer
    · exact Exhaustive.faithful.unsat faulty.solver assumptions core answer

/-- A solver that refuses the second, the fourth and the fifth addition and is interrupted in the first
search. -/
def sample : Faulty := ⟨⟨[]⟩, [false, true, false, true, true], [true]⟩

/-- Calls that meet all the faults: a refused clause, a refused constraint that uses the variable 4
up, a refused removal of the constraint 3, a stale handle and an interrupted search. -/
def calls : List Store.Command :=
  [.addVariables 2, .addClause [1, 2], .addClause [-2], .addConstraint [-1], .addConstraint [-2],
    .removeConstraint 3, .newVariable, .addConstraint [-1], .removeConstraint 3, .solve [5]]

end Faulty

theorem faulty_refines_plain :
    (Store.empty Faulty.sample).Admissible .empty Faulty.calls ∧
      ((Store.empty Faulty.sample).run .empty Faulty.calls).2 =
        ⟨[1, 2, 5], [[1, 2]], [(6, [-1])]⟩ ∧
      Store.Answers ⟨[1, 2, 5], [[1, 2]], [(6, [-1])]⟩ [-2, 5]
        ((Store.empty Faulty.sample).run .empty Faulty.calls).1
        (((Store.empty Faulty.sample).run .empty Faulty.calls).1.solve [-2, 5]).2
        (((Store.empty Faulty.sample).run .empty Faulty.calls).1.solve [-2, 5]).1 := by
  have admissible : (Store.empty Faulty.sample).Admissible .empty Faulty.calls := by
    simp only [Faulty.calls, Store.Admissible]
    decide
  have reached : ((Store.empty Faulty.sample).run .empty Faulty.calls).2 =
      ⟨[1, 2, 5], [[1, 2]], [(6, [-1])]⟩ := by decide
  have knows : ((Store.empty Faulty.sample).run .empty Faulty.calls).2.Knows [-2, 5] := by
    rw [reached]
    decide
  refine ⟨admissible, reached, ?_⟩
  rw [← reached]
  exact Store.refines_plain Faulty.faithful rfl admissible knows

end ModelFinder
