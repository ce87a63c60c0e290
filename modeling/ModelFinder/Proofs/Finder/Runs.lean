import Mathlib.Data.List.Perm.Subperm
import ModelFinder.Finder.Enumeration
import ModelFinder.Finder.Minimal
import ModelFinder.Proofs.Data.Bounds

/-! Runs of an enumeration: what a caller asks in which order, and what the answers to the calls for
a solution have to be. Models come one by one, each minimal and none twice; the end comes when every
minimal model has come, and nothing comes after it. -/
namespace ModelFinder

def Instance.SameOn (b : Bounds) (m other : Instance) : Prop :=
  PartOf b m other ∧ PartOf b other m

structure Formula.MinimalModels (f : Formula) (b : Bounds) (models : List Instance) : Prop where
  minimal : ∀ m ∈ models, f.IsMinimalModel b m
  different : models.Pairwise fun m other => ¬ Instance.SameOn b m other
  complete : ∀ m, f.IsMinimalModel b m → ∃ d ∈ models, Instance.SameOn b d m

inductive Request where
  | next
  | lifters
  | abort (raised : Bool)

structure Call (σ : Type) where
  before : Enumeration σ
  answer : Except Error Solution
  after : Enumeration σ

variable {σ : Type}

namespace Call

def outcome? (call : Call σ) : Option Outcome := call.answer.toOption.map Solution.outcome

def model? (call : Call σ) : Option Instance := call.answer.toOption.bind Solution.model?

end Call

def delivered (calls : List (Call σ)) : List Instance := calls.filterMap Call.model?

def outcomes (calls : List (Call σ)) : List Outcome := calls.filterMap Call.outcome?

namespace Enumeration

def solver (e : Enumeration σ) : σ :=
  match e.phase with
  | .live s _ _ => s.store.backend
  | _ => e.backend

def serve [Backend σ] (e : Enumeration σ) : List Request → List (Call σ)
  | [] => []
  | .next :: rest => ⟨e, e.next.1, e.next.2⟩ :: e.next.2.serve rest
  | .lifters :: rest => e.lifters.2.serve rest
  | .abort raised :: rest => (e.setAborted raised).serve rest

end Enumeration

/-- A call was aborted: the flag was up, or the solver was interrupted during the call. -/
def Call.Aborted (interruptions : σ → Nat) (call : Call σ) : Prop :=
  call.before.options.aborted = true ∨
    interruptions call.before.solver < interruptions call.after.solver

instance (interruptions : σ → Nat) (call : Call σ) : Decidable (call.Aborted interruptions) :=
  inferInstanceAs (Decidable (_ ∨ _))

/-- The answers to calls for a solution enumerate the minimal models of a formula within bounds. -/
structure Enumerates (f : Formula) (b : Bounds) (interruptions : σ → Nat) (calls : List (Call σ)) :
    Prop where
  answered : ∀ earlier call later, calls = earlier ++ call :: later →
    Outcome.unsatisfiable ∉ outcomes earlier → call.before.hasNext = true ∧
      (call.outcome? = some .satisfiable ∨ call.outcome? = some .unsatisfiable ∨
        call.Aborted interruptions ∧ call.answer = .error .aborted)
  minimal : ∀ m ∈ delivered calls, f.IsMinimalModel b m
  different : (delivered calls).Pairwise fun m other => ¬ Instance.SameOn b m other
  ended : ∀ earlier call later, calls = earlier ++ call :: later →
    call.outcome? = some .unsatisfiable → f.MinimalModels b (delivered earlier) ∧
      call.after.hasNext = false ∧
      ∀ other ∈ later, other.before.hasNext = false ∧ other.answer = .error .exhausted ∧
        other.after.hasNext = false
  exact : ∀ models, f.MinimalModels b models →
    models.length < calls.countP (¬ Call.Aborted interruptions ·) →
      (outcomes calls).count .satisfiable = models.length ∧
        (outcomes calls).count .unsatisfiable = 1

variable {f : Formula} {b : Bounds} {interruptions : σ → Nat} {models : List Instance}
  {calls : List (Call σ)}

theorem Instance.SameOn.symm {m other : Instance} (same : SameOn b m other) : SameOn b other m :=
  And.symm same

theorem Instance.PartOf.trans {m n o : Instance} (first : PartOf b m n) (second : PartOf b n o)
    (within : n.Within b) : PartOf b m o := by
  intro r bound tuples larger isTuples isLarger
  obtain ⟨range, found⟩ := Option.isSome_iff_exists.mp ((Table.contains_iff r).mpr bound)
  obtain ⟨between, isBetween, -⟩ := within.2 r range found
  obtain ⟨univ, arity, part⟩ := TupleSet.le_iff.mp (first r bound _ _ isTuples isBetween)
  obtain ⟨univ', arity', part'⟩ := TupleSet.le_iff.mp (second r bound _ _ isBetween isLarger)
  exact TupleSet.le_iff.mpr ⟨univ.trans univ', arity.trans arity', fun i member => part' i (part i member)⟩

theorem Formula.MinimalModels.length_le (all : f.MinimalModels b models) {some : List Instance}
    (minimal : ∀ m ∈ some, f.IsMinimalModel b m)
    (different : some.Pairwise fun m other => ¬ Instance.SameOn b m other) :
    some.length ≤ models.length := by
  have : Nonempty Instance := ⟨.empty b.univ⟩
  choose! pick isPicked same using fun m member => all.complete m (minimal m member)
  have distinct : (some.map pick).Nodup := by
    apply List.pairwise_map.mpr
    apply different.imp_of_mem
    intro m other isMember isOther apart equal
    have first := (same m isMember).symm
    have second := same other isOther
    rw [← equal] at second
    have within := (all.minimal _ (isPicked m isMember)).1.1
    exact apart ⟨first.1.trans second.1 within, second.2.trans first.2 within⟩
  have known : some.map pick ⊆ models := by
    intro d member
    obtain ⟨m, isMember, rfl⟩ := List.mem_map.mp member
    exact isPicked m isMember
  have shorter := (List.subperm_of_subset distinct known).length_le
  rwa [List.length_map] at shorter

/-- The answers that calls may get one after the other, once the models have been delivered. -/
inductive Proceeds (f : Formula) (b : Bounds) (interruptions : σ → Nat) :
    List Instance → List (Call σ) → Prop where
  | idle {models : List Instance} : Proceeds f b interruptions models []
  | found {models : List Instance} {call : Call σ} {rest : List (Call σ)} {m : Instance}
      {stats : Statistics} (more : call.before.hasNext = true)
      (answer : call.answer = .ok (.sat m stats)) (minimal : f.IsMinimalModel b m)
      (new : ∀ d ∈ models, ¬ Instance.SameOn b d m)
      (further : Proceeds f b interruptions (models ++ [m]) rest) :
      Proceeds f b interruptions models (call :: rest)
  | aborted {models : List Instance} {call : Call σ} {rest : List (Call σ)}
      (more : call.before.hasNext = true) (answer : call.answer = .error .aborted)
      (stopped : call.Aborted interruptions) (further : Proceeds f b interruptions models rest) :
      Proceeds f b interruptions models (call :: rest)
  | ended {models : List Instance} {call : Call σ} {rest : List (Call σ)}
      {proof : Option Refutation} {stats : Statistics} (more : call.before.hasNext = true)
      (answer : call.answer = .ok (.unsat proof stats))
      (complete : ∀ m, f.IsMinimalModel b m → ∃ d ∈ models, Instance.SameOn b d m)
      (after : call.after.hasNext = false)
      (finished : ∀ other ∈ rest, other.before.hasNext = false ∧ other.answer = .error .exhausted ∧
        other.after.hasNext = false) :
      Proceeds f b interruptions models (call :: rest)

theorem cons_ok {call : Call σ} {solution : Solution} (answer : call.answer = .ok solution)
    (rest : List (Call σ)) :
    delivered (call :: rest) = solution.model?.toList ++ delivered rest ∧
      outcomes (call :: rest) = solution.outcome :: outcomes rest := by
  have model : call.model? = solution.model? := by rw [Call.model?, answer]; rfl
  have outcome : call.outcome? = some solution.outcome := by rw [Call.outcome?, answer]; rfl
  rw [delivered, outcomes, List.filterMap_cons_some outcome, List.filterMap_cons, model]
  exact ⟨by cases solution.model? <;> rfl, rfl⟩

theorem cons_error {call : Call σ} {error : Error} (answer : call.answer = .error error)
    (rest : List (Call σ)) :
    delivered (call :: rest) = delivered rest ∧ outcomes (call :: rest) = outcomes rest := by
  have model : call.model? = none := by rw [Call.model?, answer]; rfl
  have outcome : call.outcome? = none := by rw [Call.outcome?, answer]; rfl
  exact ⟨List.filterMap_cons_none model, List.filterMap_cons_none outcome⟩

theorem over_silent (finished : ∀ call ∈ calls, call.answer = .error .exhausted) :
    delivered calls = [] ∧ outcomes calls = [] := by
  constructor
  · apply List.filterMap_eq_nil_iff.mpr
    intro call member
    rw [Call.model?, finished call member]
    rfl
  · apply List.filterMap_eq_nil_iff.mpr
    intro call member
    rw [Call.outcome?, finished call member]
    rfl

namespace Proceeds

variable {earlier rest : List (Call σ)}

theorem after (proceeds : Proceeds f b interruptions models (earlier ++ rest)) :
    Proceeds f b interruptions (models ++ delivered earlier) rest ∨
      Outcome.unsatisfiable ∈ outcomes earlier ∧ ∀ other ∈ rest, other.before.hasNext = false ∧
        other.answer = .error .exhausted ∧ other.after.hasNext = false := by
  induction earlier generalizing models with
  | nil =>
    rw [show delivered ([] : List (Call σ)) = [] from rfl, List.append_nil]
    exact .inl proceeds
  | cons call earlier ih =>
    cases proceeds with
    | found more answer minimal new further =>
      rw [(cons_ok answer earlier).1, (cons_ok answer earlier).2, ← List.append_assoc]
      exact (ih further).imp_right (And.imp_left (List.mem_cons_of_mem _))
    | aborted more answer stopped further =>
      rw [(cons_error answer earlier).1, (cons_error answer earlier).2]
      exact ih further
    | ended more answer complete closed finished =>
      rw [(cons_ok answer earlier).2]
      refine .inr ⟨List.mem_cons_self, fun other member => ?_⟩
      exact finished other (List.mem_append_right _ member)

theorem minimal_different (proceeds : Proceeds f b interruptions models calls)
    (minimal : ∀ m ∈ models, f.IsMinimalModel b m)
    (different : models.Pairwise fun m other => ¬ Instance.SameOn b m other) :
    (∀ m ∈ models ++ delivered calls, f.IsMinimalModel b m) ∧
      (models ++ delivered calls).Pairwise fun m other => ¬ Instance.SameOn b m other := by
  induction proceeds with
  | idle =>
    rw [show delivered ([] : List (Call σ)) = [] from rfl, List.append_nil]
    exact ⟨minimal, different⟩
  | @found models call rest m stats _ answer isMinimal new _ ih =>
    rw [(cons_ok answer rest).1, ← List.append_assoc]
    apply ih
    · intro other member
      rcases List.mem_append.mp member with old | isNew
      · exact minimal other old
      · rw [List.mem_singleton.mp isNew]
        exact isMinimal
    · apply List.pairwise_append.mpr
      refine ⟨different, List.pairwise_singleton _ _, fun d old other isNew => ?_⟩
      rw [List.mem_singleton.mp isNew]
      exact new d old
  | @aborted models call rest _ answer _ _ ih =>
    rw [(cons_error answer rest).1]
    exact ih minimal different
  | @ended models call rest proof stats _ answer _ _ finished =>
    have silent := (over_silent fun call member => (finished call member).2.1).1
    rw [(cons_ok answer rest).1, silent]
    simp only [Solution.model?, Option.toList_none, List.append_nil]
    exact ⟨minimal, different⟩

/-- The models are the satisfiable outcomes. Until the end every call that is not aborted delivers
one; the end comes once, with every minimal model delivered. -/
theorem counts (proceeds : Proceeds f b interruptions models calls) :
    (outcomes calls).count .satisfiable = (delivered calls).length ∧
      ((outcomes calls).count .unsatisfiable = 0 ∧
          calls.countP (¬ Call.Aborted interruptions ·) ≤ (delivered calls).length ∨
        (outcomes calls).count .unsatisfiable = 1 ∧
          ∀ m, f.IsMinimalModel b m → ∃ d ∈ models ++ delivered calls, Instance.SameOn b d m) := by
  induction proceeds with
  | idle => exact ⟨rfl, .inl ⟨rfl, Nat.le_refl 0⟩⟩
  | @found models call rest m stats _ answer _ _ _ ih =>
    obtain ⟨sat, outcome⟩ := ih
    rw [(cons_ok answer rest).1, (cons_ok answer rest).2, ← List.append_assoc]
    simp only [Solution.outcome, Solution.model?, Option.toList_some]
    rw [List.count_cons_self, List.count_cons_of_ne (by decide), List.countP_cons,
      List.length_append, sat]
    refine ⟨Nat.add_comm _ _, outcome.imp (And.imp_right fun few => ?_) id⟩
    rw [List.length_singleton, Nat.add_comm 1]
    exact Nat.add_le_add few (by split <;> decide)
  | @aborted models call rest _ answer stopped _ ih =>
    rw [(cons_error answer rest).1, (cons_error answer rest).2,
      List.countP_cons_of_neg (by simpa using stopped)]
    exact ih
  | @ended models call rest proof stats _ answer complete _ finished =>
    obtain ⟨nothing, silent⟩ := over_silent fun call member => (finished call member).2.1
    rw [(cons_ok answer rest).1, (cons_ok answer rest).2, nothing, silent]
    refine ⟨rfl, .inr ⟨rfl, fun m minimal => ?_⟩⟩
    obtain ⟨d, member, same⟩ := complete m minimal
    exact ⟨d, List.mem_append_left _ member, same⟩

theorem enumerates (proceeds : Proceeds f b interruptions [] calls) :
    Enumerates f b interruptions calls := by
  obtain ⟨minimal, different⟩ := proceeds.minimal_different (by simp) List.Pairwise.nil
  obtain ⟨sat, outcome⟩ := proceeds.counts
  refine ⟨?_, minimal, different, ?_, ?_⟩
  · rintro earlier call later rfl running
    rcases proceeds.after with further | finished
    · cases further with
      | found more answer => exact ⟨more, .inl (by rw [Call.outcome?, answer]; rfl)⟩
      | aborted more answer stopped => exact ⟨more, .inr (.inr ⟨stopped, answer⟩)⟩
      | ended more answer => exact ⟨more, .inr (.inl (by rw [Call.outcome?, answer]; rfl))⟩
    · exact absurd finished.1 running
  · rintro earlier call later rfl isEnd
    rcases proceeds.after with further | finished
    · cases further with
      | found more answer =>
        rw [Call.outcome?, answer] at isEnd
        cases isEnd
      | aborted more answer =>
        rw [Call.outcome?, answer] at isEnd
        cases isEnd
      | ended more answer complete closed finished =>
        have part : (delivered earlier).Sublist (delivered (earlier ++ call :: later)) :=
          (List.sublist_append_left earlier _).filterMap _
        refine ⟨⟨fun m member => minimal m (part.subset member), different.sublist part, complete⟩,
          closed, finished⟩
    · rw [Call.outcome?, (finished.2 call List.mem_cons_self).2.1] at isEnd
      cases isEnd
  · intro models all enough
    have few := all.length_le minimal different
    rcases outcome with ⟨-, most⟩ | ⟨once, complete⟩
    · exact absurd most (by simp only [List.nil_append] at few; omega)
    · have reached : f.MinimalModels b (delivered calls) := ⟨minimal, different, complete⟩
      have many := reached.length_le all.minimal all.different
      exact ⟨by rw [sat]; exact Nat.le_antisymm few many, once⟩

end Proceeds

end ModelFinder
