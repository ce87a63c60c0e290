import ModelFinder.Proofs.Circuit.Multiplicity
import ModelFinder.Proofs.Encoding.Expressions

/-! Unfolding a quantifier over the tuples that its domains may have gives its truth. Every choice of
tuples contributes a value under the guard that the tuples are members; a contribution that decides
the quantifier whatever the others are makes the rest superfluous, so stopping there loses nothing. -/
namespace ModelFinder

namespace Quantifier

def gathers (q : Quantifier) (c : Circuit) (s : Nat → Bool) (values : List Value) : Prop :=
  match q with
  | .all => ∀ v ∈ values, v.eval c s = true
  | .some => ∃ v ∈ values, v.eval c s = true

def under (q : Quantifier) (guard p : Prop) : Prop :=
  match q with
  | .all => guard → p
  | .some => guard ∧ p

def also (q : Quantifier) (p r : Prop) : Prop :=
  match q with
  | .all => p ∧ r
  | .some => p ∨ r

def Decided (q : Quantifier) (p : Prop) : Prop :=
  match q with
  | .all => ¬ p
  | .some => p

def across {α : Type} (q : Quantifier) (items : List α) (p : α → Prop) : Prop :=
  match q with
  | .all => ∀ a ∈ items, p a
  | .some => ∃ a ∈ items, p a

/-- Contributions that add a statement to those before, and whether they decide the quantifier. -/
structure Gathered (q : Quantifier) (c d : Circuit) (s : Nat → Bool) (p : Prop)
    (before : Array Value) (after : Array Value × Bool) : Prop where
  inside : ∀ v ∈ after.1.toList, v.In d
  gathers : q.gathers d s after.1.toList ↔ q.also (q.gathers c s before.toList) p
  decided : after.2 = true → q.Decided p

variable {q : Quantifier} {c d : Circuit} {s : Nat → Bool}

theorem gathers_of_le {values : List Value} (grown : c ≤ d) (inside : ∀ v ∈ values, v.In c) :
    q.gathers d s values ↔ q.gathers c s values := by
  have same : ∀ v ∈ values, v.eval d s = v.eval c s := fun v member =>
    Value.eval_of_le grown (inside v member)
  cases q with
  | all => exact forall₂_congr fun v member => by rw [same v member]
  | some => exact exists_congr fun v => and_congr_right fun member => by rw [same v member]

theorem gathers_push {values : Array Value} {v : Value} {p : Prop} (meant : v.Means c s p) :
    q.gathers c s (values.push v).toList ↔ q.also (q.gathers c s values.toList) p := by
  cases q with
  | all => simp [gathers, also, or_imp, forall_and, meant.2]
  | some => simp [gathers, also, or_and_right, exists_or, meant.2]

/-- A statement that decides the quantifier decides it for every list it is in. -/
theorem Decided.across {α : Type} {items : List α} {p : α → Prop} {a : α} (decided : q.Decided (p a))
    (member : a ∈ items) : q.Decided (q.across items p) := by
  cases q with
  | all => exact fun all => decided (all a member)
  | some => exact ⟨a, member, decided⟩

/-- A statement under a guard decides the quantifier only if the guard holds. -/
theorem Decided.guard {g p : Prop} (decided : q.Decided (q.under g p)) : g := by
  cases q with
  | all => exact by_contra fun isFalse => decided fun holds => absurd holds isFalse
  | some => exact decided.1

/-- What decides a quantifier makes no difference to what is said besides. -/
theorem Decided.also {p r t : Prop} (one : q.Decided p) (other : q.Decided r) :
    q.also t p ↔ q.also t r := by
  cases q with
  | all => exact ⟨fun h => absurd h.2 one, fun h => absurd h.2 other⟩
  | some => exact ⟨fun _ => .inr other, fun _ => .inr one⟩

theorem also_over {α : Type} {items : List α} {p : α → Prop} {a : α} {t : Prop} :
    q.also (q.also t (p a)) (q.across items p) ↔ q.also t (q.across (a :: items) p) := by
  cases q with
  | all => simp [also, across, and_assoc]
  | some => simp [also, across, or_assoc]

theorem guarded_ensures {guard value : Value} {g p : Prop} (sound : c.Sound)
    (guarded : guard.Means c s g) (meant : value.Means c s p) :
    Build.Ensures (liftM (q.guarded guard value)) c fun v d => v.Means d s (q.under g p) := by
  cases q with
  | all => exact Circuit.implies_ensures sound guarded meant
  | some => exact Circuit.and_ensures sound guarded meant

@[simp] theorem grows_guarded (q : Quantifier) (guard value : Value) :
    Build.Grows (liftM (q.guarded guard value)) := by
  cases q <;> simp [guarded]

theorem collect_ensures {values : List Value} (sound : c.Sound) (inside : ∀ v ∈ values, v.In c) :
    Build.Ensures (liftM (q.collect values)) c fun v d => v.Means d s (q.gathers c s values) := by
  cases q with
  | all => exact Circuit.all_ensures s sound inside
  | some => exact Circuit.any_ensures s sound inside

@[simp] theorem grows_collect (q : Quantifier) (values : List Value) :
    Build.Grows (liftM (q.collect values)) := by
  cases q <;> simp [collect]

theorem decisive_decided {v : Value} {p : Prop} (meant : v.Means c s p) (same : v = q.decisive) :
    q.Decided p := by
  subst same
  cases q with
  | all =>
    intro holds
    have := meant.2.mpr holds
    cases this
  | some => exact meant.2.mp rfl

end Quantifier

theorem grows_visitUntil {α β : Type} {step : α → β → Build (β × Bool)} (items : List α) (acc : β)
    (each : ∀ a acc, Build.Grows (step a acc)) : Build.Grows (visitUntil step items acc) := by
  induction items generalizing acc with
  | nil => simp [visitUntil]
  | cons item items ih =>
    refine Build.grows_bind (each item acc) fun result => ?_
    dsimp only
    split
    · simp
    · exact ih _

/-- Visits until one decides gather what visits to all items would. -/
theorem visitUntil_ensures {α : Type} (q : Quantifier) (s : Nat → Bool)
    {step : α → Array Value → Build (Array Value × Bool)} {items : List α} (p : α → Prop)
    {c : Circuit} {acc : Array Value} (sound : c.Sound) (grows : ∀ a acc, Build.Grows (step a acc))
    (inside : ∀ v ∈ acc.toList, v.In c)
    (each : ∀ a ∈ items, ∀ d acc, c ≤ d → d.Sound → (∀ v ∈ acc.toList, v.In d) →
      Build.Ensures (step a acc) d fun after e => q.Gathered d e s (p a) acc after) :
    Build.Ensures (visitUntil step items acc) c fun after d =>
      q.Gathered c d s (q.across items p) acc after := by
  induction items generalizing c acc with
  | nil =>
    refine Build.ensures_pure sound ⟨inside, ?_, by simp⟩
    cases q with
    | all => simp [Quantifier.also, Quantifier.across]
    | some => simp [Quantifier.also, Quantifier.across]
  | cons item items ih =>
    unfold visitUntil
    refine Build.Ensures.bind (each item List.mem_cons_self c acc le_rfl sound inside)
      (grows item acc) (fun result => ?_) ?_
    · dsimp only
      split
      · simp
      · exact grows_visitUntil items _ grows
    rintro ⟨next, done⟩ d grown reached here
    cases done with
    | true =>
      have decided := here.decided rfl
      have whole := decided.across (List.mem_cons_self (l := items))
      refine Build.ensures_pure reached ⟨here.inside, ?_, fun _ => whole⟩
      exact here.gathers.trans (decided.also whole)
    | false =>
      refine (ih reached here.inside fun a member e acc further =>
        each a (List.mem_cons_of_mem item member) e acc (grown.trans further)).imp ?_
      intro after e _ there
      refine ⟨there.inside, ?_, fun stopped => ?_⟩
      · rw [there.gathers, ← Quantifier.also_over]
        cases q with
        | all => exact and_congr_left' here.gathers
        | some => exact or_congr_left here.gathers
      · have decided := there.decided stopped
        cases q with
        | all => exact fun all => decided fun a member => all a (List.mem_cons_of_mem item member)
        | some =>
          obtain ⟨a, member, holds⟩ := decided
          exact ⟨a, List.mem_cons_of_mem item member, holds⟩

theorem Decl.checkAll_eq_ok {decls : List Decl} (ok : Decl.checkAll decls = .ok ()) :
    ∀ d ∈ decls, d.var.arity = d.domain.arity := by
  induction decls with
  | nil => simp
  | cons d rest ih =>
    unfold checkAll at ok
    split at ok
    · cases ok
    · split at ok
      · cases ok
      · rename_i fits
        intro e member
        rcases List.mem_cons.mp member with rfl | inRest
        · exact Decidable.not_not.mp fits
        · exact ih ok e inRest

namespace Quantifier

variable {q : Quantifier} {c d e : Circuit} {s : Nat → Bool} {p r : Prop} {before : Array Value}
  {after : Array Value × Bool}

theorem Gathered.congr (gathered : q.Gathered c d s p before after) (same : p ↔ r) :
    q.Gathered c d s r before after := by
  rwa [← propext same]

theorem Gathered.of_le (gathered : q.Gathered d e s p before after) (grown : c ≤ d)
    (inside : ∀ v ∈ before.toList, v.In c) : q.Gathered c e s p before after := by
  refine ⟨gathered.inside, ?_, gathered.decided⟩
  rw [gathered.gathers, propext (gathers_of_le grown inside)]

/-- The choices at the cells of a domain are those of its tuples. -/
theorem over_cells {m : Matrix} {n k : Nat} {tuples : List Nat → Prop} {g : Prop}
    (meant : m.Denotes n k c s tuples) (positive : 0 < n) (holds : List Nat → Prop) :
    q.across m.cells.entries (fun cell =>
        q.under (g ∧ cell.2.eval c s = true) (holds (decodeIndex n k cell.1))) ↔
      q.under g (match q with
        | .all => ∀ t, tuples t → holds t
        | .some => ∃ t, tuples t ∧ holds t) := by
  have at_tuple : ∀ t, tuples t → ∃ v, (encodeIndex n t, v) ∈ m.cells.entries ∧
      v.eval c s = true ∧ decodeIndex n k (encodeIndex n t) = t := by
    intro t member
    obtain ⟨length, inside⟩ := meant.fits member
    obtain ⟨v, stored, isTrue⟩ := (Matrix.holdsAt_iff meant.formed).mp
      ((meant.holdsAt length inside).mpr member)
    exact ⟨v, stored, isTrue, by rw [← length]; exact decodeIndex_encodeIndex n t inside⟩
  have at_cell : ∀ index v, (index, v) ∈ m.cells.entries → v.eval c s = true →
      tuples (decodeIndex n k index) := by
    intro index v stored isTrue
    have bound := meant.capacity ▸ meant.formed.lt stored
    rw [← meant.holdsAt (length_decodeIndex n k index) (decodeIndex_lt positive k index),
      encodeIndex_decodeIndex n k index bound]
    exact (Matrix.holdsAt_iff meant.formed).mpr ⟨v, stored, isTrue⟩
  cases q with
  | all =>
    constructor
    · intro all guard t member
      obtain ⟨v, stored, isTrue, same⟩ := at_tuple t member
      have here := all _ stored ⟨guard, isTrue⟩
      rwa [same] at here
    · rintro all ⟨index, v⟩ stored ⟨guard, isTrue⟩
      exact all guard _ (at_cell index v stored isTrue)
  | some =>
    constructor
    · rintro ⟨⟨index, v⟩, stored, ⟨guard, isTrue⟩, here⟩
      exact ⟨guard, _, at_cell index v stored isTrue, here⟩
    · rintro ⟨guard, t, member, here⟩
      obtain ⟨v, stored, isTrue, same⟩ := at_tuple t member
      exact ⟨_, stored, ⟨guard, isTrue⟩, by rwa [same]⟩

/-- A choice is made under the guard that its tuple is a member. -/
theorem choice_ensures {choice : Value → Build (Array Value × Bool)} {guard member : Value}
    {g isIn : Prop} (sound : c.Sound) (guarded : guard.Means c s g) (meant : member.Means c s isIn)
    (inside : ∀ v ∈ before.toList, v.In c) (grows : ∀ both, Build.Grows (choice both))
    (chosen : ∀ both d, c ≤ d → d.Sound → both.Means d s (g ∧ isIn) → (∀ v ∈ before.toList, v.In d) →
      Build.Ensures (choice both) d fun after e => q.Gathered d e s p before after) :
    Build.Ensures (liftM (Circuit.and guard member) >>= choice) c fun after e =>
      q.Gathered c e s p before after := by
  refine Build.Ensures.bind (Circuit.and_ensures sound guarded meant) (by simp) grows ?_
  intro both d more final met
  refine (chosen both d more final met fun v old => (inside v old).of_le more).imp ?_
  exact fun after e _ gathered => gathered.of_le more inside

end Quantifier

section Unfold

variable {leaves : Leaves} {q : Quantifier} {body : Scope → Build Value} {decls : List Decl}

theorem grows_unfoldDecls (grows : ∀ scope, Build.Grows (body scope)) (scope : Scope)
    (guard : Value) (acc : Array Value) :
    Build.Grows (unfoldDecls leaves q body decls scope guard acc) := by
  induction decls generalizing scope guard acc with
  | nil =>
    refine Build.grows_bind (grows scope) fun value => ?_
    exact Build.grows_bind (Quantifier.grows_guarded q guard value) fun _ => by simp
  | cons d rest ih =>
    refine Build.grows_bind (Expr.grows_ground leaves scope d.domain) fun domain => ?_
    refine grows_visitUntil _ _ fun cell acc => ?_
    exact Build.grows_bind (by simp) fun guard => ih _ guard acc

theorem grows_choice (grows : ∀ scope, Build.Grows (body scope)) (scope : Scope)
    (guard member : Value) (acc : Array Value) :
    Build.Grows
      (liftM (Circuit.and guard member) >>= (unfoldDecls leaves q body decls scope · acc)) :=
  Build.grows_bind (Circuit.grows_and guard member) fun both => grows_unfoldDecls grows scope both acc

/-- What a declared variable is bound to at a cell of its domain denotes the tuple of the cell. -/
theorem Matrix.Denotes.chosen {m : Matrix} {n : Nat} {decl : Decl} {c d : Circuit}
    {s s' : Nat → Bool} {tuples : List Nat → Prop} {cell : Nat × Value}
    (denotes : m.Denotes n decl.domain.arity c s tuples)
    (fits : decl.var.arity = decl.domain.arity) (positive : 0 < n)
    (stored : cell ∈ m.cells.entries) :
    (Matrix.ofIndices m.dims [cell.1]).Denotes n decl.var.arity d s'
      (· = decodeIndex n decl.domain.arity cell.1) := by
  rw [fits]
  exact denotes.singleton positive stored

variable {c d : Circuit} {s : Nat → Bool} {i : Interpretation} {ρ : Assignment}
  {holds : Assignment → Prop} {scope : Scope} {guard member : Value} {acc : Array Value}
  {result : Array Value × Bool} {g p : Prop}

/-- Unfolded declarations gather the truth of the quantified formula. -/
theorem unfoldDecls_ensures (proper : leaves.Proper) (agrees : leaves.Agrees s i)
    (sorted : ∀ d ∈ decls, d.domain.WellSorted)
    (fitting : ∀ d ∈ decls, d.var.arity = d.domain.arity)
    (grows : ∀ scope, Build.Grows (body scope))
    (meant : ∀ c scope ρ, c.Sound → scope.Agrees i.size c s ρ →
      Build.Ensures (body scope) c fun v d => v.Means d s (holds ρ))
    (sound : c.Sound) (inScope : scope.Agrees i.size c s ρ) (guarded : guard.Means c s g)
    (inside : ∀ v ∈ acc.toList, v.In c) :
    Build.Ensures (unfoldDecls leaves q body decls scope guard acc) c fun after d =>
      q.Gathered c d s (q.under g (q.holds i holds decls ρ)) acc after := by
  induction decls generalizing c scope guard acc g ρ with
  | nil =>
    refine Build.Ensures.bind (meant c scope ρ sound inScope) (grows scope)
      (fun value => Build.grows_bind (Quantifier.grows_guarded q guard value) fun _ => by simp) ?_
    intro value d grown reached here
    refine Build.Ensures.bind (Quantifier.guarded_ensures reached (guarded.of_le grown) here)
      (Quantifier.grows_guarded q guard value) (fun _ => by simp) ?_
    intro contribution e further final there
    have older := grown.trans further
    refine Build.ensures_pure final ⟨?_, ?_, fun same => ?_⟩
    · intro v member
      rcases List.mem_append.mp (by simpa using member : v ∈ acc.toList ++ [contribution])
        with old | new
      · exact (inside v old).of_le older
      · exact List.mem_singleton.mp new ▸ there.1
    · rw [Quantifier.gathers_push there, propext (Quantifier.gathers_of_le older inside)]
      rfl
    · exact Quantifier.decisive_decided there (of_decide_eq_true same)
  | cons decl rest ih =>
    obtain ⟨isSorted, restSorted⟩ := List.forall_mem_cons.mp sorted
    obtain ⟨isFitting, restFitting⟩ := List.forall_mem_cons.mp fitting
    have behind : ∀ (domain : Matrix) (cell : Nat × Value) (acc : Array Value), Build.Grows
        (liftM (Circuit.and guard cell.2) >>= fun both => unfoldDecls leaves q body rest
          (scope.push decl.var (.ofIndices domain.dims [cell.1])) both acc) :=
      fun domain cell acc => grows_choice grows _ guard cell.2 acc
    refine Build.Ensures.bind (Expr.ground_ensures proper agrees isSorted sound inScope)
      (Expr.grows_ground leaves scope decl.domain)
      (fun domain => grows_visitUntil _ _ (behind domain)) ?_
    intro domain d grown reached denotes
    refine (visitUntil_ensures q s (fun cell : Nat × Value =>
        q.under (g ∧ cell.2.eval d s = true)
          (q.holds i holds rest (ρ.bind decl.var (decodeIndex i.size decl.domain.arity cell.1))))
      reached (behind domain) (fun v member => (inside v member).of_le grown) ?_).imp
      fun after e _ gathered => ?_
    · intro cell stored e acc further sound inside
      have isMember : cell.2.Means e s (cell.2.eval d s = true) :=
        (Value.means_eval (denotes.formed.inside stored)).of_le further
      have older := grown.trans further
      refine Quantifier.choice_ensures sound (guarded.of_le older) isMember inside
        (fun _ => grows_unfoldDecls grows _ _ acc) fun both f more final met inside => ?_
      exact ih restSorted restFitting final ((inScope.of_le (older.trans more)).push
        (denotes.chosen isFitting agrees.size_pos stored)) met inside
    · refine (gathered.of_le grown inside).congr ?_
      rw [Quantifier.over_cells denotes agrees.size_pos
        (fun t => q.holds i holds rest (ρ.bind decl.var t))]
      cases q <;> rfl

/-- A choice gathers what is behind it, under the guard that its tuple is a member as well. -/
theorem choice_gathers (proper : leaves.Proper) (agrees : leaves.Agrees s i)
    (sorted : ∀ d ∈ decls, d.domain.WellSorted)
    (fitting : ∀ d ∈ decls, d.var.arity = d.domain.arity)
    (grows : ∀ scope, Build.Grows (body scope))
    (meant : ∀ c scope ρ, c.Sound → scope.Agrees i.size c s ρ →
      Build.Ensures (body scope) c fun v d => v.Means d s (holds ρ))
    (sound : c.Sound) (inScope : scope.Agrees i.size c s ρ) (guarded : guard.Means c s g)
    (isIn : member.Means c s p) (inside : ∀ v ∈ acc.toList, v.In c) :
    Build.Ensures
      (liftM (Circuit.and guard member) >>= (unfoldDecls leaves q body decls scope · acc)) c
      fun after d =>
        q.Gathered c d s (q.under (g ∧ p) (q.holds i holds decls ρ)) acc after := by
  refine Quantifier.choice_ensures sound guarded isIn inside
    (fun both => grows_unfoldDecls grows scope both acc) fun both d more final met older => ?_
  exact unfoldDecls_ensures proper agrees sorted fitting grows meant final (inScope.of_le more) met
    older

/-- A choice that was made went on from a sound circuit, under the guard that its tuple is a member as
well. -/
theorem choice_goesOn (grows : ∀ scope, Build.Grows (body scope)) (sound : c.Sound)
    (guarded : guard.Means c s g) (isIn : member.Means c s p)
    (run : (liftM (Circuit.and guard member) >>= (unfoldDecls leaves q body decls scope · acc)) c =
      .ok (result, d)) (labelled : d.Labelled) :
    ∃ both e, c ≤ e ∧ e.Sound ∧ both.Means e s (g ∧ p) ∧
      unfoldDecls leaves q body decls scope both acc e = .ok (result, d) := by
  obtain ⟨both, e, anded, unfolded⟩ := Build.bind_run.mp run
  have final : e.Labelled := labelled.of_le (grows_unfoldDecls grows scope both acc _ _ _ unfolded)
  obtain ⟨isFormed, met⟩ := Circuit.and_ensures sound guarded isIn _ _ anded final
  exact ⟨both, e, Circuit.grows_and _ _ _ _ _ anded, ⟨isFormed, final⟩, met, unfolded⟩

end Unfold

end ModelFinder
