import ModelFinder.Proofs.Circuit.Growth
import ModelFinder.Proofs.Success

/-! What computations on circuits achieve. Two facts are kept apart: a computation only adds gates
(`Build.Grows`), whatever the circuit is like, and from a sound circuit it reaches a sound one and a
result with some property (`Build.Ensures`), provided that it has not run out of labels at its end.
Growth passes that proviso on to the circuits on the way. -/
namespace ModelFinder

structure Circuit.Sound (c : Circuit) : Prop where
  formed : c.WellFormed
  labelled : c.Labelled

namespace Build

variable {α β : Type} {c d : Circuit}

def Grows (action : Build α) : Prop := ∀ c a d, action c = .ok (a, d) → c ≤ d

/-- Started in `c`, the computation leaves a well-formed circuit and a result with the property,
unless it fails or runs out of labels. -/
def Ensures (action : Build α) (c : Circuit) (post : α → Circuit → Prop) : Prop :=
  ∀ a d, action c = .ok (a, d) → d.Labelled → d.WellFormed ∧ post a d

theorem bind_run {first : Build α} {next : α → Build β} {b : β} :
    (first >>= next) c = .ok (b, d) ↔
      ∃ a between, first c = .ok (a, between) ∧ next a between = .ok (b, d) := by
  rw [show (first >>= next) c = (first c >>= fun (a, between) => next a between) from rfl,
    bind_eq_ok]
  simp

@[simp] theorem pure_run {a : α} : (pure a : Build α) c = .ok (a, c) := rfl

@[simp] theorem lift_run {result : Except Error α} :
    (liftM result : Build α) c = result.map (·, c) := by
  cases result <;> rfl

theorem lift_eq_ok {result : Except Error α} {a : α} :
    (liftM result : Build α) c = .ok (a, d) ↔ result = .ok a ∧ c = d := by
  cases result <;> simp [Except.map]

theorem mapM_lift_run (step : α → Except Error β) {items : List α} {results : List β} :
    (items.mapM fun a => (liftM (step a) : Build β)) c = .ok (results, d) ↔
      items.mapM step = .ok results ∧ c = d := by
  induction items generalizing c d results with
  | nil => simp only [List.mapM_nil, pure_run, pure_eq_ok, Except.ok.injEq, Prod.mk.injEq]
  | cons item items ih =>
    simp only [List.mapM_cons, bind_run, lift_eq_ok, bind_eq_ok, ih, pure_run, pure_eq_ok,
      Except.ok.injEq, Prod.mk.injEq]
    constructor
    · rintro ⟨result, _, ⟨here, rfl⟩, rest, _, ⟨there, rfl⟩, rfl, rfl⟩
      exact ⟨⟨result, here, rest, there, rfl⟩, rfl⟩
    · rintro ⟨⟨result, here, rest, there, rfl⟩, rfl⟩
      exact ⟨result, c, ⟨here, rfl⟩, rest, c, ⟨there, rfl⟩, rfl, rfl⟩

@[simp] theorem grows_pure (a : α) : Grows (pure a : Build α) := by
  intro c b d run
  cases run
  exact le_rfl

@[simp] theorem grows_throw (error : Error) : Grows (throw error : Build α) := by
  intro c b d run
  cases run

@[simp] theorem grows_lift (result : Except Error α) : Grows (liftM result : Build α) := by
  intro c a d run
  exact le_of_eq (lift_eq_ok.mp run).2

@[simp] theorem grows_bind {first : Build α} {next : α → Build β} (here : Grows first)
    (there : ∀ a, Grows (next a)) : Grows (first >>= next) := by
  intro c b d run
  obtain ⟨a, between, before, after⟩ := bind_run.mp run
  exact (here c a between before).trans (there a between b d after)

@[simp] theorem grows_map {first : Build α} (change : α → β) (here : Grows first) :
    Grows (change <$> first) := by
  rw [← bind_pure_comp]
  exact grows_bind here fun a => grows_pure _

@[simp] theorem grows_mapM {step : α → Build β} (items : List α) (each : ∀ a, Grows (step a)) :
    Grows (items.mapM step) := by
  induction items with
  | nil => simp
  | cons item items ih => simp [ih, each]

@[simp] theorem grows_foldlM {step : β → α → Build β} (items : List α) (start : β)
    (each : ∀ b a, Grows (step b a)) : Grows (items.foldlM step start) := by
  induction items generalizing start with
  | nil => simp
  | cons item items ih => simp [ih, each]

theorem Ensures.imp {action : Build α} {post weaker : α → Circuit → Prop}
    (ensured : Ensures action c post) (implied : ∀ a d, d.Sound → post a d → weaker a d) :
    Ensures action c weaker := by
  intro a d run labelled
  obtain ⟨formed, holds⟩ := ensured a d run labelled
  exact ⟨formed, implied a d ⟨formed, labelled⟩ holds⟩

theorem ensures_pure {a : α} {post : α → Circuit → Prop} (sound : c.Sound) (holds : post a c) :
    Ensures (pure a : Build α) c post := by
  intro b d run labelled
  cases run
  exact ⟨sound.formed, holds⟩

theorem ensures_throw {error : Error} {post : α → Circuit → Prop} :
    Ensures (throw error : Build α) c post := by
  intro b d run labelled
  cases run

theorem ensures_lift (post : α → Circuit → Prop) {result : Except Error α} (sound : c.Sound)
    (holds : ∀ a, result = .ok a → post a c) : Ensures (liftM result : Build α) c post := by
  intro a d run labelled
  obtain ⟨ok, rfl⟩ := lift_eq_ok.mp run
  exact ⟨sound.formed, holds a ok⟩

theorem Ensures.bind {first : Build α} {next : α → Build β} {between : α → Circuit → Prop}
    {post : β → Circuit → Prop} (here : Ensures first c between) (first_grows : Grows first)
    (next_grows : ∀ a, Grows (next a))
    (there : ∀ a d, c ≤ d → d.Sound → between a d → Ensures (next a) d post) :
    Ensures (first >>= next) c post := by
  intro b e run labelled
  obtain ⟨a, d, before, after⟩ := bind_run.mp run
  have reached : d.Labelled := labelled.of_le (next_grows a d b e after)
  obtain ⟨formed, holds⟩ := here a d before reached
  exact there a d (first_grows c a d before) ⟨formed, reached⟩ holds b e after labelled

theorem ensures_mapM {step : α → Build β} (post : α → β → Circuit → Prop) {items : List α}
    (sound : c.Sound) (grows : ∀ a, Grows (step a))
    (kept : ∀ a b c d, c ≤ d → post a b c → post a b d)
    (each : ∀ a ∈ items, ∀ d, c ≤ d → d.Sound → Ensures (step a) d (post a)) :
    Ensures (items.mapM step) c fun results d =>
      List.Forall₂ (fun a b => post a b d) items results := by
  induction items generalizing c with
  | nil => exact ensures_pure sound .nil
  | cons item items ih =>
    rw [List.mapM_cons]
    refine (each item List.mem_cons_self c le_rfl sound).bind (grows item) (by simp [grows]) ?_
    intro result d grown reached here
    refine Ensures.bind (ih reached ?_) (grows_mapM items grows) (by simp) ?_
    · intro a member e further
      exact each a (List.mem_cons_of_mem item member) e (grown.trans further)
    · intro results e further final there
      exact ensures_pure final (.cons (kept item result d e further here) there)

theorem ensures_foldlM {step : β → α → Build β} (invariant : List α → β → Circuit → Prop)
    {items : List α} {start : β} (sound : c.Sound) (grows : ∀ b a, Grows (step b a))
    (initial : invariant [] start c)
    (each : ∀ done a rest, items = done ++ a :: rest → ∀ b d, c ≤ d → d.Sound →
      invariant done b d → Ensures (step b a) d (invariant (done ++ [a]))) :
    Ensures (items.foldlM step start) c (invariant items) := by
  induction items generalizing c start invariant with
  | nil => exact ensures_pure sound initial
  | cons item items ih =>
    rw [List.foldlM_cons]
    refine (each [] item items rfl start c le_rfl sound initial).bind (grows start item)
      (fun b => grows_foldlM items b grows) ?_
    intro b d grown reached here
    refine ih (fun done => invariant (item :: done)) reached here ?_
    intro done a rest split b e further sound
    exact each (item :: done) a rest (by rw [split, List.cons_append]) b e (grown.trans further)
      sound

end Build

namespace Synth

variable {α β : Type} {c : Circuit}

@[simp] theorem lift_run (action : Synth α) : (liftM action : Build α) c = .ok (action c) := rfl

@[simp] theorem lift_pure (a : α) : (liftM (pure a : Synth α) : Build α) = pure a := rfl

@[simp] theorem lift_bind (first : Synth α) (next : α → Synth β) :
    (liftM (first >>= next) : Build β) = (do let a ← liftM first; liftM (next a)) := rfl

@[simp] theorem lift_map (change : α → β) (first : Synth α) :
    (liftM (change <$> first) : Build β) = change <$> liftM first := rfl

@[simp] theorem lift_mapM (step : α → Synth β) (items : List α) :
    (liftM (items.mapM step) : Build (List β)) = items.mapM fun a => liftM (step a) := by
  induction items with
  | nil => rfl
  | cons item items ih => simp [ih]

@[simp] theorem lift_foldlM (step : β → α → Synth β) (items : List α) (start : β) :
    (liftM (items.foldlM step start) : Build β) =
      items.foldlM (fun b a => liftM (step b a)) start := by
  induction items generalizing start with
  | nil => rfl
  | cons item items ih => simp [ih]

end Synth

end ModelFinder
