import ModelFinder.Proofs.Circuit.Closure
import ModelFinder.Proofs.Circuit.Multiplicity

/-! How computations on circuits can end. On symbolic relations whose dimensions fit there is one
fault left, a result with too many tuples to count. A tame computation has no faults but those of its
input; where a condition decides whether it succeeds, the condition can be checked without running it. -/
namespace ModelFinder

/-- The fault lies in the input: a leaf that nothing stands for, a declaration that is not first-order,
arities that do not fit, or a relation with too many tuples to count. -/
def Error.IsInput (error : Error) : Prop :=
  error.kind = .unboundLeaf ∨ error.kind = .higherOrderDecl ∨ error.kind = .invalidArgument ∨
    error.kind = .capacityExceeded

def Countable (size arity : Nat) : Prop := (capacity? size arity).isSome = true

instance (size arity : Nat) : Decidable (Countable size arity) :=
  inferInstanceAs (Decidable ((capacity? size arity).isSome = true))

theorem Dims.make_of_countable {size arity : Nat} (countable : Countable size arity) :
    Dims.make size arity = .ok ⟨size, arity⟩ := by
  obtain ⟨capacity, found⟩ := Option.isSome_iff_exists.mp countable
  simp [Dims.make, Dims.make?, found]

theorem Dims.make_of_uncountable {size arity : Nat} (uncountable : ¬ Countable size arity) :
    Dims.make size arity = .error (.matrixCapacity arity size) := by
  have none : capacity? size arity = none := Option.not_isSome_iff_eq_none.mp uncountable
  simp [Dims.make, Dims.make?, none]

namespace Build

variable {α β : Type} {c d : Circuit} {p q : Prop} {action first : Build α} {next : α → Build β}
  {between : α → Prop} {post weaker : β → Prop}

/-- Started in `c`, the computation leaves a result with the property over the same inputs, or it
fails by one of the faults. -/
def Confined (faults : Error → Prop) (action : Build α) (c : Circuit) (post : α → Prop) : Prop :=
  match action c with
  | .ok (a, d) => d.inputs = c.inputs ∧ post a
  | .error error => faults error

abbrev Tame (action : Build α) (c : Circuit) (post : α → Prop) : Prop :=
  Confined Error.IsInput action c post

def Yields (action : Build α) (post : α → Prop) : Prop :=
  ∀ c, ∃ a d, action c = .ok (a, d) ∧ d.inputs = c.inputs ∧ post a

structure Decides (action : Build α) (c : Circuit) (condition : Prop) (post : α → Prop) : Prop where
  tame : Tame action c post
  succeeds : (∃ result, action c = .ok result) ↔ condition

section Confined

variable {faults more : Error → Prop}

theorem Confined.ok {post : α → Prop} (confined : Confined faults action c post) {a : α}
    (run : action c = .ok (a, d)) : d.inputs = c.inputs ∧ post a := by
  rwa [Confined, run] at confined

theorem Confined.error {post : α → Prop} (confined : Confined faults action c post) {error : Error}
    (run : action c = .error error) : faults error := by
  rwa [Confined, run] at confined

theorem confined_of {post : α → Prop}
    (ok : ∀ a d, action c = .ok (a, d) → d.inputs = c.inputs ∧ post a)
    (error : ∀ e, action c = .error e → faults e) : Confined faults action c post := by
  unfold Confined
  split
  · exact ok _ _ ‹_›
  · exact error _ ‹_›

theorem bind_run_error {error : Error} : (first >>= next) c = .error error ↔
    first c = .error error ∨ ∃ a d, first c = .ok (a, d) ∧ next a d = .error error := by
  rw [show (first >>= next) c = (first c >>= fun (a, d) => next a d) from rfl, bind_eq_error]
  simp

theorem lift_eq_error {result : Except Error α} {error : Error} :
    (liftM result : Build α) c = .error error ↔ result = .error error := by
  cases result <;> simp [Except.map]

theorem mapM_lift_error (step : α → Except Error β) {items : List α} {error : Error}
    (failed : (items.mapM fun a => (liftM (step a) : Build β)) c = .error error) :
    ∃ a ∈ items, step a = .error error := by
  induction items generalizing c with
  | nil => cases failed
  | cons item items ih =>
    rw [List.mapM_cons] at failed
    rcases bind_run_error.mp failed with here | ⟨_, _, -, later⟩
    · exact ⟨item, List.mem_cons_self, lift_eq_error.mp here⟩
    · rcases bind_run_error.mp later with there | ⟨_, _, -, impossible⟩
      · obtain ⟨a, member, isError⟩ := ih there
        exact ⟨a, List.mem_cons_of_mem item member, isError⟩
      · cases impossible

theorem confined_pure {b : β} (holds : post b) : Confined faults (pure b : Build β) c post :=
  ⟨rfl, holds⟩

theorem confined_throw {error : Error} (isFault : faults error) :
    Confined faults (throw error : Build β) c post := isFault

theorem Confined.bind (here : Confined faults first c between)
    (there : ∀ a d, d.inputs = c.inputs → between a → Confined faults (next a) d post) :
    Confined faults (first >>= next) c post := by
  apply confined_of
  · intro b e run
    obtain ⟨a, d, before, after⟩ := bind_run.mp run
    obtain ⟨inputs, holds⟩ := here.ok before
    obtain ⟨sameInputs, final⟩ := (there a d inputs holds).ok after
    exact ⟨sameInputs.trans inputs, final⟩
  · intro error run
    rcases bind_run_error.mp run with failed | ⟨a, d, before, after⟩
    · exact here.error failed
    · obtain ⟨inputs, holds⟩ := here.ok before
      exact (there a d inputs holds).error after

theorem Confined.with_run {post : α → Prop} (confined : Confined faults action c post) :
    Confined faults action c fun a => post a ∧ ∃ d, action c = .ok (a, d) := by
  refine confined_of (fun a d run => ?_) fun error run => confined.error run
  obtain ⟨inputs, holds⟩ := confined.ok run
  exact ⟨inputs, holds, d, run⟩

theorem Confined.weaken {post : α → Prop} (confined : Confined faults action c post)
    (weaker : ∀ error, faults error → more error) : Confined more action c post :=
  confined_of (fun _ _ run => confined.ok run) fun error run => weaker error (confined.error run)

end Confined

theorem Decides.congr {post : α → Prop} (decides : Decides action c p post) (same : p ↔ q) :
    Decides action c q post :=
  ⟨decides.tame, decides.succeeds.trans same⟩

theorem Decides.imp {action : Build β} (decides : Decides action c p post)
    (implied : p → ∀ b, post b → weaker b) : Decides action c p weaker := by
  refine ⟨confined_of (fun b d run => ?_) fun error run => decides.tame.error run, decides.succeeds⟩
  obtain ⟨inputs, holds⟩ := decides.tame.ok run
  exact ⟨inputs, implied (decides.succeeds.mp ⟨_, run⟩) b holds⟩

theorem Decides.exists_run {post : α → Prop} (decides : Decides action c p post) (holds : p) :
    ∃ a d, action c = .ok (a, d) ∧ d.inputs = c.inputs ∧ post a := by
  obtain ⟨⟨a, d⟩, run⟩ := decides.succeeds.mpr holds
  exact ⟨a, d, run, decides.tame.ok run⟩

theorem decides_throw {error : Error} (isInput : error.IsInput) :
    Decides (throw error : Build β) c False post := by
  refine ⟨confined_throw isInput, iff_false_intro ?_⟩
  rintro ⟨result, run⟩
  cases run

theorem Decides.bind (here : Decides first c p between)
    (there : ∀ a d, d.inputs = c.inputs → between a → Decides (next a) d q post) :
    Decides (first >>= next) c (p ∧ q) post := by
  refine ⟨here.tame.bind fun a d inputs holds => (there a d inputs holds).tame, ?_⟩
  constructor
  · rintro ⟨⟨b, e⟩, run⟩
    obtain ⟨a, d, before, after⟩ := bind_run.mp run
    obtain ⟨inputs, holds⟩ := here.tame.ok before
    exact ⟨here.succeeds.mp ⟨_, before⟩, (there a d inputs holds).succeeds.mp ⟨_, after⟩⟩
  · rintro ⟨one, two⟩
    obtain ⟨a, d, before, inputs, holds⟩ := here.exists_run one
    obtain ⟨result, after⟩ := (there a d inputs holds).succeeds.mpr two
    exact ⟨result, bind_run.mpr ⟨a, d, before, after⟩⟩

theorem yields_pure {b : β} (holds : post b) : Yields (pure b : Build β) post :=
  fun c => ⟨b, c, rfl, rfl, holds⟩

theorem yields_lift {post : α → Prop} {result : Except Error α} {a : α} (ok : result = .ok a)
    (holds : post a) : Yields (liftM result : Build α) post :=
  fun c => ⟨a, c, lift_eq_ok.mpr ⟨ok, rfl⟩, rfl, holds⟩

theorem yields_synth {action : Synth α} (grows : Grows (liftM action)) :
    Yields (liftM action : Build α) fun _ => True :=
  fun c => ⟨_, _, rfl, (grows c _ _ rfl).1.symm, trivial⟩

theorem Yields.bind (here : Yields first between) (there : ∀ a, between a → Yields (next a) post) :
    Yields (first >>= next) post := by
  intro c
  obtain ⟨a, d, before, inputs, holds⟩ := here c
  obtain ⟨b, e, after, sameInputs, final⟩ := there a holds d
  exact ⟨b, e, bind_run.mpr ⟨a, d, before, after⟩, sameInputs.trans inputs, final⟩

theorem Yields.imp {action : Build β} (yields : Yields action post)
    (implied : ∀ b, post b → weaker b) : Yields action weaker := by
  intro c
  obtain ⟨b, d, run, inputs, holds⟩ := yields c
  exact ⟨b, d, run, inputs, implied b holds⟩

theorem yields_mapM {step : α → Build β} (items : List α)
    (each : ∀ a, Yields (step a) fun _ => True) : Yields (items.mapM step) fun _ => True := by
  induction items with
  | nil => exact yields_pure trivial
  | cons item items ih =>
    rw [List.mapM_cons]
    exact (each item).bind fun _ _ => ih.bind fun _ _ => yields_pure trivial

theorem Yields.confined {faults : Error → Prop} {post : α → Prop} (yields : Yields action post) :
    Confined faults action c post := by
  obtain ⟨a, d, run, inputs, holds⟩ := yields c
  rw [Confined, run]
  exact ⟨inputs, holds⟩

theorem Yields.decides {post : α → Prop} (yields : Yields action post) :
    Decides action c True post := by
  obtain ⟨a, d, run, -⟩ := yields c
  exact ⟨yields.confined, iff_true_intro ⟨_, run⟩⟩

theorem make_decides (size arity : Nat) : Decides (liftM (Dims.make size arity)) c
    (Countable size arity) (fun dims => dims = ⟨size, arity⟩) := by
  by_cases countable : Countable size arity
  · have granted : Yields (liftM (Dims.make size arity)) fun dims => dims = ⟨size, arity⟩ :=
      yields_lift (Dims.make_of_countable countable) rfl
    exact granted.decides.congr (iff_of_true trivial countable)
  · rw [Dims.make_of_uncountable countable]
    exact (decides_throw (.inr (.inr (.inr rfl)))).congr (iff_of_false id countable)

end Build

namespace Matrix

variable {c : Circuit} {a b m : Matrix} {n k l : Nat}

theorem sameDims_yields (same : a.dims = b.dims) :
    Build.Yields (liftM (a.sameDims b)) fun _ => True :=
  Build.yields_lift (if_pos same) trivial

theorem cell_yields {op : Synth Value} (grows : Build.Grows (liftM op)) (index : Nat) :
    Build.Yields (do return (index, ← op) : Build (Nat × Value)) fun _ => True :=
  (Build.yields_synth grows).bind fun _ _ => Build.yields_pure trivial

theorem union_yields (same : a.dims = b.dims) :
    Build.Yields (a.union b) fun m => m.dims = a.dims := by
  refine (sameDims_yields same).bind fun _ _ => ?_
  refine (Build.yields_mapM _ fun cell => ?_).bind fun cells _ => Build.yields_pure rfl
  exact cell_yields (by simp) cell.1

theorem intersection_yields (same : a.dims = b.dims) :
    Build.Yields (a.intersection b) fun m => m.dims = a.dims := by
  refine (sameDims_yields same).bind fun _ _ => ?_
  refine (Build.yields_mapM _ fun cell => ?_).bind fun cells _ => Build.yields_pure rfl
  exact cell_yields (by simp) cell.1

theorem difference_yields (same : a.dims = b.dims) :
    Build.Yields (a.difference b) fun m => m.dims = a.dims := by
  refine (sameDims_yields same).bind fun _ _ => ?_
  refine (Build.yields_mapM _ fun cell => ?_).bind fun cells _ => Build.yields_pure rfl
  exact cell_yields (by simp) cell.1

theorem override_yields (positive : 0 < n) (left : a.dims = ⟨n, k + 1⟩)
    (right : b.dims = ⟨n, k + 1⟩) : Build.Yields (a.override b) fun m => m.dims = a.dims := by
  have row : a.dims.capacity / a.dims.size = n ^ k := by
    rw [left]
    exact Nat.mul_div_cancel _ positive
  have someRows : n ^ k ≠ 0 := Nat.pos_iff_ne_zero.mp (Nat.pow_pos positive)
  have size : a.dims.size ≠ 0 := by
    rw [left]
    exact positive.ne'
  unfold override
  simp only [row]
  rw [if_neg fun noRows => noRows.elim size fun none => someRows none.1]
  refine (sameDims_yields (left.trans right.symm)).bind fun _ _ => ?_
  refine (Build.yields_synth (by simp)).bind fun rows _ => ?_
  refine (Build.yields_mapM _ fun cell => ?_).bind fun cells _ => Build.yields_pure rfl
  refine (Build.yields_synth (by simp)).bind fun kept _ => ?_
  exact cell_yields (by simp) cell.1

/-- A join of dimensions that fit fails only if the tuples of its result cannot be counted. -/
theorem join_decides (positive : 0 < n) (left : a.dims = ⟨n, k⟩) (right : b.dims = ⟨n, l⟩) :
    Build.Decides (a.join b) c (Countable n (k + l - 2)) fun m => m.dims = ⟨n, k + l - 2⟩ := by
  unfold join
  simp only [left, right]
  refine (Build.Decides.bind (Build.make_decides n (k + l - 2)) ?_).congr (and_iff_left trivial)
  rintro dims d - rfl
  rw [if_neg positive.ne']
  refine Build.Yields.decides ?_
  refine (Build.yields_mapM _ fun cell => ?_).bind fun terms _ => ?_
  · exact cell_yields (by simp) cell.1
  · exact (Build.yields_synth (by simp)).bind fun cells _ => Build.yields_pure rfl

theorem product_decides (left : a.dims = ⟨n, k⟩) (right : b.dims = ⟨n, l⟩) :
    Build.Decides (a.product b) c (Countable n (k + l)) fun m => m.dims = ⟨n, k + l⟩ := by
  unfold product
  simp only [left, right]
  refine (Build.Decides.bind (Build.make_decides n (k + l)) ?_).congr (and_iff_left trivial)
  rintro dims d - rfl
  refine Build.Yields.decides ?_
  refine (Build.yields_mapM _ fun cell => ?_).bind fun cells _ => Build.yields_pure rfl
  exact cell_yields (by simp) cell.1

theorem transpose_yields (binary : m.dims.arity = 2) :
    Build.Yields (liftM m.transpose) fun t => t.dims = m.dims := by
  refine Build.yields_lift (bind_eq_ok.mpr ⟨(), if_pos binary, rfl⟩) rfl

theorem square_yields (positive : 0 < n) (countable : Countable n 2) (times : Nat)
    (dims : m.dims = ⟨n, 2⟩) : Build.Yields (square times m) fun s => s.dims = ⟨n, 2⟩ := by
  induction times generalizing m with
  | zero => exact Build.yields_pure dims
  | succ times ih =>
    have joined : Build.Yields (m.join m) fun s => s.dims = ⟨n, 2⟩ :=
      fun c => (join_decides positive dims dims).exists_run countable
    refine joined.bind fun s same => ?_
    refine (union_yields (dims.trans same.symm)).bind fun larger kept => ?_
    exact ih (kept.trans dims)

theorem closure_yields (positive : 0 < n) (countable : Countable n 2) (dims : m.dims = ⟨n, 2⟩) :
    Build.Yields m.closure fun s => s.dims = ⟨n, 2⟩ := by
  have binary : Build.Yields (liftM m.isBinary) fun _ => True :=
    Build.yields_lift (if_pos (congrArg Dims.arity dims)) trivial
  exact binary.bind fun _ _ => square_yields positive countable _ dims

theorem identity_yields (countable : Countable n 2) :
    Build.Yields (liftM (identity n)) fun s => s.dims = ⟨n, 2⟩ :=
  Build.yields_lift (bind_eq_ok.mpr ⟨_, Dims.make_of_countable countable, rfl⟩) rfl

theorem reflexiveClosure_yields (positive : 0 < n) (countable : Countable n 2)
    (dims : m.dims = ⟨n, 2⟩) : Build.Yields m.reflexiveClosure fun s => s.dims = ⟨n, 2⟩ := by
  refine (closure_yields positive countable dims).bind fun paths same => ?_
  rw [dims]
  refine (identity_yields countable).bind fun diagonal also => ?_
  exact (union_yields (same.trans also.symm)).imp fun s kept => kept.trans same

theorem subset_yields (same : a.dims = b.dims) : Build.Yields (a.subset b) fun _ => True := by
  refine (sameDims_yields same).bind fun _ _ => ?_
  refine (Build.yields_mapM _ fun cell => ?_).bind fun terms _ => Build.yields_synth (by simp)
  exact Build.yields_synth (by simp)

theorem equals_yields (same : a.dims = b.dims) : Build.Yields (a.equals b) fun _ => True := by
  refine (subset_yields same).bind fun _ _ => ?_
  exact (subset_yields same.symm).bind fun _ _ => Build.yields_synth (by simp)

end Matrix

end ModelFinder
