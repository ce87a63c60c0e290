import ModelFinder.Proofs.Encoding.Constants

/-! Evaluation comes as far as encoding does. Leaves that leave no choice and have the values that other
leaves have under a valuation are grounded alongside these: the same expressions succeed, and of the
choices of a quantifier those are visited whose guard is true under the valuation, in the same order.
Where the longer run is stopped by such a choice the shorter one is stopped as well, so it never comes to
a choice that the longer one has not come to. -/
namespace ModelFinder

/-- The second leaves leave no choice. They have all relations of the first ones, and there is an
interpretation that both agree with, the first ones under the valuation. -/
structure Leaves.Resolves (l x : Leaves) (s : Nat → Bool) (i : Interpretation) : Prop where
  proper : l.Proper
  agrees : l.Agrees s i
  exact : x.Exact
  same : x.Agrees s i
  bound : ∀ r, l.bounds.contains r = true → x.bounds.contains r = true

structure Scope.Resolved (scope : Scope) (n : Nat) (ρ : Assignment) : Prop where
  sized : scope.Sized n
  constant : scope.Constant
  agrees : ∀ c s, scope.Agrees n c s ρ

structure Circuit.Closed (c : Circuit) : Prop where
  sound : c.Sound
  inputs : c.inputs = 0

namespace Scope

variable {scope : Scope} {n : Nat} {ρ : Assignment}

theorem empty_resolved : Scope.empty.Resolved n ρ :=
  ⟨empty_sized, empty_constant, fun _ _ => agrees_empty⟩

theorem Resolved.push (resolved : scope.Resolved n ρ) {v : Variable} {m : Matrix} {t : List Nat}
    (sized : m.Sized n v.arity) (constant : m.Constant)
    (meant : ∀ c s, m.Denotes n v.arity c s (· = t)) : (scope.push v m).Resolved n (ρ.bind v t) :=
  ⟨resolved.sized.push sized, resolved.constant.push constant,
    fun c s => (resolved.agrees c s).push (meant c s)⟩

end Scope

/-- The cells of constants are the cells that are true under the valuation. -/
theorem Matrix.resolved_cells {m x : Matrix} {n k : Nat} {c d : Circuit} {s t : Nat → Bool}
    {P : List Nat → Prop} (meant : m.Denotes n k c s P) (same : x.Denotes n k d t P)
    (constant : x.Constant) (positive : 0 < n) :
    x.cells.entries =
      (m.cells.entries.filter fun cell => cell.2.eval c s).map fun cell => (cell.1, .const true) := by
  have allTrue : ∀ cell ∈ x.cells.entries, cell = (cell.1, .const true) := by
    rintro ⟨index, v⟩ stored
    obtain ⟨b, rfl⟩ := constant _ stored
    cases b with
    | true => rfl
    | false => exact absurd rfl (same.formed.values _ (mem_values stored)).1
  have keys : x.cells.entries.map Prod.fst =
      (m.cells.entries.filter fun cell => cell.2.eval c s).map Prod.fst := by
    refine IndexSet.eq_of_mem_iff same.formed.ascending
      (meant.formed.ascending.sublist (List.filter_sublist.map _)) fun index => ?_
    have stored : index ∈ x.cells.entries.map Prod.fst ↔ x.HoldsAt d t index := by
      rw [holdsAt_iff same.formed]
      constructor
      · intro member
        obtain ⟨⟨_, v⟩, isStored, rfl⟩ := List.mem_map.mp member
        exact ⟨v, isStored, by cases allTrue _ isStored; rfl⟩
      · rintro ⟨v, isStored, -⟩
        exact List.mem_map_of_mem isStored
    have held : index ∈ (m.cells.entries.filter fun cell => cell.2.eval c s).map Prod.fst ↔
        m.HoldsAt c s index := by
      rw [holdsAt_iff meant.formed]
      simp [List.mem_filter]
    rw [stored, held, meant.holdsAt_iff positive, same.holdsAt_iff positive]
  calc x.cells.entries
      = x.cells.entries.map fun cell => (cell.1, .const true) := by
        conv_lhs => rw [← List.map_id x.cells.entries]
        exact List.map_congr_left allTrue
    _ = (x.cells.entries.map Prod.fst).map (·, .const true) := by rw [List.map_map]; rfl
    _ = _ := by rw [keys, List.map_map]; rfl

theorem Expr.Groundable.of_bound {b b' : Bounds} (sizes : b'.univ.size = b.univ.size)
    (bound : ∀ r, b.contains r = true → b'.contains r = true) {scope : Scope} {e : Expr}
    (groundable : e.Groundable b scope) : e.Groundable b' scope := by
  induction e with
  | rel r => exact ⟨bound r groundable.1, sizes ▸ groundable.2⟩
  | var v => exact groundable
  | const c =>
    unfold Groundable at groundable ⊢
    rwa [sizes]
  | binary op left right leftIh rightIh =>
    obtain ⟨one, two, countable⟩ := groundable
    exact ⟨leftIh one, rightIh two, sizes ▸ countable⟩
  | unary op body ih => exact ih groundable

section Resolve

variable {l x : Leaves} {s : Nat → Bool} {i : Interpretation} {ρ : Assignment} {scope : Scope}
  {c d z : Circuit}

theorem Leaves.Proper.ready (proper : l.Proper) (sound : c.Sound)
    (inputs : c.inputs = l.numbering.count) (sized : scope.Sized l.bounds.univ.size) :
    l.Ready scope c := by
  have labelled := sound.labelled
  rw [Circuit.Labelled, Circuit.maxLabel, Value.trueLabel] at labelled
  exact ⟨proper, by omega, inputs, sized⟩

namespace Leaves.Resolves

variable (resolves : l.Resolves x s i)

include resolves

theorem sizes : x.bounds.univ.size = l.bounds.univ.size :=
  resolves.same.size.symm.trans resolves.agrees.size

theorem ready (sound : c.Sound) (inputs : c.inputs = l.numbering.count)
    (resolved : scope.Resolved i.size ρ) : l.Ready scope c :=
  resolves.proper.ready sound inputs (resolves.agrees.size ▸ resolved.sized)

theorem closed_ready (closed : z.Closed) (resolved : scope.Resolved i.size ρ) : x.Ready scope z :=
  resolves.exact.proper.ready closed.sound (closed.inputs.trans resolves.exact.count.symm)
    (resolves.same.size ▸ resolved.sized)

/-- An expression that was grounded has a constant value as well. -/
theorem ground (closed : z.Closed) {e : Expr} (sorted : e.WellSorted) (ready : l.Ready scope c)
    (resolved : scope.Resolved i.size ρ) {m : Matrix} (run : e.ground l scope c = .ok (m, d)) :
    ∃ value, e.ground x scope z = .ok (value, z) ∧ value.Constant ∧ value.Sized i.size e.arity := by
  have groundable := (Expr.ground_decides ready sorted).succeeds.mp ⟨_, run⟩
  obtain ⟨value, z', ran, -, sized⟩ :=
    (Expr.ground_decides (resolves.closed_ready closed resolved) sorted).exists_run
      (groundable.of_bound resolves.sizes resolves.bound)
  obtain ⟨rfl, constant⟩ := Expr.ground_folds resolves.exact resolved.constant e _ _ _ ran
  exact ⟨value, ran, constant, resolves.same.size ▸ sized⟩

end Leaves.Resolves

/-- A visit of the chosen items succeeds if a visit of all items has, unless it is stopped by one of
them it has not to go further. -/
theorem visitUntil_resolves {step step' : Nat × Value → Array Value → Build (Array Value × Bool)}
    (chosen : Nat × Value → Bool) (invariant : Array Value → Circuit → Prop)
    (settled : Array Value × Bool → Prop) {cells : List (Nat × Value)}
    {acc acc' : Array Value} {result : Array Value × Bool} (grows : ∀ a acc, Build.Grows (step a acc))
    (kept : ∀ cell ∈ cells, ∀ acc c, invariant acc c → Build.Ensures (step cell acc) c
      fun result d => invariant result.1 d ∧ (result.2 = true → chosen cell = true))
    (each : ∀ cell ∈ cells, chosen cell = true → ∀ acc c result d, invariant acc c →
      step cell acc c = .ok (result, d) → d.Labelled → ∀ acc', settled (acc', false) →
        ∃ result', step' (cell.1, .const true) acc' z = .ok (result', z) ∧ settled result' ∧
          (result.2 = true → result'.2 = true))
    (start : invariant acc c) (run : visitUntil step cells acc c = .ok (result, d))
    (labelled : d.Labelled) (isSettled : settled (acc', false)) :
    ∃ result', visitUntil step' ((cells.filter chosen).map fun cell => (cell.1, .const true)) acc' z =
      .ok (result', z) := by
  induction cells generalizing acc acc' c with
  | nil => exact ⟨_, rfl⟩
  | cons cell cells ih =>
    obtain ⟨⟨next, stopped⟩, e, here, rest⟩ := Build.bind_run.mp run
    have between : e.Labelled := by
      refine labelled.of_le ((?_ : Build.Grows _) _ _ _ rest)
      cases stopped with
      | true => simp
      | false => exact grows_visitUntil cells next grows
    obtain ⟨-, now, stops⟩ := kept cell List.mem_cons_self acc c start _ _ here between
    have further : stopped = false → ∀ acc', settled (acc', false) → ∃ result',
        visitUntil step' ((cells.filter chosen).map fun cell => (cell.1, .const true)) acc' z =
          .ok (result', z) := by
      rintro rfl acc' isSettled
      exact ih (fun a member => kept a (List.mem_cons_of_mem cell member))
        (fun a member => each a (List.mem_cons_of_mem cell member)) now rest isSettled
    cases isChosen : chosen cell with
    | false =>
      rw [List.filter_cons_of_neg (by simp [isChosen])]
      refine further ?_ acc' isSettled
      by_contra isStopped
      rw [stops (Bool.not_eq_false _ ▸ isStopped)] at isChosen
      cases isChosen
    | true =>
      rw [List.filter_cons_of_pos isChosen, List.map_cons]
      obtain ⟨⟨next', stopped'⟩, here', settled', stops'⟩ :=
        each cell List.mem_cons_self isChosen acc c _ e start here between acc' isSettled
      cases stopped' with
      | true => exact ⟨_, Build.bind_run.mpr ⟨_, z, here', rfl⟩⟩
      | false =>
        obtain ⟨result', there⟩ := further (by simpa using stops') next' settled'
        exact ⟨result', Build.bind_run.mpr ⟨_, z, here', there⟩⟩

/-- What unfolding needs of the bodies of a quantifier: they add gates only, have the truth of one
statement, and where the first is grounded the second is grounded to a constant. -/
structure Quantifier.Bodies (l : Leaves) (z : Circuit) (s : Nat → Bool) (i : Interpretation)
    (holds : Assignment → Prop) (body body' : Scope → Build Value) : Prop where
  grows : ∀ scope, Build.Grows (body scope)
  grows' : ∀ scope, Build.Grows (body' scope)
  meant : ∀ c scope ρ, c.Sound → scope.Agrees i.size c s ρ →
    Build.Ensures (body scope) c fun v d => v.Means d s (holds ρ)
  meant' : ∀ c scope ρ, c.Sound → scope.Agrees i.size c s ρ →
    Build.Ensures (body' scope) c fun v d => v.Means d s (holds ρ)
  folds : ∀ scope : Scope, scope.Constant → Build.Folds (body' scope) Value.Constant
  follows : ∀ c (scope : Scope) ρ v d, c.Sound → l.Ready scope c → scope.Resolved i.size ρ →
    body scope c = .ok (v, d) → d.Labelled → ∃ v', body' scope z = .ok (v', z)

section Unfold

variable {q : Quantifier} {holds : Assignment → Prop} {body body' : Scope → Build Value}
  {decls : List Decl} {guard guard' : Value} {acc acc' : Array Value}
  {result result' : Array Value × Bool}

/-- Under a true guard the shorter run is stopped where the longer one is. -/
theorem unfoldDecls_stops (resolves : l.Resolves x s i) (closed : z.Closed)
    (bodies : Quantifier.Bodies l z s i holds body body')
    (sorted : ∀ d ∈ decls, d.domain.WellSorted)
    (fitting : ∀ d ∈ decls, d.var.arity = d.domain.arity) (sound : c.Sound)
    (resolved : scope.Resolved i.size ρ) (guarded : guard.Means c s True)
    (inside : ∀ v ∈ acc.toList, v.In c)
    (run : unfoldDecls l q body decls scope guard acc c = .ok (result, d)) (labelled : d.Labelled)
    (guarded' : guard'.Means z s True) (settled : q.Settled (acc', false))
    (run' : unfoldDecls x q body' decls scope guard' acc' z = .ok (result', z))
    (settled' : q.Settled result') (stopped : result.2 = true) : result'.2 = true := by
  obtain ⟨-, gathered⟩ := unfoldDecls_ensures resolves.proper resolves.agrees sorted fitting
    bodies.grows bodies.meant sound (resolved.agrees c s) guarded inside _ _ run labelled
  have within : ∀ v ∈ acc'.toList, v.In z := by
    intro v member
    obtain ⟨b, rfl⟩ := settled.constant v member
    trivial
  obtain ⟨-, gathered'⟩ := unfoldDecls_ensures resolves.exact.proper resolves.same sorted fitting
    bodies.grows' bodies.meant' closed.sound (resolved.agrees z s) guarded' within _ _ run'
    closed.sound.labelled
  by_contra notStopped
  exact settled'.undecided (by simpa using notStopped) gathered' (gathered.decided stopped)

/-- A choice of a tuple that is a member under the valuation is made without a choice as well, and the
shorter run is stopped where the longer one is, if the declarations behind it are unfolded so. -/
theorem choice_resolves (resolves : l.Resolves x s i) (closed : z.Closed)
    (bodies : Quantifier.Bodies l z s i holds body body')
    (sorted : ∀ d ∈ decls, d.domain.WellSorted)
    (fitting : ∀ d ∈ decls, d.var.arity = d.domain.arity) (sound : c.Sound)
    (resolved : scope.Resolved i.size ρ) (guarded : guard.Means c s True) {member : Value}
    (meant : member.Means c s True) (inside : ∀ v ∈ acc.toList, v.In c)
    (run : (liftM (Circuit.and guard member) >>= (unfoldDecls l q body decls scope · acc)) c =
      .ok (result, d)) (labelled : d.Labelled)
    (guarded' : guard'.Means z s True) (isGuard : guard'.Constant) (settled : q.Settled (acc', false))
    (follows : ∀ both both' f, c ≤ f → f.Sound → both.Means f s True →
      unfoldDecls l q body decls scope both acc f = .ok (result, d) → both'.Means z s True →
        both'.Constant → ∃ result', unfoldDecls x q body' decls scope both' acc' z = .ok (result', z)) :
    ∃ result', (liftM (Circuit.and guard' (.const true)) >>=
        (unfoldDecls x q body' decls scope · acc')) z = .ok (result', z) ∧
      q.Settled result' ∧ (result.2 = true → result'.2 = true) := by
  obtain ⟨both, f, more, reached, met, unfolded⟩ :=
    choice_goesOn bodies.grows sound guarded meant run labelled
  obtain ⟨both', z', anded', -⟩ := Build.yields_synth (Circuit.grows_and guard' (.const true)) z
  obtain ⟨rfl, isBoth⟩ := Circuit.and_folds isGuard ⟨true, rfl⟩ _ _ _ anded'
  obtain ⟨-, met'⟩ := Circuit.and_ensures closed.sound guarded' (Value.means_const true) _ _
    anded' closed.sound.labelled
  have met := met.congr (and_self_iff)
  have met' := met'.congr (iff_true_intro ⟨trivial, rfl⟩)
  obtain ⟨result', unfolded'⟩ := follows both both' f more reached met unfolded met' isBoth
  obtain ⟨-, settled'⟩ := unfoldDecls_folds resolves.exact bodies.folds resolved.constant isBoth
    settled _ _ _ unfolded'
  exact ⟨result', Build.bind_run.mpr ⟨both', z, anded', unfolded'⟩, settled',
    unfoldDecls_stops resolves closed bodies sorted fitting reached resolved met
      (fun v old => (inside v old).of_le more) unfolded labelled met' settled unfolded' settled'⟩

theorem body_resolves (bodies : Quantifier.Bodies l z s i holds body body') (sound : c.Sound)
    (ready : l.Ready scope c) (resolved : scope.Resolved i.size ρ)
    (run : unfoldDecls l q body [] scope guard acc c = .ok (result, d)) (labelled : d.Labelled)
    (isGuard : guard'.Constant) :
    ∃ result', unfoldDecls x q body' [] scope guard' acc' z = .ok (result', z) := by
  obtain ⟨value, e, ran, rest⟩ := Build.bind_run.mp run
  have between : e.Labelled := by
    refine labelled.of_le ((?_ : Build.Grows _) _ _ _ rest)
    exact Build.grows_bind (Quantifier.grows_guarded q guard value) fun _ => by simp
  obtain ⟨value', ran'⟩ := bodies.follows c scope ρ value e sound ready resolved ran between
  obtain ⟨-, isConstant⟩ := bodies.folds scope resolved.constant _ _ _ ran'
  obtain ⟨contribution, z', guardRun, -⟩ :=
    Build.yields_synth (Quantifier.grows_guarded q guard' value') z
  obtain ⟨rfl, -⟩ := Quantifier.guarded_folds isGuard isConstant _ _ _ guardRun
  exact ⟨_, Build.bind_run.mpr ⟨value', z, ran', Build.bind_run.mpr ⟨_, z, guardRun, rfl⟩⟩⟩

/-- Where declarations were unfolded under a guard that is true under the valuation, they are unfolded
without a choice. -/
theorem unfoldDecls_resolves (resolves : l.Resolves x s i) (closed : z.Closed)
    (bodies : Quantifier.Bodies l z s i holds body body')
    (sorted : ∀ d ∈ decls, d.domain.WellSorted)
    (fitting : ∀ d ∈ decls, d.var.arity = d.domain.arity) (sound : c.Sound)
    (ready : l.Ready scope c) (resolved : scope.Resolved i.size ρ) (guarded : guard.Means c s True)
    (inside : ∀ v ∈ acc.toList, v.In c)
    (run : unfoldDecls l q body decls scope guard acc c = .ok (result, d)) (labelled : d.Labelled)
    (guarded' : guard'.Means z s True) (isGuard : guard'.Constant)
    (settled : q.Settled (acc', false)) :
    ∃ result', unfoldDecls x q body' decls scope guard' acc' z = .ok (result', z) := by
  induction decls generalizing scope ρ c guard acc result d guard' acc' with
  | nil => exact body_resolves bodies sound ready resolved run labelled isGuard
  | cons decl rest ih =>
    obtain ⟨isSorted, restSorted⟩ := List.forall_mem_cons.mp sorted
    obtain ⟨isFitting, restFitting⟩ := List.forall_mem_cons.mp fitting
    have positive := resolves.agrees.size_pos
    obtain ⟨domain, e, grounded, visited⟩ := Build.bind_run.mp run
    have behind : ∀ (cell : Nat × Value) (acc : Array Value), Build.Grows
        (liftM (Circuit.and guard cell.2) >>= fun both => unfoldDecls l q body rest
          (scope.push decl.var (.ofIndices domain.dims [cell.1])) both acc) :=
      fun cell acc => grows_choice bodies.grows _ guard cell.2 acc
    have grown : c ≤ e := Expr.grows_ground l scope decl.domain _ _ _ grounded
    have between : e.Labelled := labelled.of_le (grows_visitUntil _ _ behind _ _ _ visited)
    obtain ⟨formed, denotes⟩ := Expr.ground_ensures resolves.proper resolves.agrees isSorted sound
      (resolved.agrees c s) _ _ grounded between
    obtain ⟨inputs, sized⟩ := (Expr.ground_decides ready isSorted).tame.ok grounded
    -- Without a choice the domain has the cells that are true under the valuation.
    obtain ⟨domain', grounded', constant, -⟩ :=
      resolves.ground closed isSorted ready resolved grounded
    obtain ⟨-, denotes'⟩ := Expr.ground_ensures resolves.exact.proper resolves.same isSorted
      closed.sound (resolved.agrees z s) _ _ grounded' closed.sound.labelled
    have cells := Matrix.resolved_cells denotes denotes' constant positive
    have dims : domain'.dims = domain.dims := denotes'.dims_eq.trans denotes.dims_eq.symm
    have pushed : ∀ cell ∈ domain.cells.entries,
        (scope.push decl.var (.ofIndices domain.dims [cell.1])).Resolved i.size
          (ρ.bind decl.var (decodeIndex i.size decl.domain.arity cell.1)) := by
      intro cell stored
      refine resolved.push ?_ (Matrix.ofIndices_constant _ _) fun c' s' =>
        denotes.chosen isFitting positive stored
      rw [isFitting, resolves.agrees.size]
      exact ⟨sized.dims, sized.countable⟩
    have isMember : ∀ cell ∈ domain.cells.entries, ∀ c', e ≤ c' →
        cell.2.Means c' s (cell.2.eval e s = true) := fun cell stored c' above =>
      (Value.means_eval (denotes.formed.inside stored)).of_le above
    suffices ran : ∃ result', visitUntil _ domain'.cells.entries acc' z = .ok (result', z) from
      ran.imp fun result' there => Build.bind_run.mpr ⟨domain', z, grounded', there⟩
    rw [cells, dims]
    refine visitUntil_resolves (fun cell => cell.2.eval e s)
      (fun acc c' => e ≤ c' ∧ c'.Sound ∧ ∀ v ∈ acc.toList, v.In c') q.Settled behind ?_ ?_
      ⟨le_rfl, ⟨formed, between⟩, fun v old => (inside v old).of_le grown⟩ visited labelled settled
    -- A choice is stopped only if its tuple is a member.
    · rintro cell stored acc c' ⟨above, isSound, insideNow⟩ result d' ran reached
      obtain ⟨isFormed, gathered⟩ := choice_gathers resolves.proper resolves.agrees restSorted
        restFitting bodies.grows bodies.meant isSound ((pushed cell stored).agrees c' s)
        (guarded.of_le (grown.trans above)) (isMember cell stored c' above) insideNow _ _ ran reached
      exact ⟨isFormed, ⟨above.trans (behind cell acc _ _ _ ran), ⟨isFormed, reached⟩, gathered.inside⟩,
        fun stopped => (Quantifier.Decided.guard (gathered.decided stopped)).2⟩
    · rintro cell stored isTrue acc c' result d' ⟨above, isSound, insideNow⟩ ran reached acc' settled
      refine choice_resolves resolves closed bodies restSorted restFitting isSound
        (pushed cell stored) (guarded.of_le (grown.trans above))
        ((isMember cell stored c' above).congr (iff_true_intro isTrue)) insideNow ran reached guarded'
        isGuard settled fun both both' f more isSound met unfolded met' isBoth => ?_
      have inputs' := (above.trans more).1.symm.trans (inputs.trans ready.inputs)
      exact ih restSorted restFitting isSound (resolves.ready isSound inputs' (pushed cell stored))
        (pushed cell stored) met (fun v old => (insideNow v old).of_le more) unfolded reached met' isBoth
        settled

end Unfold

theorem Build.exists_bind {α β : Type} {first : Build α} {next : α → Build β} {a : α}
    (here : first c = .ok (a, d)) (there : ∃ out, next a d = .ok out) :
    ∃ out, (first >>= next) c = .ok out := by
  obtain ⟨⟨b, e⟩, last⟩ := there
  exact ⟨(b, e), Build.bind_run.mpr ⟨a, d, here, last⟩⟩

namespace Formula

theorem groundAll_of_each {fs : List Formula}
    (each : ∀ f ∈ fs, ∃ v, f.ground x scope z = .ok (v, z)) :
    ∃ values, groundAll x fs scope z = .ok (values, z) := by
  induction fs with
  | nil => exact ⟨[], by rw [groundAll]; rfl⟩
  | cons f fs ih =>
    obtain ⟨v, here⟩ := each f List.mem_cons_self
    obtain ⟨values, there⟩ := ih fun g member => each g (List.mem_cons_of_mem f member)
    refine ⟨v :: values, ?_⟩
    rw [groundAll]
    exact Build.bind_run.mpr ⟨v, z, here, Build.bind_run.mpr ⟨values, z, there, rfl⟩⟩

/-- Without a choice a run that succeeds leaves the circuit as it is. -/
theorem ground_closed (exact : x.Exact) (constant : scope.Constant) {f : Formula}
    (ran : ∃ out, f.ground x scope z = .ok out) : ∃ v, f.ground x scope z = .ok (v, z) := by
  obtain ⟨⟨v, e⟩, ran⟩ := ran
  obtain ⟨rfl, -⟩ := ground_folds exact f scope constant _ _ _ ran
  exact ⟨v, ran⟩

mutual

/-- A formula that was grounded is grounded without a choice. -/
theorem ground_resolves (resolves : l.Resolves x s i) (closed : z.Closed) : (f : Formula) →
    f.WellSorted → ∀ c (scope : Scope) ρ v d, c.Sound → l.Ready scope c → scope.Resolved i.size ρ →
      f.ground l scope c = .ok (v, d) → d.Labelled → ∃ v', f.ground x scope z = .ok (v', z)
  | .const b, _ => by
      intro c scope ρ v d _ _ _ _ _
      rw [ground]
      exact ⟨.const b, rfl⟩
  | .binary op left right, sorted => by
      intro c scope ρ v d sound ready resolved run labelled
      apply ground_closed resolves.exact resolved.constant
      rw [ground] at run ⊢
      obtain ⟨a, e, one, rest⟩ := Build.bind_run.mp run
      obtain ⟨b, e', two, last⟩ := Build.bind_run.mp rest
      have second : e'.Labelled := by
        refine labelled.of_le ((?_ : Build.Grows _) _ _ _ last)
        cases op <;> simp
      have first : e.Labelled := second.of_le (grows_ground l right scope _ _ _ two)
      have formed := (ground_ensures resolves.proper resolves.agrees left sorted.1 c scope ρ sound
        (resolved.agrees c s) _ _ one first).1
      have further := ready.same_inputs (grows_ground l left scope _ _ _ one).1.symm
      obtain ⟨a', one'⟩ :=
        ground_resolves resolves closed left sorted.1 c scope ρ a e sound ready resolved one first
      obtain ⟨b', two'⟩ := ground_resolves resolves closed right sorted.2 e scope ρ b e'
        ⟨formed, first⟩ further resolved two second
      refine Build.exists_bind one' (Build.exists_bind two' ?_)
      cases op <;> exact ⟨_, rfl⟩
  | .nary op parts, sorted => by
      intro c scope ρ v d sound ready resolved run labelled
      apply ground_closed resolves.exact resolved.constant
      rw [ground] at run ⊢
      obtain ⟨values, e, all, last⟩ := Build.bind_run.mp run
      have between : e.Labelled := by
        refine labelled.of_le ((?_ : Build.Grows _) _ _ _ last)
        cases op <;> simp
      obtain ⟨values', all'⟩ := groundAll_of_each (groundAll_resolves resolves closed parts sorted c
        scope ρ values e sound ready resolved all between)
      refine Build.exists_bind all' ?_
      cases op <;> exact ⟨_, rfl⟩
  | .not body, sorted => by
      intro c scope ρ v d sound ready resolved run labelled
      apply ground_closed resolves.exact resolved.constant
      rw [ground] at run ⊢
      obtain ⟨a, e, one, last⟩ := Build.bind_run.mp run
      cases last
      obtain ⟨a', one'⟩ :=
        ground_resolves resolves closed body sorted c scope ρ a _ sound ready resolved one labelled
      exact Build.exists_bind one' ⟨_, rfl⟩
  | .compare op left right, sorted => by
      intro c scope ρ v d sound ready resolved run labelled
      apply ground_closed resolves.exact resolved.constant
      rw [ground_compare] at run ⊢
      split at run
      case isFalse => cases run
      case isTrue same =>
        rw [if_pos same]
        obtain ⟨a, e, one, rest⟩ := Build.bind_run.mp run
        obtain ⟨b, e', two, last⟩ := Build.bind_run.mp rest
        have grows := Expr.grows_ground l scope left _ _ _ one
        obtain ⟨a', one', -, first⟩ := resolves.ground closed sorted.1 ready resolved one
        obtain ⟨b', two', -, second⟩ := resolves.ground closed sorted.2
          (ready.same_inputs grows.1.symm) resolved two
        have dims : a'.dims = b'.dims := first.dims.trans (same ▸ second.dims.symm)
        refine Build.exists_bind one' (Build.exists_bind two' ?_)
        cases op with
        | equals => exact (Matrix.equals_yields dims).decides.succeeds.mpr trivial
        | subset => exact (Matrix.subset_yields dims).decides.succeeds.mpr trivial
  | .multiplicity m body, sorted => by
      intro c scope ρ v d sound ready resolved run labelled
      apply ground_closed resolves.exact resolved.constant
      rw [ground] at run ⊢
      obtain ⟨a, e, one, last⟩ := Build.bind_run.mp run
      obtain ⟨a', one', -, -⟩ := resolves.ground closed sorted ready resolved one
      refine Build.exists_bind one' ?_
      cases m <;> exact ⟨_, rfl⟩
  | .quantified q decls body, sorted => by
      intro c scope ρ v d sound ready resolved run labelled
      apply ground_closed resolves.exact resolved.constant
      rw [ground] at run ⊢
      obtain ⟨_, e, checked, rest⟩ := Build.bind_run.mp run
      obtain ⟨ok, rfl⟩ := Build.lift_eq_ok.mp checked
      obtain ⟨result, e, unfolded, last⟩ := Build.bind_run.mp rest
      have between : e.Labelled := labelled.of_le (Quantifier.grows_collect _ _ _ _ _ last)
      have bodies : Quantifier.Bodies l z s i (body.holds i) (body.ground l) (body.ground x) := {
        grows := grows_ground l body
        grows' := grows_ground x body
        meant := ground_ensures resolves.proper resolves.agrees body sorted.2
        meant' := ground_ensures resolves.exact.proper resolves.same body sorted.2
        folds := ground_folds resolves.exact body
        follows := ground_resolves resolves closed body sorted.2 }
      obtain ⟨result', unfolded'⟩ := unfoldDecls_resolves resolves closed bodies sorted.1
        (Decl.checkAll_eq_ok ok) sound ready resolved (by simp [Value.Means, Value.In, Value.eval])
        (by simp) unfolded between (by simp [Value.Means, Value.In, Value.eval]) ⟨true, rfl⟩
        Quantifier.start_settled
      exact Build.exists_bind (Build.lift_eq_ok.mpr ⟨ok, rfl⟩) (Build.exists_bind unfolded' ⟨_, rfl⟩)

theorem groundAll_resolves (resolves : l.Resolves x s i) (closed : z.Closed) :
    (fs : List Formula) → WellSortedAll fs → ∀ c (scope : Scope) ρ values d, c.Sound →
      l.Ready scope c → scope.Resolved i.size ρ → groundAll l fs scope c = .ok (values, d) →
        d.Labelled → ∀ f ∈ fs, ∃ v', f.ground x scope z = .ok (v', z)
  | [], _ => by simp
  | f :: fs, sorted => by
      intro c scope ρ values d sound ready resolved run labelled
      rw [groundAll] at run
      obtain ⟨v, e, one, rest⟩ := Build.bind_run.mp run
      obtain ⟨others, e', more, last⟩ := Build.bind_run.mp rest
      cases last
      have between : e.Labelled := labelled.of_le (grows_groundAll l fs scope _ _ _ more)
      have formed := (ground_ensures resolves.proper resolves.agrees f sorted.1 c scope ρ sound
        (resolved.agrees c s) _ _ one between).1
      have further := ready.same_inputs (grows_ground l f scope _ _ _ one).1.symm
      refine List.forall_mem_cons.mpr ⟨?_, ?_⟩
      · exact ground_resolves resolves closed f sorted.1 c scope ρ v e sound ready resolved one between
      · exact groundAll_resolves resolves closed fs sorted.2 e scope ρ others _ ⟨formed, between⟩
          further resolved more labelled

end

mutual

theorem ground_of_conjuncts (exact : x.Exact) (constant : scope.Constant) : (f : Formula) →
    (∀ g ∈ f.conjuncts, ∃ v, g.ground x scope z = .ok (v, z)) →
      ∃ v, f.ground x scope z = .ok (v, z)
  | .binary op left right, each => by
      cases op with
      | and =>
        obtain ⟨a, one⟩ := ground_of_conjuncts exact constant left fun g member =>
          each g (List.mem_append_left _ member)
        obtain ⟨b, two⟩ := ground_of_conjuncts exact constant right fun g member =>
          each g (List.mem_append_right _ member)
        apply ground_closed exact constant
        rw [ground]
        exact Build.exists_bind one (Build.exists_bind two ⟨_, rfl⟩)
      | or | iff | implies => exact each _ (by simp [conjuncts])
  | .nary op parts, each => by
      cases op with
      | and =>
        obtain ⟨values, all⟩ := groundAll_of_each (ground_of_conjunctsAll exact constant parts each)
        apply ground_closed exact constant
        rw [ground]
        exact Build.exists_bind all ⟨_, rfl⟩
      | or | iff | implies => exact each _ (by simp [conjuncts])
  | .const _, each | .not _, each | .compare _ _ _, each | .multiplicity _ _, each
  | .quantified _ _ _, each => each _ (by simp [conjuncts])

theorem ground_of_conjunctsAll (exact : x.Exact) (constant : scope.Constant) :
    (fs : List Formula) → (∀ g ∈ conjunctsAll fs, ∃ v, g.ground x scope z = .ok (v, z)) →
      ∀ f ∈ fs, ∃ v, f.ground x scope z = .ok (v, z)
  | [], _ => by simp
  | f :: fs, each => by
      refine List.forall_mem_cons.mpr ⟨?_, ?_⟩
      · exact ground_of_conjuncts exact constant f fun g member =>
          each g (List.mem_append_left _ member)
      · exact ground_of_conjunctsAll exact constant fs fun g member =>
          each g (List.mem_append_right _ member)

end

end Formula

end Resolve

end ModelFinder
