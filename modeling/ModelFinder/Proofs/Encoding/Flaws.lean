import ModelFinder.Finder.Solve
import ModelFinder.Proofs.Encoding.Meaning
import ModelFinder.Proofs.Encoding.Possible
import ModelFinder.Proofs.Encoding.Progress

/-! Flaws of a formula: a variable that no declaration binds, and a declaration that is not
first-order. Relations are looked up before anything else, but variables and declarations are checked
only where grounding comes to them, and under declarations it comes to what follows only if the
declared variables have a choice. So a flaw is sure to be found if the declarations on the way to it
have one in some instance within the bounds, whatever tuples the variables outside of them are given
among those that their domains may have. -/
namespace ModelFinder

/-- The formula has a flaw behind the given declarations. Only flaws behind declarations that are
reached through count. -/
inductive Formula.Flawed (reached : List Decl → List Decl → Prop) : List Decl → Formula → Prop where
  | left {outer op f g} : Flawed reached outer f → Flawed reached outer (.binary op f g)
  | right {outer op f g} : Flawed reached outer g → Flawed reached outer (.binary op f g)
  | part {outer op parts f} : f ∈ parts → Flawed reached outer f →
      Flawed reached outer (.nary op parts)
  | negated {outer f} : Flawed reached outer f → Flawed reached outer (.not f)
  | compared {outer op left right v} : v ∈ left.variableLeaves ++ right.variableLeaves →
      v ∉ outer.map (·.var) → Flawed reached outer (.compare op left right)
  | counted {outer m e v} : v ∈ e.variableLeaves → v ∉ outer.map (·.var) →
      Flawed reached outer (.multiplicity m e)
  | higherOrder {outer q decls body d} : d ∈ decls → d.multiplicity ≠ .one →
      Flawed reached outer (.quantified q decls body)
  | domain {outer q before d after body v} : reached outer before → v ∈ d.domain.variableLeaves →
      v ∉ (outer ++ before).map (·.var) →
      Flawed reached outer (.quantified q (before ++ d :: after) body)
  | body {outer q decls f} : reached outer decls → Flawed reached (outer ++ decls) f →
      Flawed reached outer (.quantified q decls f)

def Assignment.Single (ρ : Assignment) (size : Nat) : Prop :=
  ∀ v, ∃ t : List Nat, t.length = v.arity ∧ (∀ a ∈ t, a < size) ∧ ρ v = (· = t)

/-- The assignments that declarations lead to, where a variable is given a tuple that its domain may
have. -/
inductive Bounds.Leads (b : Bounds) : List Decl → Assignment → Prop where
  | start {ρ : Assignment} (single : ρ.Single b.univ.size) : b.Leads [] ρ
  | choose {outer : List Decl} {ρ : Assignment} {d : Decl} {t : List Nat} (leads : b.Leads outer ρ)
      (possible : d.domain.possible b.widest ρ t) : b.Leads (outer ++ [d]) (ρ.bind d.var t)

/-- What leads through a last declaration gives its variable a tuple that its domain may have. -/
theorem Bounds.Leads.last {b : Bounds} {outer : List Decl} {d : Decl} {ρ : Assignment}
    (leads : b.Leads (outer ++ [d]) ρ) : ∃ before t, b.Leads outer before ∧
      d.domain.possible b.widest before t ∧ ρ = before.bind d.var t := by
  generalize given : outer ++ [d] = decls at leads
  cases leads with
  | start single => simp at given
  | choose leads possible =>
    obtain ⟨rfl, rfl⟩ := List.append_singleton_inj.mp given
    exact ⟨_, _, leads, possible, rfl⟩

/-- Whatever tuples the outer declarations lead to, the inner ones have a choice in some instance
within the bounds. -/
def Bounds.Reaches (b : Bounds) (outer decls : List Decl) : Prop :=
  ∀ ρ : Assignment, b.Leads outer ρ → ∃ m : Instance, m.Within b ∧
    Quantifier.some.holds m.interpretation (fun _ => True) decls ρ

theorem Assignment.Single.bind {ρ : Assignment} {n : Nat} (single : ρ.Single n) {v : Variable}
    {t : List Nat} (length : t.length = v.arity) (inside : ∀ a ∈ t, a < n) :
    (ρ.bind v t).Single n := by
  intro w
  by_cases same : w = v
  · subst same
    refine ⟨t, length, inside, ?_⟩
    funext u
    rw [Assignment.bind, if_pos rfl]
  · obtain ⟨u, fits⟩ := single w
    refine ⟨u, fits.1, fits.2.1, ?_⟩
    rw [← fits.2.2]
    funext u
    rw [Assignment.bind, if_neg same]

theorem Assignment.exists_single {n : Nat} (positive : 0 < n) : ∃ ρ : Assignment, ρ.Single n := by
  refine ⟨fun v t => t = List.replicate v.arity 0, fun v => ⟨_, List.length_replicate, ?_, rfl⟩⟩
  intro a member
  rw [List.eq_of_mem_replicate member]
  exact positive

/-- The variables in scope are those of the declarations, each with the tuple that an assignment gives
it which they lead to. -/
structure Scope.Fixes (scope : Scope) (b : Bounds) (outer : List Decl) (ρ : Assignment) : Prop where
  known : ∀ v m, scope.find? v = some m → v ∈ outer.map (·.var)
  single : ρ.Single b.univ.size
  leads : b.Leads outer ρ
  spans : scope.Spans b.univ.size ρ
  agrees : ∀ c s, scope.Agrees b.univ.size c s ρ

namespace Scope

variable {scope : Scope} {b : Bounds} {outer : List Decl} {ρ : Assignment}

theorem empty_fixes (single : ρ.Single b.univ.size) : Scope.empty.Fixes b [] ρ :=
  ⟨fun v m found => (by cases found), single, .start single, fun v m found => (by cases found),
    fun _ _ => agrees_empty⟩

theorem Fixes.choose (fixes : scope.Fixes b outer ρ) {d : Decl} (fitting : d.var.arity = d.domain.arity)
    {domain : Matrix} (spans : domain.Spans b.univ.size d.domain.arity (d.domain.possible b.widest ρ))
    {cell : Nat × Value} (stored : cell ∈ domain.cells.entries)
    (meant : ∀ c s, (Matrix.ofIndices domain.dims [cell.1]).Denotes b.univ.size d.var.arity c s
      (· = decodeIndex b.univ.size d.domain.arity cell.1)) :
    (scope.push d.var (.ofIndices domain.dims [cell.1])).Fixes b (outer ++ [d])
      (ρ.bind d.var (decodeIndex b.univ.size d.domain.arity cell.1)) := by
  obtain ⟨bound, possible⟩ := spans.cells cell stored
  constructor
  · intro w r found
    rw [find?_push] at found
    rw [List.map_append]
    split at found
    · rename_i same
      exact List.mem_append_right _ (List.mem_singleton.mpr same)
    · exact List.mem_append_left _ (fixes.known w r found)
  · refine fixes.single.bind ?_ (decodeIndex_lt b.univ.size_pos _ _)
    rw [fitting]
    exact length_decodeIndex _ _ _
  · exact fixes.leads.choose possible
  · refine fixes.spans.push ?_
    rw [spans.dims, fitting]
    exact Matrix.ofIndices_spans fun i member => by
      obtain rfl := List.mem_singleton.mp member
      exact ⟨bound, rfl⟩
  · exact fun c s => (fixes.agrees c s).push (meant c s)

end Scope

theorem Expr.scoped_of_ground {l : Leaves} {scope : Scope} {e : Expr} {c d : Circuit} {m : Matrix}
    (run : e.ground l scope c = .ok (m, d)) :
    ∀ v ∈ e.variableLeaves, (scope.find? v).isSome = true := by
  induction e generalizing c m d with
  | rel _ | const _ => simp [variableLeaves]
  | var v =>
    unfold ground at run
    cases found : scope.find? v with
    | none =>
      rw [found] at run
      cases run
    | some r => simp [variableLeaves, found]
  | binary op left right leftIh rightIh =>
    rw [ground_binary] at run
    obtain ⟨first, between, one, rest⟩ := Build.bind_run.mp run
    obtain ⟨second, e, two, -⟩ := Build.bind_run.mp rest
    intro v member
    rcases List.mem_append.mp member with inLeft | inRight
    · exact leftIh one v inLeft
    · exact rightIh two v inRight
  | unary op body ih =>
    rw [ground_unary] at run
    obtain ⟨first, between, one, -⟩ := Build.bind_run.mp run
    exact ih one

theorem Scope.Fixes.mem_of_ground {l : Leaves} {scope : Scope} {b : Bounds} {outer : List Decl}
    {ρ : Assignment} (fixes : scope.Fixes b outer ρ) {e : Expr} {c d : Circuit} {m : Matrix}
    (run : e.ground l scope c = .ok (m, d)) {v : Variable} (leaf : v ∈ e.variableLeaves) :
    v ∈ outer.map (·.var) := by
  obtain ⟨r, found⟩ := Option.isSome_iff_exists.mp (Expr.scoped_of_ground run v leaf)
  exact fixes.known v r found

theorem Decl.one_of_checkAll {decls : List Decl} (ok : checkAll decls = .ok ()) :
    ∀ d ∈ decls, d.multiplicity = .one := by
  induction decls with
  | nil => simp
  | cons d rest ih =>
    unfold checkAll at ok
    split at ok
    · cases ok
    · rename_i isOne
      split at ok
      · cases ok
      · intro e member
        rcases List.mem_cons.mp member with rfl | inRest
        · exact Decidable.not_not.mp isOne
        · exact ih ok e inRest

/-- A visit comes to an item it looks for, unless it is stopped, and then by one of the items. -/
theorem visitUntil_reaches {α β : Type} {step : α → β → Build (β × Bool)}
    (invariant : β → Circuit → Prop) (sought : α → Prop) {items : List α} {acc after : β}
    {done : Bool} {c d : Circuit}
    (grows : ∀ a acc, Build.Grows (step a acc))
    (kept : ∀ a ∈ items, ∀ acc c, invariant acc c →
      Build.Ensures (step a acc) c fun result d => invariant result.1 d)
    (start : invariant acc c) (run : visitUntil step items acc c = .ok ((after, done), d))
    (labelled : d.Labelled) (reached : done = true ∨ ∃ a ∈ items, sought a) :
    ∃ a ∈ items, (done = true ∨ sought a) ∧ ∃ acc c next e, invariant acc c ∧
      step a acc c = .ok ((next, done), e) ∧ e.Labelled := by
  induction items generalizing acc c with
  | nil =>
    cases run
    simp at reached
  | cons item items ih =>
    obtain ⟨⟨next, stopped⟩, e, here, rest⟩ := Build.bind_run.mp run
    cases stopped with
    | true =>
      cases rest
      exact ⟨item, List.mem_cons_self, .inl rfl, acc, c, _, _, start, here, labelled⟩
    | false =>
      have between : e.Labelled := labelled.of_le (grows_visitUntil items next grows _ _ _ rest)
      have now := (kept item List.mem_cons_self acc c start _ _ here between).2
      have further := ih (fun a member => kept a (List.mem_cons_of_mem item member)) now rest
      have later := fun reached =>
        (further reached).imp fun a found => And.imp_left (List.mem_cons_of_mem item) found
      rcases reached with stopped | ⟨a, member, isSought⟩
      · exact later (.inl stopped)
      cases done with
      | true => exact later (.inl rfl)
      | false =>
        rcases List.mem_cons.mp member with rfl | inRest
        · exact ⟨a, member, .inr isSought, acc, c, next, e, start, here, between⟩
        · exact later (.inr ⟨a, inRest, isSought⟩)

section Unfold

variable {l : Leaves} {q : Quantifier} {body : Scope → Build Value} {s : Nat → Bool}
  {i : Interpretation} {holds : Assignment → Prop} {before rest : List Decl}

/-- Unfolding comes to the declarations behind the first ones if these have a choice, or if it was
stopped, for only what is behind can stop it. -/
theorem unfoldDecls_reaches (proper : l.Proper) (agrees : l.Agrees s i)
    (sorted : ∀ d ∈ before ++ rest, d.domain.WellSorted)
    (fitting : ∀ d ∈ before ++ rest, d.var.arity = d.domain.arity)
    (grows : ∀ scope, Build.Grows (body scope))
    (meant : ∀ c scope ρ, c.Sound → scope.Agrees i.size c s ρ →
      Build.Ensures (body scope) c fun v d => v.Means d s (holds ρ))
    {scope : Scope} {outer : List Decl} {ρ : Assignment} {guard : Value}
    {acc after : Array Value} {done : Bool} {c d : Circuit} (sound : c.Sound)
    (fixes : scope.Fixes l.bounds outer ρ) (guarded : guard.In c) (inside : ∀ v ∈ acc.toList, v.In c)
    (run : unfoldDecls l q body (before ++ rest) scope guard acc c = .ok ((after, done), d))
    (labelled : d.Labelled)
    (reached : done = true ∨ Quantifier.some.holds i (fun _ => True) before ρ) :
    ∃ scope ρ guard acc c result d, c.Sound ∧ scope.Fixes l.bounds (outer ++ before) ρ ∧
      unfoldDecls l q body rest scope guard acc c = .ok (result, d) ∧ d.Labelled := by
  have size := agrees.size
  have positive := agrees.size_pos
  induction before generalizing scope outer ρ guard acc after done c d with
  | nil =>
    rw [List.append_nil]
    exact ⟨scope, ρ, guard, acc, c, _, _, sound, fixes, run, labelled⟩
  | cons decl before ih =>
    obtain ⟨isSorted, furtherSorted⟩ := List.forall_mem_cons.mp sorted
    obtain ⟨isFitting, furtherFitting⟩ := List.forall_mem_cons.mp fitting
    obtain ⟨domain, e, grounded, visited⟩ := Build.bind_run.mp run
    have behind : ∀ (cell : Nat × Value) (acc : Array Value), Build.Grows
        (liftM (Circuit.and guard cell.2) >>= fun both => unfoldDecls l q body (before ++ rest)
          (scope.push decl.var (.ofIndices domain.dims [cell.1])) both acc) :=
      fun cell acc => grows_choice grows _ guard cell.2 acc
    have grown : c ≤ e := Expr.grows_ground l scope decl.domain _ _ _ grounded
    have between : e.Labelled := labelled.of_le (grows_visitUntil _ _ behind _ _ _ visited)
    obtain ⟨formed, denotes⟩ := Expr.ground_ensures proper agrees isSorted sound
      (size ▸ fixes.agrees c s) _ _ grounded between
    have spans := Expr.ground_spans proper fixes.spans isSorted _ _ _ grounded
    -- At a cell the variable is given the tuple of the cell, under a guard of the circuit.
    have chosen : ∀ cell ∈ domain.cells.entries,
        (scope.push decl.var (.ofIndices domain.dims [cell.1])).Fixes l.bounds (outer ++ [decl])
          (ρ.bind decl.var (decodeIndex i.size decl.domain.arity cell.1)) := by
      intro cell stored
      rw [size] at denotes positive ⊢
      exact fixes.choose isFitting spans stored fun c' s' => denotes.chosen isFitting positive stored
    have guardMeans : ∀ c', e ≤ c' → guard.Means c' s (guard.eval c s = true) :=
      fun c' above => (Value.means_eval guarded).of_le (grown.trans above)
    have isMember : ∀ cell ∈ domain.cells.entries, ∀ c', e ≤ c' →
        cell.2.Means c' s (cell.2.eval e s = true) := fun cell stored c' above =>
      (Value.means_eval (denotes.formed.inside stored)).of_le above
    have kept : ∀ cell ∈ domain.cells.entries, ∀ (acc : Array Value) c',
        e ≤ c' ∧ c'.Sound ∧ (∀ v ∈ acc.toList, v.In c') → Build.Ensures
          (liftM (Circuit.and guard cell.2) >>= fun both => unfoldDecls l q body (before ++ rest)
            (scope.push decl.var (.ofIndices domain.dims [cell.1])) both acc) c'
          fun result d => e ≤ d ∧ d.Sound ∧ ∀ v ∈ result.1.toList, v.In d := by
      rintro cell stored acc c' ⟨above, isSound, insideNow⟩ result d' ran final
      have inScope := (chosen cell stored).agrees c' s
      rw [← size] at inScope
      obtain ⟨isFormed, gathered⟩ := choice_gathers proper agrees furtherSorted furtherFitting grows
        meant isSound inScope (guardMeans c' above) (isMember cell stored c' above) insideNow _ _ ran
        final
      exact ⟨isFormed, above.trans (behind cell acc _ _ _ ran), ⟨isFormed, final⟩, gathered.inside⟩
    -- A tuple that gives the declarations a choice has a cell, so the visits come to its cell.
    have sought : done = true ∨ ∃ cell ∈ domain.cells.entries,
        Quantifier.some.holds i (fun _ => True) before
          (ρ.bind decl.var (decodeIndex i.size decl.domain.arity cell.1)) := by
      refine reached.imp_right ?_
      rintro ⟨t, isTuple, chosen⟩
      obtain ⟨length, atoms⟩ := denotes.fits isTuple
      obtain ⟨member, stored, -⟩ := (Matrix.holdsAt_iff denotes.formed).mp
        ((denotes.holdsAt length atoms).mpr isTuple)
      refine ⟨_, stored, ?_⟩
      rwa [← length, decodeIndex_encodeIndex _ _ atoms]
    obtain ⟨cell, stored, further, acc, c', next, d', ⟨above, isSound, insideNow⟩, stepped, final⟩ :=
      visitUntil_reaches (fun (acc : Array Value) c' => e ≤ c' ∧ c'.Sound ∧ ∀ v ∈ acc.toList, v.In c')
        _ behind kept ⟨le_rfl, ⟨formed, between⟩, fun v member => (inside v member).of_le grown⟩
        visited labelled sought
    obtain ⟨both, f, more, reachedSound, met, unfolded⟩ := choice_goesOn grows isSound
      (guardMeans c' above) (isMember cell stored c' above) stepped final
    rw [← List.singleton_append, ← List.append_assoc]
    exact ih furtherSorted furtherFitting reachedSound (chosen cell stored) met.1
      (fun v member => (insideNow v member).of_le more) unfolded final further

end Unfold

theorem Leaves.Proper.exists_agrees {l : Leaves} (proper : l.Proper) (s : Nat → Bool) :
    ∃ i, l.Agrees s i :=
  ⟨_, (Numbering.instanceAt_depicts proper.regular proper.numbers s).agrees proper.regular
    proper.numbers⟩

namespace Formula

variable {l : Leaves} {scope : Scope} {outer : List Decl} {ρ : Assignment} {c d : Circuit}
  {reached : List Decl → List Decl → Prop}

theorem sound_of_ground (proper : l.Proper) {f : Formula} (sorted : f.WellSorted) (sound : c.Sound)
    (fixes : scope.Fixes l.bounds outer ρ) {v : Value}
    (run : f.ground l scope c = .ok (v, d)) (labelled : d.Labelled) : d.Sound := by
  obtain ⟨i, agrees⟩ := proper.exists_agrees fun _ => false
  exact ⟨(ground_ensures proper agrees f sorted c scope ρ sound (agrees.size ▸ fixes.agrees c _) _ _
    run labelled).1, labelled⟩

theorem groundAll_at (proper : l.Proper) {fs : List Formula} (sorted : ∀ f ∈ fs, f.WellSorted)
    (sound : c.Sound) (fixes : scope.Fixes l.bounds outer ρ) {values : List Value}
    (run : groundAll l fs scope c = .ok (values, d)) (labelled : d.Labelled) {f : Formula}
    (member : f ∈ fs) :
    ∃ c v d, c.Sound ∧ f.ground l scope c = .ok (v, d) ∧ d.Labelled := by
  induction fs generalizing c values with
  | nil => cases member
  | cons g fs ih =>
    obtain ⟨v, e, here, rest⟩ := Build.bind_run.mp run
    obtain ⟨more, e', there, done⟩ := Build.bind_run.mp rest
    cases done
    have between : e.Labelled := labelled.of_le (grows_groundAll l fs scope _ _ _ there)
    rcases List.mem_cons.mp member with rfl | inRest
    · exact ⟨c, v, e, sound, here, between⟩
    · have next : e.Sound :=
        sound_of_ground proper (sorted g List.mem_cons_self) sound fixes here between
      exact ih (fun f member => sorted f (List.mem_cons_of_mem g member)) next there inRest

/-- Grounding a quantifier comes to what is behind declarations that are reached through. -/
theorem unfold_of_ground (proper : l.Proper) {q : Quantifier} {before rest : List Decl}
    {body : Formula} (sorted : (quantified q (before ++ rest) body).WellSorted) (sound : c.Sound)
    (fixes : scope.Fixes l.bounds outer ρ) {v : Value}
    (run : (quantified q (before ++ rest) body).ground l scope c = .ok (v, d)) (labelled : d.Labelled)
    (reaches : l.bounds.Reaches outer before) :
    ∃ scope ρ guard acc c result d, c.Sound ∧ scope.Fixes l.bounds (outer ++ before) ρ ∧
      unfoldDecls l q (body.ground l) rest scope guard acc c = .ok (result, d) ∧ d.Labelled := by
  obtain ⟨m, within, chosen⟩ := reaches ρ fixes.leads
  have agrees := (Numbering.valuation_depicts proper.regular proper.numbers within).agrees
    proper.regular proper.numbers
  rw [ground] at run
  obtain ⟨⟨⟩, e, checked, rest⟩ := Build.bind_run.mp run
  obtain ⟨ok, rfl⟩ := Build.lift_eq_ok.mp checked
  obtain ⟨⟨values, done⟩, e, unfolded, collected⟩ := Build.bind_run.mp rest
  have between : e.Labelled := labelled.of_le (Quantifier.grows_collect _ _ _ _ _ collected)
  have start : (Value.const true).In c := trivial
  exact unfoldDecls_reaches proper agrees sorted.1 (Decl.checkAll_eq_ok ok) (grows_ground l body)
    (ground_ensures proper agrees body sorted.2) sound fixes start (by simp) unfolded between
    (.inr chosen)

/-- A formula with a flaw that is reached is not grounded. -/
theorem Flawed.not_ground (proper : l.Proper) {f : Formula} (flawed : f.Flawed l.bounds.Reaches outer)
    (sorted : f.WellSorted) (sound : c.Sound) (fixes : scope.Fixes l.bounds outer ρ)
    {v : Value} (run : f.ground l scope c = .ok (v, d)) : ¬ d.Labelled := by
  intro labelled
  induction flawed generalizing scope ρ c v d with
  | @left _ op f g _ ih =>
    rw [ground] at run
    obtain ⟨first, e, one, rest⟩ := Build.bind_run.mp run
    refine ih sorted.1 sound fixes one (labelled.of_le ?_)
    refine Build.grows_bind (grows_ground l g scope) (fun r => ?_) _ _ _ rest
    cases op <;> simp
  | @right _ op f g _ ih =>
    rw [ground] at run
    obtain ⟨first, e, one, rest⟩ := Build.bind_run.mp run
    obtain ⟨second, e', two, after⟩ := Build.bind_run.mp rest
    have between : e'.Labelled := by
      refine labelled.of_le ((?_ : Build.Grows _) _ _ _ after)
      cases op <;> simp
    have reached : e.Labelled := between.of_le (grows_ground l g scope _ _ _ two)
    exact ih sorted.2 (sound_of_ground proper sorted.1 sound fixes one reached) fixes two between
  | @part _ op parts f member _ ih =>
    rw [ground] at run
    obtain ⟨values, e, all, rest⟩ := Build.bind_run.mp run
    have between : e.Labelled := by
      refine labelled.of_le ((?_ : Build.Grows _) _ _ _ rest)
      cases op <;> simp
    have eachSorted := wellSortedAll_iff.mp sorted
    obtain ⟨c', v', d', sound', here, labelled'⟩ :=
      groundAll_at proper eachSorted sound fixes all between member
    exact ih (eachSorted f member) sound' fixes here labelled'
  | negated _ ih =>
    rw [ground] at run
    obtain ⟨value, e, one, rest⟩ := Build.bind_run.mp run
    cases rest
    exact ih sorted sound fixes one labelled
  | compared leaf unknown =>
    rw [ground_compare] at run
    split at run
    · obtain ⟨first, e, one, rest⟩ := Build.bind_run.mp run
      obtain ⟨second, e', two, -⟩ := Build.bind_run.mp rest
      rcases List.mem_append.mp leaf with inLeft | inRight
      · exact unknown (fixes.mem_of_ground one inLeft)
      · exact unknown (fixes.mem_of_ground two inRight)
    · cases run
  | counted leaf unknown =>
    rw [ground] at run
    obtain ⟨matrix, e, one, -⟩ := Build.bind_run.mp run
    exact unknown (fixes.mem_of_ground one leaf)
  | higherOrder member notOne =>
    rw [ground] at run
    obtain ⟨_, e, checked, -⟩ := Build.bind_run.mp run
    exact notOne (Decl.one_of_checkAll (Build.lift_eq_ok.mp checked).1 _ member)
  | domain reached leaf unknown =>
    obtain ⟨scope', ρ', guard, acc, c', result, d', -, fixes', unfolded, -⟩ :=
      unfold_of_ground proper sorted sound fixes run labelled reached
    obtain ⟨domain, e, grounded, -⟩ := Build.bind_run.mp unfolded
    exact unknown (fixes'.mem_of_ground grounded leaf)
  | @body _ q decls f reached _ ih =>
    rw [← List.append_nil decls] at run sorted
    obtain ⟨scope', ρ', guard, acc, c', result, d', sound', fixes', unfolded, labelled'⟩ :=
      unfold_of_ground proper sorted sound fixes run labelled reached
    obtain ⟨value, e, grounded, rest⟩ := Build.bind_run.mp unfolded
    refine ih sorted.2 sound' fixes' grounded (labelled'.of_le ?_)
    exact Build.grows_bind (Quantifier.grows_guarded q guard value) (fun _ => by simp) _ _ _ rest

theorem Flawed.exists_conjunct {f : Formula} (flawed : f.Flawed reached outer) :
    ∃ g ∈ f.conjuncts, g.Flawed reached outer := by
  have alone : ∀ {f : Formula}, f.Flawed reached outer → f.conjuncts = [f] →
      ∃ g ∈ f.conjuncts, g.Flawed reached outer :=
    fun flawed single => ⟨_, single ▸ List.mem_singleton_self _, flawed⟩
  induction flawed with
  | @left _ op f g flawed ih =>
    cases op with
    | and =>
      obtain ⟨h, member, isFlawed⟩ := ih alone
      exact ⟨h, List.mem_append_left _ member, isFlawed⟩
    | or | iff | implies => exact alone (.left flawed) rfl
  | @right _ op f g flawed ih =>
    cases op with
    | and =>
      obtain ⟨h, member, isFlawed⟩ := ih alone
      exact ⟨h, List.mem_append_right _ member, isFlawed⟩
    | or | iff | implies => exact alone (.right flawed) rfl
  | @part _ op parts f member flawed ih =>
    cases op with
    | and =>
      obtain ⟨h, inside, isFlawed⟩ := ih alone
      exact ⟨h, mem_conjunctsAll.mpr ⟨f, member, inside⟩, isFlawed⟩
    | or | iff | implies => exact alone (.part member flawed) rfl
  | negated flawed => exact alone (.negated flawed) rfl
  | compared leaf unknown => exact alone (.compared leaf unknown) rfl
  | counted leaf unknown => exact alone (.counted leaf unknown) rfl
  | higherOrder member notOne => exact alone (.higherOrder member notOne) rfl
  | domain reached leaf unknown => exact alone (.domain reached leaf unknown) rfl
  | body reached flawed => exact alone (.body reached flawed) rfl

end Formula

theorem Formula.encode_unbound {f : Formula} {b : Bounds} {r : Relation} (leaf : r ∈ f.relationLeaves)
    (unbound : b.contains r = false) (sharing logged : Bool) :
    ∃ error, f.encode b sharing logged = .error error ∧ error.kind = .unboundLeaf := by
  cases covered : b.covers f with
  | ok _ =>
    have bound := Bounds.covers_eq_ok.mp covered r leaf
    rw [bound] at unbound
    cases unbound
  | error error =>
    obtain ⟨q, -, rfl⟩ := Bounds.covers_eq_error covered
    exact ⟨.unboundRelation q.name, bind_eq_error.mpr (.inl covered), rfl⟩

theorem Formula.encode_flawed {f : Formula} {b : Bounds} {sharing : Bool} (regular : b.Regular)
    (sorted : f.WellSorted) (few : b.unknownCount < 2147483647) (fits : f.Fits b sharing)
    (flawed : f.Flawed b.Reaches []) (logged : Bool) :
    ∃ error, f.encode b sharing logged = .error error ∧ error.IsInput := by
  cases encoded : f.encode b sharing logged with
  | error error => exact ⟨error, rfl, encode_error regular sorted (by omega) encoded⟩
  | ok result =>
    obtain ⟨values, root, circuit, run, -⟩ := encode_eq_ok encoded
    have ready := Leaves.ofBounds_ready regular (by omega) sharing
    obtain ⟨-, -, -, sound, -⟩ := ground_of_fits regular sorted fits run
    obtain ⟨g, member, isFlawed⟩ := flawed.exists_conjunct
    obtain ⟨ρ, single⟩ := Assignment.exists_single b.univ.size_pos
    obtain ⟨start, d, each, between⟩ := groundAll_of_run run sound.labelled
    obtain ⟨c, v, e, isSound, here, labelled⟩ := groundAll_at ready.proper
      (wellSorted_conjuncts f sorted) start (Scope.empty_fixes single) each between member
    exact absurd labelled (isFlawed.not_ground ready.proper (wellSorted_conjuncts f sorted g member)
      isSound (Scope.empty_fixes single) here)

/-- For bounds that were built and a formula of well-sorted expressions whose tuples and gates can be
labelled: a formula with an unbound relation is rejected as an unbound leaf, and a formula with a
variable that no declaration around it binds, or a declaration that is not first-order, is rejected
for a fault of the input, if the declarations on the way to the flaw have a choice whatever the
declarations outside of them lead to. What is rejected comes to no search and no announcement. -/
theorem encode_rejects_flaws {f : Formula} {b : Bounds} (built : b.Built) (sorted : f.WellSorted)
    (few : b.unknownCount < 2147483647) (o : Options) (fits : f.Fits b o.sharing) :
    (∀ r ∈ f.relationLeaves, b.contains r = false → ∃ error,
      f.encode b o.sharing o.logged = .error error ∧ error.kind = .unboundLeaf ∧
        ∀ search, withEncoding f b o search = ⟨.error error, []⟩) ∧
    (f.Flawed b.Reaches [] → ∃ error,
      f.encode b o.sharing o.logged = .error error ∧ error.IsInput ∧
        ∀ search, withEncoding f b o search = ⟨.error error, []⟩) := by
  have unsearched : ∀ {error}, f.encode b o.sharing o.logged = .error error →
      ∀ search, withEncoding f b o search = ⟨.error error, []⟩ := by
    intro error rejected search
    rw [withEncoding, rejected]
  constructor
  · intro r leaf unbound
    obtain ⟨error, rejected, kind⟩ := Formula.encode_unbound leaf unbound o.sharing o.logged
    exact ⟨error, rejected, kind, unsearched rejected⟩
  · intro flawed
    obtain ⟨error, rejected, isInput⟩ :=
      Formula.encode_flawed built.regular sorted few fits flawed o.logged
    exact ⟨error, rejected, isInput, unsearched rejected⟩

namespace Fork

def chosen : Variable := ⟨0, "x", 1, Nat.one_pos⟩

def shared : Variable := ⟨1, "y", 1, Nat.one_pos⟩

def loose : Variable := ⟨2, "z", 1, Nat.one_pos⟩

def choice : Decl := ⟨chosen, .one, .rel narrow⟩

/-- The domain has a tuple only if the variable declared before has one of the narrow relation. -/
def dependent : Decl := ⟨shared, .one, .binary .intersection (.var chosen) (.rel narrow)⟩

def nested : Formula :=
  .quantified .all [choice] (.quantified .all [dependent] (.multiplicity .some (.var loose)))

theorem single_narrow : (single 3).interpretation.tuples narrow [0] := by
  have agrees := (single_depicts 3).agrees built.regular numbers
  refine (agrees.tuples narrow narrowRange rfl (by decide) [0]).mpr ⟨rfl, by decide, .inr ⟨3, ?_, rfl⟩⟩
  exact stands_narrow.mpr ⟨rfl, rfl⟩

theorem choice_reached : bounds.Reaches [] [choice] := fun _ _ =>
  ⟨single 3, (single_isModel (by decide)).1, [0], single_narrow, trivial⟩

theorem dependent_reached : bounds.Reaches [choice] [dependent] := by
  intro ρ leads
  obtain ⟨before, t, -, ⟨range, found, i, upper, rfl⟩, rfl⟩ :=
    @Bounds.Leads.last bounds [] choice ρ leads
  obtain rfl : narrowRange = range := Option.some.inj found
  obtain rfl : i = 0 := by simpa [narrowRange, first] using upper
  exact ⟨single 3, (single_isModel (by decide)).1, [0], ⟨rfl, single_narrow⟩, trivial⟩

theorem nested_flawed : nested.Flawed bounds.Reaches [] := by
  refine .body choice_reached (.body dependent_reached (.counted (v := loose) ?_ ?_))
  · simp [Expr.variableLeaves]
  · simp [choice, dependent, chosen, shared, loose]

def scope : Scope := Scope.empty.push chosen (.ofIndices ⟨2, 1⟩ [0])

theorem scope_entries : (Matrix.ofIndices ⟨2, 1⟩ [0]).cells.entries = [(0, .const true)] := by
  have listed : (SortedTable.ofList [(0, Value.const true)]).entries = [(0, .const true)] :=
    SortedTable.ofList_entries (by simp)
  simp [Matrix.ofIndices, Matrix.ofCells, listed]

variable {c : Circuit}

theorem guarded_run :
    (liftM (Circuit.and (.const true) (.lit 3)) : Build Value) c = .ok (.lit 3, c) := by
  have alone : Circuit.combine .and true [.const true, .lit 3] c = (.lit 3, c) :=
    Sample.combine_single .and (by decide) (by decide) c
  exact congrArg Except.ok alone

theorem dependent_run (inputs : c.inputs = 3) : dependent.domain.ground (.ofBounds bounds) scope c =
    .ok (.ofCells ⟨2, 1⟩ [(0, .lit 3)], c) := by
  refine Build.bind_run.mpr ⟨_, c, rfl, Build.bind_run.mpr ⟨_, c, narrow_leaf inputs, ?_⟩⟩
  show Matrix.intersection (.ofIndices ⟨2, 1⟩ [0]) _ c = _
  have common : (Matrix.ofIndices ⟨2, 1⟩ [0]).cells.entries.filterMap
      (fun cell => (Matrix.ofCells ⟨2, 1⟩ [(0, .lit 3)]).cells.index[cell.1]?.map
        (cell.1, cell.2, ·)) = [(0, .const true, .lit 3)] := by
    simp [scope_entries, SortedTable.index, narrow_entries]
  rw [Matrix.intersection]
  refine Build.bind_run.mpr ⟨(), c, rfl, ?_⟩
  rw [common]
  exact Build.bind_run.mpr ⟨[(0, .lit 3)], c, Build.bind_run.mpr ⟨_, c,
    Build.bind_run.mpr ⟨_, c, guarded_run, rfl⟩, rfl⟩, rfl⟩

/-- A quantifier over the only cell of the narrow relation fails as its body does. -/
theorem quantified_run {d : Decl} {body : Formula} {inScope : Scope} {error : Error}
    (checked : Decl.checkAll [d] = .ok ()) (domain : d.domain.ground (.ofBounds bounds) inScope c =
      .ok (.ofCells ⟨2, 1⟩ [(0, .lit 3)], c))
    (failed : body.ground (.ofBounds bounds) (inScope.push d.var (.ofIndices ⟨2, 1⟩ [0])) c =
      .error error) :
    (Formula.quantified .all [d] body).ground (.ofBounds bounds) inScope c = .error error := by
  have unfolded : unfoldDecls (.ofBounds bounds) .all (body.ground (.ofBounds bounds)) [d] inScope
      (.const true) #[] c = .error error := by
    rw [unfoldDecls]
    refine Build.bind_run_error.mpr (.inr ⟨_, c, domain, ?_⟩)
    rw [narrow_entries, visitUntil]
    refine Build.bind_run_error.mpr (.inl (Build.bind_run_error.mpr (.inr ⟨_, c, guarded_run, ?_⟩)))
    exact Build.bind_run_error.mpr (.inl failed)
  rw [Formula.ground]
  refine Build.bind_run_error.mpr (.inr ⟨(), c, Build.lift_eq_ok.mpr ⟨checked, rfl⟩, ?_⟩)
  exact Build.bind_run_error.mpr (.inl unfolded)

theorem nested_run (inputs : c.inputs = 3) :
    groundConjuncts (.ofBounds bounds) nested.conjuncts c = .error (.unboundVariable "z") := by
  have run : nested.ground (.ofBounds bounds) .empty c = .error (.unboundVariable "z") :=
    quantified_run rfl (narrow_leaf inputs) (quantified_run rfl (dependent_run inputs) rfl)
  exact Build.bind_run_error.mpr (.inl (Build.bind_run_error.mpr (.inl run)))

end Fork

theorem sample_rejects_flaws : ∃ error,
    Fork.nested.encode Fork.bounds true false = .error error ∧ error.IsInput ∧
      ∀ search, withEncoding Fork.nested Fork.bounds .standard search = ⟨.error error, []⟩ := by
  have sorted : Fork.nested.WellSorted := by
    refine ⟨fun d member => ?_, fun d member => ?_, trivial⟩
    · obtain rfl := List.mem_singleton.mp member
      trivial
    · obtain rfl := List.mem_singleton.mp member
      exact ⟨trivial, trivial, rfl⟩
  have fits : Fork.nested.Fits Fork.bounds true := by
    intro result circuit run
    cases (Fork.nested_run (by rw [Leaves.circuit, Fork.numbering_leaves]; rfl)).symm.trans run
  exact (encode_rejects_flaws Fork.built sorted (by decide) .standard fits).2 Fork.nested_flawed

namespace Sample

def bound : Variable := ⟨0, "x", 1, Nat.one_pos⟩

def loose : Variable := ⟨1, "y", 1, Nat.one_pos⟩

def stray (domain : ConstExpr) : Formula :=
  .quantified .all [⟨bound, .one, .const domain⟩] (.multiplicity .some (.var loose))

theorem stray_flawed (domain : ConstExpr) : (stray domain).Flawed (fun _ _ => True) [] := by
  refine .body trivial (.counted (v := loose) (by simp [Expr.variableLeaves]) ?_)
  simp [bound, loose]

/-- Over no atoms there is nothing to ground. -/
theorem stray_none_run (c : Circuit) :
    groundConjuncts (.ofBounds bounds) (stray .none).conjuncts c =
      .ok (([.const true], .const true), c) := by
  have none : (liftM (Circuit.all []) : Build Value) c = .ok (.const true, c) := by
    simp [Circuit.all, Circuit.combine, Circuit.operands, Ascending.sort, List.eraseReps]
    rfl
  have one : (liftM (Circuit.all [.const true]) : Build Value) c = .ok (.const true, c) := by
    simp [Circuit.all, Circuit.combine, Circuit.operands, Ascending.sort, List.eraseReps]
    rfl
  have collected : (stray .none).ground (.ofBounds bounds) .empty c = .ok (.const true, c) :=
    Build.bind_run.mpr ⟨(), c, rfl, Build.bind_run.mpr ⟨(#[], false), c, rfl, none⟩⟩
  exact Build.bind_run.mpr ⟨[.const true], c, Build.bind_run.mpr ⟨_, c, collected, rfl⟩,
    Build.bind_run.mpr ⟨_, c, one, rfl⟩⟩

end Sample

/-- Behind a declaration without a choice a variable that nothing binds goes unseen. -/
theorem unreached_flaw_encoded : (Sample.stray .none).Flawed (fun _ _ => True) [] ∧
    (Sample.stray .none).encode Sample.bounds true false =
      .ok (.folded ⟨true, Sample.stray .none, Sample.bounds, none⟩) := by
  refine ⟨Sample.stray_flawed .none, ?_⟩
  exact bind_eq_ok.mpr ⟨(), rfl, bind_eq_ok.mpr ⟨_, Sample.stray_none_run _, rfl⟩⟩

end ModelFinder
