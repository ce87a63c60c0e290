import ModelFinder.Proofs.Sat.Refinement
import ModelFinder.Proofs.Sat.Weights

/-! Budgets bound weights exactly. The variable of a budget at a stage can be true exactly if what is
left there is within the budget: making it so satisfies all clauses, and the clauses allow no true
variable otherwise. The walk keeps the first at every step, and the second for all budgets whose clauses
have been given. Its clauses are about the stages and these variables alone. -/
namespace ModelFinder

namespace Budgets

variable {stages : List Stage} {stage : Stage} {limit number budget : Nat} {s t : Nat → Bool}
  {given clauses : List Clause} {todo : List (Nat × Nat)} {x y : Auxiliaries} {w next last : Walk}

/-- Each auxiliary variable is true exactly if what is left at its stage is within its budget. -/
def Canonical (stages : List Stage) (x : Auxiliaries) (t : Nat → Bool) : Prop :=
  ∀ number budget v, x.nodes[(number, budget)]? = some v →
    (t v = true ↔ Stage.left stages t number ≤ budget)

/-- As far as the auxiliary variables tell, a budget pays for what is left at a stage. -/
def Affords (stages : List Stage) (x : Auxiliaries) (t : Nat → Bool) (number budget : Nat) : Prop :=
  ∀ stage, stages[number]? = some stage →
    stage.total ≤ budget ∨ (stage.total = stage.weight ∧ litHolds t stage.item = false) ∨
      ∃ v, x.nodes[(number, stage.tighten budget)]? = some v ∧ t v = true

/-- A budget pays for the literal of a stage, if true, and what remains of it for the rest. -/
def Pays (stages : List Stage) (x : Auxiliaries) (t : Nat → Bool) (number budget : Nat) : Prop :=
  ∃ stage, stages[number]? = some stage ∧ Affords stages x t (number + 1) budget ∧
    (litHolds t stage.item = true →
      stage.weight ≤ budget ∧ Affords stages x t (number + 1) (budget - stage.weight))

def Speaks (stages : List Stage) (limit last : Nat) (l : Int) : Prop :=
  l.natAbs ∈ stages.map (·.item.natAbs) ∨ limit < l.natAbs ∧ l.natAbs ≤ last

/-- The auxiliary variables are beyond a limit and differ, the clauses speak of them and of the stages
only, the clauses hold wherever the variables are
canonical, and a true one pays under the clauses, unless it still is to be given its clauses. -/
structure Explained (stages : List Stage) (limit : Nat) (clauses : List Clause)
    (todo : List (Nat × Nat)) (x : Auxiliaries) : Prop where
  beyond : limit ≤ x.last
  claimed : ∀ v ∈ x.claimed, v ≤ limit
  ranges : ∀ (key : Nat × Nat) v, x.nodes[key]? = some v → limit < v ∧ v ≤ x.last
  apart : ∀ (key other : Nat × Nat) v, x.nodes[key]? = some v → x.nodes[other]? = some v → key = other
  pending : ∀ key ∈ todo, key.1 < stages.length ∧ ∃ v, x.nodes[key]? = some v
  speaks : ∀ clause ∈ clauses, ∀ l ∈ clause, Speaks stages limit x.last l
  holds : ∀ t, Canonical stages x t → Satisfies t clauses
  pays : ∀ number budget v, x.nodes[(number, budget)]? = some v → (number, budget) ∉ todo →
    ∀ t, Satisfies t clauses → t v = true → Pays stages x t number budget

def Keeps (x y : Auxiliaries) : Prop :=
  ∀ (key : Nat × Nat) v, x.nodes[key]? = some v → y.nodes[key]? = some v

theorem Keeps.canonical (keeps : Keeps x y) (canonical : Canonical stages y t) :
    Canonical stages x t :=
  fun number budget v found => canonical number budget v (keeps _ v found)

theorem Keeps.affords (keeps : Keeps x y) (affords : Affords stages x t number budget) :
    Affords stages y t number budget := by
  intro stage found
  rcases affords stage found with all | alone | ⟨v, isNode, isTrue⟩
  · exact .inl all
  · exact .inr (.inl alone)
  · exact .inr (.inr ⟨v, keeps _ v isNode, isTrue⟩)

theorem Keeps.pays (keeps : Keeps x y) (pays : Pays stages x t number budget) :
    Pays stages y t number budget := by
  obtain ⟨stage, found, without, within⟩ := pays
  refine ⟨stage, found, keeps.affords without, fun holds => ?_⟩
  exact ⟨(within holds).1, keeps.affords (within holds).2⟩

section Explained

theorem Speaks.mono {l : Int} {later : Nat} (speaks : Speaks stages limit number l)
    (more : number ≤ later) : Speaks stages limit later l :=
  speaks.imp_right fun own => ⟨own.1, Nat.le_trans own.2 more⟩

theorem Explained.add (explained : Explained stages limit clauses todo x) {clause : Clause}
    (speaks : ∀ l ∈ clause, Speaks stages limit x.last l)
    (holds : ∀ t, Canonical stages x t → clause.holds t = true) :
    Explained stages limit (clauses ++ [clause]) todo x where
  beyond := explained.beyond
  claimed := explained.claimed
  ranges := explained.ranges
  apart := explained.apart
  pending := explained.pending
  speaks := List.forall_mem_append.mpr ⟨explained.speaks, List.forall_mem_singleton.mpr speaks⟩
  holds t canonical :=
    satisfies_append.mpr ⟨explained.holds t canonical, by simpa using holds t canonical⟩
  pays number budget v found settled t satisfied :=
    explained.pays number budget v found settled t (satisfies_append.mp satisfied).1

/-- A budget that pays under the clauses needs no more clauses. -/
theorem Explained.settle (explained : Explained stages limit clauses todo x)
    {others : List (Nat × Nat)} (fewer : others ⊆ todo)
    (all : ∀ key ∈ todo, key = (number, budget) ∨ key ∈ others) {v : Nat}
    (found : x.nodes[(number, budget)]? = some v)
    (pays : ∀ t, Satisfies t clauses → t v = true → Pays stages x t number budget) :
    Explained stages limit clauses others x where
  beyond := explained.beyond
  claimed := explained.claimed
  ranges := explained.ranges
  apart := explained.apart
  pending key member := explained.pending key (fewer member)
  speaks := explained.speaks
  holds := explained.holds
  pays number' budget' v' found' settled t satisfied isTrue := by
    by_cases same : (number', budget') = (number, budget)
    · cases same
      obtain rfl := Option.some.inj (found.symm.trans found')
      exact pays t satisfied isTrue
    · refine explained.pays number' budget' v' found' (fun member => ?_) t satisfied isTrue
      exact (all _ member).elim same settled

theorem unclaimed_eq {claimed : List Nat} {n : Nat} (below : ∀ v ∈ claimed, v < n) :
    unclaimed claimed n = (n, []) := by
  induction claimed with
  | nil => rfl
  | cons v rest ih =>
    rw [unclaimed, if_pos (below v List.mem_cons_self)]
    exact ih fun v member => below v (List.mem_cons_of_mem _ member)

theorem Explained.insert (explained : Explained stages limit clauses todo x) {key : Nat × Nat}
    (known : key.1 < stages.length) (fresh : x.nodes[key]? = none) :
    Explained stages limit clauses (key :: todo)
        ⟨x.nodes.insert key (x.last + 1), x.last + 1, []⟩ ∧
      Keeps x ⟨x.nodes.insert key (x.last + 1), x.last + 1, []⟩ := by
  have found : ∀ (other : Nat × Nat) v, (x.nodes.insert key (x.last + 1))[other]? = some v ↔
      (other = key ∧ v = x.last + 1) ∨ x.nodes[other]? = some v := by
    intro other v
    rw [Std.HashMap.getElem?_insert]
    by_cases same : key = other
    · subst same
      simp [fresh, eq_comm]
    · simp [same, Ne.symm same]
  have keeps : Keeps x ⟨x.nodes.insert key (x.last + 1), x.last + 1, []⟩ :=
    fun other v old => (found other v).mpr (.inr old)
  have beyond := explained.beyond
  refine ⟨⟨Nat.le_succ_of_le beyond, by simp, ?_, ?_, ?_, ?_, ?_, ?_⟩, keeps⟩
  · intro other v isNode
    rcases (found other v).mp isNode with ⟨-, rfl⟩ | old
    · exact ⟨Nat.lt_succ_of_le beyond, Nat.le_refl _⟩
    · have ranges := explained.ranges other v old
      exact ⟨ranges.1, Nat.le_succ_of_le ranges.2⟩
  · intro one two v isOne isTwo
    rcases (found one v).mp isOne with ⟨rfl, rfl⟩ | oneOld
    · rcases (found two _).mp isTwo with ⟨rfl, -⟩ | twoOld
      · rfl
      · exact absurd (explained.ranges two _ twoOld).2 (Nat.not_succ_le_self _)
    · rcases (found two v).mp isTwo with ⟨rfl, rfl⟩ | twoOld
      · exact absurd (explained.ranges one _ oneOld).2 (Nat.not_succ_le_self _)
      · exact explained.apart one two v oneOld twoOld
  · intro other member
    rcases List.mem_cons.mp member with rfl | old
    · exact ⟨known, _, (found other _).mpr (.inl ⟨rfl, rfl⟩)⟩
    · obtain ⟨small, v, isNode⟩ := explained.pending other old
      exact ⟨small, v, keeps other v isNode⟩
  · exact fun clause member l isIn => (explained.speaks clause member l isIn).mono (Nat.le_succ _)
  · exact fun t canonical => explained.holds t (keeps.canonical canonical)
  · intro number budget v isNode settled t satisfied isTrue
    obtain ⟨notNew, notOld⟩ := not_or.mp (fun member => settled (List.mem_cons.mpr member))
    rcases (found _ v).mp isNode with ⟨same, -⟩ | old
    · exact absurd same notNew
    · exact keeps.pays (explained.pays number budget v old notOld t satisfied isTrue)

/-- Where every true variable pays, what a budget affords is what is left. -/
theorem Explained.left_le (explained : Explained stages limit clauses [] x)
    (lined : Stage.Lined stages) (satisfied : Satisfies t clauses)
    (affords : Affords stages x t number budget) : Stage.left stages t number ≤ budget := by
  -- By induction on the number of stages from here on.
  induction rest : stages.length - number generalizing number budget with
  | zero =>
    rw [Stage.left_of_none (List.getElem?_eq_none (by omega))]
    exact Nat.zero_le budget
  | succ rest' ih =>
    have small : number < stages.length := by omega
    have found := List.getElem?_eq_getElem small
    rcases affords _ found with all | ⟨alone, isFalse⟩ | ⟨v, isNode, isTrue⟩
    · exact Nat.le_trans (lined.left_le found) all
    · rw [Stage.left_eq found, lined.left_after found alone, isFalse]
      exact Nat.zero_le budget
    · rw [← lined.tighten_iff found]
      obtain ⟨stage, isStage, without, within⟩ :=
        explained.pays _ _ v isNode List.not_mem_nil t satisfied isTrue
      obtain rfl := Option.some.inj (found.symm.trans isStage)
      rw [Stage.left_eq found]
      split
      · rename_i holds
        obtain ⟨payable, affords⟩ := within holds
        have remains := ih affords (by omega)
        omega
      · rw [Nat.zero_add]
        exact ih without (by omega)

/-- Every assignment up to the limit goes with canonical auxiliary variables. -/
theorem Explained.exists_canonical (explained : Explained stages limit clauses todo x)
    (known : ∀ stage ∈ stages, stage.item ≠ 0 ∧ stage.item.natAbs ≤ limit) (s : Nat → Bool) :
    ∃ t, (∀ v ≤ limit, t v = s v) ∧ Canonical stages x t := by
  classical
  let t : Nat → Bool := fun v =>
    if v ≤ limit then s v
    else decide (∃ key : Nat × Nat, x.nodes[key]? = some v ∧ Stage.left stages s key.1 ≤ key.2)
  have same : ∀ v ≤ limit, t v = s v := fun v small => if_pos small
  have left : ∀ number, Stage.left stages t number = Stage.left stages s number := by
    intro number
    apply weigh_congr
    intro item member
    obtain ⟨stage, isStage, rfl⟩ := List.mem_map.mp member
    exact litHolds_congr (same _ (known stage (List.mem_of_mem_drop isStage)).2)
  refine ⟨t, same, fun number budget v found => ?_⟩
  have above := (explained.ranges _ v found).1
  have value : t v = decide (∃ key : Nat × Nat, x.nodes[key]? = some v ∧
      Stage.left stages s key.1 ≤ key.2) := if_neg (Nat.not_le_of_lt above)
  rw [value, decide_eq_true_eq, left]
  constructor
  · rintro ⟨key, isKey, within⟩
    obtain rfl := explained.apart _ _ v isKey found
    exact within
  · exact fun within => ⟨(number, budget), found, within⟩

end Explained

section Walk

/-- The clauses that a walk has come to explain all budgets, except for some still to do and the fresh
ones, which belong to a stage. -/
def Ready (stages : List Stage) (limit : Nat) (given : List Clause) (todo : List (Nat × Nat))
    (number : Nat) (w : Walk) : Prop :=
  Explained stages limit (given ++ w.clauses.toList) (w.fresh.map (number, ·) ++ todo) w.auxiliaries

structure Continues (w next : Walk) : Prop where
  last : w.auxiliaries.last ≤ next.auxiliaries.last
  keeps : Keeps w.auxiliaries next.auxiliaries
  clauses : w.clauses.toList <+: next.clauses.toList

theorem Continues.refl (w : Walk) : Continues w w :=
  ⟨Nat.le_refl _, fun _ _ => id, List.prefix_rfl⟩

theorem Continues.trans (first : Continues w next) (second : Continues next last) :
    Continues w last :=
  ⟨Nat.le_trans first.last second.last,
    fun key v found => second.keeps key v (first.keeps key v found),
    first.clauses.trans second.clauses⟩

theorem Continues.satisfies (continues : Continues w next)
    (satisfied : Satisfies t (given ++ next.clauses.toList)) :
    Satisfies t (given ++ w.clauses.toList) := by
  obtain ⟨before, now⟩ := satisfies_append.mp satisfied
  exact satisfies_append.mpr ⟨before, fun clause member => now clause (continues.clauses.subset member)⟩

/-- A clause that holds wherever the variables are canonical can be given. -/
theorem Ready.push (ready : Ready stages limit given todo number w) {clause : Clause}
    (speaks : ∀ l ∈ clause, Speaks stages limit w.auxiliaries.last l)
    (holds : ∀ t, Canonical stages w.auxiliaries t → clause.holds t = true) :
    Ready stages limit given todo number { w with clauses := w.clauses.push clause } := by
  rw [Ready, Array.toList_push, ← List.append_assoc]
  exact Explained.add ready speaks holds

theorem Continues.push (w : Walk) (clause : Clause) :
    Continues w { w with clauses := w.clauses.push clause } :=
  ⟨Nat.le_refl _, fun _ _ => id, by rw [Array.toList_push]; exact List.prefix_append ..⟩

theorem holds_of_push {clause : Clause}
    (satisfied : Satisfies t (given ++ (w.clauses.push clause).toList)) : clause.holds t = true := by
  rw [Array.toList_push, ← List.append_assoc] at satisfied
  exact (satisfies_append.mp satisfied).2 _ (List.mem_singleton_self _)

/-- A literal stands for a budget at a stage: it is true with canonical variables if the budget
suffices, and the budget affords what is left wherever the literal is true. Without a literal the budget
always suffices. -/
structure Represents (stages : List Stage) (limit : Nat) (x : Auxiliaries) (number budget : Nat)
    (literal : Option Int) : Prop where
  speaks : ∀ l ∈ literal, Speaks stages limit x.last l
  canonical : ∀ t, Canonical stages x t → Stage.left stages t number ≤ budget →
    ∀ l ∈ literal, litHolds t l = true
  affords : ∀ t, (∀ l ∈ literal, litHolds t l = true) → Affords stages x t number budget

theorem affords_of_found (found : stages[number]? = some stage)
    (each : stage.total ≤ budget ∨ (stage.total = stage.weight ∧ litHolds t stage.item = false) ∨
      ∃ v, x.nodes[(number, stage.tighten budget)]? = some v ∧ t v = true) :
    Affords stages x t number budget := by
  intro other isStage
  obtain rfl := Option.some.inj (found.symm.trans isStage)
  exact each

theorem represents_none (affords : ∀ t, Affords stages x t number budget) :
    Represents stages limit x number budget none :=
  ⟨by simp, by simp, fun t _ => affords t⟩

/-- At the last stage that counts, the negation of its literal stands for a budget below its weight. -/
theorem represents_item (found : stages[number]? = some stage) (nonzero : stage.item ≠ 0)
    (short : ¬ stage.total ≤ budget) (alone : stage.total = stage.weight) :
    Represents stages limit x number budget (some (-stage.item)) where
  speaks := by
    rintro l ⟨⟩
    rw [Speaks, Int.natAbs_neg]
    exact .inl (List.mem_map_of_mem (List.mem_of_getElem? found))
  canonical := by
    rintro t - within l ⟨⟩
    rw [litHolds_neg t nonzero, Bool.not_eq_true']
    by_contra isTrue
    rw [Stage.left_eq found, if_pos (by simpa using isTrue)] at within
    omega
  affords t holds := by
    have isTrue := holds _ rfl
    rw [litHolds_neg t nonzero, Bool.not_eq_true'] at isTrue
    exact affords_of_found found (.inr (.inl ⟨alone, isTrue⟩))

/-- The variable of a budget, tightened to what sums can come to, stands for it. -/
theorem represents_variable (lined : Stage.Lined stages) (found : stages[number]? = some stage)
    {v : Nat} (range : limit < v ∧ v ≤ x.last)
    (isNode : x.nodes[(number, stage.tighten budget)]? = some v) :
    Represents stages limit x number budget (some (v : Int)) := by
  have value : ∀ t, litHolds t (v : Int) = t v := fun t => litHolds_natCast (by omega)
  constructor
  · rintro l ⟨⟩
    exact .inr range
  · rintro t canonical within l ⟨⟩
    rw [value]
    exact (canonical _ _ v isNode).mpr ((lined.tighten_iff found).mpr within)
  · intro t holds
    exact affords_of_found found (.inr (.inr ⟨v, isNode, value t ▸ holds _ rfl⟩))

theorem node_ready (lined : Stage.Lined stages)
    (known : ∀ stage ∈ stages, stage.item ≠ 0 ∧ stage.item.natAbs ≤ limit)
    (ready : Ready stages limit given todo number w) {literal : Option Int}
    (ran : w.node number stages[number]? budget = (literal, next)) :
    Ready stages limit given todo number next ∧ Continues w next ∧
      Represents stages limit next.auxiliaries number budget literal := by
  cases found : stages[number]? with
  | none =>
    rw [found] at ran
    cases ran
    refine ⟨ready, .refl w, represents_none fun t stage isStage => ?_⟩
    cases found.symm.trans isStage
  | some stage =>
    obtain ⟨⟨nodes, latest, claimed⟩, clauses, fresh⟩ := w
    rw [found] at ran
    simp only [Walk.node] at ran
    split at ran
    · rename_i all
      cases ran
      exact ⟨ready, .refl _, represents_none fun t => affords_of_found found (.inl all)⟩
    rename_i short
    split at ran
    · rename_i alone
      cases ran
      have nonzero := (known stage (List.mem_of_getElem? found)).1
      exact ⟨ready, .refl _, represents_item found nonzero short alone⟩
    split at ran
    · rename_i v isNode
      cases ran
      exact ⟨ready, .refl _, represents_variable lined found (ready.ranges _ v isNode) isNode⟩
    · rename_i absent
      have beyond : limit ≤ latest := ready.beyond
      have below : ∀ v ∈ claimed, v < latest + 1 := fun v member =>
        Nat.lt_succ_of_le (Nat.le_trans (ready.claimed v member) beyond)
      rw [unclaimed_eq below] at ran
      cases ran
      have small : number < stages.length := (List.getElem?_eq_some_iff.mp found).1
      obtain ⟨explained, keeps⟩ := Explained.insert ready small absent
      refine ⟨explained, ⟨Nat.le_succ _, keeps, List.prefix_rfl⟩, ?_⟩
      exact represents_variable lined found ⟨Nat.lt_succ_of_le beyond, Nat.le_refl _⟩ (by simp)

/-- A budget is passed on if it suffices wherever the premise fails; then it affords what is left
wherever the premise fails. -/
theorem pass_ready (lined : Stage.Lined stages)
    (known : ∀ stage ∈ stages, stage.item ≠ 0 ∧ stage.item.natAbs ≤ limit)
    (ready : Ready stages limit given todo number w) {premise : Clause}
    (spoken : ∀ l ∈ premise, Speaks stages limit w.auxiliaries.last l)
    (enough : ∀ t, Canonical stages w.auxiliaries t → premise.holds t = false →
      Stage.left stages t number ≤ budget) :
    Ready stages limit given todo number (w.pass number stages[number]? budget premise) ∧
      Continues w (w.pass number stages[number]? budget premise) ∧
      ∀ t, Satisfies t (given ++
          (w.pass number stages[number]? budget premise).clauses.toList) →
        premise.holds t = false → Affords stages
          (w.pass number stages[number]? budget premise).auxiliaries t number budget := by
  unfold Walk.pass
  cases ran : w.node number stages[number]? budget with
  | mk literal next =>
    obtain ⟨noted, continues, represents⟩ := node_ready lined known ready ran
    cases literal with
    | none => exact ⟨noted, continues, fun t _ _ => represents.affords t (by simp)⟩
    | some l =>
      have holds : ∀ t, Clause.holds t (premise ++ [l]) = true ↔
          premise.holds t = true ∨ litHolds t l = true := by
        intro t
        simp [Clause.holds]
      have spoken' : ∀ l' ∈ premise ++ [l], Speaks stages limit next.auxiliaries.last l' :=
        List.forall_mem_append.mpr ⟨fun l' member => (spoken l' member).mono continues.last,
          List.forall_mem_singleton.mpr (represents.speaks l rfl)⟩
      refine ⟨noted.push spoken' fun t isCanonical => (holds t).mpr ?_,
        continues.trans (.push next _),
        fun t satisfied fails => represents.affords t fun l' isLiteral => ?_⟩
      · cases premiseHolds : premise.holds t with
        | true => exact .inl rfl
        | false =>
          have within := enough t (continues.keeps.canonical isCanonical) premiseHolds
          exact .inr (represents.canonical t isCanonical within l rfl)
      · obtain rfl := Option.some.inj isLiteral
        exact ((holds t).mp (holds_of_push satisfied)).resolve_left (by simp [fails])

/-- A budget whose true variable pays, by the clauses given, waits for no more of them. -/
theorem Ready.settle (ready : Ready stages limit given ((number, budget) :: todo) (number + 1) w)
    {v : Nat} (isNode : w.auxiliaries.nodes[(number, budget)]? = some v)
    (pays : ∀ t, Satisfies t (given ++ w.clauses.toList) → t v = true →
      Pays stages w.auxiliaries t number budget) :
    Ready stages limit given todo (number + 1) w := by
  refine Explained.settle ready ?_ ?_ isNode pays
  · exact List.append_subset.mpr ⟨List.subset_append_left .., fun key member =>
      List.mem_append_right _ (List.mem_cons_of_mem _ member)⟩
  · intro key member
    rcases List.mem_append.mp member with fresh | old
    · exact .inr (List.mem_append_left _ fresh)
    · exact (List.mem_cons.mp old).imp id (List.mem_append_right _)

/-- What a budget pays for where the literal of its stage is true: it is passed on less the weight of
the literal, or, where it is below that weight, the literal is forbidden. -/
theorem branch_ready (lined : Stage.Lined stages)
    (known : ∀ stage ∈ stages, stage.item ≠ 0 ∧ stage.item.natAbs ≤ limit)
    (ready : Ready stages limit given todo (number + 1) w) {premise : Clause}
    (spoken : ∀ l ∈ premise, Speaks stages limit w.auxiliaries.last l)
    (enough : ∀ t, Canonical stages w.auxiliaries t → premise.holds t = false →
      stage.weight + Stage.left stages t (number + 1) ≤ budget)
    (ran : (if stage.weight ≤ budget then
        w.pass (number + 1) stages[number + 1]? (budget - stage.weight) premise
      else { w with clauses := w.clauses.push premise }) = next) :
    Ready stages limit given todo (number + 1) next ∧ Continues w next ∧
      ∀ t, Satisfies t (given ++ next.clauses.toList) → premise.holds t = false →
        stage.weight ≤ budget ∧
          Affords stages next.auxiliaries t (number + 1) (budget - stage.weight) := by
  split at ran
  · rename_i payable
    subst ran
    have affordable : ∀ t, Canonical stages w.auxiliaries t → premise.holds t = false →
        Stage.left stages t (number + 1) ≤ budget - stage.weight := by
      intro t canonical fails
      have := enough t canonical fails
      omega
    obtain ⟨passed, continues, within⟩ := pass_ready lined known ready spoken affordable
    exact ⟨passed, continues, fun t satisfied fails => ⟨payable, within t satisfied fails⟩⟩
  · rename_i unpayable
    subst ran
    refine ⟨ready.push spoken fun t canonical => ?_, .push w _, fun t satisfied fails => ?_⟩
    · by_contra fails
      have := enough t canonical (by simpa using fails)
      omega
    · cases (holds_of_push satisfied).symm.trans fails

/-- The clauses of a budget explain it. -/
theorem expand_ready (lined : Stage.Lined stages)
    (known : ∀ stage ∈ stages, stage.item ≠ 0 ∧ stage.item.natAbs ≤ limit)
    (found : stages[number]? = some stage)
    (ready : Ready stages limit given ((number, budget) :: todo) (number + 1) w) :
    Ready stages limit given todo (number + 1)
        (Walk.expand number stage stages[number + 1]? w budget) ∧
      Continues w (Walk.expand number stage stages[number + 1]? w budget) := by
  have nonzero := (known stage (List.mem_of_getElem? found)).1
  obtain ⟨-, v, isNode⟩ := ready.pending (number, budget) (by simp)
  have range := ready.ranges _ v isNode
  have here : w.auxiliaries.nodes.getD (number, budget) 0 = v := by
    rw [Std.HashMap.getD_eq_getD_getElem?, isNode]
    rfl
  have fails : ∀ t, Clause.holds t [-(v : Int)] = false ↔ t v = true := by
    intro t
    simp [Clause.holds, litHolds_neg_natCast (show 1 ≤ v by omega)]
  have failsBoth : ∀ t, Clause.holds t [-(v : Int), -stage.item] = false ↔
      t v = true ∧ litHolds t stage.item = true := by
    intro t
    simp [Clause.holds, litHolds_neg_natCast (show 1 ≤ v by omega), litHolds_neg t nonzero]
  have meaning : ∀ t, Canonical stages w.auxiliaries t → t v = true →
      (if litHolds t stage.item then stage.weight else 0) + Stage.left stages t (number + 1) ≤
        budget := by
    intro t canonical isTrue
    rw [← Stage.left_eq found]
    exact (canonical _ _ v isNode).mp isTrue
  have own : Speaks stages limit w.auxiliaries.last (-(v : Int)) := by
    rw [Speaks, Int.natAbs_neg]
    exact .inr range
  have item : ∀ last, Speaks stages limit last (-stage.item) := by
    intro last
    rw [Speaks, Int.natAbs_neg]
    exact .inl (List.mem_map_of_mem (List.mem_of_getElem? found))
  -- The budget is passed on as it is, and then as the literal of the stage leaves it.
  have whole : ∀ t, Canonical stages w.auxiliaries t → Clause.holds t [-(v : Int)] = false →
      Stage.left stages t (number + 1) ≤ budget := by
    intro t canonical isTrue
    have within := meaning t canonical ((fails t).mp isTrue)
    omega
  obtain ⟨passed, first, without⟩ := pass_ready lined known ready
    (List.forall_mem_singleton.mpr own) whole
  have less : ∀ t, Canonical stages (w.pass (number + 1) stages[number + 1]? budget
      [-(v : Int)]).auxiliaries t → Clause.holds t [-(v : Int), -stage.item] = false →
        stage.weight + Stage.left stages t (number + 1) ≤ budget := by
    intro t canonical both
    obtain ⟨isTrue, holds⟩ := (failsBoth t).mp both
    have within := meaning t (first.keeps.canonical canonical) isTrue
    rwa [if_pos holds] at within
  obtain ⟨branched, second, within⟩ := branch_ready lined known passed
    (List.forall_mem_cons.mpr ⟨own.mono first.last, List.forall_mem_singleton.mpr (item _)⟩) less rfl
  unfold Walk.expand
  rw [here]
  have continues := first.trans second
  refine ⟨branched.settle (continues.keeps _ v isNode) fun t satisfied isTrue => ?_, continues⟩
  refine ⟨stage, found, ?_, fun holds => within t satisfied ((failsBoth t).mpr ⟨isTrue, holds⟩)⟩
  exact second.keeps.affords (without t (second.satisfies satisfied) ((fails t).mpr isTrue))

theorem expandAll_ready (lined : Stage.Lined stages)
    (known : ∀ stage ∈ stages, stage.item ≠ 0 ∧ stage.item.natAbs ≤ limit)
    (found : stages[number]? = some stage) (budgets : List Nat)
    (ready : Ready stages limit given (budgets.map (number, ·) ++ todo) (number + 1) w) :
    Ready stages limit given todo (number + 1)
        (budgets.foldl (Walk.expand number stage stages[number + 1]?) w) ∧
      Continues w (budgets.foldl (Walk.expand number stage stages[number + 1]?) w) := by
  induction budgets generalizing w with
  | nil => exact ⟨ready, .refl w⟩
  | cons budget rest ih =>
    obtain ⟨next, first⟩ := expand_ready lined known found ready
    obtain ⟨last, second⟩ := ih next
    exact ⟨last, first.trans second⟩

/-- After a walk over the rest of the stages all budgets are explained. -/
theorem walk_explained (lined : Stage.Lined stages)
    (known : ∀ stage ∈ stages, stage.item ≠ 0 ∧ stage.item.natAbs ≤ limit) (rest : List Stage)
    (isRest : stages.drop number = rest) (ready : Ready stages limit given [] number w) :
    Explained stages limit (given ++ (walk number rest w).clauses.toList) []
        (walk number rest w).auxiliaries ∧ Continues w (walk number rest w) := by
  induction rest generalizing number w with
  | nil =>
    have ended := List.drop_eq_nil_iff.mp isRest
    have none : w.fresh = [] := by
      apply List.eq_nil_iff_forall_not_mem.mpr
      intro budget member
      have small := (ready.pending (number, budget) (by simpa using member)).1
      omega
    rw [Ready, none] at ready
    exact ⟨ready, .refl w⟩
  | cons stage rest ih =>
    have small : number < stages.length := by
      by_contra ended
      rw [List.drop_eq_nil_of_le (Nat.le_of_not_lt ended)] at isRest
      cases isRest
    rw [List.drop_eq_getElem_cons small] at isRest
    obtain ⟨isStage, isRest⟩ := List.cons.inj isRest
    have found : stages[number]? = some stage := by rw [List.getElem?_eq_getElem small, isStage]
    have after : rest.head? = stages[number + 1]? := by rw [← isRest, List.head?_drop]
    rw [walk, after]
    have waiting : Ready stages limit given (w.fresh.map (number, ·) ++ []) (number + 1)
        { w with fresh := [] } := ready
    obtain ⟨next, first⟩ := expandAll_ready lined known found w.fresh waiting
    obtain ⟨explained, second⟩ := ih isRest next
    exact ⟨explained, ⟨Nat.le_trans first.last second.last,
      fun key v isNode => second.keeps key v (first.keeps key v isNode),
      first.clauses.trans second.clauses⟩⟩

end Walk

section Enforce

variable {items : List (Int × Nat)} {less : Nat} {b : Budgets}

/-- Budgets leave out the literals that weigh more than some budget not below the latest one, have the
stages of the others, and have explained all that they have enforced. -/
def Serves (items : List (Int × Nat)) (limit budget : Nat) (given : List Clause) (b : Budgets) : Prop :=
  ∃ first, budget ≤ first ∧
    b.excluded = (items.filter fun item => !decide (item.2 ≤ first)).map (-·.1) ∧
    b.stages = Stage.ofItems (items.filter fun item => decide (item.2 ≤ first)) ∧
    Explained b.stages limit given [] b.auxiliaries

theorem make_serves (weighted : Weighted limit items) (budget : Nat) :
    Serves items limit budget [] (make items limit budget) := by
  refine ⟨budget, Nat.le_refl _, ?_, ?_, Nat.le_refl _, ?_, by simp [make], by simp [make], by simp,
    by simp, fun t _ => satisfies_nil, by simp [make]⟩
  · rw [make, List.partition_eq_filter_filter]
    rfl
  · rw [make, List.partition_eq_filter_filter]
  · intro v member
    obtain ⟨item, isItem, rfl⟩ := List.mem_map.mp (List.mem_mergeSort.mp member)
    exact (weighted.known item isItem).2

theorem enforce_serves (weighted : Weighted limit items) (serves : Serves items limit budget given b)
    (within : less ≤ budget) :
    Enforces items limit less (given ++ (b.enforce less).2.1.toList) (b.enforce less).1 ∧
      Serves items limit less (given ++ (b.enforce less).2.1.toList) (b.enforce less).2.2 := by
  obtain ⟨first, above, isExcluded, isStages, explained⟩ := serves
  obtain ⟨same, lined⟩ := Stage.ofItems_lined (items.filter fun item => decide (item.2 ≤ first))
  rw [← isStages] at same lined
  have known : ∀ stage ∈ b.stages, stage.item ≠ 0 ∧ stage.item.natAbs ≤ limit := by
    intro stage member
    have isItem : (stage.item, stage.weight) ∈ Stage.items b.stages := List.mem_map_of_mem member
    rw [same] at isItem
    exact weighted.known _ (List.mem_filter.mp isItem).1
  have ready : Ready b.stages limit given [] 0 ⟨b.auxiliaries, #[], []⟩ := by
    simpa [Ready] using explained
  cases ran : (⟨b.auxiliaries, #[], []⟩ : Walk).node 0 b.stages[0]? less with
  | mk root start =>
    obtain ⟨ready, first', represents⟩ := node_ready lined known ready ran
    obtain ⟨explained, second⟩ := walk_explained lined known b.stages rfl ready
    have enforced : b.enforce less = (b.excluded ++ root.toList, (walk 0 b.stages start).clauses,
        { b with auxiliaries := (walk 0 b.stages start).auxiliaries }) := by
      rw [enforce, List.head?_eq_getElem?, ran]
    rw [enforced]
    refine ⟨?_, first, Nat.le_trans within above, isExcluded, isStages, explained⟩
    -- The weight is that of the literals left out and of those that have stages.
    have weight : ∀ t, Stage.left b.stages t 0 +
        weigh t (items.filter fun item => !decide (item.2 ≤ first)) = weigh t items := by
      intro t
      rw [Stage.left, List.drop_zero, same]
      exact weigh_filter _
    have excluded : ∀ t, Meets t b.excluded ↔
        ∀ item ∈ items.filter fun item => !decide (item.2 ≤ first), litHolds t item.1 = false := by
      intro t
      rw [isExcluded, Meets, List.forall_mem_map]
      refine forall₂_congr fun item member => ?_
      rw [litHolds_neg t (weighted.known item (List.mem_filter.mp member).1).1, Bool.not_eq_true']
    have rooted : ∀ t, Meets t root.toList ↔ ∀ l ∈ root, litHolds t l = true := by
      intro t
      simp [Meets, Option.mem_toList]
    refine ⟨fun s => ?_, fun t satisfied meets => ?_⟩
    · obtain ⟨t, agrees, isCanonical⟩ := explained.exists_canonical known s
      refine ⟨t, fun v _ => agrees v, explained.holds t isCanonical, fun light => ?_⟩
      rw [← weighted.weigh_congr fun v _ => agrees v, ← weight t] at light
      refine meets_append.mpr ⟨(excluded t).mpr fun item member => ?_, (rooted t).mpr ?_⟩
      · by_contra isTrue
        have heavy := le_weigh member (by simpa using isTrue)
        have beyond := (List.mem_filter.mp member).2
        simp only [Bool.not_eq_true', decide_eq_false_iff_not] at beyond
        omega
      · exact represents.canonical t (second.keeps.canonical isCanonical) (by omega)
    · obtain ⟨apart, isRoot⟩ := meets_append.mp meets
      have pays := second.keeps.affords (represents.affords t ((rooted t).mp isRoot))
      rw [← weight t, weigh_eq_zero ((excluded t).mp apart), Nat.add_zero]
      exact explained.left_le lined satisfied pays

theorem reaches_serves (weighted : Weighted limit items)
    (reached : WeightEncoder.Reaches items limit budget given b) :
    Serves items limit budget given b := by
  induction reached with
  | start budget => exact make_serves weighted budget
  | enforce reached within ok ih =>
    have next := (enforce_serves weighted ih within).2
    rw [Except.ok.inj ok] at next
    exact next

/-- Budgets bound weights exactly and never fail. -/
theorem exact : WeightEncoder.Exact Budgets := by
  intro items limit budget less given b weighted reached within
  refine ⟨_, _, _, rfl, ?_⟩
  exact (enforce_serves weighted (reaches_serves weighted reached) within).1

/-- Budgets speak of weighted literals and their own variables only. -/
theorem confined : WeightEncoder.Confined Budgets := by
  intro items limit budget given b weighted reached clause member l isIn
  obtain ⟨first, -, -, isStages, explained⟩ := reaches_serves weighted reached
  have same := (Stage.ofItems_lined (items.filter fun item => decide (item.2 ≤ first))).1
  rw [← isStages] at same
  refine (explained.speaks clause member l isIn).imp_left fun isStage => ?_
  obtain ⟨stage, isStage, spoken⟩ := List.mem_map.mp isStage
  have isItem : (stage.item, stage.weight) ∈ Stage.items b.stages := List.mem_map_of_mem isStage
  rw [same] at isItem
  exact List.mem_map.mpr ⟨_, (List.mem_filter.mp isItem).1, spoken⟩

end Enforce

end Budgets

end ModelFinder
