import ModelFinder.Proofs.Sat.Faults
import ModelFinder.Proofs.Sat.Weights
import ModelFinder.Sat.Cost

/-! The search for a model of least weight finds one. Whatever bounds were asked for on the way, the
solver holds what it held at first and clauses that leave the variables of that time free; so a bound
that cannot be met shows that no model is lighter than the latest, and every other round finds a
lighter model. -/
namespace ModelFinder

structure PlainStore.Cheapest (p : PlainStore) (cost : (Nat → Bool) → Nat) (a : Nat → Bool) :
    Prop where
  allows : Allows p.clauses p.live [] a
  least : ∀ c, Allows p.clauses p.live [] c → cost a ≤ cost c

namespace Store

variable {σ β : Type} {held : σ → List Clause} {p : PlainStore} {start st next : Store σ}
  {given : List Clause}

structure Priced (p : PlainStore) (st : Store σ) : Prop where
  handed : ∀ v ∈ st.costs.keys, v ∈ p.handed
  small : ∀ v ∈ st.costs.keys, v < 2147483648
  distinct : st.costs.keys.Nodup

structure Extends (held : σ → List Clause) (start : Store σ) (given : List Clause) (st : Store σ) :
    Prop where
  numVars : start.numVars ≤ st.numVars
  selectors : st.selectors = start.selectors
  costs : st.costs = start.costs
  conserves : start.Conserves st
  holds : ∀ a, Satisfies a (held st.backend) ↔ Satisfies a (held start.backend) ∧ Satisfies a given

theorem Extends.refl (st : Store σ) : st.Extends held [] st :=
  ⟨Nat.le_refl _, rfl, rfl, .refl st, fun a => by simp⟩

theorem Extends.model (extension : start.Extends held given st) (model : Nat → Bool) :
    start.Extends held given { st with model } :=
  ⟨extension.numVars, extension.selectors, extension.costs,
    extension.conserves.trans ⟨rfl, rfl⟩, extension.holds⟩

theorem Extends.trans {more : List Clause} (first : start.Extends held given st)
    (second : st.Extends held more next) : start.Extends held (given ++ more) next :=
  ⟨Nat.le_trans first.numVars second.numVars, second.selectors.trans first.selectors,
    second.costs.trans first.costs, first.conserves.trans second.conserves, fun a => by
      rw [second.holds, first.holds, satisfies_append, and_assoc]⟩

variable (held) in
/-- On the way from a store, an encoder has given clauses for budgets, the latest of which is
`budget`. They leave the variables of the start free, and the variables of the encoder are in use. -/
structure Bounded [WeightEncoder β] (start : Store σ) (budget : Nat) (given : List Clause)
    (encoder : β) (st : Store σ) : Prop where
  extension : start.Extends held given st
  reached : WeightEncoder.Reaches start.items start.numVars budget given encoder
  free : ∀ s : Nat → Bool, ∃ t, (∀ v, 1 ≤ v → v ≤ start.numVars → t v = s v) ∧ Satisfies t given
  covered : given = [] ∨ WeightEncoder.last encoder ≤ st.numVars

theorem Bounded.refl [WeightEncoder β] (start : Store σ) (budget : Nat) :
    start.Bounded held budget [] (WeightEncoder.start start.items start.numVars budget : β) start :=
  ⟨.refl start, .start budget, fun s => ⟨s, fun _ _ _ => rfl, satisfies_nil⟩, .inl rfl⟩

theorem Bounded.model [WeightEncoder β] {budget : Nat} {encoder : β}
    (bounded : start.Bounded held budget given encoder st) (model : Nat → Bool) :
    start.Bounded held budget given encoder { st with model } :=
  ⟨bounded.extension.model model, bounded.reached, bounded.free, bounded.covered⟩

theorem litHolds_signedWord {a : Nat → Bool} {v : Nat} (positive : 1 ≤ v) (small : v < 2147483648) :
    litHolds a (signedWord v) = a v := by
  rw [signedWord_of_natAbs_lt (by omega), litHolds_natCast positive]

theorem Priced.weigh_items (priced : st.Priced p) (realizes : st.Realizes held p)
    (a : Nat → Bool) : weigh a st.items = st.costOf a := by
  have literal : ∀ entry ∈ st.costs.entries, litHolds a (signedWord entry.1) = a entry.1 := by
    intro entry member
    have isKey : entry.1 ∈ st.costs.keys := List.mem_map_of_mem member
    exact litHolds_signedWord (realizes.handed _ (priced.handed _ isKey)).1 (priced.small _ isKey)
  have kept : (st.costs.entries.filter fun entry => litHolds a (signedWord entry.1)) =
      st.costs.entries.filter fun entry => a entry.1 := List.filter_congr literal
  simp only [weigh, items, List.filter_map, List.map_map, Function.comp_def, costOf, kept]

theorem Priced.weighted (priced : st.Priced p) (realizes : st.Realizes held p) :
    Weighted st.numVars st.items := by
  have word : ∀ entry ∈ st.costs.entries, signedWord entry.1 = entry.1 ∧ 1 ≤ entry.1 ∧
      entry.1 ≤ st.numVars := by
    intro entry member
    have isKey : entry.1 ∈ st.costs.keys := List.mem_map_of_mem member
    have small := priced.small _ isKey
    exact ⟨signedWord_of_natAbs_lt (by omega), realizes.handed _ (priced.handed _ isKey)⟩
  refine ⟨fun item member => ?_, ?_⟩
  · obtain ⟨entry, isEntry, rfl⟩ := List.mem_map.mp member
    obtain ⟨same, positive, known⟩ := word entry isEntry
    simp only [same, Int.natAbs_natCast]
    omega
  · have keys : (st.items.map fun item => item.1.natAbs) = st.costs.keys := by
      rw [items, List.map_map, Table.keys]
      refine List.map_congr_left fun entry isEntry => ?_
      rw [Function.comp_apply, (word entry isEntry).1, Int.natAbs_natCast]
    rw [keys]
    exact priced.distinct

theorem Priced.costOf_congr (priced : st.Priced p) {a c : Nat → Bool}
    (same : ∀ v ∈ p.handed, a v = c v) : st.costOf a = st.costOf c := by
  have kept : (st.costs.entries.filter fun entry => a entry.1) =
      st.costs.entries.filter fun entry => c entry.1 :=
    List.filter_congr fun entry member => same _ (priced.handed _ (List.mem_map_of_mem member))
  rw [costOf, costOf, kept]

section Search

variable [Backend σ] [WeightEncoder β] {items : List (Int × Nat)} {limit budget less : Nat}
  {encoder : β} {a : Nat → Bool}

theorem addAuxiliaries_extends (faithful : Faithful σ held)
    (extension : start.Extends held given st) (count : Nat) :
    start.Extends held given (st.addAuxiliaries count) := by
  unfold addAuxiliaries addVariables
  obtain ⟨numVars, selectors, costs, conserves, holds⟩ := extension
  split
  · rename_i none
    refine ⟨numVars, selectors, costs, conserves.trans ⟨?_, rfl⟩, holds⟩
    rw [numVariables, none]
    rfl
  · refine ⟨Nat.le_trans numVars (Nat.le_add_right ..), selectors, costs,
      conserves.trans ⟨Nat.add_sub_add_right .., rfl⟩, fun a => ?_⟩
    rw [faithful.reserve]
    exact holds a

theorem pushAll_extends (faithful : Faithful σ held) (reliable : Reliable σ)
    (clauses : Array Clause) (extension : start.Extends held given st) :
    (st.pushAll clauses).1 = true ∧
      start.Extends held (given ++ clauses.toList) (st.pushAll clauses).2 := by
  obtain ⟨clauses⟩ := clauses
  simp only [pushAll, List.size_toArray, List.foldl_toArray']
  induction clauses generalizing given st with
  | nil =>
    rw [List.append_nil]
    exact ⟨rfl, extension⟩
  | cons clause rest ih =>
    have accepted : (st.push clause).1 = true := reliable.accepts st.backend clause
    have added : Backend.add st.backend clause = (true, (st.push clause).2.backend) :=
      Prod.ext accepted rfl
    have next : start.Extends held (given ++ [clause]) (st.push clause).2 := by
      refine ⟨extension.numVars, extension.selectors, extension.costs,
        extension.conserves.trans ⟨rfl, rfl⟩, fun a => ?_⟩
      rw [faithful.accept _ _ _ added a, extension.holds, satisfies_append, and_assoc]
      simp
    have step : st.push clause = (true, (st.push clause).2) := Prod.ext accepted rfl
    rw [List.foldl_cons, if_pos rfl, step, List.append_cons]
    exact ih next

/-- A bound is added without a failure, and what is given bounds the weight. -/
theorem addBudget_bounded (faithful : Faithful σ held) (reliable : Reliable σ)
    (exact : WeightEncoder.Exact β) (weighted : Weighted start.numVars start.items)
    (bounded : start.Bounded held budget given encoder st) (within : less ≤ budget) :
    ∃ roots clauses next, (st.addBudget encoder less).1 = .ok (roots, next) ∧
      start.Bounded held less (given ++ clauses) next (st.addBudget encoder less).2 ∧
      Enforces start.items start.numVars less (given ++ clauses) roots := by
  obtain ⟨roots, clauses, next, ok, enforces⟩ := exact weighted bounded.reached within
  have wider := addAuxiliaries_extends faithful bounded.extension
    (WeightEncoder.last next - st.numVars)
  have inUse : WeightEncoder.last next ≤
      (st.addAuxiliaries (WeightEncoder.last next - st.numVars)).numVars := by
    unfold addAuxiliaries addVariables
    split
    · rename_i none
      exact Nat.sub_eq_zero_iff_le.mp none
    · exact Nat.sub_le_iff_le_add'.mp (Nat.le_refl _)
  obtain ⟨accepted, added⟩ := pushAll_extends faithful reliable clauses wider
  obtain ⟨-, kept⟩ := pushAll_extends faithful reliable clauses
    (Extends.refl (st.addAuxiliaries (WeightEncoder.last next - st.numVars)))
  refine ⟨roots, clauses.toList, next, ?_, ⟨?_, .enforce bounded.reached within ok, fun s => ?_,
    .inr ?_⟩, enforces⟩
  · simp only [addBudget, ok, accepted, if_true]
  · simpa only [addBudget, ok] using added
  · obtain ⟨t, agrees, satisfied, -⟩ := enforces.completes s
    exact ⟨t, agrees, satisfied⟩
  · simpa only [addBudget, ok] using Nat.le_trans inUse kept.numVars

/-- A reliable solver finds a model of what it holds and what is assumed, or there is none. -/
theorem solve_settles (faithful : Faithful σ held) (reliable : Reliable σ)
    (extension : start.Extends held given st) (assumptions : List Int) :
    start.Extends held given (st.solve assumptions).2 ∧
      (((st.solve assumptions).1 = .ok true ∧ ∃ a, Satisfies a (held st.backend) ∧
          Meets a (start.selectors.toList.map Int.ofNat ++ assumptions) ∧
          ∀ v, 1 ≤ v → v ≤ start.numVars → (st.solve assumptions).2.model v = a v) ∨
        ((st.solve assumptions).1 = .ok false ∧ ¬ Satisfiable (held st.backend)
          (start.selectors.toList.map Int.ofNat ++ assumptions))) := by
  obtain ⟨numVars, selectors, costs, conserves, holds⟩ := extension
  obtain ⟨numVars', -, -, selectors', backend⟩ := @solve_fields σ st _ assumptions
  have costs' : (st.solve assumptions).2.costs = st.costs := by
    cases answer : (Backend.solve st.backend (st.selectors.toList.map Int.ofNat ++ assumptions)).1 <;>
      simp only [solve, answer]
  refine ⟨⟨numVars'.symm ▸ numVars, selectors'.trans selectors, costs'.trans costs,
    conserves.trans (solve_conserves assumptions), fun a => ?_⟩, ?_⟩
  · rw [backend, faithful.keep]
    exact holds a
  · unfold solve
    rw [selectors]
    rcases reliable.answers st.backend (start.selectors.toList.map Int.ofNat ++ assumptions) with
      ⟨model, sat⟩ | ⟨core, unsat⟩
    · obtain ⟨satisfied, meets⟩ := faithful.sat _ _ model sat
      simp only [sat]
      refine .inl ⟨trivial, model, satisfied, meets, fun v positive known => ?_⟩
      simp [show 0 < v by omega, show v ≤ st.numVars by omega]
    · obtain ⟨isCore, excluded⟩ := faithful.unsat _ _ core unsat
      simp only [unsat]
      refine .inr ⟨trivial, fun satisfiable => excluded ?_⟩
      obtain ⟨a, satisfied, meets⟩ := satisfiable
      exact ⟨a, satisfied, fun l member => meets l (isCore member)⟩

end Search

/-- A model of the plain store is completed by one of whatever bounds the store has been given since
then, if the literals that enforce the latest bound allow its weight. -/
theorem Extends.satisfiable (extension : start.Extends held given st)
    (realizes : start.Realizes held p) (priced : start.Priced p) {roots : List Int} {budget : Nat}
    (enforces : Enforces start.items start.numVars budget given roots) {a : Nat → Bool}
    (allowed : Allows p.clauses p.live [] a) (light : start.costOf a ≤ budget) :
    Satisfiable (held st.backend) (start.selectors.toList.map Int.ofNat ++ roots) := by
  obtain ⟨c, completes⟩ := realizes.complete (List.forall_mem_nil _) allowed
  obtain ⟨t, agrees, bounded, meets⟩ := enforces.completes c
  obtain ⟨satisfied, selected, same⟩ := completes t agrees
  obtain ⟨-, -, same'⟩ := completes c fun _ _ _ => rfl
  refine ⟨t, (extension.holds t).mpr ⟨satisfied, bounded⟩, meets_append.mpr ⟨?_, meets ?_⟩⟩
  · exact (meets_append.mp selected).1
  · rw [priced.weigh_items realizes, priced.costOf_congr same']
    exact light

/-- A model under the literals that enforce a bound is one of the plain store within the bound. -/
theorem Extends.allows (extension : start.Extends held given st)
    (realizes : start.Realizes held p) (priced : start.Priced p) {roots : List Int} {budget : Nat}
    (enforces : Enforces start.items start.numVars budget given roots) {a c : Nat → Bool}
    (satisfied : Satisfies a (held st.backend))
    (meets : Meets a (start.selectors.toList.map Int.ofNat ++ roots))
    (agrees : ∀ v, 1 ≤ v → v ≤ start.numVars → c v = a v) :
    Allows p.clauses p.live [] c ∧ start.costOf c ≤ budget := by
  obtain ⟨before, bounded⟩ := (extension.holds a).mp satisfied
  obtain ⟨selected, assumed⟩ := meets_append.mp meets
  have same : ∀ v ∈ p.handed, a v = c v := by
    intro v member
    obtain ⟨positive, known⟩ := realizes.handed v member
    exact (agrees v positive known).symm
  have allowed := realizes.of_solver before
    (show Meets a (start.selectors.toList.map Int.ofNat ++ []) by rwa [List.append_nil])
  refine ⟨PlainStore.allows_agree realizes.clauses realizes.constraints (List.forall_mem_nil _) same
    allowed, ?_⟩
  rw [← priced.costOf_congr same, ← priced.weigh_items realizes]
  exact enforces.confines a bounded assumed

section Search

variable [Backend σ] [WeightEncoder β] {budget : Nat} {encoder : β} {model : Nat → Bool}

section Round

variable {limit : Nat} {st' found : Store σ} {next : β} {roots : List Int}
  (heavy : st.costOf model ≠ 0)
  (added : st.addBudget encoder (st.costOf model - 1) = (.ok (roots, next), st'))

include heavy added

theorem improve_ends (unsat : st'.solve roots = (.ok false, found)) (rounds : Nat) :
    improve limit (rounds + 1) st encoder model = (.ok true, { found with model }) := by
  simp only [improve, if_neg heavy, added, unsat]

theorem improve_goesOn (sat : st'.solve roots = (.ok true, found)) (rounds : Nat) :
    improve limit (rounds + 1) st encoder model =
      improve limit rounds (found.hideAbove limit) next (found.hideAbove limit).model := by
  simp only [improve, if_neg heavy, added, sat]

end Round

/-- A round of the search ends it, for no model is lighter than the latest, or goes on from a lighter
one. -/
theorem improve_round (faithful : Faithful σ held) (reliable : Reliable σ)
    (exact : WeightEncoder.Exact β) (realizes : start.Realizes held p) (priced : start.Priced p)
    (bounded : start.Bounded held budget given encoder st) (within : start.costOf model - 1 ≤ budget)
    (allowed : Allows p.clauses p.live [] model) :
    (∃ last less more, ∃ other : β,
      (∀ rounds, improve start.numVars (rounds + 1) st encoder model = (.ok true, last)) ∧
        p.Cheapest start.costOf last.model ∧ start.Bounded held less more other last) ∨
    ∃ next less more lighter, ∃ other : β,
      (∀ rounds, improve start.numVars (rounds + 1) st encoder model =
        improve start.numVars rounds next other lighter) ∧
        Allows p.clauses p.live [] lighter ∧ start.costOf lighter ≤ less ∧
        less < start.costOf model ∧ start.Bounded held less more other next := by
  have sameCost : st.costOf model = start.costOf model := by
    rw [costOf, bounded.extension.costs]
    rfl
  by_cases free : start.costOf model = 0
  · refine .inl ⟨_, budget, given, encoder, fun rounds => ?_,
      ⟨allowed, fun c _ => free ▸ Nat.zero_le _⟩, bounded.model model⟩
    rw [improve, sameCost, if_pos free]
  have heavy : st.costOf model ≠ 0 := sameCost ▸ free
  obtain ⟨roots, clauses, next, isAdded, bounded', enforces⟩ :=
    addBudget_bounded faithful reliable exact (priced.weighted realizes) bounded within
  obtain ⟨extension, settled⟩ := solve_settles faithful reliable bounded'.extension roots
  have numVars := (@solve_fields σ (st.addBudget encoder (start.costOf model - 1)).2 _ roots).1
  have added : st.addBudget encoder (st.costOf model - 1) =
      (.ok (roots, next), (st.addBudget encoder (start.costOf model - 1)).2) := by
    rw [sameCost]
    exact Prod.ext isAdded rfl
  generalize (st.addBudget encoder (start.costOf model - 1)).2 = st' at *
  have kept : start.Bounded held (start.costOf model - 1) (given ++ clauses) next
      (st'.solve roots).2 := ⟨extension, bounded'.reached, bounded'.free, numVars ▸ bounded'.covered⟩
  generalize solved : st'.solve roots = found at settled kept
  obtain ⟨answer, st''⟩ := found
  rcases settled with ⟨sat, a, satisfied, meets, same⟩ | ⟨unsat, excluded⟩
  · obtain rfl : answer = .ok true := sat
    have agrees : ∀ v, 1 ≤ v → v ≤ start.numVars →
        (st''.hideAbove start.numVars).model v = a v := by
      intro v positive known
      rw [← same v positive known]
      simp [hideAbove, known]
    obtain ⟨allowed', lighter⟩ :=
      bounded'.extension.allows realizes priced enforces satisfied meets agrees
    exact .inr ⟨_, _, _, _, next, improve_goesOn heavy added solved, allowed', lighter, by omega,
      kept.model _⟩
  · obtain rfl : answer = .ok false := unsat
    refine .inl ⟨_, _, _, next, improve_ends heavy added solved, ⟨allowed, fun c allowed' => ?_⟩,
      kept.model model⟩
    by_contra lighter
    have light : start.costOf c ≤ start.costOf model - 1 := by
      have : start.costOf c < start.costOf model := Nat.lt_of_not_le lighter
      omega
    exact excluded (bounded'.extension.satisfiable realizes priced enforces allowed' light)

/-- Improving a model ends with a cheapest one, after no more rounds than it costs and whatever their
limit beyond that. -/
theorem improve_settles (faithful : Faithful σ held) (reliable : Reliable σ)
    (exact : WeightEncoder.Exact β) (realizes : start.Realizes held p) (priced : start.Priced p)
    (bounded : start.Bounded held budget given encoder st) (within : start.costOf model - 1 ≤ budget)
    (allowed : Allows p.clauses p.live [] model) :
    ∃ last less more, ∃ other : β, (∀ rounds, start.costOf model < rounds →
        improve start.numVars rounds st encoder model = (.ok true, last)) ∧
      p.Cheapest start.costOf last.model ∧ start.Bounded held less more other last := by
  -- The cost of the latest model goes down from round to round.
  induction cost : start.costOf model using Nat.strong_induction_on
    generalizing st encoder model given budget with
  | _ cost' ih =>
    subst cost
    rcases improve_round faithful reliable exact realizes priced bounded within allowed with
      ⟨last, less, more, other, ends, cheapest, bounded'⟩ |
        ⟨next, less, more, lighter, other, goesOn, allowed', light, lower, bounded'⟩
    · refine ⟨last, less, more, other, fun rounds enough => ?_, cheapest, bounded'⟩
      obtain ⟨rest, rfl⟩ := Nat.exists_eq_add_one_of_ne_zero (by omega : rounds ≠ 0)
      exact ends rest
    · obtain ⟨last, less', more', other', ends, rest⟩ :=
        ih _ (by omega) bounded' (by omega) allowed' rfl
      refine ⟨last, less', more', other', fun rounds enough => ?_, rest⟩
      obtain ⟨rounds, rfl⟩ := Nat.exists_eq_add_one_of_ne_zero (by omega : rounds ≠ 0)
      rw [goesOn]
      exact ends rounds (by omega)

variable (β) in
def solveMinCostWithin (rounds : Nat) (s : Store σ) : Except Failure Bool × Store σ :=
  match s.solve [] with
  | (.ok true, s) =>
      improve s.numVars rounds s
        (WeightEncoder.start s.items s.numVars (s.costOf s.model - 1) : β) s.model
  | answer => answer

variable (β) in
theorem solveMinCostBy_eq (s : Store σ) : s.solveMinCostBy β =
    s.solveMinCostWithin β ((s.solve []).2.costOf (s.solve []).2.model + 1) := by
  unfold solveMinCostBy solveMinCostWithin
  rcases s.solve [] with ⟨_ | _ | _, next⟩ <;> rfl

/-- The search for a model of least weight ends by itself with an answer, which is that there is a
model exactly if there is one, and then leaves a cheapest one. -/
theorem solveMinCostWithin_settles (faithful : Faithful σ held) (reliable : Reliable σ)
    (exact : WeightEncoder.Exact β) (realizes : st.Realizes held p) (priced : st.Priced p) :
    ∃ answer last budget given, ∃ encoder : β,
      (∀ rounds, st.costOf (st.solve []).2.model < rounds →
        st.solveMinCostWithin β rounds = (.ok answer, last)) ∧
      (answer = true ↔ ∃ a, Allows p.clauses p.live [] a) ∧
      (answer = true → p.Cheapest st.costOf last.model) ∧
      st.Bounded held budget given encoder last := by
  obtain ⟨realizes', answers⟩ := solve_realizes faithful realizes (List.forall_mem_nil _)
  obtain ⟨extension, settled⟩ := solve_settles faithful reliable (.refl st) []
  have numVars := (@solve_fields σ st _ []).1
  unfold solveMinCostWithin
  generalize st.solve [] = found at realizes' answers extension settled numVars
  obtain ⟨result, start⟩ := found
  -- The first search adds nothing, so what is bounded after it is bounded before.
  have costs : start.costs = st.costs := extension.costs
  have sameCost : start.costOf = st.costOf := by
    funext a
    rw [costOf, costs]
    rfl
  have items : start.items = st.items := by rw [Store.items, costs, Store.items]
  rcases settled with ⟨sat, -⟩ | ⟨unsat, -⟩
  · obtain rfl : result = .ok true := sat
    have priced' : start.Priced p := by
      obtain ⟨handed, small, distinct⟩ := priced
      exact ⟨costs ▸ handed, costs ▸ small, costs ▸ distinct⟩
    obtain ⟨last, less, more, other, ends, cheapest, bounded⟩ := improve_settles faithful reliable
      exact realizes' priced' (Bounded.refl start (start.costOf start.model - 1)) (Nat.le_refl _)
      (answers.model rfl)
    refine ⟨true, last, less, more, other, fun rounds enough => ends rounds (sameCost ▸ enough),
      answers.exact true rfl, fun _ => sameCost ▸ cheapest, ?_⟩
    exact ⟨extension.trans bounded.extension, numVars ▸ items ▸ bounded.reached,
      numVars ▸ bounded.free, bounded.covered⟩
  · obtain rfl : result = .ok false := unsat
    have nothing : st.Bounded held 0 [] (WeightEncoder.start st.items st.numVars 0 : β) start :=
      ⟨extension, .start 0, fun s => ⟨s, fun _ _ _ => rfl, satisfies_nil⟩, .inl rfl⟩
    refine ⟨false, start, 0, [], _, fun _ _ => rfl, answers.exact false rfl, ?_, nothing⟩
    intro isTrue
    cases isTrue

/-- The search for a model of least weight gives an answer, which is that there is a model exactly if
there is one, and then leaves a cheapest one. -/
theorem solveMinCostBy_cheapest (faithful : Faithful σ held) (reliable : Reliable σ)
    (exact : WeightEncoder.Exact β) (realizes : st.Realizes held p) (priced : st.Priced p) :
    ∃ answer, (st.solveMinCostBy β).1 = .ok answer ∧
      (answer = true ↔ ∃ a, Allows p.clauses p.live [] a) ∧
      (answer = true → p.Cheapest st.costOf (st.solveMinCostBy β).2.model) ∧
      ∃ all, st.Extends held all (st.solveMinCostBy β).2 := by
  obtain ⟨answer, last, budget, given, encoder, ends, exists_iff, cheapest, bounded⟩ :=
    solveMinCostWithin_settles faithful reliable exact realizes priced
  have costs := (solve_settles faithful reliable (Extends.refl st) []).1.costs
  have sameCost : (st.solve []).2.costOf = st.costOf := by
    funext a
    rw [costOf, costs]
    rfl
  rw [solveMinCostBy_eq, ends _ (sameCost ▸ Nat.lt_succ_self _)]
  exact ⟨answer, rfl, exists_iff, cheapest, given, bounded.extension⟩

end Search

end Store

end ModelFinder
