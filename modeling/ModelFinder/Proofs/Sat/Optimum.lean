import Mathlib.Algebra.BigOperators.Group.Finset.Basic
import ModelFinder.Proofs.Data.Bounds
import ModelFinder.Proofs.Sat.Budget
import ModelFinder.Proofs.Sat.Cost

/-! Weighted search finds an optimum in every state that calls lead to, earlier weighted searches
included. What such a search leaves in the solver for good, clauses of an encoder over variables of its
own, takes no assignment of the variables handed out away; so the store does the work of a plain store
that knows nothing of them. -/
namespace ModelFinder

namespace PlainStore

variable {p q r : PlainStore} {a : Nat → Bool} {clause : Clause}

/-- The second store has variables and clauses beyond those of the first one, which every assignment
of the variables that the first one handed out goes with. -/
structure Conservative (p q : PlainStore) : Prop where
  handed : p.handed ⊆ q.handed
  live : q.live = p.live
  constraints : ∀ entry ∈ p.live, p.Knows entry.2
  implies : ∀ a, Satisfies a q.clauses → Satisfies a p.clauses
  completes : ∀ a, Satisfies a p.clauses →
    ∃ c, (∀ v ∈ p.handed, c v = a v) ∧ Satisfies c q.clauses

theorem Conservative.knows (conservative : p.Conservative q) {literals : List Int}
    (knows : p.Knows literals) : q.Knows literals :=
  fun l member => conservative.handed (knows l member)

theorem Conservative.trans (first : p.Conservative q) (second : q.Conservative r) :
    p.Conservative r where
  handed := List.Subset.trans first.handed second.handed
  live := second.live.trans first.live
  constraints := first.constraints
  implies a satisfied := first.implies a (second.implies a satisfied)
  completes a satisfied := by
    obtain ⟨c, same, between⟩ := first.completes a satisfied
    obtain ⟨d, same', last⟩ := second.completes c between
    exact ⟨d, fun v member => (same' v (first.handed member)).trans (same v member), last⟩

theorem Conservative.allows (conservative : p.Conservative q) (allowed : Allows p.clauses p.live [] a) :
    ∃ c, (∀ v ∈ p.handed, c v = a v) ∧ Allows q.clauses q.live [] c := by
  obtain ⟨c, same, satisfied⟩ := conservative.completes a allowed.base
  refine ⟨c, same, satisfied, fun entry member => ?_, List.forall_mem_nil _⟩
  rw [conservative.live] at member
  rw [(conservative.constraints entry member).holds same]
  exact allowed.live entry member

theorem Conservative.allows_of (conservative : p.Conservative q)
    (allowed : Allows q.clauses q.live [] a) : Allows p.clauses p.live [] a :=
  ⟨conservative.implies a allowed.base, conservative.live ▸ allowed.live, allowed.assumptions⟩

/-- A cheapest assignment of the second store is one of the first, if only variables that the first
handed out cost anything. -/
theorem Conservative.cheapest (conservative : p.Conservative q) {cost : (Nat → Bool) → Nat}
    (depends : ∀ a c : Nat → Bool, (∀ v ∈ p.handed, c v = a v) → cost c = cost a)
    (cheapest : q.Cheapest cost a) : p.Cheapest cost a := by
  refine ⟨conservative.allows_of cheapest.allows, fun c allowed => ?_⟩
  obtain ⟨d, same, also⟩ := conservative.allows allowed
  rw [← depends c d same]
  exact cheapest.least d also

/-- Variables that neither store has handed out can be handed out by both. -/
theorem Conservative.handOut (conservative : p.Conservative q) {last : Nat}
    (below : ∀ v ∈ q.handed, v ≤ last) (clauses : ∀ clause ∈ q.clauses, q.Knows clause) (count : Nat) :
    (p.handOut last count).Conservative (q.handOut last count) where
  handed := List.append_subset.mpr ⟨List.subset_append_of_subset_left _ conservative.handed,
    List.subset_append_right ..⟩
  live := conservative.live
  constraints entry member l isIn :=
    List.mem_append_left _ (conservative.constraints entry member l isIn)
  implies := conservative.implies
  completes a satisfied := by
    obtain ⟨c, same, completed⟩ := conservative.completes a satisfied
    refine ⟨fun v => if v ≤ last then c v else a v, fun v member => ?_, fun clause isClause => ?_⟩
    · rcases List.mem_append.mp member with old | new
      · exact (if_pos (below v (conservative.handed old))).trans (same v old)
      · have beyond := (List.mem_range'_1.mp new).1
        exact if_neg (by omega)
    · rw [(clauses clause isClause).holds fun v member => if_pos (below v member)]
      exact completed clause isClause

theorem Conservative.offer (conservative : p.Conservative q) (knows : p.Knows clause)
    (accepted : Bool) : (p.offer clause accepted).Conservative (q.offer clause accepted) := by
  cases accepted with
  | false => exact conservative
  | true =>
    refine ⟨conservative.handed, conservative.live, conservative.constraints, fun a satisfied => ?_,
      fun a satisfied => ?_⟩
    · obtain ⟨before, new⟩ := satisfies_append.mp satisfied
      exact satisfies_append.mpr ⟨conservative.implies a before, new⟩
    · obtain ⟨before, new⟩ := satisfies_append.mp satisfied
      obtain ⟨c, same, completed⟩ := conservative.completes a before
      refine ⟨c, same, satisfies_append.mpr ⟨completed, List.forall_mem_singleton.mpr ?_⟩⟩
      rw [knows.holds same]
      exact new clause (List.mem_singleton_self _)

theorem Conservative.constrain (conservative : p.Conservative q) (knows : p.Knows clause)
    (handle : Option Nat) : (p.constrain clause handle).Conservative (q.constrain clause handle) := by
  cases handle with
  | none => exact conservative
  | some handle =>
    exact ⟨conservative.handed, congrArg (· ++ [(handle, clause)]) conservative.live,
      List.forall_mem_append.mpr ⟨conservative.constraints, List.forall_mem_singleton.mpr knows⟩,
      conservative.implies, conservative.completes⟩

theorem Conservative.release (conservative : p.Conservative q) (handle : Nat) :
    (p.release handle).Conservative (q.release handle) where
  handed := conservative.handed
  live := congrArg (List.filter _) conservative.live
  constraints entry member := conservative.constraints entry (List.mem_filter.mp member).1
  implies := conservative.implies
  completes := conservative.completes

def absorb (p : PlainStore) (last upTo : Nat) (given : List Clause) : PlainStore :=
  { p.handOut last (upTo - last) with clauses := p.clauses ++ given }

section Absorb

variable {last upTo v : Nat} {given : List Clause} {literals : List Int}

theorem mem_absorb : v ∈ (p.absorb last upTo given).handed ↔ v ∈ p.handed ∨ last < v ∧ v ≤ upTo := by
  show v ∈ p.handed ++ List.range' (last + 1) (upTo - last) ↔ _
  rw [List.mem_append, List.mem_range'_1]
  exact or_congr_right (by omega)

theorem Knows.absorb (knows : p.Knows literals) : (p.absorb last upTo given).Knows literals :=
  fun l member => mem_absorb.mpr (.inl (knows l member))

end Absorb

def freed (p : PlainStore) : PlainStore := ⟨p.handed, [], []⟩

theorem Conservative.freed (conservative : p.Conservative q) : p.freed.Conservative q.freed :=
  ⟨conservative.handed, rfl, List.forall_mem_nil _, fun _ => id, fun a satisfied =>
    ⟨a, fun _ _ => rfl, satisfied⟩⟩

end PlainStore

structure WeightedStore where
  plain : PlainStore
  weights : Nat → Nat

namespace WeightedStore

def empty : WeightedStore := ⟨.empty, fun _ => 0⟩

def weight (w : WeightedStore) (a : Nat → Bool) : Nat :=
  ∑ v ∈ w.plain.handed.toFinset with a v = true, w.weights v

def Existing (w : WeightedStore) : Prop :=
  ∀ v, w.weights v ≠ 0 → v ∈ w.plain.handed ∧ v < 2147483648

end WeightedStore

namespace Store

variable {σ β : Type} {held : σ → List Clause} {p q : PlainStore} {w : WeightedStore}
  {st last : Store σ}

structure Prices (st : Store σ) (weights : Nat → Nat) : Prop where
  distinct : st.costs.keys.Nodup
  find : ∀ v, st.costs.find? v = if weights v = 0 then none else some (weights v)

theorem empty_prices (solver : σ) : (empty solver).Prices fun _ => 0 :=
  ⟨List.nodup_nil, fun _ => rfl⟩

theorem Prices.of_costs {weights : Nat → Nat} (prices : st.Prices weights)
    (same : last.costs = st.costs) : last.Prices weights :=
  ⟨same.symm ▸ prices.distinct, same.symm ▸ prices.find⟩

theorem setCost_prices {weights : Nat → Nat} (prices : st.Prices weights) (var weight : Nat) :
    (st.setCost var weight).Prices (Function.update weights var weight) := by
  unfold setCost
  split
  · rename_i zero
    refine ⟨Table.erase_nodup prices.distinct var, fun v => ?_⟩
    rw [Table.find?_erase, prices.find]
    by_cases same : v = var
    · simp [same, zero]
    · simp [same]
  · rename_i nonzero
    refine ⟨Table.insert_nodup prices.distinct var weight, fun v => ?_⟩
    rw [Table.find?_insert, prices.find]
    by_cases same : v = var
    · simp [same, nonzero]
    · simp [same]

theorem Prices.mem_keys {weights : Nat → Nat} (prices : st.Prices weights) (v : Nat) :
    v ∈ st.costs.keys ↔ weights v ≠ 0 := by
  rw [← Table.contains_iff, Table.contains, prices.find]
  split <;> simp_all

theorem Prices.priced (prices : st.Prices w.weights) (existing : w.Existing)
    (handed : w.plain.handed ⊆ q.handed) : st.Priced q where
  handed v isKey := handed (existing v ((prices.mem_keys v).mp isKey)).1
  small v isKey := (existing v ((prices.mem_keys v).mp isKey)).2
  distinct := prices.distinct

theorem Prices.costOf_eq (prices : st.Prices w.weights) (existing : w.Existing) (a : Nat → Bool) :
    st.costOf a = w.weight a := by
  have entries : ∀ entry ∈ st.costs.entries, entry.2 = w.weights entry.1 := by
    intro entry member
    have found := (Table.find?_eq_some prices.distinct).mpr member
    rw [prices.find] at found
    split at found
    · cases found
    · exact (Option.some.inj found).symm
  have listed : st.costOf a =
      ((st.costs.keys.filter fun v => a v).map w.weights).sum := by
    rw [Table.keys, List.filter_map, List.map_map]
    refine congrArg List.sum (List.map_congr_left fun entry member => ?_)
    exact entries entry (List.mem_filter.mp member).1
  rw [listed, ← List.sum_toFinset _ (prices.distinct.filter _), WeightedStore.weight]
  refine Finset.sum_subset (fun v member => ?_) fun v member absent => ?_
  · obtain ⟨isKey, holds⟩ := List.mem_filter.mp (List.mem_toFinset.mp member)
    refine Finset.mem_filter.mpr ⟨List.mem_toFinset.mpr ?_, holds⟩
    exact (existing v ((prices.mem_keys v).mp isKey)).1
  · have holds := (Finset.mem_filter.mp member).2
    by_contra heavy
    refine absent (List.mem_toFinset.mpr (List.mem_filter.mpr ⟨?_, holds⟩))
    exact (prices.mem_keys v).mpr heavy

theorem weight_congr {a c : Nat → Bool} (same : ∀ v ∈ w.plain.handed, c v = a v) :
    w.weight c = w.weight a := by
  have kept : (w.plain.handed.toFinset.filter fun v => c v = true) =
      w.plain.handed.toFinset.filter fun v => a v = true :=
    Finset.filter_congr fun v member => by rw [same v (List.mem_toFinset.mp member)]
  rw [WeightedStore.weight, WeightedStore.weight, kept]

/-- The store does the work of a plain store, if need be with variables and clauses of its own, and has
the weights. -/
structure Carries (held : σ → List Clause) (w : WeightedStore) (st : Store σ) : Prop where
  realizes : ∃ q, w.plain.Conservative q ∧ st.Realizes held q
  prices : st.Prices w.weights

theorem empty_carries {solver : σ} (fresh : held solver = []) :
    (Store.empty solver).Carries held .empty := by
  refine ⟨⟨.empty, ⟨List.Subset.refl _, rfl, by simp [WeightedStore.empty, PlainStore.empty],
    fun _ => id, fun a satisfied => ⟨a, fun _ _ => rfl, satisfied⟩⟩, empty_realizes fresh⟩,
    empty_prices solver⟩

section Absorb

variable [WeightEncoder β] {budget : Nat} {given : List Clause} {encoder : β}
  (bounded : st.Bounded held budget given encoder last) (realizes : st.Realizes held q)

include bounded realizes

theorem Bounded.speaks (confined : WeightEncoder.Confined β) (priced : st.Priced q) :
    ∀ clause ∈ given, (q.absorb st.numVars last.numVars given).Knows clause := by
  intro clause member l isIn
  have inUse : WeightEncoder.last encoder ≤ last.numVars :=
    bounded.covered.resolve_left (List.ne_nil_of_mem member)
  rw [PlainStore.mem_absorb]
  rcases confined (priced.weighted realizes) bounded.reached clause member l isIn with
    weighted | ⟨beyond, latest⟩
  · obtain ⟨item, isItem, same⟩ := List.mem_map.mp weighted
    obtain ⟨entry, isEntry, rfl⟩ := List.mem_map.mp isItem
    have isKey : entry.1 ∈ st.costs.keys := List.mem_map_of_mem isEntry
    have small := priced.small _ isKey
    rw [← same, signedWord_of_natAbs_lt (by omega), Int.natAbs_natCast]
    exact .inl (priced.handed _ isKey)
  · exact .inr ⟨beyond, Nat.le_trans latest inUse⟩

/-- The clauses of an encoder take no assignment of the variables handed out away. -/
theorem Bounded.absorb_conservative : q.Conservative (q.absorb st.numVars last.numVars given) where
  handed := List.subset_append_left ..
  live := rfl
  constraints := realizes.constraints
  implies a satisfied := (satisfies_append.mp satisfied).1
  completes a satisfied := by
    obtain ⟨t, agrees, bounds⟩ := bounded.free a
    have same : ∀ v ∈ q.handed, t v = a v := fun v member =>
      agrees v (realizes.handed v member).1 (realizes.handed v member).2
    refine ⟨t, same, satisfies_append.mpr ⟨fun clause member => ?_, bounds⟩⟩
    rw [(realizes.clauses clause member).holds same]
    exact satisfied clause member

/-- What a search for a model of least weight leaves in the solver belongs to a plain store with the
variables and the clauses of the encoder. -/
theorem Bounded.absorb_realizes
    (speaks : ∀ clause ∈ given, (q.absorb st.numVars last.numVars given).Knows clause) :
    last.Realizes held (q.absorb st.numVars last.numVars given) := by
  obtain ⟨numVars, selectors, costs, -, holds⟩ := bounded.extension
  -- A variable of the encoder is none of the store before.
  have before : ∀ v, v ≤ st.numVars → v ∉ q.handed →
      v ∉ (q.absorb st.numVars last.numVars given).handed := by
    intro v known apart both
    rcases PlainStore.mem_absorb.mp both with old | new
    · exact apart old
    · omega
  refine ⟨?handed, selectors ▸ realizes.selectors, ?apart, ?clauses,
    fun entry member => (realizes.constraints entry member).absorb, ?implied, ?allowed⟩
  case handed =>
    intro v member
    rcases PlainStore.mem_absorb.mp member with old | new
    · have bound := realizes.handed v old
      omega
    · omega
  case apart =>
    intro selector member
    obtain ⟨positive, known, apart⟩ := realizes.apart selector member
    exact ⟨positive, Nat.le_trans known numVars, before selector known apart⟩
  case clauses =>
    exact List.forall_mem_append.mpr
      ⟨fun clause member => (realizes.clauses clause member).absorb, speaks⟩
  case implied =>
    intro a satisfied
    obtain ⟨first, bounds⟩ := (holds a).mp satisfied
    obtain ⟨clauses, guarded⟩ := realizes.implied a first
    exact ⟨satisfies_append.mpr ⟨clauses, bounds⟩, guarded⟩
  case allowed =>
    intro a satisfied guarded
    obtain ⟨clauses, bounds⟩ := satisfies_append.mp satisfied
    refine (holds a).mpr ⟨realizes.allowed a clauses fun v positive known apart isTrue => ?_, bounds⟩
    exact guarded v positive (Nat.le_trans known numVars) (before v known apart) isTrue

end Absorb

inductive Request where
  | call (command : Command)
  | setCost (var weight : Nat)
  | solveMinCost
  | free
deriving DecidableEq, Repr

section Requests

variable [Backend σ] [WeightEncoder β]

variable (β) in
def serve (st : Store σ) : Request → Store σ
  | .call command => st.perform command
  | .setCost var weight => st.setCost var weight
  | .solveMinCost => (st.solveMinCostBy β).2
  | .free => st.free

/-- The plain store and the weights after a request, given what the store answers. The last weight of
a variable counts. -/
def note (st : Store σ) (w : WeightedStore) : Request → WeightedStore
  | .call command => { w with plain := st.account w.plain command }
  | .setCost var weight => { w with weights := Function.update w.weights var weight }
  | .solveMinCost => w
  | .free => { w with plain := w.plain.freed }

def Request.Fits (w : WeightedStore) : Request → Prop
  | .call command => w.plain.Knows command.literals
  | .setCost _ _ => True
  | .solveMinCost => w.Existing
  | .free => True

variable (β) in
def serveAll (st : Store σ) (w : WeightedStore) : List Request → Store σ × WeightedStore
  | [] => (st, w)
  | request :: rest => (st.serve β request).serveAll (st.note w request) rest

variable (β) in
/-- Every request mentions only variables that were handed out before it. -/
def Sensible (st : Store σ) (w : WeightedStore) : List Request → Prop
  | [] => True
  | request :: rest => request.Fits w ∧ (st.serve β request).Sensible (st.note w request) rest

theorem perform_costs (command : Command) : (st.perform command).costs = st.costs := by
  cases command with
  | addVariables count =>
    show (st.addVariables count).costs = _
    unfold addVariables
    split <;> rfl
  | newVariable => rfl
  | addClause clause => rfl
  | addConstraint clause =>
    show (st.addConstraint clause).2.costs = _
    rw [addConstraint_eq]
  | removeConstraint handle =>
    show (st.removeConstraint handle).costs = _
    unfold removeConstraint
    split <;> rfl
  | solve assumptions =>
    show (st.solve assumptions).2.costs = _
    cases answer : (Backend.solve st.backend (st.selectors.toList.map Int.ofNat ++ assumptions)).1 <;>
      simp only [solve, answer]

theorem account_conservative (conservative : p.Conservative q) (realizes : st.Realizes held q)
    {command : Command} (knows : p.Knows command.literals) :
    (st.account p command).Conservative (st.account q command) := by
  have below : ∀ v ∈ q.handed, v ≤ st.numVars := fun v member => (realizes.handed v member).2
  cases command with
  | addVariables count => exact conservative.handOut below realizes.clauses count
  | newVariable => exact conservative.handOut below realizes.clauses 1
  | addClause clause => exact conservative.offer knows _
  | addConstraint clause => exact conservative.constrain knows _
  | removeConstraint handle => exact conservative.release handle
  | solve assumptions => exact conservative

theorem free_realizes (faithful : Faithful σ held) (realizes : st.Realizes held q) :
    st.free.Realizes held q.freed where
  handed := realizes.handed
  selectors selector := by simp [free, PlainStore.freed]
  apart _ member := by cases member
  clauses _ member := by cases member
  constraints _ member := by cases member
  implied _ _ := ⟨satisfies_nil, fun _ member => by cases member⟩
  allowed a _ _ := by
    show Satisfies a (held (Backend.reset st.backend))
    rw [faithful.reset]
    exact satisfies_nil

section Search

variable (faithful : Faithful σ held) (reliable : Reliable σ) (exact : WeightEncoder.Exact β)

include faithful reliable exact

/-- The search for a model of least weight ends by itself. It answers whether there is a model, and
leaves one of least weight. -/
theorem Carries.settles (carries : st.Carries held w) (existing : w.Existing) :
    ∃ answer last budget given, ∃ encoder : β,
      (∀ rounds, w.weight (st.solve []).2.model < rounds →
        st.solveMinCostWithin β rounds = (.ok answer, last)) ∧
      st.solveMinCostBy β = (.ok answer, last) ∧
      (answer = true ↔ ∃ a, Allows w.plain.clauses w.plain.live [] a) ∧
      (answer = true → w.plain.Cheapest w.weight last.model) ∧
      st.Bounded held budget given encoder last := by
  obtain ⟨⟨q, conservative, realizes⟩, prices⟩ := carries
  have priced := prices.priced existing conservative.handed
  have cost : st.costOf = w.weight := funext (prices.costOf_eq existing)
  have after : (st.solve []).2.costOf = w.weight := by
    have costs : (st.solve []).2.costs = st.costs := @perform_costs σ st _ (.solve [])
    rw [← cost]
    funext a
    rw [costOf, costs]
    rfl
  obtain ⟨answer, last, budget, given, encoder, ends, satisfiable, cheapest, bounded⟩ :=
    solveMinCostWithin_settles faithful reliable exact realizes priced
  rw [cost] at ends cheapest
  refine ⟨answer, last, budget, given, encoder, ends, ?_, satisfiable.trans ⟨?_, ?_⟩, fun isTrue => ?_,
    bounded⟩
  · rw [solveMinCostBy_eq, after]
    exact ends _ (Nat.lt_succ_self _)
  · rintro ⟨a, allowed⟩
    exact ⟨a, conservative.allows_of allowed⟩
  · rintro ⟨a, allowed⟩
    obtain ⟨c, -, also⟩ := conservative.allows allowed
    exact ⟨c, also⟩
  · exact conservative.cheapest (fun a c same => weight_congr same) (cheapest isTrue)

theorem serve_carries (carries : st.Carries held w) {request : Request} (fits : request.Fits w)
    (confined : request = .solveMinCost → WeightEncoder.Confined β) :
    (st.serve β request).Carries held (st.note w request) := by
  obtain ⟨⟨q, conservative, realizes⟩, prices⟩ := id carries
  cases request with
  | call command =>
    exact ⟨⟨_, account_conservative conservative realizes fits,
      perform_realizes faithful realizes (conservative.knows fits)⟩,
      prices.of_costs (perform_costs command)⟩
  | setCost var weight =>
    have same : (st.setCost var weight).Realizes held q :=
      realizes.widen (Nat.le_refl _) rfl rfl
    exact ⟨⟨q, conservative, same⟩, setCost_prices prices var weight⟩
  | solveMinCost =>
    obtain ⟨answer, last, budget, given, encoder, -, ok, -, -, bounded⟩ :=
      carries.settles faithful reliable exact fits
    have speaks := bounded.speaks realizes (confined rfl) (prices.priced fits conservative.handed)
    have isLast : (st.solveMinCostBy β).2 = last := congrArg Prod.snd ok
    show (st.solveMinCostBy β).2.Carries held w
    rw [isLast]
    exact ⟨⟨_, conservative.trans (bounded.absorb_conservative realizes),
      bounded.absorb_realizes realizes speaks⟩, prices.of_costs bounded.extension.costs⟩
  | free =>
    exact ⟨⟨q.freed, conservative.freed, free_realizes faithful realizes⟩, prices.of_costs rfl⟩

theorem serveAll_carries (carries : st.Carries held w) {requests : List Request}
    (confined : .solveMinCost ∈ requests → WeightEncoder.Confined β)
    (sensible : st.Sensible β w requests) :
    (st.serveAll β w requests).1.Carries held (st.serveAll β w requests).2 := by
  induction requests generalizing st w with
  | nil => exact carries
  | cons request rest ih =>
    have here := serve_carries faithful reliable exact carries sensible.1 fun isSearch =>
      confined (isSearch ▸ List.mem_cons_self)
    exact ih here (fun member => confined (List.mem_cons_of_mem _ member)) sensible.2

/-- After any requests about variables handed out, over a reliable solver and with an encoder that
bounds weights exactly and, if there was a search for a model of least weight before, keeps to its own
variables: such a search ends, however many rounds beyond the weight of the first model it may have.
It finds no model exactly if there is none; otherwise it leaves a model of the clauses and the live
constraints, and no model weighs less. Variables and clauses are as many as before. -/
theorem solveMinCost_optimal {solver : σ} (fresh : held solver = []) {requests : List Request}
    (confined : .solveMinCost ∈ requests → WeightEncoder.Confined β)
    (sensible : (empty solver).Sensible β .empty requests)
    (reached : (empty solver).serveAll β .empty requests = (st, w)) (existing : w.Existing) :
    ∃ answer last, st.solveMinCostBy β = (.ok answer, last) ∧
      (∀ rounds, w.weight (st.solve []).2.model < rounds →
        st.solveMinCostWithin β rounds = (.ok answer, last)) ∧
      (answer = false ↔ ¬ ∃ a, Allows w.plain.clauses w.plain.live [] a) ∧
      (answer = true → Allows w.plain.clauses w.plain.live [] last.model ∧
        ∀ a, Allows w.plain.clauses w.plain.live [] a → w.weight last.model ≤ w.weight a) ∧
      last.numVariables = st.numVariables ∧ last.numClauses = st.numClauses := by
  have carries := serveAll_carries faithful reliable exact (empty_carries fresh) confined sensible
  rw [reached] at carries
  obtain ⟨answer, last, budget, given, encoder, ends, ok, satisfiable, cheapest, bounded⟩ :=
    carries.settles faithful reliable exact existing
  obtain ⟨numVariables, numClauses⟩ := bounded.extension.conserves
  refine ⟨answer, last, ok, ends, ?_, fun isTrue => ?_, numVariables, numClauses⟩
  · rw [← satisfiable, Bool.not_eq_true]
  · exact ⟨(cheapest isTrue).allows, (cheapest isTrue).least⟩

end Search

end Requests

end Store

/-! Two variables of which one has to be true, the cheaper of which a constraint forbids during a first
search. -/
namespace Sample

def weighing : List Store.Request :=
  [.call (.addVariables 2), .call (.addClause [1, 2]), .call (.addConstraint [-1]), .setCost 1 3,
    .setCost 2 5, .solveMinCost, .call (.removeConstraint 3), .setCost 1 4]

def weighed : WeightedStore :=
  ⟨⟨[1, 2], [[1, 2]], []⟩, Function.update (Function.update (Function.update (fun _ => 0) 1 3) 2 5) 1 4⟩

theorem weighed_weight (a : Nat → Bool) :
    weighed.weight a = (if a 1 then 4 else 0) + if a 2 then 5 else 0 := by
  have handed : weighed.plain.handed.toFinset = {1, 2} := rfl
  rw [WeightedStore.weight, handed, Finset.sum_filter, Finset.sum_pair (by decide)]
  simp [weighed, Function.update]

/-- A model that weighs no more than the first variable alone makes just that one true. -/
theorem lighter_of_covered {x y : Bool} (covered : x = true ∨ y = true)
    (light : ((if x then 4 else 0) + if y then 5 else 0) ≤ 4) : x = true ∧ y = false := by
  revert x y
  decide

/-- Weights of the two variables are weights of existing ones. -/
theorem existing_of_pair {w : WeightedStore} (handed : w.plain.handed = [1, 2])
    (others : ∀ v, v ≠ 1 → v ≠ 2 → w.weights v = 0) : w.Existing := by
  intro v weighs
  have known : v = 1 ∨ v = 2 := by
    by_contra other
    obtain ⟨first, second⟩ := not_or.mp other
    exact weighs (others v first second)
  rw [handed]
  rcases known with rfl | rfl <;> decide

end Sample

/-- Once the constraint is gone, the cheaper variable is true and the other one false. -/
theorem weighing_optimal : ∃ last, ((Store.empty (⟨[]⟩ : Exhaustive)).serveAll Budgets .empty
    Sample.weighing).1.solveMinCostBy Budgets = (.ok true, last) ∧
      last.model 1 = true ∧ last.model 2 = false := by
  have reached : (Store.empty (⟨[]⟩ : Exhaustive)).serveAll Budgets .empty Sample.weighing =
      (((Store.empty (⟨[]⟩ : Exhaustive)).serveAll Budgets .empty Sample.weighing).1,
        Sample.weighed) := rfl
  have sensible : (Store.empty (⟨[]⟩ : Exhaustive)).Sensible Budgets .empty Sample.weighing := by
    refine ⟨List.forall_mem_nil _, ?_, ?_, trivial, trivial, ?_, List.forall_mem_nil _, trivial,
      trivial⟩
    · show PlainStore.Knows ⟨[1, 2], [], []⟩ [1, 2]
      decide
    · show PlainStore.Knows ⟨[1, 2], [[1, 2]], []⟩ [-1]
      decide
    · exact Sample.existing_of_pair rfl fun v first second => by
        simp [Store.note, WeightedStore.empty, Function.update, first, second]
  have existing : Sample.weighed.Existing := Sample.existing_of_pair rfl fun v first second => by
    simp [Sample.weighed, Function.update, first, second]
  obtain ⟨answer, last, ok, -, satisfiable, optimal, -⟩ := Store.solveMinCost_optimal
    Exhaustive.faithful Exhaustive.reliable Budgets.exact rfl (fun _ => Budgets.confined) sensible
    reached existing
  have cheap : Allows [[1, 2]] [] [] (· == 1) :=
    ⟨List.forall_mem_singleton.mpr rfl, List.forall_mem_nil _, List.forall_mem_nil _⟩
  have isTrue : answer = true := by
    by_contra isFalse
    exact satisfiable.mp (Bool.not_eq_true _ ▸ isFalse) ⟨_, cheap⟩
  obtain ⟨allowed, least⟩ := optimal isTrue
  have light := least _ cheap
  have covered : last.model 1 = true ∨ last.model 2 = true := by
    simpa [Clause.holds, litHolds] using allowed.base [1, 2] (List.mem_singleton_self _)
  rw [Sample.weighed_weight, Sample.weighed_weight] at light
  subst isTrue
  exact ⟨last, ok, Sample.lighter_of_covered covered light⟩

end ModelFinder
