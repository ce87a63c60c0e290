import ModelFinder.Finder.Check
import ModelFinder.Proofs.Finder.Lifters
import ModelFinder.Proofs.Sat.Budget
import ModelFinder.Proofs.Sat.Cost

/-! Solving with costs is optimal. What the true variables of an assignment cost is what the instance it
depicts costs, so a model of least weight stands for a model of least cost; and the lower bounds, which
answer a formula that folds to true, cost nothing. -/
namespace ModelFinder

structure Formula.IsCheapestModel (f : Formula) (b : Bounds) (cost : Relation → Nat) (m : Instance) :
    Prop where
  isModel : f.IsModel b m
  least : ∀ other, f.IsModel b other → m.cost b cost ≤ other.cost b cost

variable {n : Numbering} {b : Bounds} {s : Nat → Bool} {m : Instance} {cost : Relation → Nat}

namespace Numbering

def tally (s : Nat → Bool) (e : Unknowns) : Nat :=
  ((List.range' e.first e.tuples.size).filter s).length

/-- The tuples of a relation outside its lower bound are as many as its variables that are true. -/
theorem Depicts.extras_eq (depicts : n.Depicts b s m) (regular : b.Regular) (numbers : n.Numbers b)
    {e : Unknowns} (member : e ∈ n.entries) {range : Range}
    (found : b.range? e.relation = some range) : m.extras e.relation range = tally s e := by
  obtain ⟨set, isValue, -, -, members⟩ := depicts.values e.relation range found
  have entry := (numbers.entry?_eq_some regular.formed).mpr ⟨member, rfl⟩
  obtain ⟨other, found', tuples⟩ := numbers.tuples e member
  obtain rfl := Option.some.inj (found.symm.trans found')
  have isChosen : n.chosen s e.relation =
      ((e.tuples.toList.zipIdx e.first).filter (s ·.2)).map (·.1) := by
    simp only [chosen, unknowns, Numbering.range, entry]
  have ascending : (n.chosen s e.relation).Pairwise (· < ·) := by
    rw [isChosen]
    refine List.Pairwise.sublist (List.filter_sublist.map _) ?_
    rw [List.zipIdx_map_fst, tuples]
    exact Bounds.unknowns_ascending range
  have same : (set.indices.diff range.lower.indices).toList = n.chosen s e.relation := by
    refine IndexSet.eq_of_mem_iff (IndexSet.ascending _) ascending fun i => ?_
    rw [mem_chosen regular numbers, ← IndexSet.mem_def, IndexSet.mem_diff, members]
    constructor
    · rintro ⟨inLower | chosen, apart⟩
      · exact absurd inLower apart
      · exact chosen
    · rintro ⟨var, stands, isTrue⟩
      have unknown := Bounds.mem_unknowns.mp ((numbers.mem_unknowns found).mpr ⟨var, stands⟩)
      exact ⟨.inr ⟨var, stands, isTrue⟩, unknown.2⟩
  have isRange : List.range' e.first e.tuples.size =
      (e.tuples.toList.zipIdx e.first).map Prod.snd := by
    rw [List.zipIdx_map_snd, Array.length_toList]
  simp only [Instance.extras, isValue]
  rw [IndexSet.size, same, isChosen, tally, isRange, List.filter_map, List.length_map,
    List.length_map]
  rfl

theorem Depicts.cost_eq (depicts : n.Depicts b s m) (regular : b.Regular) (numbers : n.Numbers b)
    (cost : Relation → Nat) :
    m.cost b cost = (n.entries.map fun e => cost e.relation * tally s e).sum := by
  -- Both sides list the same relations with the same prices.
  let price : Relation → Nat := fun r =>
    cost r * ((b.range? r).map (m.extras r)).getD 0
  have bounded : (b.relations.entries.map fun entry => cost entry.1 * m.extras entry.1 entry.2) =
      b.relations.keys.map price := by
    rw [Table.keys, List.map_map]
    refine List.map_congr_left fun entry isEntry => ?_
    have found := (Bounds.mem_entries regular.formed).mp isEntry
    simp [price, found]
  have numbered : (n.entries.map fun e => cost e.relation * tally s e) =
      (n.entries.map (·.relation)).map price := by
    rw [List.map_map]
    refine List.map_congr_left fun e member => ?_
    obtain ⟨range, found, -⟩ := numbers.tuples e member
    simp [price, found, depicts.extras_eq regular numbers member found]
  rw [Instance.cost, bounded, numbered, numbers.relations]
  rfl

end Numbering

section Costs

variable {σ : Type} {l : Loaded σ} {f : Formula}

theorem Loaded.weights_eq (regular : b.Regular) (numbers : l.encoding.numbering.Numbers b)
    (cost : Relation → Nat) : l.weights b cost = l.encoding.numbering.entries.flatMap fun e =>
      (List.range' e.first e.tuples.size).map (·, cost e.relation) := by
  rw [weights, ← numbers.relations, List.flatMap_map]
  refine List.flatMap_congr fun e member => ?_
  have entry := (numbers.entry?_eq_some regular.formed).mpr ⟨member, rfl⟩
  simp only [Numbering.range, entry, Unknowns.stop, Nat.add_sub_cancel_left]

/-- The weighted variables are variables of relations, in some order and without those that cost
nothing. -/
theorem Loaded.setCosts_perm (l : Loaded σ) (b : Bounds) (cost : Relation → Nat) :
    (l.setCosts b cost).store.costs.entries.Perm ((l.weights b cost).filter (·.2 ≠ 0)) :=
  List.mergeSort_perm _ _

theorem Loaded.setCosts_mem (regular : b.Regular) (numbers : l.encoding.numbering.Numbers b) {v : Nat}
    (member : v ∈ (l.setCosts b cost).store.costs.keys) : 1 ≤ v ∧ v ≤ l.encoding.numbering.count := by
  obtain ⟨entry, isEntry, rfl⟩ := List.mem_map.mp member
  have weighted := (List.mem_filter.mp ((l.setCosts_perm b cost).mem_iff.mp isEntry)).1
  rw [Loaded.weights_eq regular numbers] at weighted
  obtain ⟨e, isNumbered, inRange⟩ := List.mem_flatMap.mp weighted
  obtain ⟨v, inside, rfl⟩ := List.mem_map.mp inRange
  have ranges := numbers.ranges e isNumbered
  have bounds := List.mem_range'_1.mp inside
  unfold Unknowns.stop at ranges
  omega

/-- No variable is weighted twice, as the ranges of the relations are disjoint. -/
theorem Loaded.setCosts_nodup (regular : b.Regular) (numbers : l.encoding.numbering.Numbers b) :
    (l.setCosts b cost).store.costs.keys.Nodup := by
  have all : ((l.weights b cost).map (·.1)).Nodup := by
    rw [Loaded.weights_eq regular numbers, List.map_flatMap, List.nodup_flatMap]
    have keys : ∀ e : Unknowns,
        ((List.range' e.first e.tuples.size).map (·, cost e.relation)).map (·.1) =
          List.range' e.first e.tuples.size := by
      intro e
      rw [List.map_map]
      exact List.map_id _
    simp only [keys]
    refine ⟨fun e _ => List.nodup_range', numbers.disjoint.imp fun before v one two => ?_⟩
    have first := List.mem_range'_1.mp one
    have second := List.mem_range'_1.mp two
    unfold Unknowns.stop at before
    omega
  exact ((l.setCosts_perm b cost).map (·.1)).nodup_iff.mpr (all.sublist (List.filter_sublist.map _))

theorem sum_filter_nonzero (s : Nat → Bool) (weights : List (Nat × Nat)) :
    (((weights.filter (·.2 ≠ 0)).filter (s ·.1)).map (·.2)).sum =
      ((weights.filter (s ·.1)).map (·.2)).sum := by
  induction weights with
  | nil => rfl
  | cons entry rest ih =>
    by_cases free : entry.2 = 0 <;> cases chosen : s entry.1 <;> simp_all

theorem sum_range_filter (s : Nat → Bool) (e : Unknowns) (weight : Nat) :
    ((((List.range' e.first e.tuples.size).map (·, weight)).filter (s ·.1)).map (·.2)).sum =
      weight * Numbering.tally s e := by
  rw [List.filter_map, List.map_map]
  show (((List.range' e.first e.tuples.size).filter s).map fun _ => weight).sum = _
  rw [List.map_const', List.sum_replicate_nat, Nat.mul_comm, Numbering.tally]

/-- The cost of the true variables of a loaded formula is the cost of the instance they depict. -/
theorem Loaded.costOf_eq (regular : b.Regular) (numbers : l.encoding.numbering.Numbers b)
    (depicts : l.encoding.numbering.Depicts b s m) :
    (l.setCosts b cost).store.costOf s = m.cost b cost := by
  rw [depicts.cost_eq regular numbers, Store.costOf, ← List.sum_eq_foldr,
    (((l.setCosts_perm b cost).filter _).map _).sum_eq, sum_filter_nonzero,
    Loaded.weights_eq regular numbers]
  generalize l.encoding.numbering.entries = entries
  induction entries with
  | nil => rfl
  | cons e rest ih =>
    rw [List.flatMap_cons, List.filter_append, List.map_append, List.sum_append, ih,
      sum_range_filter, List.map_cons, List.sum_cons]

theorem Formula.encode_unlogged {sharing : Bool} {e : Encoding}
    (ok : f.encode b sharing false = .ok (.clauses e)) : e.assumptions = [] := by
  obtain ⟨values, root, circuit, -, log, -, made⟩ := Formula.encode_eq_ok ok
  cases root with
  | const value => cases made
  | lit label =>
    cases made
    rfl

/-- A formula that folds is answered by a cheapest model, since the lower bounds cost nothing. -/
theorem Solution.ofFolded_cheapest {result : Folded} {sharing logged : Bool} (regular : b.Regular)
    (sorted : f.WellSorted) (fits : f.Fits b sharing)
    (ok : f.encode b sharing logged = .ok (.folded result)) (cost : Relation → Nat) :
    ∃ solution, Solution.ofFolded result b = .ok solution ∧
      (solution.isSat = true ↔ ∃ m, f.IsModel b m) ∧
      (solution.isSat = true → ∃ m, solution.model? = some m ∧ f.IsCheapestModel b cost m) := by
  obtain ⟨solution, made, isSat, answers⟩ := Solution.ofFolded_answers regular sorted fits ok
  obtain ⟨-, bounds, numbers, -⟩ := Formula.encode_folded regular sorted fits ok
  cases value : result.value with
  | true =>
    obtain ⟨m, stats, made', depicts, -⟩ := Solution.ofFolded_true regular (.ofBounds b) bounds value
    obtain rfl := Except.ok.inj (made.symm.trans made')
    obtain ⟨m', isModel, model, -⟩ := answers rfl
    obtain rfl := Option.some.inj isModel
    have free : m.cost b cost = 0 := by
      rw [depicts.cost_eq regular numbers]
      simp [Numbering.tally]
    exact ⟨_, made, isSat, fun _ => ⟨m, rfl, model, fun other _ => free ▸ Nat.zero_le _⟩⟩
  | false =>
    obtain ⟨stats, made'⟩ := @Solution.ofFolded_false b result value
    obtain rfl := Except.ok.inj (made.symm.trans made')
    exact ⟨_, made, isSat, fun satisfiable => by cases satisfiable⟩

variable {σ : Type} [Backend σ] {held : σ → List Clause} {solver : σ} {β : Type} [WeightEncoder β]
  {e : Encoding}

/-- A loaded formula with costs does the work of its clauses, and prices its variables. -/
theorem Encoding.load_priced (faithful : Faithful σ held) (reliable : Reliable σ)
    (fresh : held solver = []) (encodes : e.Encodes f b) (regular : b.Regular)
    (cost : Relation → Nat) :
    ((e.load solver).setCosts b cost).store.Realizes held
        ⟨List.range' 1 e.cnf.numVars, e.cnf.clauses.toList, []⟩ ∧
      ((e.load solver).setCosts b cost).store.Priced
        ⟨List.range' 1 e.cnf.numVars, e.cnf.clauses.toList, []⟩ := by
  obtain ⟨-, realizes⟩ := Store.guards_iff.mp
    (Encoding.load_guards (reliable.oracle faithful) fresh encodes.mentions)
  have small := encodes.small
  have primary := encodes.primary
  have ranges : ∀ v ∈ ((e.load solver).setCosts b cost).store.costs.keys,
      1 ≤ v ∧ v ≤ e.numbering.count :=
    fun v member => Loaded.setCosts_mem (l := e.load solver) regular encodes.numbers member
  refine ⟨realizes.widen (Nat.le_refl _) rfl rfl, fun v member => ?_, fun v member => ?_,
    Loaded.setCosts_nodup regular encodes.numbers⟩
  · have range := ranges v member
    exact List.mem_range'_1.mpr ⟨range.1, by omega⟩
  · have range := ranges v member
    omega

/-- Solving an encoded formula with costs gives a cheapest model or tells that there is none. -/
theorem Loaded.setCosts_answers (faithful : Faithful σ held) (reliable : Reliable σ)
    (exact : WeightEncoder.Exact β) (fresh : held solver = []) (encodes : e.Encodes f b)
    (free : e.assumptions = []) (regular : b.Regular)
    (countable : ∀ r ∈ b.relations.keys, (b.univ.capacity? r.arity).isSome = true)
    (cost : Relation → Nat) {l : Loaded σ} (isLoaded : (e.load solver).setCosts b cost = l) :
    ∃ solution, { l with store := (l.store.solveMinCostBy β).2 }.conclude b
        (l.store.solveMinCostBy β).1 = .ok solution ∧
      (solution.isSat = true ↔ ∃ m, f.IsModel b m) ∧
      (solution.isSat = true → ∃ m, solution.model? = some m ∧ f.IsCheapestModel b cost m) := by
  obtain ⟨realizes, priced⟩ := Encoding.load_priced faithful reliable fresh encodes regular cost
  rw [isLoaded] at realizes priced
  have sameEncoding : l.encoding = e := by
    rw [← isLoaded]
    rfl
  obtain ⟨answer, ok, decides, cheapest, -⟩ :=
    Store.solveMinCostBy_cheapest (β := β) faithful reliable exact realizes priced
  generalize l.store.solveMinCostBy β = found at ok cheapest
  obtain ⟨result, last⟩ := found
  obtain rfl : result = .ok answer := ok
  have allows_iff : ∀ a, Allows e.cnf.clauses.toList [] [] a ↔ e.Models a := by
    intro a
    rw [Encoding.Models, free]
    exact ⟨fun allows => ⟨allows.base, allows.assumptions⟩,
      fun models => ⟨models.1, List.forall_mem_nil _, models.2⟩⟩
  have price : ∀ s m, e.numbering.Depicts b s m → l.store.costOf s = m.cost b cost := by
    intro s m depicts
    rw [← isLoaded]
    exact Loaded.costOf_eq (l := e.load solver) regular encodes.numbers depicts
  cases answer with
  | true =>
    obtain ⟨allows, least⟩ := cheapest rfl
    have models := (allows_iff _).mp allows
    have encodes' : ({ l with store := last } : Loaded σ).encoding.Encodes f b :=
      sameEncoding.symm ▸ encodes
    obtain ⟨solution, made⟩ := Solution.ofModel_of_countable encodes' regular
      fun var r i stands _ => by
        obtain ⟨entry, member, rfl, -⟩ := stands
        exact countable _ (encodes'.numbers.relations ▸ List.mem_map_of_mem member)
    obtain ⟨m, rfl, depicts, -⟩ := Solution.ofModel_eq_ok encodes' regular made
    have model := encodes'.isModel regular (sameEncoding.symm ▸ models) depicts
    refine ⟨_, made, iff_of_true rfl ⟨m, model⟩, fun _ => ⟨m, rfl, model, fun other also => ?_⟩⟩
    obtain ⟨a, models', depicts'⟩ := encodes.exists_models regular also
    rw [← price _ m (sameEncoding ▸ depicts), ← price a other depicts']
    exact least a ((allows_iff a).mpr models')
  | false =>
    refine ⟨_, rfl, iff_of_false (by simp [Solution.ofFailure, Solution.isSat]) fun some => ?_,
      fun isSat => by cases isSat⟩
    obtain ⟨m, model⟩ := some
    obtain ⟨a, models, -⟩ := encodes.exists_models regular model
    cases decides.mpr ⟨a, (allows_iff a).mpr models⟩

/-- Solving with costs is optimal: for a formula of well-sorted expressions within bounds that were
built, whose tuples can be counted and which encodes without a fault, a minimizing solver that answers
every search gives an answer, which has a model exactly if there is one and then a cheapest one. This
holds of every encoder that bounds weights exactly. -/
theorem solveWithCost_optimal (faithful : Faithful σ held) (reliable : Reliable σ)
    (fresh : held solver = []) (exact : WeightEncoder.Exact β) (built : b.Built)
    (sorted : f.WellSorted) (o : Options) (unlogged : o.logged = false)
    (minimizer : o.solver.minimizer = true) (running : o.aborted = false)
    (unlimited : o.timeoutMs ≠ some 0) (fits : f.Fits b o.sharing)
    (countable : ∀ r ∈ b.relations.keys, (b.univ.capacity? r.arity).isSome = true)
    (encodes : ∃ encoded, f.encode b o.sharing false = .ok encoded) (cost : Relation → Nat) :
    ∃ solution, (solveWithCostBy β solver f b o cost).result = .ok solution ∧
      (solution.isSat = true ↔ ∃ m, f.IsModel b m) ∧
      (solution.isSat = true → ∃ m, solution.model? = some m ∧ f.IsCheapestModel b cost m) := by
  have regular := built.regular
  obtain ⟨encoded, ok⟩ := encodes
  have supported : ¬ (o.logged = true ∨ ¬ o.solver.minimizer = true) := by
    simp [unlogged, minimizer]
  have started : o.control.check = .ok () := by
    unfold Options.control Control.make Control.arm Control.check
    simp [running, unlimited]
  rw [solveWithCostBy, if_neg supported, withEncoding, unlogged, ok]
  cases encoded with
  | folded result => exact Solution.ofFolded_cheapest regular sorted fits ok cost
  | clauses e =>
    simp only [started]
    exact Loaded.setCosts_answers faithful reliable exact fresh
      (Formula.encode_clauses regular sorted fits ok) (Formula.encode_unlogged ok) regular countable
      cost rfl

namespace Fork

def price (r : Relation) : Nat := if r = wide then 5 else 2

theorem cost_eq_price {s : Nat → Bool} {m : Instance}
    (depicts : (Numbering.ofBounds bounds).Depicts bounds s m) : m.cost bounds price =
      (if s 1 then 5 else 0) + (if s 2 then 5 else 0) + (if s 3 then 2 else 0) := by
  rw [depicts.cost_eq built.regular numbers, numbering]
  have other : narrow ≠ wide := by decide
  cases first : s 1 <;> cases second : s 2 <;> cases third : s 3 <;>
    simp [Numbering.tally, List.range', price, other, first, second, third]

end Fork

/-- With budgets, the fork is solved by its cheapest model. -/
theorem sample_solveWithCost : ∃ solution m,
    (solveWithCostBy Budgets (⟨[]⟩ : Exhaustive) Fork.formula Fork.bounds .standard
      Fork.price).result = .ok solution ∧ solution.model? = some m ∧
      Fork.formula.IsCheapestModel Fork.bounds Fork.price m ∧ m.cost Fork.bounds Fork.price = 2 := by
  obtain ⟨e, ok⟩ := Fork.encoded true false
  obtain ⟨solution, made, isSat, cheapest⟩ :=
    solveWithCost_optimal Exhaustive.faithful Exhaustive.reliable
      (rfl : Exhaustive.clauses ⟨[]⟩ = []) Budgets.exact Fork.built Fork.sorted .standard rfl rfl
      rfl (by decide) (Fork.fits true) (by decide) ⟨_, ok⟩ Fork.price
  have narrow := @Fork.single_isModel 3 (by decide)
  obtain ⟨m, found, least⟩ := cheapest (isSat.mpr ⟨_, narrow⟩)
  refine ⟨solution, m, made, found, least, ?_⟩
  have depicts := Numbering.valuation_depicts Fork.built.regular Fork.numbers least.isModel.1
  have atMost := least.least _ narrow
  have holding := (Fork.isModel_iff depicts).mp least.isModel
  rw [Fork.cost_eq_price (Fork.single_depicts 3), Fork.cost_eq_price depicts] at atMost
  rw [Fork.cost_eq_price depicts]
  rcases holding with holds | holds | holds <;> simp [holds] at atMost ⊢ <;> omega

end Costs

end ModelFinder
