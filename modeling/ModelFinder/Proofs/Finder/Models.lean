import ModelFinder.Finder.Solve
import ModelFinder.Proofs.Encoding.Exact
import ModelFinder.Proofs.Search.Minimize

/-! From assignments to models. The assignments that satisfy an encoding are the models of the formula
within the bounds, and an assignment with a minimal set of true primary variables is a minimal model,
which can be read back and padded. -/
namespace ModelFinder

/-- Of the wanted instances, none is strictly part of this one on the relations of the bounds. -/
def Instance.Minimal (b : Bounds) (wanted : Instance → Prop) (m : Instance) : Prop :=
  wanted m ∧ ∀ other, wanted other → PartOf b other m → PartOf b m other

structure Instance.Lowest (m : Instance) (b : Bounds) : Prop where
  univ : m.univ = b.univ
  values : ∀ r, m.tuples? r = (b.range? r).map (·.lower)
  ints : ∀ value, m.ints.find? value = b.ints.find? value

theorem Instance.Lowest.depicts {b : Bounds} {m : Instance} (lowest : m.Lowest b)
    (regular : b.Regular) (n : Numbering) : n.Depicts b (fun _ => false) m := by
  refine ⟨lowest.univ, fun r range found => ?_⟩
  obtain ⟨univ, -, arity, -⟩ := regular.formed.ranges r range found
  refine ⟨range.lower, ?_, univ, arity, by simp⟩
  rw [lowest.values, found]
  rfl

theorem Instance.Lowest.within {b : Bounds} {m : Instance} (lowest : m.Lowest b)
    (regular : b.Regular) : m.Within b := by
  refine ⟨lowest.univ, fun r range found => ?_⟩
  obtain ⟨-, -, -, -, contained⟩ := regular.formed.ranges r range found
  refine ⟨range.lower, ?_, TupleSet.le_iff.mpr ⟨rfl, rfl, fun _ => id⟩, contained⟩
  rw [lowest.values, found]
  rfl

namespace Encoding

variable {e : Encoding} {f : Formula} {b : Bounds} {a : Nat → Bool} {m : Instance}

def Models (e : Encoding) (a : Nat → Bool) : Prop :=
  Satisfies a e.cnf.clauses.toList ∧ Meets a e.assumptions

def Least (e : Encoding) (a : Nat → Bool) : Prop :=
  e.Models a ∧ ∀ c, e.Models c → Below e.numbering.count c a → Below e.numbering.count a c

def assume (e : Encoding) (units : List Int) : Encoding :=
  { e with assumptions := e.assumptions ++ units }

theorem assume_nil : e.assume [] = e := by rw [assume, List.append_nil]

theorem models_assume {units : List Int} :
    (e.assume units).Models a ↔ e.Models a ∧ Meets a units := by
  rw [Models, Models, and_assoc]
  exact and_congr_right' meets_append

theorem Encodes.isModel (encodes : e.Encodes f b) (regular : b.Regular) (models : e.Models a)
    (depicts : e.numbering.Depicts b a m) : f.IsModel b m := by
  have agrees := depicts.agrees regular encodes.numbers
  have holds := (encodes.exact a _ agrees).mp ⟨a, fun _ _ _ => rfl, models⟩
  exact ⟨depicts.within regular encodes.numbers, holds⟩

theorem Encodes.exists_models (encodes : e.Encodes f b) (regular : b.Regular)
    (isModel : f.IsModel b m) : ∃ a, e.Models a ∧ e.numbering.Depicts b a m := by
  have depicts := Numbering.valuation_depicts regular encodes.numbers isModel.1
  have agrees := depicts.agrees regular encodes.numbers
  obtain ⟨a, same, models⟩ := (encodes.exact _ _ agrees).mpr isModel.2
  refine ⟨a, models, depicts.agree encodes.numbers ?_⟩
  exact fun var lower upper => (same var lower upper).symm

/-- The assignments that satisfy the encoding depict the wanted instances. -/
structure Captures (e : Encoding) (b : Bounds) (wanted : Instance → Prop) : Prop where
  sound : ∀ a m, e.Models a → e.numbering.Depicts b a m → wanted m
  complete : ∀ m, wanted m → ∃ a, e.Models a ∧ e.numbering.Depicts b a m

theorem Encodes.captures (encodes : e.Encodes f b) (regular : b.Regular) :
    e.Captures b (f.IsModel b) :=
  ⟨fun _ _ => encodes.isModel regular, fun _ => encodes.exists_models regular⟩

theorem Captures.minimal_iff {wanted : Instance → Prop} (captures : e.Captures b wanted)
    (regular : b.Regular) (numbers : e.numbering.Numbers b) (models : e.Models a)
    (depicts : e.numbering.Depicts b a m) : Instance.Minimal b wanted m ↔ e.Least a := by
  have partOf := fun {s t : Nat → Bool} {m other : Instance} =>
    @Numbering.Depicts.partOf_iff e.numbering b s t m other regular numbers
  constructor
  · intro minimal
    refine ⟨models, fun c other below => ?_⟩
    have drawn := Numbering.instanceAt_depicts regular numbers c
    have isWanted := captures.sound c _ other drawn
    exact (partOf depicts drawn).mp (minimal.2 _ isWanted ((partOf drawn depicts).mpr below))
  · intro least
    refine ⟨captures.sound a m models depicts, fun other isWanted part => ?_⟩
    obtain ⟨c, also, drawn⟩ := captures.complete other isWanted
    exact (partOf depicts drawn).mpr (least.2 c also ((partOf drawn depicts).mp part))

theorem Encodes.isMinimalModel_iff (encodes : e.Encodes f b) (regular : b.Regular)
    (models : e.Models a) (depicts : e.numbering.Depicts b a m) :
    f.IsMinimalModel b m ↔ e.Least a :=
  (encodes.captures regular).minimal_iff regular encodes.numbers models depicts

/-- In a least assignment the tuples that cannot be counted are false. -/
theorem Encodes.countable_assume (encodes : e.Encodes f b) (regular : b.Regular) {units : List Int}
    (counted : ∀ l ∈ units, ∃ r i, e.numbering.StandsFor l.natAbs r i ∧
      (b.univ.capacity? r.arity).isSome = true)
    (least : (e.assume units).Least a) {var i : Nat} {r : Relation}
    (stands : e.numbering.StandsFor var r i) (chosen : a var = true) :
    (b.univ.capacity? r.arity).isSome = true := by
  classical
  by_contra uncountable
  -- The same assignment without the tuples of relations like `r`.
  let without : Nat → Bool := fun v => a v && decide (∀ q j, e.numbering.StandsFor v q j →
    (b.univ.capacity? q.arity).isSome = true)
  have kept : ∀ v q j, e.numbering.StandsFor v q j → (b.univ.capacity? q.arity).isSome = true →
      without v = a v := by
    intro v q j isVar countable
    have all : ∀ q' j', e.numbering.StandsFor v q' j' →
        (b.univ.capacity? q'.arity).isSome = true := by
      intro q' j' also
      rw [← (encodes.numbers.stands_unique isVar also).1]
      exact countable
    simp only [without, decide_eq_true all, Bool.and_true]
  have agrees := (Numbering.instanceAt_depicts regular encodes.numbers a).agrees regular
    encodes.numbers
  have also : (⟨b, e.numbering⟩ : Leaves).Agrees without
      (e.numbering.instanceAt b a).interpretation := by
    refine ⟨agrees.size, fun q range found countable t => ?_⟩
    rw [agrees.tuples q range found countable t]
    apply and_congr_right
    intro _
    apply and_congr_right
    intro _
    apply or_congr_right
    apply exists_congr
    intro v
    apply and_congr_right
    intro isVar
    rw [kept v q _ isVar countable]
  -- The formula does not depend on what was taken away, and the assumptions do not ask for it.
  obtain ⟨models, met⟩ := models_assume.mp least.1
  have holds := (encodes.exact a _ agrees).mp ⟨a, fun _ _ _ => rfl, models⟩
  obtain ⟨c, same, models'⟩ := (encodes.exact without _ also).mpr holds
  have met' : Meets c units := by
    intro l member
    obtain ⟨q, j, isVar, countable⟩ := counted l member
    obtain ⟨lower, upper⟩ := isVar.bounds encodes.numbers
    have value : c l.natAbs = a l.natAbs :=
      (same _ lower upper).trans (kept _ q j isVar countable)
    rw [litHolds, value]
    exact met l member
  have below : Below e.numbering.count c a := by
    intro v lower upper isTrue
    rw [same v lower upper] at isTrue
    exact (Bool.and_eq_true _ _ ▸ isTrue : a v = true ∧ _).1
  obtain ⟨lower, upper⟩ := stands.bounds encodes.numbers
  have isTrue := least.2 c (models_assume.mpr ⟨models', met'⟩) below var lower upper chosen
  rw [same var lower upper] at isTrue
  have decided : decide _ = true := (Bool.and_eq_true _ _ ▸ isTrue : a var = true ∧ _).2
  exact uncountable (of_decide_eq_true decided r i stands)

theorem Encodes.countable (encodes : e.Encodes f b) (regular : b.Regular) (least : e.Least a)
    {var i : Nat} {r : Relation} (stands : e.numbering.StandsFor var r i) (chosen : a var = true) :
    (b.univ.capacity? r.arity).isSome = true := by
  rw [← e.assume_nil] at least
  exact encodes.countable_assume regular (by simp) least stands chosen

end Encoding

namespace Solution

variable {σ : Type} {l : Loaded σ} {f : Formula} {b : Bounds} {solution : Solution}

/-- The solution of a model that was found is the instance that the model stands for, with the
integers of the bounds. -/
theorem ofModel_eq_ok (encodes : l.encoding.Encodes f b) (regular : b.Regular)
    (ok : Solution.ofModel l b = .ok solution) :
    ∃ m, solution = .sat m (.ofLoaded l) ∧ l.encoding.numbering.Depicts b l.store.model m ∧
      ∀ value, m.ints.find? value = b.ints.find? value := by
  obtain ⟨read, isRead, rest⟩ := bind_eq_ok.mp ok
  obtain ⟨m, isPadded, made⟩ := bind_eq_ok.mp rest
  rw [Loaded.interpret, encodes.bounds] at isRead
  obtain ⟨depicts, noInts⟩ := Numbering.interpret_eq_ok regular encodes.numbers isRead
  obtain ⟨padded, ok', drawn, ints⟩ := depicts.pad regular
  obtain rfl := Except.ok.inj (isPadded.symm.trans ok')
  refine ⟨m, (pure_eq_ok.mp made).symm, drawn, fun value => ?_⟩
  rw [ints, noInts]
  simp [SortedTable.empty, SortedTable.find?]

theorem ofModel_eq_error (encodes : l.encoding.Encodes f b) (regular : b.Regular) {error : Error}
    (failed : Solution.ofModel l b = .error error) : error.kind = .capacityExceeded := by
  unfold ofModel Loaded.interpret at failed
  rw [encodes.bounds] at failed
  rcases bind_eq_error.mp failed with unread | ⟨read, isRead, rest⟩
  · exact Numbering.interpret_eq_error regular encodes.numbers unread
  · obtain ⟨depicts, -⟩ := Numbering.interpret_eq_ok regular encodes.numbers isRead
    obtain ⟨padded, isPadded, -⟩ := depicts.pad regular
    rcases bind_eq_error.mp rest with unpadded | ⟨_, -, impossible⟩
    · cases isPadded.symm.trans unpadded
    · cases impossible

theorem ofModel_over (ok : Solution.ofModel l b = .ok solution) {m : Instance}
    (isModel : solution.model? = some m) : m.Over l.encoding.numbering.univ := by
  obtain ⟨read, isRead, rest⟩ := bind_eq_ok.mp ok
  obtain ⟨padded, isPadded, made⟩ := bind_eq_ok.mp rest
  obtain rfl := pure_eq_ok.mp made
  obtain rfl := Option.some.inj isModel
  exact (Numbering.interpret_over isRead).pad isPadded

theorem ofModel_of_countable (encodes : l.encoding.Encodes f b) (regular : b.Regular)
    (countable : ∀ var r i, l.encoding.numbering.StandsFor var r i → l.store.model var = true →
      (b.univ.capacity? r.arity).isSome = true) :
    ∃ solution, Solution.ofModel l b = .ok solution := by
  obtain ⟨read, isRead⟩ := Numbering.interpret_succeeds regular encodes.numbers countable
  obtain ⟨depicts, -⟩ := Numbering.interpret_eq_ok regular encodes.numbers isRead
  obtain ⟨padded, ok, -⟩ := depicts.pad regular
  refine ⟨_, bind_eq_ok.mpr ⟨read, ?_, bind_eq_ok.mpr ⟨padded, ok, rfl⟩⟩⟩
  rw [Loaded.interpret, encodes.bounds]
  exact isRead

theorem ofModel_succeeds (encodes : l.encoding.Encodes f b) (regular : b.Regular)
    (least : l.encoding.Least l.store.model) : ∃ solution, Solution.ofModel l b = .ok solution :=
  ofModel_of_countable encodes regular fun _ _ _ stands chosen =>
    encodes.countable regular least stands chosen

/-- A formula that folds to true is answered by the lower bounds, with the integers of the bounds. -/
theorem ofFolded_lowest (regular : b.Regular) {r : Folded} (bounds : r.bounds = b)
    (isTrue : r.value = true) :
    ∃ m, Solution.ofFolded r b = .ok (.triviallySat m ⟨b.unknownCount, 0, 0, 0, 0⟩) ∧
      m.Lowest b := by
  obtain ⟨lowest, isLowest, univ, values, ints⟩ :=
    Instance.pad_succeeds regular (rfl : (Instance.empty b.univ).univ = b.univ)
  obtain ⟨padded, ok, paddedUniv, paddedValues, paddedInts⟩ := Instance.pad_succeeds regular univ
  refine ⟨padded, ?_, paddedUniv, fun r => ?_, fun value => ?_⟩
  · unfold ofFolded
    rw [if_pos isTrue, bounds]
    exact bind_eq_ok.mpr ⟨lowest, isLowest, bind_eq_ok.mpr ⟨padded, ok, rfl⟩⟩
  · rw [paddedValues, values]
    cases b.range? r <;> rfl
  · rw [paddedInts, ints]
    cases b.ints.find? value <;> rfl

theorem ofFolded_true (regular : b.Regular) (n : Numbering) {r : Folded} (bounds : r.bounds = b)
    (isTrue : r.value = true) :
    ∃ m stats, Solution.ofFolded r b = .ok (.triviallySat m stats) ∧
      n.Depicts b (fun _ => false) m ∧ ∀ value, m.ints.find? value = b.ints.find? value := by
  obtain ⟨m, ok, lowest⟩ := ofFolded_lowest regular bounds isTrue
  exact ⟨m, _, ok, lowest.depicts regular n, lowest.ints⟩

theorem ofFolded_over {r : Folded} (ok : Solution.ofFolded r b = .ok solution) {m : Instance}
    (isModel : solution.model? = some m) : m.Over r.bounds.univ := by
  unfold ofFolded at ok
  split at ok
  · obtain ⟨lowest, isLowest, rest⟩ := bind_eq_ok.mp ok
    obtain ⟨padded, isPadded, made⟩ := bind_eq_ok.mp rest
    obtain rfl := pure_eq_ok.mp made
    obtain rfl := Option.some.inj isModel
    exact ((Instance.empty_over _).pad isLowest).pad isPadded
  · obtain rfl := pure_eq_ok.mp ok
    cases isModel

theorem ofFolded_isTrivial {r : Folded} (ok : Solution.ofFolded r b = .ok solution) :
    solution.isTrivial = true := by
  unfold ofFolded at ok
  split at ok
  · obtain ⟨lowest, -, rest⟩ := bind_eq_ok.mp ok
    obtain ⟨padded, -, made⟩ := bind_eq_ok.mp rest
    rw [← pure_eq_ok.mp made]
    rfl
  · rw [← pure_eq_ok.mp ok]
    rfl

theorem ofFolded_false {r : Folded} (isFalse : r.value = false) :
    ∃ stats, Solution.ofFolded r b = .ok (.triviallyUnsat (r.log.map .ofFolded) stats) := by
  unfold ofFolded
  rw [if_neg (by simp [isFalse])]
  exact ⟨_, rfl⟩

end Solution

end ModelFinder
