import ModelFinder.Proofs.Circuit.Operations
import Mathlib.Data.List.Sort
import Mathlib.Logic.Relation

/-! Sharing is canonical. With sharing on, the positions on record are the inverse of the gate table
after every step, so no gate is there twice, and a conjunction or disjunction that was asked for once
is found again, whatever was asked in between and in whatever order its operands are given. None of
this needs labels to last: it is the same for labels that have wrapped. -/
namespace ModelFinder

theorem natAbs_signedWord_le (n : Int) : (signedWord n).natAbs ≤ n.natAbs := by
  by_cases small : n.natAbs < 2147483648
  · rw [signedWord_of_natAbs_lt small]
  · have least := Int.le_bmod (x := n) (m := wordBound) (by decide)
    have greatest := Int.bmod_lt (x := n) (m := wordBound) (by decide)
    simp only [signedWord, wordBound] at least greatest ⊢
    omega

namespace Value

variable {c : Circuit} {v : Value}

theorem bounded_const (b : Bool) : (const b).Bounded c := by
  intro n same
  cases same

theorem bounded_ofLabel {l : Int} (small : l.natAbs ≤ c.maxLabel) : (ofLabel l).Bounded c := by
  intro n same
  unfold ofLabel at same
  split at same
  · cases same
  split at same
  · cases same
  · rwa [← lit.inj same]

theorem Bounded.not (bounded : v.Bounded c) : v.not.Bounded c := by
  cases v with
  | const b => exact bounded_const _
  | lit n =>
    have small := natAbs_signedWord_le (-n)
    rw [Int.natAbs_neg] at small
    exact bounded_ofLabel (Nat.le_trans small (bounded n rfl))

end Value

namespace Circuit

/-- What an operation comes to: a value that was in use before, or a gate that is asked for. -/
inductive Gives (c : Circuit) : Wire × Circuit → Prop
  | known {w : Wire} (bounded : w.value.Bounded c) : Gives c (w, c)
  | gate (g : Gate) : Gives c (Wire.emit g c)

variable {c d e : Circuit} {w : Wire} {wires left right : List Wire}

def reduced (neutral : Bool) (wires : List Wire) : Option (List Int) :=
  (operands neutral (wires.map Wire.value)).map Ascending.sort

theorem combine_reduced (gate : List Int → Gate) (neutral : Bool) (wires : List Wire) :
    Wire.combine gate neutral wires = match reduced neutral wires with
      | none => pure ⟨.const !neutral, .constant⟩
      | some [] => pure ⟨.const neutral, .constant⟩
      | some [l] => do return (← get).wire (.ofLabel l)
      | some labels =>
          if clashes labels then pure ⟨.const !neutral, .constant⟩ else Wire.emit (gate labels) := by
  unfold Wire.combine reduced
  cases operands neutral (wires.map Wire.value) with
  | none => rfl
  | some labels =>
    simp only [Option.map_some]
    rcases Ascending.sort labels with _ | ⟨l, _ | ⟨m, rest⟩⟩ <;> rfl

theorem reduced_eq_none {neutral : Bool} :
    reduced neutral wires = none ↔ ∃ w ∈ wires, w.value = .const !neutral := by
  rw [reduced, Option.map_eq_none_iff, operands]
  simp [List.any_eq_true]

theorem mem_reduced {neutral : Bool} {labels : List Int}
    (found : reduced neutral wires = some labels) : labels.Pairwise (· < ·) ∧
      ∀ l, l ∈ labels ↔ ∃ w ∈ wires, ∃ n, w.value = .lit n ∧ (Value.lit n).label = l := by
  rw [reduced, Option.map_eq_some_iff] at found
  obtain ⟨unsorted, listed, rfl⟩ := found
  refine ⟨Ascending.sort_pairwise unsorted, fun l => ?_⟩
  unfold operands at listed
  split at listed
  · cases listed
  rw [Ascending.mem_sort, ← Option.some.inj listed, List.mem_filterMap]
  constructor
  · rintro ⟨v, member, isLabel⟩
    obtain ⟨w, isOperand, rfl⟩ := List.mem_map.mp member
    cases value : w.value with
    | const b => rw [value] at isLabel; cases isLabel
    | lit n =>
      rw [value] at isLabel
      exact ⟨w, isOperand, n, value, Option.some.inj isLabel⟩
  · rintro ⟨w, isOperand, n, value, rfl⟩
    exact ⟨w.value, List.mem_map_of_mem isOperand, by rw [value]⟩

/-- Two lists have the same operands, up to order, repetitions and the constant that changes
nothing. -/
def SameOperands (neutral : Bool) (left right : List Wire) : Prop :=
  ∀ w, w ≠ ⟨.const neutral, .constant⟩ → (w ∈ left ↔ w ∈ right)

theorem reduced_congr {neutral : Bool} (same : SameOperands neutral left right) :
    reduced neutral left = reduced neutral right := by
  have apart : ∀ w : Wire, w.value ≠ .const neutral → (w ∈ left ↔ w ∈ right) :=
    fun w other => same w fun isNeutral => other (isNeutral ▸ rfl)
  have absorbed : reduced neutral left = none ↔ reduced neutral right = none := by
    rw [reduced_eq_none, reduced_eq_none]
    refine exists_congr fun w => and_congr_left fun absorbs => apart w ?_
    simp [absorbs]
  cases one : reduced neutral left with
  | none => exact (absorbed.mp one).symm
  | some labels =>
    cases two : reduced neutral right with
    | none => rw [absorbed.mpr two] at one; cases one
    | some others =>
      obtain ⟨ascending, members⟩ := mem_reduced one
      obtain ⟨ascending', members'⟩ := mem_reduced two
      refine congrArg some (ascending.eq_of_mem_iff ascending' fun l => ?_)
      rw [members, members']
      refine exists_congr fun w => and_congr_left ?_
      rintro ⟨n, value, -⟩
      exact apart w (by simp [value])

theorem combine_gives (gate : List Int → Gate) (neutral : Bool)
    (bounded : ∀ w ∈ wires, w.value.Bounded c) : c.Gives (Wire.combine gate neutral wires c) := by
  rw [combine_reduced]
  split
  · exact .known (Value.bounded_const _)
  · exact .known (Value.bounded_const _)
  · rename_i l single
    obtain ⟨w, isOperand, n, value, rfl⟩ := ((mem_reduced single).2 l).mp List.mem_cons_self
    have small := natAbs_signedWord_le n
    exact .known (Value.bounded_ofLabel (Nat.le_trans small (bounded w isOperand n value)))
  · split
    · exact .known (Value.bounded_const _)
    · exact .gate _

end Circuit

namespace Wire

open Circuit

variable {c : Circuit} {a b cond yes no : Wire}

theorem and_gives (left : a.value.Bounded c) (right : b.value.Bounded c) : c.Gives (and a b c) :=
  combine_gives _ _ (by simp [left, right])

theorem or_gives (left : a.value.Bounded c) (right : b.value.Bounded c) : c.Gives (or a b c) :=
  combine_gives _ _ (by simp [left, right])

theorem ite_gives (condition : cond.value.Bounded c) (left : yes.value.Bounded c)
    (right : no.value.Bounded c) : c.Gives (ite cond yes no c) := by
  have negated : (c.wire cond.value.not).value.Bounded c := condition.not
  fun_cases ite cond yes no with
  | case1 b =>
    cases b with
    | false => exact .known right
    | true => exact .known left
  | case2 => exact .known left
  | case3 => exact or_gives condition right
  | case4 => exact and_gives negated right
  | case5 => exact or_gives negated left
  | case6 => exact and_gives condition left
  | case7 => exact or_gives condition right
  | case8 => exact and_gives condition left
  | case9 => exact .gate _

end Wire

/-- An operation on values in use asks for one gate at most. -/
theorem Operation.onWires_gives {c : Circuit} (op : Operation Wire)
    (bounded : ∀ w ∈ op.operands, w.value.Bounded c) : c.Gives (op.onWires c) := by
  cases op with
  | not a => exact .known (bounded a (by simp [operands])).not
  | and a b => exact Wire.and_gives (bounded a (by simp [operands])) (bounded b (by simp [operands]))
  | or a b => exact Wire.or_gives (bounded a (by simp [operands])) (bounded b (by simp [operands]))
  | all items => exact Circuit.combine_gives _ _ bounded
  | any items => exact Circuit.combine_gives _ _ bounded
  | ite cond yes no =>
    exact Wire.ite_gives (bounded cond (by simp [operands])) (bounded yes (by simp [operands]))
      (bounded no (by simp [operands]))
  | iff a b =>
    have right := bounded b (by simp [operands])
    have opposite : (c.wire b.value.not).value.Bounded c := right.not
    exact Wire.ite_gives (bounded a (by simp [operands])) right opposite
  | implies a b =>
    exact Wire.or_gives (a := c.wire a.value.not) (bounded a (by simp [operands])).not
      (bounded b (by simp [operands]))

namespace Circuit

variable {c d e : Circuit} {w : Wire} {wires left right : List Wire}

inductive Step : List Wire × Circuit → List Wire × Circuit → Prop
  | constant {wires : List Wire} {c : Circuit} (b : Bool) :
      Step (wires, c) (⟨.const b, .constant⟩ :: wires, c)
  | input {wires : List Wire} {c : Circuit} {label : Int} {v : Value}
      (ok : c.input label = .ok v) : Step (wires, c) (⟨v, .input⟩ :: wires, c)
  | operation {wires : List Wire} {c d : Circuit} {w : Wire} (op : Operation Wire)
      (known : ∀ u ∈ op.operands, u ∈ wires) (run : op.onWires c = (w, d)) :
      Step (wires, c) (w :: wires, d)

theorem built_iff {inputs : Nat} {sharing : Bool} : Built inputs sharing wires c ↔
    Relation.ReflTransGen Step ([], .empty inputs sharing) (wires, c) := by
  constructor
  · intro built
    induction built with
    | start => exact .refl
    | constant _ b ih => exact ih.tail (.constant b)
    | input _ ok ih => exact ih.tail (.input ok)
    | operation _ op known run ih => exact ih.tail (.operation op known run)
  · intro steps
    generalize reached : (wires, c) = state at steps
    induction steps generalizing wires c with
    | refl =>
      cases reached
      exact .start
    | tail _ step ih =>
      cases step with
      | constant b => cases reached; exact (ih rfl).constant b
      | input ok => cases reached; exact (ih rfl).input ok
      | operation op known run => cases reached; exact (ih rfl).operation op known run

structure Shares (wires : List Wire) (c : Circuit) : Prop where
  sharing : c.sharing = true
  recorded : c.Recorded
  bounded : ∀ w ∈ wires, w.value.Bounded c

theorem empty_shares (inputs : Nat) : Shares [] (.empty inputs true) :=
  ⟨rfl, (empty_formed inputs true).recorded, by simp⟩

theorem Shares.hand (shares : Shares wires c) (bounded : w.value.Bounded c) :
    Shares (w :: wires) c :=
  ⟨shares.sharing, shares.recorded, List.forall_mem_cons.mpr ⟨bounded, shares.bounded⟩⟩

theorem Shares.gives (shares : Shares wires c) (gives : c.Gives (w, d)) :
    c ≤ d ∧ Shares (w :: wires) d := by
  cases gives with
  | known bounded => exact ⟨le_rfl, shares.hand bounded⟩
  | gate g =>
    have grown : c ≤ (emit g c).2 := grows_emit g c _ _ rfl
    obtain ⟨i, isLabel, found⟩ := emit_stands shares.recorded g
    have sharing : (emit g c).2.sharing = true := by
      obtain same | ⟨added, -⟩ := emit_cases g c
      · rw [same, shares.sharing]
      · rw [added]
        exact shares.sharing
    have bounded : (emit g c).1.Bounded (emit g c).2 := by
      intro n same
      rw [isLabel] at same
      have inside := (Array.getElem?_eq_some_iff.mp found).1
      rw [← Value.lit.inj same, maxLabel]
      omega
    exact ⟨grown, sharing, emit_recorded shares.recorded g, List.forall_mem_cons.mpr
      ⟨bounded, fun u member => (shares.bounded u member).of_le grown⟩⟩

theorem Shares.step (shares : Shares wires c) {later : List Wire}
    (step : Step (wires, c) (later, d)) : c ≤ d ∧ Shares later d := by
  cases step with
  | constant b => exact ⟨le_rfl, shares.hand (Value.bounded_const b)⟩
  | @input _ _ label v ok =>
    refine ⟨le_rfl, shares.hand fun n same => ?_⟩
    obtain rfl : v = .lit n := same
    unfold input at ok
    split at ok
    · rename_i granted
      have small := natAbs_signedWord_le c.inputs
      rw [← Value.lit.inj (Except.ok.inj ok), maxLabel]
      omega
    · cases ok
  | operation op known run =>
    have gives := op.onWires_gives fun u member => shares.bounded u (known u member)
    exact shares.gives (run ▸ gives)

theorem Shares.run (shares : Shares wires c) {later : List Wire}
    (steps : Relation.ReflTransGen Step (wires, c) (later, d)) : c ≤ d ∧ Shares later d := by
  generalize reached : (later, d) = state at steps
  induction steps generalizing later d with
  | refl =>
    cases reached
    exact ⟨le_rfl, shares⟩
  | @tail between _ _ step ih =>
    obtain ⟨held, e⟩ := between
    obtain ⟨before, kept⟩ := ih rfl
    obtain ⟨grown, shared⟩ := kept.step (reached ▸ step)
    exact ⟨before.trans grown, shared⟩

theorem gates_of_le (grown : d ≤ e) {i : Nat} {gate : Gate} (found : d.gates[i]? = some gate) :
    e.gates[i]? = some gate := by
  obtain ⟨-, more, gates⟩ := grown
  rw [← Array.getElem?_toList] at found ⊢
  rw [← gates, List.getElem?_append_left (List.getElem?_eq_some_iff.mp found).1, found]

theorem emit_again {gate : Gate} (recorded : c.Recorded) (run : Wire.emit gate c = (w, d))
    (grown : d ≤ e) (later : Shares wires e) : Wire.emit gate e = (w, e) := by
  obtain ⟨rfl, rfl⟩ : ⟨(emit gate c).1, gate.kind⟩ = w ∧ (emit gate c).2 = d := Prod.mk.inj run
  obtain ⟨i, isLabel, found⟩ := emit_stands recorded gate
  have position := (later.recorded later.sharing i gate).mpr (gates_of_le grown found)
  have again : emit gate e = (.lit (e.inputs + i + 1 : Nat), e) := by
    rw [emit, if_pos later.sharing, position]
  show (Wire.mk (emit gate e).1 gate.kind, (emit gate e).2) = _
  rw [again, isLabel, grown.1]

theorem combine_again {gate : List Int → Gate} {neutral : Bool} (recorded : c.Recorded)
    (bounded : ∀ u ∈ left, u.value.Bounded c) (same : SameOperands neutral left right)
    (run : Wire.combine gate neutral left c = (w, d)) (grown : d ≤ e) (later : Shares wires e) :
    Wire.combine gate neutral right e = (w, e) := by
  rw [combine_reduced] at run ⊢
  rw [← reduced_congr same]
  match isReduced : reduced neutral left with
  | none =>
    rw [isReduced] at run
    cases run
    rfl
  | some [] =>
    rw [isReduced] at run
    cases run
    rfl
  | some [l] =>
    obtain ⟨u, isOperand, n, value, rfl⟩ := ((mem_reduced isReduced).2 l).mp List.mem_cons_self
    have small : (Value.lit n).label.natAbs ≤ c.maxLabel :=
      Nat.le_trans (natAbs_signedWord_le n) (bounded u isOperand n value)
    rw [isReduced] at run
    cases run
    show (e.wire (.ofLabel _), e) = (c.wire (.ofLabel _), e)
    rw [wire, wire, kind_of_le grown (Value.bounded_ofLabel small)]
  | some (l :: m :: rest) =>
    simp only [isReduced] at run ⊢
    split at run
    · rename_i clashing
      rw [if_pos clashing]
      cases run
      rfl
    · rename_i peaceful
      rw [if_neg peaceful]
      exact emit_again recorded run grown later

end Circuit

open Circuit in
/-- With sharing on, whatever operations have built a circuit: no two gates have the same operator
and inputs, and operands that were combined once are combined to the same wire after any further
steps, in whatever order, however often and with whatever neutral constants they are given, and no
gate is added for them. -/
theorem sharing_canonical {inputs : Nat} {wires : List Wire} {c : Circuit}
    (built : Circuit.Built inputs true wires c) :
    (∀ label other gate twin, c.gate? label = some gate → c.gate? other = some twin →
      gate.kind = twin.kind → gate.inputs = twin.inputs → label = other) ∧
      ∀ left right w d later e, (∀ u ∈ left, u ∈ wires) →
        Relation.ReflTransGen Circuit.Step (w :: wires, d) (later, e) →
        (SameOperands true left right → Wire.all left c = (w, d) → Wire.all right e = (w, e)) ∧
        (SameOperands false left right → Wire.any left c = (w, d) → Wire.any right e = (w, e)) := by
  obtain ⟨-, shares⟩ := (empty_shares inputs).run (built_iff.mp built)
  refine ⟨?_, fun left right w d later e known steps => ?_⟩
  · intro label other gate twin one two sameKind sameInputs
    obtain rfl : gate = twin := by
      cases gate <;> cases twin <;> simp_all [Gate.kind, Gate.inputs]
    obtain ⟨i, rfl, here⟩ := gate?_eq_some.mp one
    obtain ⟨j, rfl, there⟩ := gate?_eq_some.mp two
    have recorded := shares.recorded shares.sharing
    have position := ((recorded i gate).mpr here).symm.trans ((recorded j gate).mpr there)
    rw [Option.some.inj position]
  · have bounded : ∀ u ∈ left, u.value.Bounded c := fun u member => shares.bounded u (known u member)
    have reached : ∀ op : Operation Wire, op.operands = left → op.onWires c = (w, d) →
        d ≤ e ∧ Shares later e := by
      rintro op rfl run
      exact (shares.gives (run ▸ op.onWires_gives bounded)).2.run steps
    constructor
    · intro same run
      obtain ⟨grown, shared⟩ := reached (.all left) rfl run
      exact combine_again shares.recorded bounded same run grown shared
    · intro same run
      obtain ⟨grown, shared⟩ := reached (.any left) rfl run
      exact combine_again shares.recorded bounded same run grown shared

namespace Sample

def further : Circuit := (Circuit.append (.and [-1, 2]) joined).2

theorem further_steps : Relation.ReflTransGen Circuit.Step ([both, right, left], joined)
    ([⟨.lit 4, .and⟩, ⟨.lit (-1), .not⟩, both, right, left], further) := by
  have negated : left.not joined = (⟨.lit (-1), .not⟩, joined) := rfl
  have absent : joined.positions[Gate.and [-1, 2]]? = none := by
    simp [joined, Circuit.append, Circuit.empty]
  have added : Wire.and ⟨.lit (-1), .not⟩ right joined = (⟨.lit 4, .and⟩, further) := by
    have sorted : Ascending.sort [(-1 : Int), 2] = [-1, 2] := (Ascending.sort_pair (by decide)).1
    refine and_run (by decide) sorted (by decide) ?_
    rw [Circuit.emit, absent]
    rfl
  exact (Relation.ReflTransGen.single (.operation (.not left) (by decide) negated)).tail
    (.operation (.and ⟨.lit (-1), .not⟩ right) (by decide) added)

end Sample

theorem sample_sharing_canonical :
    Wire.all [Sample.right, ⟨.const true, .constant⟩, Sample.left, Sample.right] Sample.further =
      (Sample.both, Sample.further) := by
  have same : Circuit.SameOperands true [Sample.left, Sample.right]
      [Sample.right, ⟨.const true, .constant⟩, Sample.left, Sample.right] := by
    intro w other
    simp only [List.mem_cons, List.not_mem_nil, or_false, other, false_or]
    tauto
  have known : ∀ u ∈ [Sample.left, Sample.right], u ∈ [Sample.right, Sample.left] := by decide
  obtain ⟨-, again⟩ := sharing_canonical Sample.inputs_built
  exact (again _ _ _ _ _ _ known Sample.further_steps).1 same Sample.first_run

end ModelFinder
