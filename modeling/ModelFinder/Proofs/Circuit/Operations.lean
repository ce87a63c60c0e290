import ModelFinder.Circuit.Operation
import ModelFinder.Proofs.Circuit.Wires

/-! Circuits compute what they are asked for, whatever was asked before and after. Sequences of
operations are followed by induction: each leaves a sound circuit that still issues all wires handed
out, and the wire it hands out has the truth of its boolean function. -/
namespace ModelFinder

namespace Wire

@[simp] theorem grows_emit (gate : Gate) : Build.Grows (liftM (emit gate)) := by
  simp [emit]

@[simp] theorem grows_read (read : Circuit → Wire) :
    Build.Grows (liftM (do return read (← get) : Synth Wire)) := by
  intro c a d run
  cases run
  exact le_rfl

@[simp] theorem grows_not (w : Wire) : Build.Grows (liftM w.not) := grows_read _

@[simp] theorem grows_combine (gate : List Int → Gate) (neutral : Bool) (wires : List Wire) :
    Build.Grows (liftM (combine gate neutral wires)) := by
  unfold combine
  split
  · simp
  split
  · simp
  · exact grows_read _
  split <;> simp

@[simp] theorem grows_or (a b : Wire) : Build.Grows (liftM (or a b)) := grows_combine _ _ _

@[simp] theorem grows_and (a b : Wire) : Build.Grows (liftM (and a b)) := grows_combine _ _ _

@[simp] theorem grows_ite (cond yes no : Wire) : Build.Grows (liftM (ite cond yes no)) := by
  fun_cases ite cond yes no <;> simp

end Wire

namespace Operation

variable {c : Circuit}

@[simp] theorem grows_onWires (op : Operation Wire) : Build.Grows (liftM op.onWires) := by
  cases op <;> simp [onWires, Wire.all, Wire.any, Wire.iff, Wire.implies]

theorem onValues_ensures (s : Nat → Bool) (sound : c.Sound) (op : Operation Value)
    (inside : ∀ v ∈ op.operands, v.In c) : Build.Ensures (liftM op.onValues) c fun v d =>
      v.Means d s ((op.map (·.eval c s)).truth = true) := by
  have means : ∀ v ∈ op.operands, v.Means c s (v.eval c s = true) :=
    fun v member => Value.means_eval (inside v member)
  cases op with
  | not a =>
    have meant := Value.not_means sound.labelled (means a (by simp [operands]))
    exact Build.ensures_pure sound (meant.congr (by simp [map, truth]))
  | and a b =>
    have ensured := Circuit.and_ensures sound (means a (by simp [operands]))
      (means b (by simp [operands]))
    exact ensured.imp fun v d _ meant => meant.congr (by simp [map, truth])
  | or a b =>
    have ensured := Circuit.or_ensures sound (means a (by simp [operands]))
      (means b (by simp [operands]))
    exact ensured.imp fun v d _ meant => meant.congr (by simp [map, truth])
  | all items =>
    refine (Circuit.all_ensures s sound inside).imp fun v d _ meant => meant.congr ?_
    simp [operands, map, truth]
  | any items =>
    refine (Circuit.any_ensures s sound inside).imp fun v d _ meant => meant.congr ?_
    simp [operands, map, truth]
  | ite cond yes no =>
    have ensured := Circuit.ite_ensures sound (means cond (by simp [operands]))
      (means yes (by simp [operands])) (means no (by simp [operands]))
    refine ensured.imp fun v d _ meant => meant.congr ?_
    simp only [map, truth]
    cases cond.eval c s <;> simp
  | iff a b =>
    have ensured := Circuit.iff_ensures sound (means a (by simp [operands]))
      (means b (by simp [operands]))
    refine ensured.imp fun v d _ meant => meant.congr ?_
    rw [map, truth, beq_iff_eq]
    exact Bool.eq_iff_iff.symm
  | implies a b =>
    have ensured := Circuit.implies_ensures sound (means a (by simp [operands]))
      (means b (by simp [operands]))
    refine ensured.imp fun v d _ meant => meant.congr ?_
    simp only [map, truth]
    cases a.eval c s <;> simp

/-- An operation on wires is that on their values, and the kind of the result is the one that its
number shows. -/
theorem onWires_run (sound : c.Sound) (op : Operation Wire)
    (issued : ∀ w ∈ op.operands, c.Issues w) :
    op.onWires c = Circuit.tagged (op.map Wire.value).onValues c := by
  cases op with
  | not a => rfl
  | and a b => exact Wire.and_run sound.formed a b
  | or a b => exact Wire.or_run sound.formed a b
  | all items => exact Wire.combine_run sound.formed _ _ items
  | any items => exact Wire.combine_run sound.formed _ _ items
  | ite cond yes no =>
    exact Wire.ite_run sound.formed (issued cond (by simp [operands]))
      (issued yes (by simp [operands])) (issued no (by simp [operands]))
  | iff a b =>
    exact Wire.iff_run sound (issued a (by simp [operands])) (issued b (by simp [operands]))
  | implies a b => exact Wire.implies_run sound.formed a b

theorem operands_map {α β : Type} (f : α → β) (op : Operation α) :
    (op.map f).operands = op.operands.map f := by
  cases op <;> rfl

theorem map_map {α β γ : Type} (f : α → β) (g : β → γ) (op : Operation α) :
    (op.map f).map g = op.map (g ∘ f) := by
  cases op <;> simp [map]

/-- An operation leaves a well-formed circuit that issues its result, and the result has the truth of
the function that the operation is named for. -/
theorem onWires_step {d : Circuit} {w : Wire} (sound : c.Sound) (op : Operation Wire)
    (issued : ∀ w ∈ op.operands, c.Issues w) (run : op.onWires c = (w, d)) (labelled : d.Labelled) :
    (op.map Wire.value).onValues c = (w.value, d) ∧ d.WellFormed ∧ d.Issues w ∧
      ∀ s, w.value.eval d s = (op.map (·.value.eval c s)).truth := by
  rw [onWires_run sound op issued, Circuit.tagged_run] at run
  obtain ⟨rfl, rfl⟩ := Prod.mk.inj run
  have inside : ∀ v ∈ (op.map Wire.value).operands, v.In c := by
    rw [operands_map]
    exact List.forall_mem_map.mpr fun w member => (issued w member).inside
  have ensured := fun s => onValues_ensures s sound (op.map Wire.value) inside
    ((op.map Wire.value).onValues c).1 _ rfl labelled
  obtain ⟨formed, within, -⟩ := ensured fun _ => false
  refine ⟨rfl, formed, Circuit.issues_wire within, fun s => Bool.eq_iff_iff.mpr ?_⟩
  refine (ensured s).2.2.trans ?_
  rw [map_map]
  rfl

end Operation

namespace Circuit

variable {inputs : Nat} {sharing : Bool} {wires : List Wire} {c : Circuit}

theorem Built.issues (built : Circuit.Built inputs sharing wires c) (labelled : c.Labelled) :
    c.Sound ∧ c.inputs = inputs ∧ ∀ w ∈ wires, c.Issues w := by
  induction built with
  | start => exact ⟨⟨empty_formed inputs sharing, labelled⟩, rfl, by simp⟩
  | constant _ b ih =>
    obtain ⟨sound, same, issued⟩ := ih labelled
    exact ⟨sound, same, List.forall_mem_cons.mpr ⟨issues_wire (v := .const b) trivial, issued⟩⟩
  | @input wires c label v _ ok ih =>
    obtain ⟨sound, same, issued⟩ := ih labelled
    obtain ⟨rfl, positive, bound⟩ := input_eq_lit labelled ok
    have inside : (Value.lit label).In c := ⟨by omega, by rw [maxLabel]; omega⟩
    have shown : c.kind (.lit label) = .input := by
      rw [kind, if_neg (by omega), if_pos bound]
    exact ⟨sound, same, List.forall_mem_cons.mpr ⟨⟨inside, shown.symm⟩, issued⟩⟩
  | @operation wires c d w _ op known run ih =>
    -- Labels that last in the larger circuit have lasted in the smaller one.
    have grown : c ≤ d := op.grows_onWires c w d (congrArg Except.ok run)
    obtain ⟨sound, same, issued⟩ := ih (labelled.of_le grown)
    obtain ⟨-, formed, result, -⟩ :=
      op.onWires_step sound (fun w member => issued w (known w member)) run labelled
    refine ⟨⟨formed, labelled⟩, grown.1.symm.trans same, List.forall_mem_cons.mpr ⟨result, ?_⟩⟩
    exact fun u member => (issued u member).of_le grown

end Circuit

/-- Whatever operations have built a circuit: its gates read smaller labels that are not those of the
constants, conjunctions and disjunctions have two or more operands in strictly ascending order and
none with its negation, and a label is that of one wire, so a wire negated twice is the same again.
The next operation on wires handed out does what it does on their values, gives a wire with the truth
of its boolean function, and leaves the truth of all earlier ones alone. -/
theorem operations_compute {inputs : Nat} {sharing : Bool} {wires : List Wire} {c : Circuit}
    (built : Circuit.Built inputs sharing wires c) (labelled : c.Labelled) :
    c.maxLabel = inputs + c.gates.size ∧
      (∀ label gate, c.gate? label = some gate →
        gate.Ordered label ∧ ∀ l ∈ gate.inputs, Value.ofLabel l = .lit l) ∧
      (∀ w ∈ wires, ∀ u ∈ wires, w.value.label = u.value.label → w = u) ∧
      (∀ w ∈ wires, (do (← w.not).not : Synth Wire) c = (w, c)) ∧
      ∀ (op : Operation Wire) (w : Wire) (d : Circuit), (∀ u ∈ op.operands, u ∈ wires) →
        op.onWires c = (w, d) → d.Labelled →
        (op.map Wire.value).onValues c = (w.value, d) ∧
          ∀ s, w.value.eval d s = (op.map (·.value.eval c s)).truth ∧
            ∀ u ∈ wires, u.value.eval d s = u.value.eval c s := by
  obtain ⟨sound, same, issued⟩ := built.issues labelled
  refine ⟨by rw [Circuit.maxLabel, same], ?_, ?_, ?_, ?_⟩
  · intro label gate found
    obtain ⟨i, rfl, isGate⟩ := Circuit.gate?_eq_some.mp found
    have ordered := sound.formed.ordered i gate isGate
    refine ⟨ordered, fun l member => Value.ofLabel_of_natAbs_lt ?_⟩
    have smaller := (ordered.1 l member).2
    have bound := (Circuit.gate?_le found).2
    simp only [Circuit.Labelled, Value.trueLabel] at labelled
    omega
  · intro w isWire u isOther sameLabel
    have one := issued w isWire
    have two := issued u isOther
    exact (one.eq_iff two).mpr (Circuit.label_injective labelled one.inside two.inside sameLabel)
  · intro w isWire
    exact congrArg (·, c) ((issued w isWire).not_not labelled)
  · intro op w d known run final
    have grown : c ≤ d := op.grows_onWires c w d (congrArg Except.ok run)
    obtain ⟨onValues, -, -, truth⟩ :=
      op.onWires_step sound (fun u member => issued u (known u member)) run final
    refine ⟨onValues, fun s => ⟨truth s, fun u isWire => ?_⟩⟩
    exact Value.eval_of_le grown (issued u isWire).inside

namespace Sample

def left : Wire := ⟨.lit 1, .input⟩

def right : Wire := ⟨.lit 2, .input⟩

def both : Wire := ⟨.lit 3, .and⟩

def joined : Circuit := (Circuit.append (.and [1, 2]) (.empty 2 true)).2

theorem joined_labelled : joined.Labelled :=
  show ((2 + 1 : Nat) : Int) < 2147483647 by decide

theorem and_run {c d : Circuit} {a b : Wire} {l m : Int} {v : Value}
    (listed : Circuit.operands true [a.value, b.value] = some [a.value.label, b.value.label])
    (sorted : Ascending.sort [a.value.label, b.value.label] = [l, m])
    (apart : Circuit.clashes [l, m] = false) (run : Circuit.emit (.and [l, m]) c = (v, d)) :
    a.and b c = (⟨v, .and⟩, d) := by
  have combined : a.and b = Wire.emit (.and [l, m]) := by
    rw [Wire.and, Wire.all, Wire.combine, List.map, List.map, List.map, listed]
    simp only [sorted, apart]
    rfl
  rw [combined]
  exact congrArg (fun result => (Wire.mk result.1 .and, result.2)) run

theorem first_run : left.and right (.empty 2 true) = (both, joined) := by
  have absent : (Circuit.empty 2 true).positions[Gate.and [1, 2]]? = none := by
    simp [Circuit.empty]
  have sorted : Ascending.sort [(1 : Int), 2] = [1, 2] := (Ascending.sort_pair (by decide)).1
  refine and_run (by decide) sorted (by decide) ?_
  rw [Circuit.emit, absent]
  rfl

theorem inputs_built : Circuit.Built 2 true [right, left] (.empty 2 true) := by
  have one : (Circuit.empty 2 true).input 1 = .ok left.value := by decide
  have two : (Circuit.empty 2 true).input 2 = .ok right.value := by decide
  have built := (Circuit.Built.start.input one).input two
  exact built

theorem both_built : Circuit.Built 2 true [both, right, left] joined :=
  inputs_built.operation (.and left right) (by decide) first_run

/-- In the other order, the gate that is there already is used again. -/
theorem second_run : right.and left joined = (both, joined) := by
  have found : joined.positions[Gate.and [1, 2]]? = some 0 := by
    simp [joined, Circuit.append, Circuit.empty]
  have sorted : Ascending.sort [(2 : Int), 1] = [1, 2] := (Ascending.sort_pair (by decide)).2
  refine and_run (by decide) sorted (by decide) ?_
  rw [Circuit.emit, found]
  rfl

end Sample

theorem sample_operations_compute :
    Sample.right.and Sample.left Sample.joined = (Sample.both, Sample.joined) ∧
      ∀ s, Sample.both.value.eval Sample.joined s =
        (Sample.right.value.eval Sample.joined s && Sample.left.value.eval Sample.joined s) := by
  obtain ⟨-, -, -, -, next⟩ := operations_compute Sample.both_built Sample.joined_labelled
  obtain ⟨-, truth⟩ := next (.and Sample.right Sample.left) Sample.both Sample.joined (by decide)
    Sample.second_run Sample.joined_labelled
  exact ⟨Sample.second_run, fun s => (truth s).1⟩

namespace Sample

/-- So many inputs that the last one has the label of a constant. -/
def crowded : Circuit := .empty 2147483647 false

def last : Wire := ⟨.lit 2147483647, .input⟩

theorem last_built : Circuit.Built 2147483647 false [last] crowded := by
  have given : crowded.input 2147483647 = .ok last.value := by decide
  exact Circuit.Built.start.input given

end Sample

/-- Where labels run out, the negation of an input is a constant, which is false also if the input
is, and the negation of the negation is not the input. -/
theorem last_input_negates_to_constant :
    Circuit.Built 2147483647 false [Sample.last] Sample.crowded ∧
      Sample.last.not Sample.crowded = (⟨.const false, .constant⟩, Sample.crowded) ∧
      (Value.const false).eval Sample.crowded (fun _ => false) ≠
        (!Sample.last.value.eval Sample.crowded fun _ => false) ∧
      (do (← Sample.last.not).not : Synth Wire) Sample.crowded ≠ (Sample.last, Sample.crowded) := by
  refine ⟨Sample.last_built, rfl, by decide, fun same => ?_⟩
  have input : (Wire.mk (.const true) .constant) = Sample.last := congrArg Prod.fst same
  exact absurd input (by decide)

end ModelFinder
