import ModelFinder.Circuit.Wires
import ModelFinder.Proofs.Circuit.Gates

/-! The label of a value says everything about it. The kind that a wire carries is always the one that
its number shows, now and in every larger circuit, so to compare wires is to compare values, and the
operations on wires do what those on values do. -/
namespace ModelFinder

namespace Circuit

variable {c d : Circuit} {v : Value} {w u : Wire}

structure Issues (c : Circuit) (w : Wire) : Prop where
  inside : w.value.In c
  kind : w.kind = c.kind w.value

theorem issues_wire (inside : v.In c) : c.Issues (c.wire v) := ⟨inside, rfl⟩

theorem Issues.eq_wire (issued : c.Issues w) : w = c.wire w.value := by
  rw [wire, ← issued.kind]

theorem Issues.eq_iff (one : c.Issues w) (two : c.Issues u) : w = u ↔ w.value = u.value := by
  refine ⟨congrArg Wire.value, fun same => ?_⟩
  rw [one.eq_wire, two.eq_wire, same]

theorem kind_of_le (grown : c ≤ d) (bounded : v.Bounded c) : d.kind v = c.kind v := by
  cases v with
  | const b => rfl
  | lit n => rw [kind, kind, gate?_of_le grown (bounded n rfl), grown.1]

theorem Issues.of_le (issued : c.Issues w) (grown : c ≤ d) : d.Issues w :=
  ⟨issued.inside.of_le grown, issued.kind.trans (kind_of_le grown issued.inside.bounded).symm⟩

theorem label_injective (labelled : c.Labelled) {v w : Value} (one : v.In c) (two : w.In c)
    (same : v.label = w.label) : v = w := by
  have apart : ∀ n, (Value.lit n).In c → ∀ b, (Value.lit n).label ≠ (Value.const b).label := by
    intro n inside b
    have bound := inside.2
    rw [label_of_in labelled inside]
    simp only [Labelled, Value.trueLabel] at labelled
    cases b <;> simp only [Value.label, Value.trueLabel] <;> omega
  cases v with
  | const b =>
    cases w with
    | const b' =>
      revert same
      cases b <;> cases b' <;> decide
    | lit n => exact absurd same.symm (apart n two b)
  | lit n =>
    cases w with
    | const b => exact absurd same (apart n one b)
    | lit m => rw [label_of_in labelled one, label_of_in labelled two] at same; rw [same]

theorem Issues.not (issued : c.Issues w) (labelled : c.Labelled) :
    c.Issues (c.wire w.value.not) :=
  issues_wire (Value.not_means labelled (Value.means_eval (s := fun _ => false) issued.inside)).1

theorem Issues.not_not (issued : c.Issues w) (labelled : c.Labelled) :
    c.wire (w.value.not).not = w := by
  rw [issued.eq_wire]
  congr 1
  have inside := issued.inside
  cases value : w.value with
  | const b => simp [wire, Value.not]
  | lit n =>
    rw [value] at inside
    have bound := inside.2
    simp only [Labelled, Value.trueLabel] at labelled
    rw [wire, Value.not_lit (by omega), Value.not_lit (by omega), Int.neg_neg]

def tagged (action : Synth Value) : Synth Wire := do
  let v ← action
  return (← get).wire v

theorem tagged_run (action : Synth Value) :
    tagged action c = ((action c).2.wire (action c).1, (action c).2) := rfl

end Circuit

namespace Wire

open Circuit

variable {c : Circuit} {a b cond yes no : Wire}

/-- The kind that a gate gives to its wire is the one that its label shows. -/
theorem emit_run (formed : c.WellFormed) (gate : Gate) :
    emit gate c = tagged (Circuit.emit gate) c := by
  obtain ⟨i, isLabel, found⟩ := emit_stands formed.recorded gate
  have shown : (Circuit.emit gate c).2.kind (Circuit.emit gate c).1 = gate.kind := by
    rw [isLabel, Circuit.kind, if_neg (by omega), if_neg (by omega), Int.natAbs_natCast,
      gate?_eq_some.mpr ⟨i, rfl, found⟩]
    rfl
  rw [tagged_run, wire, shown]
  rfl

theorem pure_run {w : Wire} (issued : c.Issues w) :
    (pure w : Synth Wire) c = tagged (pure w.value) c :=
  congrArg (·, c) issued.eq_wire

theorem combine_run (formed : c.WellFormed) (gate : List Int → Gate) (neutral : Bool)
    (wires : List Wire) :
    combine gate neutral wires c = tagged (Circuit.combine gate neutral (wires.map value)) c := by
  unfold combine Circuit.combine
  cases operands neutral (wires.map value) with
  | none => rfl
  | some labels =>
    match isSorted : Ascending.sort labels with
    | [] => simp only [isSorted]; rfl
    | [l] => simp only [isSorted]; rfl
    | l :: m :: rest =>
      simp only [isSorted]
      split
      · rfl
      · exact emit_run formed _

theorem and_run (formed : c.WellFormed) (a b : Wire) :
    and a b c = tagged (Circuit.and a.value b.value) c := combine_run formed _ _ _

theorem or_run (formed : c.WellFormed) (a b : Wire) :
    or a b c = tagged (Circuit.or a.value b.value) c := combine_run formed _ _ _

theorem implies_run (formed : c.WellFormed) (a b : Wire) :
    implies a b c = tagged (Circuit.implies a.value b.value) c := or_run formed (c.wire _) b

theorem ite_run (formed : c.WellFormed) (cond_issued : c.Issues cond) (yes_issued : c.Issues yes)
    (no_issued : c.Issues no) :
    ite cond yes no c = tagged (Circuit.ite cond.value yes.value no.value) c := by
  simp only [ite, yes_issued.eq_iff no_issued, cond_issued.eq_iff yes_issued,
    cond_issued.eq_iff no_issued]
  obtain ⟨cond, condKind⟩ := cond
  obtain ⟨yes, yesKind⟩ := yes
  obtain ⟨no, noKind⟩ := no
  cases cond with
  | const b =>
    cases b with
    | false => exact pure_run no_issued
    | true => exact pure_run yes_issued
  | lit n =>
    simp only [Value.const?, Circuit.ite]
    by_cases same : yes = no
    · rw [if_pos same, if_pos same]
      exact pure_run yes_issued
    rw [if_neg same, if_neg same]
    cases yes with
    | const b =>
      cases b with
      | false => exact and_run formed (c.wire (Value.lit n).not) ⟨no, noKind⟩
      | true => exact or_run formed ⟨.lit n, condKind⟩ ⟨no, noKind⟩
    | lit y =>
      cases no with
      | const b =>
        cases b with
        | false => exact and_run formed ⟨.lit n, condKind⟩ ⟨.lit y, yesKind⟩
        | true => exact or_run formed (c.wire (Value.lit n).not) ⟨.lit y, yesKind⟩
      | lit m =>
        simp only [Value.lit.injEq]
        by_cases taken : n = y
        · rw [if_pos taken, if_pos taken]
          exact or_run formed ⟨.lit n, condKind⟩ ⟨.lit m, noKind⟩
        rw [if_neg taken, if_neg taken]
        by_cases left : n = m
        · rw [if_pos left, if_pos left]
          exact and_run formed ⟨.lit n, condKind⟩ ⟨.lit y, yesKind⟩
        · rw [if_neg left, if_neg left]
          exact emit_run formed _

theorem iff_run (sound : c.Sound) (left : c.Issues a) (right : c.Issues b) :
    iff a b c = tagged (Circuit.iff a.value b.value) c :=
  ite_run sound.formed left right (right.not sound.labelled)

end Wire

end ModelFinder
