import ModelFinder.Circuit.Matrix
import ModelFinder.Cnf.Basic

/-! The meaning of circuits under a valuation of their inputs. Gates read smaller labels only, so
the truth of all labels is found gate by gate from the first to the last. -/
namespace ModelFinder

def Gate.eval (truth : Nat → Bool) : Gate → Bool
  | and inputs => inputs.all (litHolds truth)
  | or inputs => inputs.any (litHolds truth)
  | ite cond yes no => if litHolds truth cond then litHolds truth yes else litHolds truth no

namespace Circuit

/-- The truth of the labels when the listed gates, labelled from `first` on, are added to what is
known. -/
def extend (truth : Nat → Bool) (first : Nat) : List Gate → Nat → Bool
  | [] => truth
  | gate :: rest =>
      extend (fun label => if label = first then gate.eval truth else truth label) (first + 1) rest

def truth (c : Circuit) (s : Nat → Bool) : Nat → Bool := extend s (c.inputs + 1) c.gates.toList

theorem extend_append (truth : Nat → Bool) (first : Nat) (gates more : List Gate) :
    extend truth first (gates ++ more) =
      extend (extend truth first gates) (first + gates.length) more := by
  induction gates generalizing truth first with
  | nil => rfl
  | cons gate rest ih =>
    simp only [List.cons_append, extend, ih, List.length_cons]
    rw [show first + 1 + rest.length = first + (rest.length + 1) by omega]

theorem extend_of_lt (truth : Nat → Bool) (first : Nat) (gates : List Gate) (label : Nat)
    (smaller : label < first) : extend truth first gates label = truth label := by
  induction gates generalizing truth first with
  | nil => rfl
  | cons gate rest ih =>
    have apart : label ≠ first := by omega
    rw [extend, ih _ (first + 1) (by omega), if_neg apart]

end Circuit

def Value.eval (c : Circuit) (s : Nat → Bool) : Value → Bool
  | const b => b
  | lit n => litHolds (c.truth s) n

def Value.In (c : Circuit) : Value → Prop
  | const _ => True
  | lit n => n ≠ 0 ∧ n.natAbs ≤ c.maxLabel

/-- What holds of the gate of a label: it reads smaller labels, and a conjunction or disjunction has
two or more operands in strictly ascending order, none with its negation. -/
def Gate.Ordered (label : Nat) (gate : Gate) : Prop :=
  (∀ l ∈ gate.inputs, l ≠ 0 ∧ l.natAbs < label) ∧
  match gate with
  | .and inputs | .or inputs =>
      2 ≤ inputs.length ∧ inputs.Pairwise (· < ·) ∧ ∀ l ∈ inputs, -l ∉ inputs
  | .ite .. => True

/-- Every gate of the circuit is ordered, and with sharing on each gate has one position, which is
on record. -/
structure Circuit.WellFormed (c : Circuit) : Prop where
  ordered : ∀ (i : Nat) (gate : Gate), c.gates[i]? = some gate → gate.Ordered (c.inputs + i + 1)
  recorded : c.sharing = true → ∀ (i : Nat) (gate : Gate),
    c.positions[gate]? = some i ↔ c.gates[i]? = some gate

/-- The circuit is small enough for every number to be its own label and none to be that of a
constant. -/
def Circuit.Labelled (c : Circuit) : Prop := (c.maxLabel : Int) < Value.trueLabel

def Matrix.Holds (m : Matrix) (c : Circuit) (s : Nat → Bool) (t : List Nat) : Prop :=
  t.length = m.dims.arity ∧ (∀ a ∈ t, a < m.dims.size) ∧
    (m.get (encodeIndex m.dims.size t)).eval c s = true

structure Matrix.WellFormed (m : Matrix) (c : Circuit) : Prop where
  ascending : m.cells.keys.Pairwise (· < ·)
  bounded : ∀ i ∈ m.cells.keys, i < m.dims.capacity
  values : ∀ v ∈ m.cells.values, v ≠ .const false ∧ v.In c

end ModelFinder
