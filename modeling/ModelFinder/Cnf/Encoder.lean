import ModelFinder.Circuit.Basic
import ModelFinder.Cnf.Basic
import Std.Data.HashSet

/-! Circuits as clauses. Every gate that a value depends on is defined once, by clauses that make
its label equal to its function of the inputs, and after the gates among its inputs. The label of a
gate is its variable, so the inputs of the circuit keep their numbers. -/
namespace ModelFinder

def Gate.definition (output : Int) : Gate → List Clause
  | and inputs => (inputs.map (-·) ++ [output]) :: inputs.map fun x => [x, -output]
  | or inputs => (inputs ++ [-output]) :: inputs.map fun x => [-x, output]
  | ite cond yes no =>
      [[-cond, -yes, output], [-cond, yes, -output], [cond, -no, output], [cond, no, -output]]

/-- The clauses so far, the labels of the gates they define, and a bound on the steps of a visit. -/
structure Encoder where
  cnf : Cnf
  defined : Std.HashSet Nat
  limit : Nat

inductive Visit where
  | look (label : Nat)
  | define (label : Nat) (gate : Gate)

namespace Encoder

/-- No clauses over the labels of a circuit. A visit looks at a gate and defines it at most once,
and looks at each of its inputs. -/
def empty (c : Circuit) : Encoder :=
  ⟨⟨c.maxLabel, #[]⟩, ∅, c.gates.foldl (fun sum gate => sum + gate.inputs.length + 1) 1⟩

/-- Takes at most `count` steps from a stack of steps ahead: defines the gates that a label depends
on and that are not defined yet, those below its last input first, those below its first input last,
then its own. -/
def visit (c : Circuit) : (count : Nat) → List Visit → Encoder → Encoder
  | 0, _, e => e
  | _ + 1, [], e => e
  | count + 1, .look label :: ahead, e =>
      if e.defined.contains label then visit c count ahead e
      else
        match c.gate? label with
        | none => visit c count ahead e
        | some gate =>
            visit c count
              (gate.inputs.foldl (fun ahead x => .look x.natAbs :: ahead)
                (.define label gate :: ahead)) e
  | count + 1, .define label gate :: ahead, e =>
      visit c count ahead { e with
        cnf := e.cnf.addAll (gate.definition label)
        defined := e.defined.insert label }

def reach (c : Circuit) (e : Encoder) (label : Nat) : Encoder := visit c e.limit [.look label] e

/-- Defines all that a value depends on and gives its literal; a constant has none. -/
def define (c : Circuit) (e : Encoder) : Value → Option Int × Encoder
  | .const _ => (none, e)
  | .lit n =>
      let l := (Value.lit n).label
      (some l, e.reach c l.natAbs)

def assert (c : Circuit) (e : Encoder) : Value → Encoder
  | .const true => e
  | .const false => { e with cnf := e.cnf.add [] }
  | .lit n =>
      let l := (Value.lit n).label
      let e := e.reach c l.natAbs
      { e with cnf := e.cnf.add [l] }

end Encoder

end ModelFinder
