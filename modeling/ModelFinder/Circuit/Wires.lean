import ModelFinder.Circuit.Basic

/-! Values with the kind of what they stand for, which is how a circuit hands them out. Wires are
compared with their kinds. A gate that is asked for gives its kind to the wire; the kind of any other
value is read off its number. -/
namespace ModelFinder

inductive Kind where
  | constant
  | input
  | and
  | or
  | ite
  | not
deriving DecidableEq, Repr

def Gate.kind : Gate → Kind
  | and _ => .and
  | or _ => .or
  | ite .. => .ite

structure Wire where
  value : Value
  kind : Kind
deriving DecidableEq, Repr

def Circuit.kind (c : Circuit) : Value → Kind
  | .const _ => .constant
  | .lit n =>
      if n < 0 then .not
      else if n ≤ c.inputs then .input
      else ((c.gate? n.natAbs).map Gate.kind).getD .and

def Circuit.wire (c : Circuit) (v : Value) : Wire := ⟨v, c.kind v⟩

namespace Wire

def not (w : Wire) : Synth Wire := do return (← get).wire w.value.not

def emit (gate : Gate) : Synth Wire := do return ⟨← Circuit.emit gate, gate.kind⟩

/-- Combines operands as `Circuit.combine` does. A single operand is rebuilt from its label. -/
def combine (gate : List Int → Gate) (neutral : Bool) (wires : List Wire) : Synth Wire :=
  match Circuit.operands neutral (wires.map value) with
  | none => pure ⟨.const !neutral, .constant⟩
  | some labels =>
      match Ascending.sort labels with
      | [] => pure ⟨.const neutral, .constant⟩
      | [l] => do return (← get).wire (.ofLabel l)
      | labels =>
          if Circuit.clashes labels then pure ⟨.const !neutral, .constant⟩ else emit (gate labels)

def all (wires : List Wire) : Synth Wire := combine .and true wires

def any (wires : List Wire) : Synth Wire := combine .or false wires

def and (a b : Wire) : Synth Wire := all [a, b]

def or (a b : Wire) : Synth Wire := any [a, b]

def implies (a b : Wire) : Synth Wire := do or (← not a) b

/-- The choice between two wires, which are compared with each other and with the condition. -/
def ite (cond yes no : Wire) : Synth Wire :=
  match cond.value.const? with
  | some c => pure (if c then yes else no)
  | none =>
      if yes = no then pure yes
      else
        match yes.value.const?, no.value.const? with
        | some true, _ => or cond no
        | some false, _ => do and (← not cond) no
        | none, some true => do or (← not cond) yes
        | none, some false => and cond yes
        | none, none =>
            if cond = yes then or cond no
            else if cond = no then and cond yes
            else emit (.ite cond.value.label yes.value.label no.value.label)

def iff (a b : Wire) : Synth Wire := do ite a b (← not b)

end Wire

end ModelFinder
