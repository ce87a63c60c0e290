import ModelFinder.Circuit.Wires

/-! What can be asked of a circuit, and the circuits that this leads to. An operation takes values,
wires or truths as operands. -/
namespace ModelFinder

inductive Operation (α : Type) where
  | not (a : α)
  | and (a b : α)
  | or (a b : α)
  | all (items : List α)
  | any (items : List α)
  | ite (cond yes no : α)
  | iff (a b : α)
  | implies (a b : α)

namespace Operation

variable {α β : Type}

def operands : Operation α → List α
  | not a => [a]
  | and a b | or a b | iff a b | implies a b => [a, b]
  | all items | any items => items
  | ite cond yes no => [cond, yes, no]

def map (f : α → β) : Operation α → Operation β
  | not a => .not (f a)
  | and a b => .and (f a) (f b)
  | or a b => .or (f a) (f b)
  | all items => .all (items.map f)
  | any items => .any (items.map f)
  | ite cond yes no => .ite (f cond) (f yes) (f no)
  | iff a b => .iff (f a) (f b)
  | implies a b => .implies (f a) (f b)

def onValues : Operation Value → Synth Value
  | not a => pure a.not
  | and a b => Circuit.and a b
  | or a b => Circuit.or a b
  | all items => Circuit.all items
  | any items => Circuit.any items
  | ite cond yes no => Circuit.ite cond yes no
  | iff a b => Circuit.iff a b
  | implies a b => Circuit.implies a b

def onWires : Operation Wire → Synth Wire
  | not a => a.not
  | and a b => a.and b
  | or a b => a.or b
  | all items => Wire.all items
  | any items => Wire.any items
  | ite cond yes no => Wire.ite cond yes no
  | iff a b => a.iff b
  | implies a b => a.implies b

def truth : Operation Bool → Bool
  | not a => !a
  | and a b => a && b
  | or a b => a || b
  | all items => items.all id
  | any items => items.any id
  | ite cond yes no => if cond then yes else no
  | iff a b => a == b
  | implies a b => !a || b

end Operation

/-- A circuit with the wires that it has handed out: constants, inputs and the results of operations
on wires handed out before. -/
inductive Circuit.Built (inputs : Nat) (sharing : Bool) : List Wire → Circuit → Prop
  | start : Built inputs sharing [] (.empty inputs sharing)
  | constant {wires : List Wire} {c : Circuit} (built : Built inputs sharing wires c) (b : Bool) :
      Built inputs sharing (⟨.const b, .constant⟩ :: wires) c
  | input {wires : List Wire} {c : Circuit} {label : Int} {v : Value}
      (built : Built inputs sharing wires c) (ok : c.input label = .ok v) :
      Built inputs sharing (⟨v, .input⟩ :: wires) c
  | operation {wires : List Wire} {c d : Circuit} {w : Wire} (built : Built inputs sharing wires c)
      (op : Operation Wire) (known : ∀ w ∈ op.operands, w ∈ wires) (run : op.onWires c = (w, d)) :
      Built inputs sharing (w :: wires) d

end ModelFinder
