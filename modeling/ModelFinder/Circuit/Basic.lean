import ModelFinder.Data.Ascending
import ModelFinder.Data.Capacity
import ModelFinder.Error
import Std.Data.HashMap

/-! Boolean circuits over numbered inputs. A number `1 .. inputs` is an input, larger numbers are
gates in the order of their creation, and the negation of a value has the negated number, so it
needs no gate. Gates are only ever appended. With sharing on, a gate that is there already is used
again. The label of a value is its number as a signed word; the constants have the largest such word
and its negation. -/
namespace ModelFinder

inductive Value where
  | const (value : Bool)
  | lit (number : Int)
deriving DecidableEq, Repr

namespace Value

/-- The label that stands for the constant true; its negation stands for false. -/
def trueLabel : Int := 2147483647

def label : Value → Int
  | const true => trueLabel
  | const false => -trueLabel
  | lit n => signedWord n

def const? : Value → Option Bool
  | const b => some b
  | lit _ => none

def ofLabel (l : Int) : Value :=
  if l = trueLabel then const true else if l = -trueLabel then const false else lit l

def not : Value → Value
  | const b => const !b
  | lit n => ofLabel (signedWord (-n))

theorem label_lit {n : Int} (small : n.natAbs < 2147483647) : (lit n).label = n :=
  signedWord_of_natAbs_lt (by omega)

theorem ofLabel_of_natAbs_lt {l : Int} (small : l.natAbs < 2147483647) : ofLabel l = lit l := by
  rw [ofLabel, if_neg, if_neg] <;> simp only [trueLabel] <;> omega

theorem not_lit {n : Int} (small : n.natAbs < 2147483647) : (lit n).not = lit (-n) := by
  rw [not, signedWord_of_natAbs_lt (by omega), ofLabel_of_natAbs_lt (by omega)]

end Value

inductive Gate where
  | and (inputs : List Int)
  | or (inputs : List Int)
  | ite (cond yes no : Int)
deriving DecidableEq, Repr, Hashable

def Gate.inputs : Gate → List Int
  | and inputs | or inputs => inputs
  | ite cond yes no => [cond, yes, no]

/-- Inputs and gates. The gate at position `i` has number `inputs + i + 1`. With sharing on, the
position of every gate is on record. -/
structure Circuit where
  inputs : Nat
  sharing : Bool
  gates : Array Gate
  positions : Std.HashMap Gate Nat

abbrev Synth := StateM Circuit

abbrev Build := StateT Circuit (Except Error)

instance : MonadLift Synth Build where
  monadLift action := fun circuit => .ok (action circuit)

namespace Circuit

def empty (inputs : Nat) (sharing : Bool) : Circuit := ⟨inputs, sharing, #[], ∅⟩

def maxLabel (c : Circuit) : Nat := c.inputs + c.gates.size

def gate? (c : Circuit) (number : Nat) : Option Gate :=
  if number ≤ c.inputs then none else c.gates[number - c.inputs - 1]?

def input (c : Circuit) (label : Int) : Except Error Value :=
  if 0 < label ∧ label ≤ signedWord c.inputs then .ok (.lit label)
  else .error (.misuse .noSuchVariable)

def append (gate : Gate) (c : Circuit) : Value × Circuit :=
  let position := c.gates.size
  (.lit (c.inputs + position + 1 : Nat),
    { c with
      gates := c.gates.push gate
      positions := if c.sharing then c.positions.insert gate position else c.positions })

def emit (gate : Gate) : Synth Value := fun c =>
  match if c.sharing then c.positions[gate]? else none with
  | some position => (.lit (c.inputs + position + 1 : Nat), c)
  | none => append gate c

/-- The labels of the operands that are not the neutral constant, or nothing if an operand is the
absorbing constant. -/
def operands (neutral : Bool) (values : List Value) : Option (List Int) :=
  if values.any (· == .const !neutral) then none
  else some (values.filterMap fun
    | .lit n => some (Value.lit n).label
    | .const _ => none)

def overlap : List Int → List Int → Bool
  | [], _ => false
  | x :: xs, ys =>
      let ys := ys.dropWhile (· < x)
      ys.head? == some x || overlap xs ys

def clashes (labels : List Int) : Bool :=
  overlap ((labels.filter (· < 0)).map (-·)).reverse (labels.filter (0 < ·))

/-- The operands combined by `gate`, whose neutral constant is `neutral` and whose absorbing
constant is the other one. Operands are put in order, each once; a clash absorbs. -/
def combine (gate : List Int → Gate) (neutral : Bool) (values : List Value) : Synth Value :=
  match operands neutral values with
  | none => pure (.const !neutral)
  | some labels =>
      match Ascending.sort labels with
      | [] => pure (.const neutral)
      | [l] => pure (.ofLabel l)
      | labels => if clashes labels then pure (.const !neutral) else emit (gate labels)

def all (values : List Value) : Synth Value := combine .and true values

def any (values : List Value) : Synth Value := combine .or false values

def and (a b : Value) : Synth Value := all [a, b]

def or (a b : Value) : Synth Value := any [a, b]

def implies (a b : Value) : Synth Value := or a.not b

/-- The choice between two values. A gate is added only when condition and branches have numbers and
the branches differ from each other and from the condition. -/
def ite : (cond yes no : Value) → Synth Value
  | .const c, yes, no => pure (if c then yes else no)
  | .lit c, yes, no =>
      if yes = no then pure yes
      else
        match yes, no with
        | .const true, _ => or (.lit c) no
        | .const false, _ => and (Value.lit c).not no
        | _, .const true => or (Value.lit c).not yes
        | _, .const false => and (.lit c) yes
        | .lit y, .lit n =>
            if c = y then or (.lit c) no
            else if c = n then and (.lit c) yes
            else emit (.ite (Value.lit c).label yes.label no.label)

def iff (a b : Value) : Synth Value := ite a b b.not

end Circuit

end ModelFinder
