import ModelFinder.Circuit.Basic
import ModelFinder.Data.SortedTable

/-! Symbolic relations: a value of a circuit for every tuple of an arity over numbered atoms. Only
the cells that are not constantly false are stored, by ascending index. -/
namespace ModelFinder

/-- A number of atoms and an arity with countably many tuples, as `Dims.make` grants. -/
structure Dims where
  size : Nat
  arity : Nat
deriving DecidableEq, Repr

namespace Dims

def make? (size arity : Nat) : Option Dims := (capacity? size arity).map fun _ => ⟨size, arity⟩

def make (size arity : Nat) : Except Error Dims :=
  match make? size arity with
  | some dims => .ok dims
  | none => .error (.matrixCapacity arity size)

def capacity (d : Dims) : Nat := Nat.pow d.size d.arity

end Dims

structure Matrix where
  dims : Dims
  cells : SortedTable Nat Value
deriving DecidableEq

namespace Matrix

def empty (dims : Dims) : Matrix := ⟨dims, .empty⟩

def get (m : Matrix) (index : Nat) : Value := (m.cells.find? index).getD (.const false)

def set (m : Matrix) (index : Nat) (value : Value) : Matrix :=
  if value = .const false then { m with cells := m.cells.erase index }
  else { m with cells := m.cells.insert index value }

/-- The relation with the given cells; of several values of one cell the last counts, and a false
cell is not stored. -/
def ofCells (dims : Dims) (cells : List (Nat × Value)) : Matrix :=
  ⟨dims, ⟨(SortedTable.ofList cells).entries.filter fun (_, value) => value != .const false⟩⟩

def ofIndices (dims : Dims) (indices : List Nat) : Matrix :=
  ofCells dims (indices.map (·, .const true))

def density (m : Matrix) : Nat := m.cells.entries.length

def trueIndices (m : Matrix) : List Nat :=
  (m.cells.entries.filter fun (_, value) => value == .const true).map (·.1)

def identity (size : Nat) : Except Error Matrix := do
  return ofIndices (← Dims.make size 2) ((List.range size).map fun i => i * size + i)

end Matrix

end ModelFinder
