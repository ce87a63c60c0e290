import ModelFinder.Data.Ascending
import ModelFinder.Data.Universe

/-! Tuples of atoms and finite sets of tuples of one arity. A tuple is determined by its universe,
its arity and its row-major index, so a tuple set stores the indices of its members and nothing
else; `TupleSet.tuples` reads them back. -/
namespace ModelFinder

structure Tuple where
  univ : Universe
  positions : List Nat
deriving DecidableEq

namespace Tuple

def arity (t : Tuple) : Nat := t.positions.length

def index (t : Tuple) : Nat := encodeIndex t.univ.size t.positions

def atoms (t : Tuple) : List String := t.positions.filterMap t.univ.atom?

def atom? (t : Tuple) (column : Nat) : Option String := t.positions[column]?.bind t.univ.atom?

def render (t : Tuple) : String := "[" ++ ", ".intercalate t.atoms ++ "]"

def ofAtoms (u : Universe) (atoms : List String) : Except Error Tuple :=
  if atoms.isEmpty then .error .emptyTuple
  else do
    let positions ← atoms.mapM fun atom =>
      match u.position? atom with
      | some position => .ok position
      | none => .error (.unknownAtom atom)
    return ⟨u, positions⟩

def ofIndex (u : Universe) (arity index : Nat) : Except Error Tuple :=
  match u.capacity? arity with
  | none => .error (.tupleCapacity arity u.size)
  | some capacity =>
      if index < capacity then .ok ⟨u, decodeIndex u.size arity index⟩
      else .error (.indexOutOfRange index arity)

end Tuple

structure TupleSet where
  univ : Universe
  arity : Nat
  indices : IndexSet
deriving DecidableEq

namespace TupleSet

def empty (u : Universe) (arity : Nat) : TupleSet := ⟨u, arity, .empty⟩

/-- All tuples of an arity; none when there are too many to count. -/
def all (u : Universe) (arity : Nat) : TupleSet :=
  ⟨u, arity, .below ((u.capacity? arity).getD 0)⟩

def size (s : TupleSet) : Nat := s.indices.size

def isEmpty (s : TupleSet) : Bool := s.indices.isEmpty

def tuples (s : TupleSet) : List Tuple :=
  s.indices.toList.map fun index => ⟨s.univ, decodeIndex s.univ.size s.arity index⟩

def render (s : TupleSet) : String :=
  "\x7b" ++ ", ".intercalate (s.tuples.map Tuple.render) ++ "\x7d"

def compatible (s : TupleSet) (u : Universe) (arity : Nat) : Except Error Unit :=
  if u ≠ s.univ then .error .foreignTuple
  else if arity ≠ s.arity then .error (.unexpectedArity s.arity arity)
  else .ok ()

def contains (s : TupleSet) (t : Tuple) : Bool :=
  t.univ == s.univ && t.arity == s.arity && s.indices.contains t.index

def insert (s : TupleSet) (t : Tuple) : Except Error TupleSet := do
  s.compatible t.univ t.arity
  return { s with indices := s.indices.insert t.index }

def union (s other : TupleSet) : Except Error TupleSet := do
  s.compatible other.univ other.arity
  return { s with indices := s.indices.union other.indices }

def erase (s : TupleSet) (t : Tuple) : TupleSet :=
  if s.contains t then { s with indices := s.indices.erase t.index } else s

def subset (s other : TupleSet) : Bool :=
  s.univ == other.univ && s.arity == other.arity && s.indices.subset other.indices

def difference (s other : TupleSet) : Except Error TupleSet := do
  s.compatible other.univ other.arity
  return { s with indices := s.indices.diff other.indices }

def ofIndices (u : Universe) (arity : Nat) (indices : List Nat) : Except Error TupleSet := do
  let tuples ← indices.mapM (Tuple.ofIndex u arity)
  return ⟨u, arity, .ofList (tuples.map Tuple.index)⟩

def product (s other : TupleSet) : Except Error TupleSet :=
  if other.univ ≠ s.univ then .error .foreignFactor
  else
    match s.univ.capacity? other.arity with
    | none => .error (.tupleCapacity (s.arity + other.arity) s.univ.size)
    | some stride =>
        ofIndices s.univ (s.arity + other.arity)
          (s.indices.toList.flatMap fun i => other.indices.toList.map fun j => i * stride + j)

def ofTuples (u : Universe) : List (List String) → Except Error TupleSet
  | [] => .error .noTuples
  | first :: rest => do
      let tuples ← (first :: rest).mapM fun atoms =>
        if atoms.length ≠ first.length then .error .mixedArities else Tuple.ofAtoms u atoms
      return ⟨u, first.length, .ofList (tuples.map Tuple.index)⟩

def ofAtom (u : Universe) (atom : String) : Except Error TupleSet := do
  (empty u 1).insert (← Tuple.ofAtoms u [atom])

end TupleSet

end ModelFinder
