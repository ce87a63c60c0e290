import ModelFinder.Data.Instance

/-! The numbering of unknown tuples. Every tuple that a relation may have and need not have is one
variable; variables count from 1, relation by relation in the order of the bounds and within a
relation by ascending tuple index. -/
namespace ModelFinder

structure Allocator where
  next : Nat
  ranges : Table Relation (Nat × Nat)

namespace Allocator

def empty : Allocator := ⟨1, .empty⟩

/-- Hands out `count` variables to a relation, as first variable and first one after. Of the count
only the last 32 bits matter. -/
def allocate (a : Allocator) (r : Relation) (count : Nat) : (Nat × Nat) × Allocator :=
  let range := (a.next, a.next + word count)
  (range, ⟨range.2, a.ranges.insert r range⟩)

def total (a : Allocator) : Nat := a.next - 1

def range? (a : Allocator) (r : Relation) : Option (Nat × Nat) := a.ranges.find? r

end Allocator

structure Unknowns where
  relation : Relation
  first : Nat
  tuples : Array Nat

namespace Unknowns

def stop (e : Unknowns) : Nat := e.first + e.tuples.size

def owns (e : Unknowns) (var : Nat) : Bool := e.first ≤ var && var < e.stop

end Unknowns

structure Numbering where
  univ : Universe
  entries : List Unknowns
  count : Nat

namespace Numbering

def number (a : Allocator) : List (Relation × Range) → List Unknowns × Allocator
  | [] => ([], a)
  | (r, range) :: rest =>
      let tuples := range.unknowns
      let ((first, _), a) := a.allocate r tuples.length
      let (entries, a) := number a rest
      (⟨r, first, tuples.toArray⟩ :: entries, a)

def ofBounds (b : Bounds) : Numbering :=
  let (entries, a) := number .empty b.relations.entries
  ⟨b.univ, entries, a.total⟩

def entry? (n : Numbering) (r : Relation) : Option Unknowns := n.entries.find? (·.relation == r)

/-- The variables of a relation as first variable and first one after; no variables at zero if the
relation is not numbered. -/
def range (n : Numbering) (r : Relation) : Nat × Nat :=
  match n.entry? r with
  | some entry => (entry.first, entry.stop)
  | none => (0, 0)

def unknowns (n : Numbering) (r : Relation) : List Nat :=
  match n.entry? r with
  | some entry => entry.tuples.toList
  | none => []

/-- The entry that has a variable. Ranges start in ascending order, and the search goes back from the
last one that starts no later than the variable, since empty ranges share their start with a
neighbour. -/
def owner? (n : Numbering) (var : Nat) : Option Unknowns :=
  if var = 0 ∨ n.count < var then none
  else (n.entries.takeWhile (·.first ≤ var)).reverse.find? (·.owns var)

def locate? (n : Numbering) (var : Nat) : Option (Relation × Nat) := do
  let entry ← n.owner? var
  let index ← entry.tuples[var - entry.first]?
  return (entry.relation, index)

def tuple? (n : Numbering) (var : Nat) : Option (Relation × Tuple) := do
  let (r, index) ← n.locate? var
  let tuple ← (Tuple.ofIndex n.univ r.arity index).toOption
  return (r, tuple)

def var? (n : Numbering) (r : Relation) (t : Tuple) : Option Nat := do
  let entry ← n.entry? r
  if t.arity ≠ r.arity then none
  else return entry.first + (← entry.tuples.idxOf? t.index)

/-- The relation and the tuple index that a variable stands for, after checking that the tuple can
be read back; nothing for a number that is no variable. -/
def readBack (n : Numbering) (var : Nat) : Except Error (Option (Relation × Nat)) :=
  match n.locate? var with
  | none => .ok none
  | some (r, index) => do
      let tuple ← Tuple.ofIndex n.univ r.arity index
      return some (r, tuple.index)

/-- The instance that holds exactly the tuples of the listed variables. Every numbered relation has
a value; numbers that are no variables are ignored. -/
def instanceOf (n : Numbering) (vars : List Nat) : Except Error Instance := do
  let chosen := (← vars.mapM n.readBack).filterMap id
  n.entries.foldlM (fun m e =>
      let indices := (chosen.filter fun (r, _) => r = e.relation).map (·.2)
      m.insert e.relation ⟨n.univ, e.relation.arity, .ofList indices⟩)
    (.empty n.univ)

def withUnknowns (n : Numbering) (r : Relation) (set : TupleSet) (indices : List Nat) :
    Except Error TupleSet :=
  if indices.isEmpty then .ok set
  else do set.union (← TupleSet.ofIndices n.univ r.arity indices)

/-- The instance that an assignment of the variables stands for: each relation has its lower bound
and the unknown tuples whose variables are true. -/
def interpret (n : Numbering) (b : Bounds) (s : Nat → Bool) : Except Error Instance :=
  n.entries.foldlM (fun m e => do
      let lower := match b.range? e.relation with
        | some range => range.lower
        | none => .empty n.univ e.relation.arity
      let chosen := (e.tuples.toList.zipIdx e.first).filter fun (_, var) => s var
      m.insert e.relation (← n.withUnknowns e.relation lower (chosen.map (·.1))))
    (.empty n.univ)

end Numbering

end ModelFinder
