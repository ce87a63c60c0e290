import ModelFinder.Error
import ModelFinder.Data.Capacity
import ModelFinder.Text.Quoted

/-! Universes: the ordered, pairwise different atoms that tuples are made of. Two universes with the
same atoms are still different when their identities differ. -/
namespace ModelFinder

structure Universe where
  id : Nat
  atoms : List String
  nonempty : atoms ≠ []
  distinct : atoms.Nodup
deriving DecidableEq

namespace Universe

/-- The first atom that repeats one listed before it; the empty text if there is none. -/
def firstRepeat (seen : List String) : List String → String
  | [] => ""
  | atom :: rest => if atom ∈ seen then atom else firstRepeat (atom :: seen) rest

def make (id : Nat) (atoms : List String) : Except Error Universe :=
  if nonempty : atoms ≠ [] then
    if distinct : atoms.Nodup then .ok ⟨id, atoms, nonempty, distinct⟩
    else .error (.repeatedAtom (firstRepeat [] atoms))
  else .error .emptyUniverse

def size (u : Universe) : Nat := u.atoms.length

def atom? (u : Universe) (position : Nat) : Option String := u.atoms[position]?

def position? (u : Universe) (atom : String) : Option Nat := u.atoms.idxOf? atom

def contains (u : Universe) (atom : String) : Bool := u.atoms.contains atom

def capacity? (u : Universe) (arity : Nat) : Option Nat := ModelFinder.capacity? u.size arity

def describe (u : Universe) : String :=
  "Universe([" ++ ", ".intercalate (u.atoms.map Text.quote) ++ "])"

end Universe

end ModelFinder
