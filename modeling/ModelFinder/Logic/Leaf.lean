import ModelFinder.Error

/-! Relations and variables, the named leaves of expressions. Two leaves of one name and arity are
still different when their identities differ. -/
namespace ModelFinder

structure Relation where
  id : Nat
  name : String
  arity : Nat
  arity_pos : 0 < arity
deriving DecidableEq

structure Variable where
  id : Nat
  name : String
  arity : Nat
  arity_pos : 0 < arity
deriving DecidableEq

def Relation.make (id : Nat) (name : String) (arity : Nat) : Except Error Relation :=
  if positive : 0 < arity then .ok ⟨id, name, arity, positive⟩ else .error (.misuse .zeroArity)

def Variable.make (id : Nat) (name : String) (arity : Nat) : Except Error Variable :=
  if positive : 0 < arity then .ok ⟨id, name, arity, positive⟩ else .error (.misuse .zeroArity)

def Relation.describe (relation : Relation) : String :=
  s!"Relation({relation.name}/{relation.arity})"

def Variable.describe (v : Variable) : String :=
  s!"Variable({v.name}/{v.arity})"

end ModelFinder
