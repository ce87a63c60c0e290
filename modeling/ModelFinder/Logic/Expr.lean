import ModelFinder.Logic.Leaf

/-! Relational expressions. The raw type admits ill-sorted terms; `Expr.apply`, `Expr.applyUnary`
and `Expr.unionAll` build only terms whose operands have fitting arities, and `Expr.WellSorted` says
what they guarantee. -/
namespace ModelFinder

inductive ConstExpr where
  | univ
  | iden
  | none
deriving DecidableEq, Repr

inductive BinaryOp where
  | join
  | product
  | union
  | difference
  | intersection
  | override
deriving DecidableEq, Repr

inductive UnaryOp where
  | transpose
  | closure
  | reflexiveClosure
deriving DecidableEq, Repr

inductive Expr where
  | rel (r : Relation)
  | var (v : Variable)
  | const (c : ConstExpr)
  | binary (op : BinaryOp) (left right : Expr)
  | unary (op : UnaryOp) (body : Expr)
deriving DecidableEq

def ConstExpr.arity : ConstExpr → Nat
  | univ | none => 1
  | iden => 2

/-- Whether operands of these arities may be combined: a join must leave a column, a product
always may be formed, and the set operators need equal arities. -/
def BinaryOp.accepts : BinaryOp → Nat → Nat → Bool
  | join, left, right => 2 < left + right
  | product, _, _ => true
  | _, left, right => left == right

def BinaryOp.arity : BinaryOp → Nat → Nat → Nat
  | join, left, right => left + right - 2
  | product, left, right => left + right
  | _, left, _ => left

namespace Expr

def arity : Expr → Nat
  | rel r => r.arity
  | var v => v.arity
  | const c => c.arity
  | binary op left right => op.arity left.arity right.arity
  | unary _ _ => 2

def WellSorted : Expr → Prop
  | rel _ | var _ | const _ => True
  | binary op left right =>
      left.WellSorted ∧ right.WellSorted ∧ op.accepts left.arity right.arity = true
  | unary _ body => body.WellSorted ∧ body.arity = 2

def apply (op : BinaryOp) (left right : Expr) : Except Error Expr :=
  if op.accepts left.arity right.arity then .ok (binary op left right)
  else .error (.misuse .incompatibleArities)

def applyUnary (op : UnaryOp) (body : Expr) : Except Error Expr :=
  if body.arity = 2 then .ok (unary op body) else .error (.misuse .notBinary)

def unionAll : List Expr → Except Error Expr
  | [] => .error (.misuse .noOperands)
  | first :: rest => rest.foldlM (apply .union) first

def relationLeaves : Expr → List Relation
  | rel r => [r]
  | var _ | const _ => []
  | binary _ left right => left.relationLeaves ++ right.relationLeaves
  | unary _ body => body.relationLeaves

def variableLeaves : Expr → List Variable
  | var v => [v]
  | rel _ | const _ => []
  | binary _ left right => left.variableLeaves ++ right.variableLeaves
  | unary _ body => body.variableLeaves

end Expr

end ModelFinder
