import ModelFinder.Encoding.Leaves
import ModelFinder.Logic.Text

/-! Formulas as circuits. An expression becomes a symbolic relation and a formula a value; a
quantifier is unfolded over the tuples that its domain may have, each guarded by its membership.
Faults of the input are found on the way, in reading order, and only in parts that are reached. -/
namespace ModelFinder

def Expr.ground (leaves : Leaves) (scope : Scope) : Expr → Build Matrix
  | .rel r => leaves.relation r
  | .var v =>
      match scope.find? v with
      | some m => return m
      | none => throw (.unboundVariable v.name)
  | .const c => leaves.const c
  | .binary op left right => do
      let l ← left.ground leaves scope
      let r ← right.ground leaves scope
      match op with
      | .union => l.union r
      | .intersection => l.intersection r
      | .difference => l.difference r
      | .override => l.override r
      | .join => l.join r
      | .product => l.product r
  | .unary op body => do
      let m ← body.ground leaves scope
      match op with
      | .transpose => m.transpose
      | .closure => m.closure
      | .reflexiveClosure => m.reflexiveClosure

def Decl.checkAll : List Decl → Except Error Unit
  | [] => .ok ()
  | d :: rest =>
      if d.multiplicity ≠ .one then .error (.higherOrder d.render)
      else if d.var.arity ≠ d.domain.arity then .error (.arityMismatch d.render)
      else checkAll rest

def Quantifier.guarded (q : Quantifier) (guard value : Value) : Synth Value :=
  match q with
  | .all => Circuit.implies guard value
  | .some => Circuit.and guard value

/-- The contribution that decides a quantified formula whatever the others are. -/
def Quantifier.decisive : Quantifier → Value
  | .all => .const false
  | .some => .const true

def Quantifier.collect (q : Quantifier) (values : List Value) : Synth Value :=
  match q with
  | .all => Circuit.all values
  | .some => Circuit.any values

def visitUntil {α β : Type} (step : α → β → Build (β × Bool)) : List α → β → Build (β × Bool)
  | [], acc => return (acc, false)
  | a :: rest, acc => do
      let (acc, done) ← step a acc
      if done then return (acc, true) else visitUntil step rest acc

/-- Appends to `acc` the contributions of all choices for the declared variables, under the guard
that earlier choices are members of their domains. Stops after a decisive contribution. -/
def unfoldDecls (leaves : Leaves) (q : Quantifier) (body : Scope → Build Value) :
    List Decl → Scope → Value → Array Value → Build (Array Value × Bool)
  | [], scope, guard, acc => do
      let value ← body scope
      let contribution ← q.guarded guard value
      return (acc.push contribution, contribution = q.decisive)
  | d :: rest, scope, guard, acc => do
      let domain ← d.domain.ground leaves scope
      visitUntil (fun (index, member) acc => do
          let guard ← Circuit.and guard member
          let scope := scope.push d.var (.ofIndices domain.dims [index])
          unfoldDecls leaves q body rest scope guard acc)
        domain.cells.entries acc

mutual

def Formula.ground (leaves : Leaves) : Formula → Scope → Build Value
  | .const b, _ => return .const b
  | .binary op left right, scope => do
      let l ← left.ground leaves scope
      let r ← right.ground leaves scope
      match op with
      | .and => Circuit.and l r
      | .or => Circuit.or l r
      | .implies => Circuit.implies l r
      | .iff => Circuit.iff l r
  | .nary op parts, scope => do
      let values ← Formula.groundAll leaves parts scope
      match op with
      | .or => Circuit.any values
      | _ => Circuit.all values
  | .not body, scope => do return (← body.ground leaves scope).not
  | .compare op left right, scope => do
      if left.arity ≠ right.arity then
        throw (.arityMismatch (Formula.compare op left right).render)
      let l ← left.ground leaves scope
      let r ← right.ground leaves scope
      match op with
      | .equals => l.equals r
      | .subset => l.subset r
  | .multiplicity m body, scope => do
      let matrix ← body.ground leaves scope
      match m with
      | .some => matrix.some
      | .no => matrix.no
      | .one => matrix.one
      | .lone => matrix.lone
      | .set => return .const true
  | .quantified q decls body, scope => do
      Decl.checkAll decls
      let (values, _) ← unfoldDecls leaves q (body.ground leaves) decls scope (.const true) #[]
      q.collect values.toList

def Formula.groundAll (leaves : Leaves) : List Formula → Scope → Build (List Value)
  | [], _ => return []
  | f :: fs, scope => do
      let value ← f.ground leaves scope
      return value :: (← Formula.groundAll leaves fs scope)

end

def Bounds.covers (b : Bounds) (f : Formula) : Except Error Unit :=
  match f.relations.find? (!b.contains ·) with
  | some r => .error (.unboundRelation r.name)
  | none => .ok ()

end ModelFinder
