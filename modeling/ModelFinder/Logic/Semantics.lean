import ModelFinder.Logic.Formula

/-! The meaning of expressions and formulas. Atoms are numbered, a tuple is the list of its atoms,
and an expression denotes a set of tuples. Nothing here is computed: this is what an encoding and an
evaluation are measured by. -/
namespace ModelFinder

structure Interpretation where
  size : Nat
  tuples : Relation → List Nat → Prop

abbrev Assignment := Variable → List Nat → Prop

def Assignment.bind (ρ : Assignment) (v : Variable) (t : List Nat) : Assignment :=
  fun w u => if w = v then u = t else ρ w u

def ConstExpr.denote (size : Nat) : ConstExpr → List Nat → Prop
  | univ, t => ∃ a, a < size ∧ t = [a]
  | iden, t => ∃ a, a < size ∧ t = [a, a]
  | none, _ => False

def BinaryOp.denote (left right : List Nat → Prop) : BinaryOp → List Nat → Prop
  | join, t => ∃ front a back, left (front ++ [a]) ∧ right (a :: back) ∧ t = front ++ back
  | product, t => ∃ front back, left front ∧ right back ∧ t = front ++ back
  | union, t => left t ∨ right t
  | difference, t => left t ∧ ¬ right t
  | intersection, t => left t ∧ right t
  | override, t => right t ∨ left t ∧ ∀ u, right u → u.head? ≠ t.head?

def UnaryOp.denote (pairs : List Nat → Prop) (size : Nat) : UnaryOp → List Nat → Prop
  | transpose, t => ∃ a b, pairs [a, b] ∧ t = [b, a]
  | closure, t => ∃ a b, Relation.TransGen (fun x y => pairs [x, y]) a b ∧ t = [a, b]
  | reflexiveClosure, t =>
      ∃ a b, (Relation.TransGen (fun x y => pairs [x, y]) a b ∨ a = b ∧ a < size) ∧ t = [a, b]

def Expr.denote (i : Interpretation) (ρ : Assignment) : Expr → List Nat → Prop
  | .rel r => i.tuples r
  | .var v => ρ v
  | .const c => c.denote i.size
  | .binary op left right => op.denote (left.denote i ρ) (right.denote i ρ)
  | .unary op body => op.denote (body.denote i ρ) i.size

def Comparison.holds (left right : List Nat → Prop) : Comparison → Prop
  | equals => ∀ t, left t ↔ right t
  | subset => ∀ t, left t → right t

def Multiplicity.holds (tuples : List Nat → Prop) : Multiplicity → Prop
  | some => ∃ t, tuples t
  | one => ∃ t, tuples t ∧ ∀ u, tuples u → u = t
  | lone => ∀ t u, tuples t → tuples u → t = u
  | no => ∀ t, ¬ tuples t
  | set => True

def Connective.holds (left right : Prop) : Connective → Prop
  | and => left ∧ right
  | or => left ∨ right
  | iff => left ↔ right
  | implies => left → right

/-- The truth of a quantified formula: each variable ranges over the tuples of its domain, in which
the variables declared before it may occur. -/
def Quantifier.holds (q : Quantifier) (i : Interpretation) (body : Assignment → Prop) :
    List Decl → Assignment → Prop
  | [], ρ => body ρ
  | d :: rest, ρ =>
      match q with
      | .all => ∀ t, d.domain.denote i ρ t → q.holds i body rest (ρ.bind d.var t)
      | .some => ∃ t, d.domain.denote i ρ t ∧ q.holds i body rest (ρ.bind d.var t)

mutual

def Formula.holds (i : Interpretation) : Formula → Assignment → Prop
  | .const value, _ => value = true
  | .binary op left right, ρ => op.holds (left.holds i ρ) (right.holds i ρ)
  | .nary op parts, ρ =>
      match op with
      | .or => Formula.someHold i parts ρ
      | _ => Formula.allHold i parts ρ
  | .not body, ρ => ¬ body.holds i ρ
  | .compare op left right, ρ => op.holds (left.denote i ρ) (right.denote i ρ)
  | .multiplicity m body, ρ => m.holds (body.denote i ρ)
  | .quantified q decls body, ρ => q.holds i (body.holds i) decls ρ

def Formula.allHold (i : Interpretation) : List Formula → Assignment → Prop
  | [], _ => True
  | f :: fs, ρ => f.holds i ρ ∧ Formula.allHold i fs ρ

def Formula.someHold (i : Interpretation) : List Formula → Assignment → Prop
  | [], _ => False
  | f :: fs, ρ => f.holds i ρ ∨ Formula.someHold i fs ρ

end

end ModelFinder
