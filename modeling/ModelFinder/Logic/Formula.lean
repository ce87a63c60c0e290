import ModelFinder.Logic.Expr

/-! First-order formulas over relational expressions, their leaves, and their splitting into
conjuncts. -/
namespace ModelFinder

inductive Connective where
  | and
  | or
  | iff
  | implies
deriving DecidableEq, Repr

inductive Comparison where
  | equals
  | subset
deriving DecidableEq, Repr

inductive Multiplicity where
  | some
  | one
  | lone
  | no
  | set
deriving DecidableEq, Repr

inductive Quantifier where
  | all
  | some
deriving DecidableEq, Repr

structure Decl where
  var : Variable
  multiplicity : Multiplicity
  domain : Expr
deriving DecidableEq

/-- First-order formulas. An n-ary node with any connective but `or` is a conjunction. -/
inductive Formula where
  | const (value : Bool)
  | binary (op : Connective) (left right : Formula)
  | nary (op : Connective) (parts : List Formula)
  | not (body : Formula)
  | compare (op : Comparison) (left right : Expr)
  | multiplicity (m : Multiplicity) (body : Expr)
  | quantified (quantifier : Quantifier) (decls : List Decl) (body : Formula)

namespace Formula

mutual

def same : Formula → Formula → Bool
  | const a, const b => a == b
  | binary op l r, binary op' l' r' => op == op' && l.same l' && r.same r'
  | nary op parts, nary op' parts' => op == op' && sameAll parts parts'
  | not f, not g => f.same g
  | compare op l r, compare op' l' r' => op == op' && l == l' && r == r'
  | multiplicity m e, multiplicity m' e' => m == m' && e == e'
  | quantified q ds f, quantified q' ds' g => q == q' && ds == ds' && f.same g
  | _, _ => false

def sameAll : List Formula → List Formula → Bool
  | [], [] => true
  | f :: fs, g :: gs => f.same g && sameAll fs gs
  | _, _ => false

end

mutual

theorem same_refl : (f : Formula) → f.same f = true
  | const _ => by simp [same]
  | binary _ l r => by simp [same, same_refl l, same_refl r]
  | nary _ parts => by simp [same, sameAll_refl parts]
  | not f => by simp [same, same_refl f]
  | compare _ _ _ => by simp [same]
  | multiplicity _ _ => by simp [same]
  | quantified _ _ f => by simp [same, same_refl f]

theorem sameAll_refl : (fs : List Formula) → sameAll fs fs = true
  | [] => by simp [sameAll]
  | f :: fs => by simp [sameAll, same_refl f, sameAll_refl fs]

end

mutual

theorem eq_of_same : (f g : Formula) → f.same g = true → f = g
  | const _, g, agree => by
      cases g <;> simp_all [same]
  | binary _ l r, g, agree => by
      cases g <;> simp_all [same]
      exact ⟨eq_of_same l _ agree.1.2, eq_of_same r _ agree.2⟩
  | nary _ parts, g, agree => by
      cases g <;> simp_all [same]
      exact eq_of_sameAll parts _ agree.2
  | not f, g, agree => by
      cases g <;> simp_all [same]
      exact eq_of_same f _ agree
  | compare _ _ _, g, agree => by
      cases g <;> simp_all [same]
  | multiplicity _ _, g, agree => by
      cases g <;> simp_all [same]
  | quantified _ _ f, g, agree => by
      cases g <;> simp_all [same]
      exact eq_of_same f _ agree.2

theorem eq_of_sameAll : (fs gs : List Formula) → sameAll fs gs = true → fs = gs
  | [], gs, agree => by
      cases gs <;> simp_all [sameAll]
  | f :: fs, gs, agree => by
      cases gs <;> simp_all [sameAll]
      exact ⟨eq_of_same f _ agree.1, eq_of_sameAll fs _ agree.2⟩

end

instance : DecidableEq Formula := fun f g =>
  if agree : f.same g = true then .isTrue (eq_of_same f g agree)
  else .isFalse fun equal => agree (equal ▸ same_refl f)

def andAll : List Formula → Formula
  | [] => const true
  | [f] => f
  | fs => nary .and fs

def orAll : List Formula → Formula
  | [] => const false
  | [f] => f
  | fs => nary .or fs

def quantify (quantifier : Quantifier) (decls : List Decl) (body : Formula) :
    Except Error Formula :=
  if decls.isEmpty then .error (.misuse .noDeclarations)
  else .ok (quantified quantifier decls body)

mutual

/-- The maximal subformulas reached from the root through conjunctions only, left to right. -/
def conjuncts : Formula → List Formula
  | binary .and left right => left.conjuncts ++ right.conjuncts
  | nary .and parts => conjunctsAll parts
  | f => [f]

def conjunctsAll : List Formula → List Formula
  | [] => []
  | f :: fs => f.conjuncts ++ conjunctsAll fs

end

mutual

/-- The relation leaves in reading order with repetitions; the domains of a quantifier come
before its body. -/
def relationLeaves : Formula → List Relation
  | const _ => []
  | binary _ left right => left.relationLeaves ++ right.relationLeaves
  | nary _ parts => relationLeavesAll parts
  | not body => body.relationLeaves
  | compare _ left right => left.relationLeaves ++ right.relationLeaves
  | multiplicity _ body => body.relationLeaves
  | quantified _ decls body => decls.flatMap (·.domain.relationLeaves) ++ body.relationLeaves

def relationLeavesAll : List Formula → List Relation
  | [] => []
  | f :: fs => f.relationLeaves ++ relationLeavesAll fs

end

mutual

/-- The variable leaves in reading order with repetitions. The variable that a declaration
introduces is no leaf. -/
def variableLeaves : Formula → List Variable
  | const _ => []
  | binary _ left right => left.variableLeaves ++ right.variableLeaves
  | nary _ parts => variableLeavesAll parts
  | not body => body.variableLeaves
  | compare _ left right => left.variableLeaves ++ right.variableLeaves
  | multiplicity _ body => body.variableLeaves
  | quantified _ decls body => decls.flatMap (·.domain.variableLeaves) ++ body.variableLeaves

def variableLeavesAll : List Formula → List Variable
  | [] => []
  | f :: fs => f.variableLeaves ++ variableLeavesAll fs

end

def relations (f : Formula) : List Relation := f.relationLeaves.eraseDups

mutual

def WellSorted : Formula → Prop
  | const _ => True
  | binary _ left right => left.WellSorted ∧ right.WellSorted
  | nary _ parts => WellSortedAll parts
  | not body => body.WellSorted
  | compare _ left right => left.WellSorted ∧ right.WellSorted
  | multiplicity _ body => body.WellSorted
  | quantified _ decls body => (∀ d ∈ decls, d.domain.WellSorted) ∧ body.WellSorted

def WellSortedAll : List Formula → Prop
  | [] => True
  | f :: fs => f.WellSorted ∧ WellSortedAll fs

end

end Formula

end ModelFinder
