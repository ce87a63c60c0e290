import ModelFinder.Logic.Formula

/-! The written form of expressions, declarations and formulas. Every operator application is
parenthesised, so that the text shows the structure. -/
namespace ModelFinder

def ConstExpr.word : ConstExpr → String
  | univ => "univ"
  | iden => "iden"
  | none => "none"

def BinaryOp.sign : BinaryOp → String
  | join => "."
  | product => "->"
  | union => "+"
  | difference => "-"
  | intersection => "&"
  | override => "++"

def UnaryOp.sign : UnaryOp → String
  | transpose => "~"
  | closure => "^"
  | reflexiveClosure => "*"

def Connective.sign : Connective → String
  | and => "&&"
  | or => "||"
  | iff => "<=>"
  | implies => "=>"

def Comparison.sign : Comparison → String
  | equals => "="
  | subset => "in"

def Multiplicity.word : Multiplicity → String
  | some => "some"
  | one => "one"
  | lone => "lone"
  | no => "no"
  | set => "set"

def Quantifier.word : Quantifier → String
  | all => "all"
  | some => "some"

def Expr.render : Expr → String
  | rel r => r.name
  | var v => v.name
  | const c => c.word
  | binary op left right => "(" ++ left.render ++ " " ++ op.sign ++ " " ++ right.render ++ ")"
  | unary op body => op.sign ++ body.render

def Decl.render (decl : Decl) : String :=
  decl.var.name ++ ": " ++ decl.multiplicity.word ++ " " ++ decl.domain.render

def Decl.renderAll (decls : List Decl) : String := ", ".intercalate (decls.map Decl.render)

mutual

def Formula.render : Formula → String
  | .const value => if value then "true" else "false"
  | .binary op left right => "(" ++ left.render ++ " " ++ op.sign ++ " " ++ right.render ++ ")"
  | .nary op parts => "(" ++ (" " ++ op.sign ++ " ").intercalate (Formula.renderAll parts) ++ ")"
  | .not body => "!" ++ body.render
  | .compare op left right => "(" ++ left.render ++ " " ++ op.sign ++ " " ++ right.render ++ ")"
  | .multiplicity m body => m.word ++ " " ++ body.render
  | .quantified q decls body =>
      "(" ++ q.word ++ " " ++ Decl.renderAll decls ++ " | " ++ body.render ++ ")"

def Formula.renderAll : List Formula → List String
  | [] => []
  | f :: fs => f.render :: Formula.renderAll fs

end

end ModelFinder
