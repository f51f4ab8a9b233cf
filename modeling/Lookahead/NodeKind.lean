import Lookahead.Code.Quad
import Lookahead.Terminal
import Lookahead.Tree

namespace Lookahead

inductive NodeKind
  | root | epsilon
  | program | funcList | funcDef | params | paramTail | param | type
  | block | blockBody | stmtList | stmt | simpleStmt
  | decl | declInit | idSuffix | assignOp | returnStmt | returnValue
  | ifStmt | elifList | elseOpt | whileStmt | forStmt | forStep | doStmt
  | args | argTail
  | expr | exprTail | relOp | arithExpr | arithTail | addOp
  | term | termTail | mulOp | factor | factorTail
  | terminal (kind : Terminal)
deriving DecidableEq, Repr

namespace NodeKind

def rules : List (Symbol × NodeKind) :=
  [(Tree.rootLabel, root), (Symbol.epsilon, epsilon), ("Program", program),
    ("FuncList", funcList), ("FuncDef", funcDef), ("Params", params), ("ParamTail", paramTail),
    ("Param", param), ("Type", type), ("Block", block), ("BlockBody", blockBody),
    ("StmtList", stmtList), ("Stmt", stmt), ("SimpleStmt", simpleStmt), ("Decl", decl),
    ("DeclInit", declInit), ("IdSuffix", idSuffix), ("AssignOp", assignOp),
    ("ReturnStmt", returnStmt), ("ReturnValue", returnValue), ("IfStmt", ifStmt),
    ("ElifList", elifList), ("ElseOpt", elseOpt), ("WhileStmt", whileStmt), ("ForStmt", forStmt),
    ("ForStep", forStep), ("DoStmt", doStmt), ("Args", args), ("ArgTail", argTail),
    ("Expr", expr), ("ExprTail", exprTail), ("RelOp", relOp), ("ArithExpr", arithExpr),
    ("ArithTail", arithTail), ("AddOp", addOp), ("Term", term), ("TermTail", termTail),
    ("MulOp", mulOp), ("Factor", factor), ("FactorTail", factorTail)]

def ofLabel? (label : Symbol) : Option NodeKind :=
  match rules.find? (·.1 = label) with
  | some entry => some entry.2
  | none => (Terminal.ofName? label).map terminal

end NodeKind

def Terminal.binaryOp? : Terminal → Option Op
  | plus => some .add
  | minus => some .sub
  | star => some .mul
  | slash => some .div
  | percent => some .mod
  | lt => some .lt
  | le => some .le
  | gt => some .gt
  | ge => some .ge
  | eqEq => some .eq
  | ne => some .ne
  | and => some .and
  | or => some .or
  | _ => none

end Lookahead
