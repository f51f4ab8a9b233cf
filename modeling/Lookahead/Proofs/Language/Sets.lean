import Lookahead.Grammar.Language
import Lookahead.Proofs.FirstFollow.Certificate

namespace Lookahead.Grammar

def statementStarts : List Symbol := ["INT", "CHAR", "ID", "RETURN", "IF", "WHILE", "FOR", "DO"]

def expressionStarts : List Symbol := ["ID", "NUM", "CHARLIT", "LPAREN", "NOT"]

def chainOperators : List Symbol := ["LT", "LE", "GT", "GE", "EQEQ", "NE", "AND", "OR"]

def languageFirst : Symbol → List Symbol
  | "Program" => ["DEF", "EOF"]
  | "FuncList" => ["DEF", "EPSILON"]
  | "FuncDef" => ["DEF"]
  | "Params" => ["INT", "CHAR", "EPSILON"]
  | "ParamTail" | "ArgTail" => ["COMMA", "EPSILON"]
  | "Param" | "Type" | "Decl" => ["INT", "CHAR"]
  | "Block" => ["COLON"]
  | "BlockBody" => ["NEWLINE", "INT", "CHAR", "ID", "RETURN"]
  | "StmtList" => "EPSILON" :: statementStarts
  | "Stmt" => statementStarts
  | "SimpleStmt" => ["INT", "CHAR", "ID", "RETURN"]
  | "DeclInit" => ["EQ", "EPSILON"]
  | "IdSuffix" => ["EQ", "INC", "DEC", "LPAREN"]
  | "AssignOp" => ["EQ", "INC", "DEC"]
  | "ReturnStmt" => ["RETURN"]
  | "ReturnValue" | "Args" => "EPSILON" :: expressionStarts
  | "IfStmt" => ["IF"]
  | "ElifList" => ["ELIF", "EPSILON"]
  | "ElseOpt" => ["ELSE", "EPSILON"]
  | "WhileStmt" => ["WHILE"]
  | "ForStmt" => ["FOR"]
  | "ForStep" => ["ID"]
  | "DoStmt" => ["DO"]
  | "Expr" | "ArithExpr" | "Term" | "Factor" => expressionStarts
  | "ExprTail" => "EPSILON" :: chainOperators
  | "RelOp" => chainOperators
  | "ArithTail" => ["PLUS", "MINUS", "EPSILON"]
  | "AddOp" => ["PLUS", "MINUS"]
  | "TermTail" => ["STAR", "SLASH", "PERCENT", "EPSILON"]
  | "MulOp" => ["STAR", "SLASH", "PERCENT"]
  | "FactorTail" => ["LPAREN", "EPSILON"]
  | _ => []

def expressionEnds : List Symbol := ["NEWLINE", "SEMI", "RPAREN", "COMMA"]

def languageFollow : Symbol → List Symbol
  | "Program" | "FuncList" => ["EOF"]
  | "FuncDef" => ["DEF", "EOF"]
  | "Params" | "ParamTail" | "Args" | "ArgTail" | "ForStep" => ["RPAREN"]
  | "Param" => ["COMMA", "RPAREN"]
  | "Type" => ["ID"]
  | "Block" | "BlockBody" => ["DEF", "EOF", "ELIF", "ELSE", "UNTIL", "END"] ++ statementStarts
  | "StmtList" => ["END"]
  | "Stmt" | "ElseOpt" | "IfStmt" | "WhileStmt" | "ForStmt" | "DoStmt" => "END" :: statementStarts
  | "ElifList" => "ELSE" :: "END" :: statementStarts
  | "SimpleStmt" | "IdSuffix" | "ReturnStmt" | "ReturnValue" => ["NEWLINE"]
  | "Decl" | "DeclInit" => ["NEWLINE", "SEMI"]
  | "AssignOp" => ["NEWLINE", "RPAREN"]
  | "Expr" | "ExprTail" => expressionEnds
  | "ArithExpr" | "ArithTail" => chainOperators ++ expressionEnds
  | "Term" | "TermTail" => "PLUS" :: "MINUS" :: chainOperators ++ expressionEnds
  | "Factor" | "FactorTail" =>
    ["STAR", "SLASH", "PERCENT", "PLUS", "MINUS"] ++ chainOperators ++ expressionEnds
  | "RelOp" | "AddOp" | "MulOp" => expressionStarts
  | _ => []

def languageCertificate : FirstFollow.Certificate language where
  first := languageFirst
  follow := languageFollow
  production := by decide +kernel
  start := by decide +kernel
  next := by decide +kernel
  inherit := by decide +kernel

theorem separates_languageCertificate : languageCertificate.Separates := by
  decide +kernel

theorem isRule_epsilon_language : language.isRule Symbol.epsilon = false := by decide +kernel

theorem isRule_eof_language : language.isRule Symbol.eof = false := by decide +kernel

/-- Only `Program` has the end marker in its production, and no production has `Program`. -/
theorem end_language (rule : Symbol) (p : Production) (hp : p ∈ language.productions rule) :
    language.start ∉ p ∧ (Symbol.eof ∈ p → rule = language.start) := by
  have hcheck : ∀ e ∈ Table.ruleProductions language,
      language.start ∉ e.2 ∧ (Symbol.eof ∈ e.2 → e.1 = language.start) := by
    decide +kernel
  exact hcheck (rule, p) (Table.mem_ruleProductions.2 hp)

end Lookahead.Grammar
