import Lookahead.Grammar.Basic

namespace Lookahead.Grammar

/-- The rules of the source language. Comparisons and logical operators form one flat chain,
whose grouping is left to lowering; sums and products are split here. -/
def languageRules : List Rule :=
  [⟨"Program", [["FuncList", "EOF"]]⟩,
    ⟨"FuncList", [["FuncDef", "FuncList"], ["EPSILON"]]⟩,
    ⟨"FuncDef", [["DEF", "ID", "LPAREN", "Params", "RPAREN", "Block"]]⟩,
    ⟨"Params", [["Param", "ParamTail"], ["EPSILON"]]⟩,
    ⟨"ParamTail", [["COMMA", "Param", "ParamTail"], ["EPSILON"]]⟩,
    ⟨"Param", [["Type", "ID"]]⟩,
    ⟨"Type", [["INT"], ["CHAR"]]⟩,
    ⟨"Block", [["COLON", "BlockBody"]]⟩,
    ⟨"BlockBody", [["NEWLINE", "BEGIN", "StmtList", "END"], ["SimpleStmt", "NEWLINE"]]⟩,
    ⟨"StmtList", [["Stmt", "StmtList"], ["EPSILON"]]⟩,
    ⟨"Stmt",
      [["SimpleStmt", "NEWLINE"], ["IfStmt"], ["WhileStmt"], ["ForStmt"], ["DoStmt"]]⟩,
    ⟨"SimpleStmt", [["Decl"], ["ID", "IdSuffix"], ["ReturnStmt"]]⟩,
    ⟨"Decl", [["Type", "ID", "DeclInit"]]⟩,
    ⟨"DeclInit", [["EQ", "Expr"], ["EPSILON"]]⟩,
    ⟨"IdSuffix", [["AssignOp"], ["LPAREN", "Args", "RPAREN"]]⟩,
    ⟨"AssignOp", [["EQ", "Expr"], ["INC"], ["DEC"]]⟩,
    ⟨"ReturnStmt", [["RETURN", "ReturnValue"]]⟩,
    ⟨"ReturnValue", [["Expr"], ["EPSILON"]]⟩,
    ⟨"IfStmt", [["IF", "LPAREN", "Expr", "RPAREN", "Block", "ElifList", "ElseOpt"]]⟩,
    ⟨"ElifList", [["ELIF", "LPAREN", "Expr", "RPAREN", "Block", "ElifList"], ["EPSILON"]]⟩,
    ⟨"ElseOpt", [["ELSE", "Block"], ["EPSILON"]]⟩,
    ⟨"WhileStmt", [["WHILE", "LPAREN", "Expr", "RPAREN", "Block"]]⟩,
    ⟨"ForStmt",
      [["FOR", "LPAREN", "Decl", "SEMI", "Expr", "SEMI", "ForStep", "RPAREN", "Block"]]⟩,
    ⟨"ForStep", [["ID", "AssignOp"]]⟩,
    ⟨"DoStmt", [["DO", "Block", "UNTIL", "LPAREN", "Expr", "RPAREN", "NEWLINE"]]⟩,
    ⟨"Args", [["Expr", "ArgTail"], ["EPSILON"]]⟩,
    ⟨"ArgTail", [["COMMA", "Expr", "ArgTail"], ["EPSILON"]]⟩,
    ⟨"Expr", [["ArithExpr", "ExprTail"]]⟩,
    ⟨"ExprTail", [["RelOp", "ArithExpr", "ExprTail"], ["EPSILON"]]⟩,
    ⟨"RelOp", [["LT"], ["LE"], ["GT"], ["GE"], ["EQEQ"], ["NE"], ["AND"], ["OR"]]⟩,
    ⟨"ArithExpr", [["Term", "ArithTail"]]⟩,
    ⟨"ArithTail", [["AddOp", "Term", "ArithTail"], ["EPSILON"]]⟩,
    ⟨"AddOp", [["PLUS"], ["MINUS"]]⟩,
    ⟨"Term", [["Factor", "TermTail"]]⟩,
    ⟨"TermTail", [["MulOp", "Factor", "TermTail"], ["EPSILON"]]⟩,
    ⟨"MulOp", [["STAR"], ["SLASH"], ["PERCENT"]]⟩,
    ⟨"Factor",
      [["ID", "FactorTail"], ["NUM"], ["CHARLIT"], ["LPAREN", "Expr", "RPAREN"],
        ["NOT", "Factor"]]⟩,
    ⟨"FactorTail", [["LPAREN", "Args", "RPAREN"], ["EPSILON"]]⟩]

def language : Grammar where
  rules := languageRules
  nonempty := List.cons_ne_nil _ _
  nodup := by decide +kernel
  unmixed := by decide +kernel

end Lookahead.Grammar
