import Lookahead.NodeKind
import Lookahead.Lowering.Shape
import Lookahead.Proofs.Language.Parse
import Mathlib.Data.List.Forall2

namespace Lookahead

open Grammar (language)

namespace NodeKind

def label : NodeKind → Symbol
  | root => Tree.rootLabel
  | epsilon => Symbol.epsilon
  | program => "Program"
  | funcList => "FuncList"
  | funcDef => "FuncDef"
  | params => "Params"
  | paramTail => "ParamTail"
  | param => "Param"
  | type => "Type"
  | block => "Block"
  | blockBody => "BlockBody"
  | stmtList => "StmtList"
  | stmt => "Stmt"
  | simpleStmt => "SimpleStmt"
  | decl => "Decl"
  | declInit => "DeclInit"
  | idSuffix => "IdSuffix"
  | assignOp => "AssignOp"
  | returnStmt => "ReturnStmt"
  | returnValue => "ReturnValue"
  | ifStmt => "IfStmt"
  | elifList => "ElifList"
  | elseOpt => "ElseOpt"
  | whileStmt => "WhileStmt"
  | forStmt => "ForStmt"
  | forStep => "ForStep"
  | doStmt => "DoStmt"
  | args => "Args"
  | argTail => "ArgTail"
  | expr => "Expr"
  | exprTail => "ExprTail"
  | relOp => "RelOp"
  | arithExpr => "ArithExpr"
  | arithTail => "ArithTail"
  | addOp => "AddOp"
  | term => "Term"
  | termTail => "TermTail"
  | mulOp => "MulOp"
  | factor => "Factor"
  | factorTail => "FactorTail"
  | terminal kind => kind.name

theorem ofLabel?_label (kind : NodeKind) : ofLabel? kind.label = some kind := by
  cases kind with
  | terminal kind => cases kind <;> decide +kernel
  | _ => decide +kernel

def productions : NodeKind → List (List NodeKind)
  | program => [[funcList, terminal .eof]]
  | funcList => [[funcDef, funcList], [epsilon]]
  | funcDef =>
    [[terminal .kwDef, terminal .ident, terminal .lparen, params, terminal .rparen, block]]
  | params => [[param, paramTail], [epsilon]]
  | paramTail => [[terminal .comma, param, paramTail], [epsilon]]
  | param => [[type, terminal .ident]]
  | type => [[terminal .kwInt], [terminal .kwChar]]
  | block => [[terminal .colon, blockBody]]
  | blockBody =>
    [[terminal .newline, terminal .blockBegin, stmtList, terminal .blockEnd],
      [simpleStmt, terminal .newline]]
  | stmtList => [[stmt, stmtList], [epsilon]]
  | stmt => [[simpleStmt, terminal .newline], [ifStmt], [whileStmt], [forStmt], [doStmt]]
  | simpleStmt => [[decl], [terminal .ident, idSuffix], [returnStmt]]
  | decl => [[type, terminal .ident, declInit]]
  | declInit => [[terminal .assign, expr], [epsilon]]
  | idSuffix => [[assignOp], [terminal .lparen, args, terminal .rparen]]
  | assignOp => [[terminal .assign, expr], [terminal .inc], [terminal .dec]]
  | returnStmt => [[terminal .kwReturn, returnValue]]
  | returnValue => [[expr], [epsilon]]
  | ifStmt =>
    [[terminal .kwIf, terminal .lparen, expr, terminal .rparen, block, elifList, elseOpt]]
  | elifList =>
    [[terminal .kwElif, terminal .lparen, expr, terminal .rparen, block, elifList], [epsilon]]
  | elseOpt => [[terminal .kwElse, block], [epsilon]]
  | whileStmt => [[terminal .kwWhile, terminal .lparen, expr, terminal .rparen, block]]
  | forStmt =>
    [[terminal .kwFor, terminal .lparen, decl, terminal .semi, expr, terminal .semi, forStep,
      terminal .rparen, block]]
  | forStep => [[terminal .ident, assignOp]]
  | doStmt =>
    [[terminal .kwDo, block, terminal .kwUntil, terminal .lparen, expr, terminal .rparen,
      terminal .newline]]
  | args => [[expr, argTail], [epsilon]]
  | argTail => [[terminal .comma, expr, argTail], [epsilon]]
  | expr => [[arithExpr, exprTail]]
  | exprTail => [[relOp, arithExpr, exprTail], [epsilon]]
  | relOp =>
    [[terminal .lt], [terminal .le], [terminal .gt], [terminal .ge], [terminal .eqEq],
      [terminal .ne], [terminal .and], [terminal .or]]
  | arithExpr => [[term, arithTail]]
  | arithTail => [[addOp, term, arithTail], [epsilon]]
  | addOp => [[terminal .plus], [terminal .minus]]
  | term => [[factor, termTail]]
  | termTail => [[mulOp, factor, termTail], [epsilon]]
  | mulOp => [[terminal .star], [terminal .slash], [terminal .percent]]
  | factor =>
    [[terminal .ident, factorTail], [terminal .number], [terminal .charLit],
      [terminal .lparen, expr, terminal .rparen], [terminal .not, factor]]
  | factorTail => [[terminal .lparen, args, terminal .rparen], [epsilon]]
  | _ => []

theorem productions_label (kind : NodeKind) :
    language.productions kind.label = kind.productions.map (·.map label) := by
  cases kind with
  | terminal kind => exact Grammar.productions_eq_nil (Language.isRule_name kind)
  | _ => decide +kernel

theorem isRule_label {kind : NodeKind} (h : kind.productions ≠ []) :
    language.isRule kind.label = true := by
  by_contra hr
  have hnil := Grammar.productions_eq_nil (Bool.eq_false_iff.2 hr)
  rw [productions_label, List.map_eq_nil_iff] at hnil
  exact h hnil

theorem forall₂_of_labels {p : List NodeKind} {children : List Tree}
    (hp : p.map label = children.map (·.label)) {Q : NodeKind → Tree → Prop}
    (hQ : ∀ c ∈ children, ∀ k, c.label = k.label → Q k c) : List.Forall₂ Q p children := by
  have hlength : p.length = children.length := by
    have heq := congrArg List.length hp
    rwa [List.length_map, List.length_map] at heq
  refine List.forall₂_iff_get.2 ⟨hlength, fun i h₁ h₂ => hQ _ (List.get_mem children ⟨i, h₂⟩) _ ?_⟩
  have heq := List.getElem_of_eq hp (by rwa [List.length_map] : i < (p.map label).length)
  rw [List.getElem_map, List.getElem_map] at heq
  exact heq.symm

end NodeKind

/-- A node of the given kind in a tree that was derived from a source. -/
structure Tree.Parsed (kind : NodeKind) (t : Tree) : Prop where
  label : t.label = kind.label
  derivation : language.IsDerivation t
  leaves : ∀ n ∈ language.terminalLeaves t, ∃ kind : Terminal, n.label = kind.name ∧
    Lexeme.HasLiteral kind n.literal ∧ n.line.isSome = true

namespace Tree.Parsed

variable {kind : NodeKind} {t : Tree} {info : Node} {children : List Tree}

theorem kind_eq (h : Parsed kind t) : t.kind = .ok kind := by
  rw [Tree.kind, h.label, NodeKind.ofLabel?_label]

/-- The children are of the kinds of a production. -/
theorem forall₂ (h : Parsed kind (.node info children)) (hk : kind.productions ≠ [])
    {Q : NodeKind → Tree → Prop} (hQ : ∀ c ∈ children, ∀ k, Parsed k c → Q k c) :
    ∃ p ∈ kind.productions, List.Forall₂ Q p children := by
  have hlabel : info.label = kind.label := h.label
  have hr : language.isRule info.label = true := hlabel ▸ NodeKind.isRule_label hk
  have hp := h.derivation.production hr
  rw [Tree.label_node, hlabel, NodeKind.productions_label] at hp
  obtain ⟨p, hmem, hp⟩ := List.mem_map.1 hp
  refine ⟨p, hmem, NodeKind.forall₂_of_labels hp fun c hc k hlabel => ?_⟩
  refine hQ c hc k ⟨hlabel, h.derivation.child hc, fun n hn => h.leaves n ?_⟩
  rw [Grammar.terminalLeaves_node children hr]
  exact List.mem_flatMap.2 ⟨c, hc, hn⟩

theorem leaf {kind : Terminal} (h : Parsed (.terminal kind) t) :
    ∃ info, t = .node info [] ∧ Lexeme.HasLiteral kind info.literal := by
  cases t with
  | node info children =>
    have hlabel : info.label = kind.name := h.label
    have hr : language.isRule info.label = false := hlabel ▸ Language.isRule_name kind
    obtain rfl : children = [] := h.derivation.children_eq_nil hr
    have ht : language.isTerminal info.label = true := by
      rw [Grammar.isTerminal_iff]
      refine ⟨hr, ?_⟩
      rw [hlabel]
      cases kind <;> decide
    obtain ⟨kind', hkind', hliteral, -⟩ := h.leaves info (by
      rw [Grammar.terminalLeaves_leaf, if_pos ht]
      exact List.mem_cons_self)
    obtain rfl : kind = kind' := Terminal.name_injective (hlabel.symm.trans hkind')
    exact ⟨info, rfl, hliteral⟩

end Tree.Parsed

end Lookahead
