import Lookahead.Lexeme
import Lookahead.NodeKind

namespace Lookahead

def Op.isArithmetic : Op → Bool
  | add | sub | mul | div | mod => true
  | _ => false

namespace Source

/-- A name that a source can spell: none of those kept for temporaries, parameter slots and
labels. -/
structure Name where
  text : String
  unreserved : Lexeme.isReserved text.toList = false

abbrev ArithOp := { op : Op // op.isArithmetic = true }

abbrev ChainOp := { op : Op // op.precedence?.isSome = true }

mutual

inductive Expr
  | name (x : Name)
  | num (digits : String)
  | char (c : Char)
  | call (callee : Name) (args : Args)
  | not (e : Expr)
  | binary (op : ArithOp) (lhs rhs : Expr)
  | chain (first : Expr) (rest : Links)

inductive Args
  | nil
  | cons (e : Expr) (rest : Args)

inductive Links
  | nil
  | cons (op : ChainOp) (e : Expr) (rest : Links)

end

structure Decl where
  target : Name
  init : Option Expr

inductive Update
  | assign (target : Name) (e : Expr)
  | step (target : Name) (op : ArithOp)

inductive Simple
  | declare (d : Decl)
  | update (u : Update)
  | call (callee : Name) (args : Args)
  | ret (value : Option Expr)

mutual

inductive Stmt
  | simple (s : Simple)
  | cond (arms : Arms)
  | whileLoop (test : Expr) (body : Block)
  | forLoop (init : Decl) (test : Expr) (step : Update) (body : Block)
  | doUntil (body : Block) (line : Option Nat) (test : Expr)

inductive Block
  | nil
  | cons (line : Option Nat) (s : Stmt) (rest : Block)

/-- What a conditional has left to try. -/
inductive Arms
  | done
  | otherwise (body : Block)
  | arm (line : Option Nat) (test : Expr) (body : Block) (rest : Arms)

end

structure Function where
  line : Option Nat
  name : Name
  params : List Name
  body : Block

section Returns

def Simple.returns : Simple → Bool
  | .ret _ => true
  | _ => false

mutual

def Stmt.returns : Stmt → Bool
  | .simple s => s.returns
  | .cond arms => arms.returns
  | .whileLoop _ body => body.returns
  | .forLoop _ _ _ body => body.returns
  | .doUntil body _ _ => body.returns

def Block.returns : Block → Bool
  | .nil => false
  | .cons _ s rest => s.returns || rest.returns

def Arms.returns : Arms → Bool
  | .done => false
  | .otherwise body => body.returns
  | .arm _ _ body rest => body.returns || rest.returns

end

/-- Whether the code of a function gets a return that its source does not have: not the entry, and
not a function that has a return of its own. -/
def Function.isDefaulted (f : Function) (entry : String) : Bool :=
  f.name.text ≠ entry && !f.body.returns

end Returns

section Reading

def kind? (t : Tree) : Option NodeKind := NodeKind.ofLabel? t.label

def name? (t : Tree) : Option Name :=
  t.info.literal.bind fun text =>
    if h : Lexeme.isReserved text.toList = false then some ⟨text, h⟩ else none

theorem text_of_name? {t : Tree} {x : Name} (h : name? t = some x) :
    t.info.literal = some x.text := by
  obtain ⟨text, hliteral, h⟩ := Option.bind_eq_some_iff.1 h
  split at h
  · cases h
    exact hliteral
  · cases h

def char? (text : String) : Option Char :=
  match text.toList with
  | [c] => some c
  | _ => none

def op? : Tree → Option Op
  | .node _ [leaf] => (Terminal.ofName? leaf.label).bind Terminal.binaryOp?
  | _ => none

def arithOp? (t : Tree) : Option ArithOp :=
  (op? t).bind fun op => if h : op.isArithmetic = true then some ⟨op, h⟩ else none

def chainOp? (t : Tree) : Option ChainOp :=
  (op? t).bind fun op => if h : op.precedence?.isSome = true then some ⟨op, h⟩ else none

mutual

def readExpr : Tree → Option Expr
  | .node _ [arith, tail] => do return .chain (← readArith arith) (← readLinks tail)
  | _ => none

def readLinks : Tree → Option Links
  | .node _ [_] => some .nil
  | .node _ [op, arith, tail] => do
    return .cons (← chainOp? op) (← readArith arith) (← readLinks tail)
  | _ => none

def readArith : Tree → Option Expr
  | .node _ [term, tail] => do readSum (← readTerm term) tail
  | _ => none

def readSum (lhs : Expr) : Tree → Option Expr
  | .node _ [_] => some lhs
  | .node _ [op, term, tail] => do
    readSum (.binary (← arithOp? op) lhs (← readTerm term)) tail
  | _ => none

def readTerm : Tree → Option Expr
  | .node _ [factor, tail] => do readProduct (← readFactor factor) tail
  | _ => none

def readProduct (lhs : Expr) : Tree → Option Expr
  | .node _ [_] => some lhs
  | .node _ [op, factor, tail] => do
    readProduct (.binary (← arithOp? op) lhs (← readFactor factor)) tail
  | _ => none

def readFactor : Tree → Option Expr
  | .node _ [leaf] =>
    match kind? leaf with
    | some (.terminal .number) => leaf.info.literal.map .num
    | some (.terminal .charLit) => (leaf.info.literal.bind char?).map .char
    | _ => none
  | .node _ [first, second] =>
    match kind? first with
    | some (.terminal .ident) => do readReference (← name? first) second
    | some (.terminal .not) => (readFactor second).map .not
    | _ => none
  | .node _ [_, expr, _] => readExpr expr
  | _ => none

/-- What follows a name in an expression: nothing, or the arguments of a call. -/
def readReference (x : Name) : Tree → Option Expr
  | .node _ [_] => some (.name x)
  | .node _ [_, args, _] => (readArgs args).map (.call x)
  | _ => none

def readArgs : Tree → Option Args
  | .node _ [_] => some .nil
  | .node _ [expr, tail] => do return .cons (← readExpr expr) (← readMoreArgs tail)
  | _ => none

def readMoreArgs : Tree → Option Args
  | .node _ [_] => some .nil
  | .node _ [_, expr, tail] => do return .cons (← readExpr expr) (← readMoreArgs tail)
  | _ => none

end

def readInit : Tree → Option (Option Expr)
  | .node _ [_] => some none
  | .node _ [_, expr] => (readExpr expr).map some
  | _ => none

def readDecl : Tree → Option Decl
  | .node _ [_, ident, init] => do return ⟨← name? ident, ← readInit init⟩
  | _ => none

def readUpdate (target : Name) : Tree → Option Update
  | .node _ [leaf] =>
    match kind? leaf with
    | some (.terminal .inc) => some (.step target ⟨.add, rfl⟩)
    | some (.terminal .dec) => some (.step target ⟨.sub, rfl⟩)
    | _ => none
  | .node _ [_, expr] => (readExpr expr).map (.assign target)
  | _ => none

def readStep : Tree → Option Update
  | .node _ [ident, assign] => do readUpdate (← name? ident) assign
  | _ => none

def readReturn : Tree → Option (Option Expr)
  | .node _ [_, .node _ [value]] =>
    if kind? value = some .epsilon then some none else (readExpr value).map some
  | _ => none

def readSuffix (x : Name) : Tree → Option Simple
  | .node _ [assign] => (readUpdate x assign).map .update
  | .node _ [_, args, _] => (readArgs args).map (.call x)
  | _ => none

def readSimple : Tree → Option Simple
  | .node _ [inner] =>
    match kind? inner with
    | some .decl => (readDecl inner).map .declare
    | some .returnStmt => (readReturn inner).map .ret
    | _ => none
  | .node _ [ident, suffix] => do readSuffix (← name? ident) suffix
  | _ => none

mutual

def readBlock : Tree → Option Block
  | .node _ [_, body] => readBody body
  | _ => none

def readBody : Tree → Option Block
  | .node _ [simple, _] => do
    return .cons simple.firstLine (.simple (← readSimple simple)) .nil
  | .node _ [_, _, list, _] => readStmts list
  | _ => none

def readStmts : Tree → Option Block
  | .node _ [_] => some .nil
  | .node _ [stmt, rest] => do
    return .cons stmt.firstLine (← readStmt stmt) (← readStmts rest)
  | _ => none

def readStmt : Tree → Option Stmt
  | .node _ [simple, _] => (readSimple simple).map .simple
  | .node _ [inner] =>
    match kind? inner with
    | some .ifStmt => readIf inner
    | some .whileStmt => readWhile inner
    | some .forStmt => readFor inner
    | some .doStmt => readDo inner
    | _ => none
  | _ => none

def readIf : Tree → Option Stmt
  | .node _ [_, _, test, _, block, elifs, otherwise] => do
    return .cond (.arm test.firstLine (← readExpr test) (← readBlock block)
      (← readElifs (← readElse otherwise) elifs))
  | _ => none

def readElifs (last : Arms) : Tree → Option Arms
  | .node _ [_] => some last
  | .node _ [_, _, test, _, block, elifs] => do
    return .arm test.firstLine (← readExpr test) (← readBlock block) (← readElifs last elifs)
  | _ => none

def readElse : Tree → Option Arms
  | .node _ [_] => some .done
  | .node _ [_, block] => (readBlock block).map .otherwise
  | _ => none

def readWhile : Tree → Option Stmt
  | .node _ [_, _, test, _, block] => do
    return .whileLoop (← readExpr test) (← readBlock block)
  | _ => none

def readFor : Tree → Option Stmt
  | .node _ [_, _, decl, _, test, _, step, _, block] => do
    return .forLoop (← readDecl decl) (← readExpr test) (← readStep step) (← readBlock block)
  | _ => none

def readDo : Tree → Option Stmt
  | .node _ [_, block, _, _, test, _, _] => do
    return .doUntil (← readBlock block) test.firstLine (← readExpr test)
  | _ => none

end

def readParam : Tree → Option Name
  | .node _ [_, ident] => name? ident
  | _ => none

def readMoreParams : Tree → Option (List Name)
  | .node _ [_] => some []
  | .node _ [_, param, tail] => do return (← readParam param) :: (← readMoreParams tail)
  | _ => none

def readParams : Tree → Option (List Name)
  | .node _ [_] => some []
  | .node _ [param, tail] => do return (← readParam param) :: (← readMoreParams tail)
  | _ => none

def readFunction : Tree → Option Function
  | t@(.node _ [_, ident, _, params, _, block]) => do
    return ⟨t.firstLine, ← name? ident, ← readParams params, ← readBlock block⟩
  | _ => none

def readFunctions : Tree → Option (List Function)
  | .node _ [_] => some []
  | .node _ [definition, rest] => do
    return (← readFunction definition) :: (← readFunctions rest)
  | _ => none

def readProgram : Tree → Option (List Function)
  | .node _ [.node _ [list, _]] => readFunctions list
  | _ => none

end Reading

end Source

end Lookahead
