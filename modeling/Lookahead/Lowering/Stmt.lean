import Lookahead.Lowering.Expr

namespace Lookahead.Lowering

/-- A declaration without an initial value makes no code. -/
def lowerDecl (decl : Tree) : Lowering Unit := do
  let name ← decl.ident 1 "declaration"
  let init ← decl.expect 2 .declInit "declaration"
  if ← init.tree.isEmpty then
    return
  let expr ← init.tree.expect 1 .expr "initializer"
  let place ← lowerExpr expr.tree
  emit (.assign (.name name) place)

def emitStep (target : String) (op : Op) : Lowering Unit := do
  let t ← combine op (.name target) (.imm 1)
  emit (.assign (.name target) t)

def lowerAssignOp (target : String) (suffix : Tree) : Lowering Unit := do
  let first ← suffix.child 0 "assignment"
  match ← first.tree.kind with
  | .terminal .assign =>
    let expr ← suffix.expect 1 .expr "assignment"
    let place ← lowerExpr expr.tree
    emit (.assign (.name target) place)
  | .terminal .inc => emitStep target .add
  | .terminal .dec => emitStep target .sub
  | _ => first.tree.unexpected "assignment"

def markReturn : Lowering Unit :=
  modify fun s => { s with scope := s.scope.map fun scope => { scope with hasReturn := true } }

def lowerReturn (stmt : Tree) : Lowering Unit := do
  let value ← stmt.expect 1 .returnValue "return"
  if ← value.tree.isEmpty then
    emit (.ret none)
  else
    let expr ← value.tree.expect 0 .expr "return"
    let place ← lowerExpr expr.tree
    emit (.ret (some place))
  markReturn

def lowerSimpleStmt (stmt : Tree) : Lowering Unit := do
  let first ← stmt.child 0 "simple statement"
  match ← first.tree.kind with
  | .decl => lowerDecl first.tree
  | .returnStmt => lowerReturn first.tree
  | .terminal .ident =>
    let name ← first.tree.literal
    let suffix ← stmt.expect 1 .idSuffix "simple statement"
    let inner ← suffix.tree.child 0 "identifier suffix"
    match ← inner.tree.kind with
    | .assignOp => lowerAssignOp name inner.tree
    | .terminal .lparen =>
      let args ← suffix.tree.expect 1 .args "call"
      lowerCallStmt name args.tree
    | _ => inner.tree.unexpected "identifier suffix"
  | _ => first.tree.unexpected "simple statement"

def lowerTest (condition : Tree) (target : String) : Lowering Unit :=
  withComponent .condition do
    let place ← lowerExpr condition
    emit (.ifFalse place target)

def arms (stmt : Tree) : Except LoweringError (List (stmt.Below × stmt.Below)) := do
  let condition ← stmt.expect 2 .expr "if"
  let block ← stmt.expect 4 .block "if"
  let elifs ← stmt.expect 5 .elifList "if"
  let links ← elifs.tree.unroll
  let more ← links.mapM fun (link : elifs.tree.Within) => do
    let link := link.trans elifs.lt
    let condition ← link.tree.expect 2 .expr "elif"
    let block ← link.tree.expect 4 .block "elif"
    return (condition.trans link.le, block.trans link.le)
  return (condition, block) :: more

def elseBlock? (stmt : Tree) : Except LoweringError (Option stmt.Below) := do
  let last ← stmt.expect 6 .elseOpt "if"
  if ← last.tree.isEmpty then
    return none
  let block ← last.tree.expect 1 .block "else"
  return some (block.trans (Nat.le_of_lt last.lt))

/-- One arm of a conditional. When its condition is false control goes on behind its block, or to
the end if nothing is left to try. -/
def emitArm (isLast : Bool) (finish : String) (condition : Tree) (body : Lowering Unit) :
    Lowering Unit := do
  let next ← if isLast then pure finish else newLabel
  withLine condition (lowerTest condition next)
  withComponent .thenBranch body
  emitGlue (.goto finish)
  if !isLast then
    emitGlue (.label next)

mutual

def lowerBlock (block : Tree) : Lowering Unit := do
  let body ← block.expect 1 .blockBody "block"
  let first ← body.tree.child 0 "block body"
  match ← first.tree.kind with
  | .terminal .newline =>
    let list ← body.tree.expect 2 .stmtList "block body"
    let links ← list.tree.unroll
    links.forM fun link => do
      let stmt ← link.tree.expect 0 .stmt "statement list"
      withLine stmt.tree (lowerStmt stmt.tree)
  | .simpleStmt => withLine first.tree (lowerSimpleStmt first.tree)
  | _ => first.tree.unexpected "block body"
termination_by sizeOf block
decreasing_by
  exact Nat.lt_trans stmt.lt (Nat.lt_of_le_of_lt link.le (Nat.lt_trans list.lt body.lt))

def lowerStmt (stmt : Tree) : Lowering Unit := do
  let inner ← stmt.child 0 "statement"
  match ← inner.tree.kind with
  | .simpleStmt => lowerSimpleStmt inner.tree
  | .ifStmt => lowerIf inner.tree
  | .whileStmt => lowerWhile inner.tree
  | .forStmt => lowerFor inner.tree
  | .doStmt => lowerDo inner.tree
  | _ => inner.tree.unexpected "statement"
termination_by sizeOf stmt
decreasing_by all_goals exact inner.lt

/-- Each arm tests its condition and goes to the next arm when it is false; after its block it
goes to the common end, also from the last arm. -/
def lowerIf (stmt : Tree) : Lowering Unit := do
  let finish ← newLabel
  let arms ← arms stmt
  let otherwise ← elseBlock? stmt
  arms.zipIdx.forM fun arm =>
    emitArm (arm.2 + 1 = arms.length && otherwise.isNone) finish arm.1.1.tree
      (lowerBlock arm.1.2.tree)
  match otherwise with
  | some block => withComponent .elseBranch (lowerBlock block.tree)
  | none => pure ()
  emitGlue (.label finish)
termination_by sizeOf stmt
decreasing_by
  · exact arm.1.2.lt
  · exact block.lt

def lowerWhile (stmt : Tree) : Lowering Unit := do
  let condition ← stmt.expect 2 .expr "while"
  let body ← stmt.expect 4 .block "while"
  let start ← newLabel
  let finish ← newLabel
  emitGlue (.label start)
  lowerTest condition.tree finish
  withComponent .loopBody (lowerBlock body.tree)
  emitGlue (.goto start)
  emitGlue (.label finish)
termination_by sizeOf stmt
decreasing_by exact body.lt

/-- The declaration runs once before the loop, the step after the body each time round. -/
def lowerFor (stmt : Tree) : Lowering Unit := do
  let init ← stmt.expect 2 .decl "for"
  let condition ← stmt.expect 4 .expr "for"
  let step ← stmt.expect 6 .forStep "for"
  let body ← stmt.expect 8 .block "for"
  lowerDecl init.tree
  let start ← newLabel
  let finish ← newLabel
  emitGlue (.label start)
  lowerTest condition.tree finish
  withComponent .loopBody do
    lowerBlock body.tree
    let target ← step.tree.ident 0 "for step"
    let suffix ← step.tree.expect 1 .assignOp "for step"
    lowerAssignOp target suffix.tree
  emitGlue (.goto start)
  emitGlue (.label finish)
termination_by sizeOf stmt
decreasing_by exact body.lt

/-- The body comes first; a false condition goes back to it. -/
def lowerDo (stmt : Tree) : Lowering Unit := do
  let body ← stmt.expect 1 .block "do"
  let condition ← stmt.expect 4 .expr "do"
  let start ← newLabel
  emitGlue (.label start)
  withComponent .loopBody (lowerBlock body.tree)
  withLine condition.tree (lowerTest condition.tree start)
termination_by sizeOf stmt
decreasing_by exact body.lt

end

def paramNames (params : Tree) : Except LoweringError (List String) := do
  if ← params.isEmpty then
    return []
  let head ← params.expect 0 .param "parameter list"
  let first ← head.tree.ident 1 "parameter"
  let tail ← params.expect 1 .paramTail "parameter list"
  let links ← tail.tree.unroll
  let rest ← links.mapM fun link => do
    (← link.tree.expect 1 .param "parameter list").tree.ident 1 "parameter"
  return first :: rest

/-- The target of the last assignment to a named variable, or zero. -/
def defaultReturn (code : List Quad) : Operand :=
  (code.reverse.findSome? fun q =>
    match q.op, q.result with
    | .assign, some (.name name) => some (.name name)
    | _, _ => none).getD (.imm 0)

/-- Label, parameter moves, body, a return if the function has none and is not the entry, and the
end label. -/
def lowerFunction (entry : String) (definition : Tree) : Lowering Unit := do
  let name ← definition.ident 1 "function definition"
  note (.entered name)
  let start := (← get).program.size
  emit (.label name)
  modify fun s => { s with scope := some ⟨name, start, false⟩ }
  let params ← definition.expect 3 .params "function definition"
  let names ← paramNames params.tree
  names.zipIdx.forM fun (param, i) => emit (.assign (.name param) (.param (i + 1)))
  let block ← definition.expect 5 .block "function definition"
  lowerBlock block.tree
  let s ← get
  set { s with scope := none }
  if name ≠ entry && !s.scope.any (·.hasReturn) then
    let value := defaultReturn (s.program.code.toList.drop start)
    note (.defaultReturn name value)
    emit (.ret (some value))
  emit (.label (Program.endLabel name))

def lowerProgram (entry : String) (root : Tree) : Lowering Unit := do
  let program ← root.expect 0 .program "root"
  let list ← program.tree.expect 0 .funcList "program"
  let links ← list.tree.unroll
  links.forM fun link => do
    let definition ← link.tree.expect 0 .funcDef "function list"
    withLine definition.tree (lowerFunction entry definition.tree)

/-- Lowers a whole tree. `entry` names the function that gets no return of its own making. The
notes, in order, tell how far lowering came. -/
def lower (entry : String) (root : Tree) : Except LoweringError Program × List Note :=
  let (result, s) := lowerProgram entry root .initial
  (result.map fun _ => s.program, s.notes.reverse)

end Lookahead.Lowering
