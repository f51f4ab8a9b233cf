import Lookahead.Lowering.State

namespace Lookahead.Lowering

def combine (op : Op) (lhs rhs : Operand) : Lowering Operand := do
  let t ← newTemp
  emit (.binary op lhs rhs t)
  return t

def apply (malformed : LoweringError) (op : Op) : List Operand → Lowering (List Operand)
  | rhs :: lhs :: values => return (← combine op lhs rhs) :: values
  | _ => throw malformed

/-- Applies the stacked operators, the latest first, down to one that binds less than `limit`. -/
def unwind (malformed : LoweringError) (limit : Nat) :
    List Op → List Operand → Lowering (List Op × List Operand)
  | [], values => return ([], values)
  | op :: stack, values => do
    if op.strength < limit then return (op :: stack, values)
    unwind malformed limit stack (← apply malformed op values)

/-- Before an operator is stacked, those on the stack that bind at least as tightly are applied. In
the end one value must be left. -/
def climb (malformed : LoweringError) (stack : List Op) (values : List Operand) :
    List (Op × Operand) → Lowering Operand
  | [] => do
    match ← unwind malformed 0 stack values with
    | (_, [place]) => return place
    | _ => throw malformed
  | (op, rhs) :: rest => do
    let (stack, values) ← unwind malformed op.strength stack values
    climb malformed (op :: stack) (rhs :: values) rest

/-- Groups a chain of operators over operands that are in their places. There has to be one operand
more than there are operators. -/
def reduceChain (operands : List Operand) (ops : List Op) : Lowering Operand :=
  let malformed := .malformedChain operands.length ops.length
  if operands.length = ops.length + 1 then
    climb malformed [] (operands.take 1) (ops.zip (operands.drop 1))
  else throw malformed

/-- A character literal's text is one character. -/
def charOperand (text : String) : Except LoweringError Operand :=
  match text.toList with
  | [c] => .ok (.char c)
  | _ => .error (.badLiteral text)

def emitParams (places : List Operand) : Lowering Unit :=
  places.forM fun place => emit (.param place)

def emitValueCall (callee : String) (places : List Operand) : Lowering Operand := do
  emitParams places
  let t ← newTemp
  emit (.call callee places.length (some t))
  return t

mutual

/-- Operands first, from left to right, then the operators between them. -/
def lowerExpr (expr : Tree) : Lowering Operand := do
  let head ← expr.expect 0 .arithExpr "expression"
  let tail ← expr.expect 1 .exprTail "expression"
  let first ← lowerArith head.tree
  let links ← tail.tree.unroll
  let (operands, ops) ← links.foldlM (fun (operands, ops) link => do
    let rel ← link.tree.expect 0 .relOp "relational chain"
    let op ← rel.tree.operator "relational operator"
    let rhs ← link.tree.expect 1 .arithExpr "relational chain"
    return (operands ++ [← lowerArith rhs.tree], ops ++ [op])) ([first], [])
  reduceChain operands ops
termination_by sizeOf expr
decreasing_by
  · exact head.lt
  · exact Nat.lt_trans rhs.lt (Nat.lt_of_le_of_lt link.le tail.lt)

def lowerArith (arith : Tree) : Lowering Operand := do
  let head ← arith.expect 0 .term "arithmetic expression"
  let tail ← arith.expect 1 .arithTail "arithmetic expression"
  let first ← lowerTerm head.tree
  let links ← tail.tree.unroll
  links.foldlM (fun lhs link => do
    let add ← link.tree.expect 0 .addOp "additive chain"
    let op ← add.tree.operator "additive operator"
    let term ← link.tree.expect 1 .term "additive chain"
    combine op lhs (← lowerTerm term.tree)) first
termination_by sizeOf arith
decreasing_by
  · exact head.lt
  · exact Nat.lt_trans term.lt (Nat.lt_of_le_of_lt link.le tail.lt)

def lowerTerm (term : Tree) : Lowering Operand := do
  let head ← term.expect 0 .factor "term"
  let tail ← term.expect 1 .termTail "term"
  let first ← lowerFactor head.tree
  let links ← tail.tree.unroll
  links.foldlM (fun lhs link => do
    let mul ← link.tree.expect 0 .mulOp "multiplicative chain"
    let op ← mul.tree.operator "multiplicative operator"
    let factor ← link.tree.expect 1 .factor "multiplicative chain"
    combine op lhs (← lowerFactor factor.tree)) first
termination_by sizeOf term
decreasing_by
  · exact head.lt
  · exact Nat.lt_trans factor.lt (Nat.lt_of_le_of_lt link.le tail.lt)

def lowerFactor (factor : Tree) : Lowering Operand := do
  let first ← factor.child 0 "factor"
  match ← first.tree.kind with
  | .terminal .ident =>
    let name ← first.tree.literal
    let tail ← factor.expect 1 .factorTail "factor"
    if ← tail.tree.isEmpty then
      return .name name
    let args ← tail.tree.expect 1 .args "call"
    emitValueCall name (← lowerArgs args.tree)
  | .terminal .number => return .num (← first.tree.literal)
  | .terminal .charLit => charOperand (← first.tree.literal)
  | .terminal .lparen =>
    let inner ← factor.expect 1 .expr "parenthesized expression"
    lowerExpr inner.tree
  | .terminal .not =>
    let operand ← factor.expect 1 .factor "negation"
    let place ← lowerFactor operand.tree
    let t ← newTemp
    emit (.not place t)
    return t
  | _ => first.tree.unexpected "factor"
termination_by sizeOf factor
decreasing_by
  · exact Nat.lt_trans args.lt tail.lt
  · exact inner.lt
  · exact operand.lt

def lowerArgs (args : Tree) : Lowering (List Operand) := do
  if ← args.isEmpty then
    return []
  let head ← args.expect 0 .expr "argument list"
  let first ← lowerExpr head.tree
  let tail ← args.expect 1 .argTail "argument list"
  let links ← tail.tree.unroll
  let rest ← links.mapM fun link => do
    let expr ← link.tree.expect 1 .expr "argument list"
    lowerExpr expr.tree
  return first :: rest
termination_by sizeOf args
decreasing_by
  · exact head.lt
  · exact Nat.lt_trans expr.lt (Nat.lt_of_le_of_lt link.le tail.lt)

end

def lowerCall (callee : String) (args : Tree) : Lowering Operand := do
  emitValueCall callee (← lowerArgs args)

def lowerCallStmt (callee : String) (args : Tree) : Lowering Unit := do
  let places ← lowerArgs args
  emitParams places
  emit (.call callee places.length none)

end Lookahead.Lowering
