import Lookahead.NodeKind

namespace Lookahead

/-- A tree that is not of the shape its labels promise. -/
inductive LoweringError
  | unexpectedNode (context : String) (found : Symbol)
  | missingChild (context : String) (index : Nat)
  | missingLiteral (label : Symbol)
  | badLiteral (text : String)
  | malformedChain (operands operators : Nat)
deriving DecidableEq, Repr

def LoweringError.message : LoweringError → String
  | unexpectedNode context found => s!"unexpected '{found}' while lowering {context}"
  | missingChild context index => s!"{context} node has no child {index}"
  | missingLiteral label => s!"'{label}' leaf carries no literal"
  | badLiteral text => s!"invalid literal '{text}'"
  | malformedChain operands operators =>
    s!"operator chain has {operators} operators for {operands} operands"

namespace Tree

/-- A tree smaller than `t`, such as one of its children. -/
structure Below (t : Tree) where
  tree : Tree
  lt : sizeOf tree < sizeOf t

/-- A tree not larger than `t`, such as `t` itself. -/
structure Within (t : Tree) where
  tree : Tree
  le : sizeOf tree ≤ sizeOf t

def Below.trans {s t : Tree} (h : sizeOf s ≤ sizeOf t) (c : s.Below) : t.Below :=
  ⟨c.tree, Nat.lt_of_lt_of_le c.lt h⟩

def Within.trans {s t : Tree} (h : sizeOf s < sizeOf t) (c : s.Within) : t.Within :=
  ⟨c.tree, Nat.le_trans c.le (Nat.le_of_lt h)⟩

def kind (t : Tree) : Except LoweringError NodeKind :=
  match NodeKind.ofLabel? t.label with
  | some kind => .ok kind
  | none => .error (.unexpectedNode "parse tree" t.label)

def unexpected {α : Type} (t : Tree) (context : String) : Except LoweringError α :=
  .error (.unexpectedNode context t.label)

def child (t : Tree) (index : Nat) (context : String) : Except LoweringError t.Below :=
  if h : index < t.children.length then
    .ok ⟨t.children[index], sizeOf_lt_of_mem_children (List.getElem_mem h)⟩
  else .error (.missingChild context index)

def expect (t : Tree) (index : Nat) (expected : NodeKind) (context : String) :
    Except LoweringError t.Below := do
  let c ← t.child index context
  if (← c.tree.kind) = expected then return c else c.tree.unexpected context

def literal (t : Tree) : Except LoweringError String :=
  match t.info.literal with
  | some literal => .ok literal
  | none => .error (.missingLiteral t.label)

def ident (t : Tree) (index : Nat) (context : String) : Except LoweringError String := do
  (← t.expect index (.terminal .ident) context).tree.literal

def isEmpty (t : Tree) : Except LoweringError Bool :=
  match t.children with
  | [] => .ok false
  | c :: _ => return (← c.kind) = .epsilon

def operator (t : Tree) (context : String) : Except LoweringError Op := do
  let token ← t.child 0 context
  match ← token.tree.kind with
  | .terminal kind =>
    match kind.binaryOp? with
    | some op => return op
    | none => token.tree.unexpected context
  | _ => token.tree.unexpected context

/-- The nodes of the given kind on the way down through last children, as far as they are not
empty. -/
def unrollAs (kind : NodeKind) (t : Tree) : Except LoweringError (List t.Within) := do
  if ← t.isEmpty then return []
  match h : t.children.getLast? with
  | none => return [⟨t, Nat.le_refl _⟩]
  | some last =>
    have hlt : sizeOf last < sizeOf t :=
      sizeOf_lt_of_mem_children (List.mem_of_getLast? h)
    if (← last.kind) = kind then
      let more ← unrollAs kind last
      return ⟨t, Nat.le_refl _⟩ :: more.map (·.trans hlt)
    else return [⟨t, Nat.le_refl _⟩]
termination_by sizeOf t
decreasing_by exact hlt

/-- The non-empty nodes of a list whose last child is the rest of the list, outermost first. -/
def unroll (t : Tree) : Except LoweringError (List t.Within) := do
  t.unrollAs (← t.kind)

end Tree

end Lookahead
