import Lookahead.Symbol

namespace Lookahead

/-- A node without its children. Identifiers are given in the order in which nodes are made; a
literal and a line come from the token that a leaf was matched with. -/
structure Node where
  id : Nat
  label : Symbol
  literal : Option String
  line : Option Nat
deriving DecidableEq, Repr

inductive Tree
  | node (info : Node) (children : List Tree)
deriving Repr

namespace Tree

def info : Tree → Node
  | node info _ => info

def children : Tree → List Tree
  | node _ children => children

abbrev id (t : Tree) : Nat := t.info.id

abbrev label (t : Tree) : Symbol := t.info.label

def rootLabel : Symbol := "<root>"

def leaf (id : Nat) (label : Symbol) : Tree := node ⟨id, label, none, none⟩ []

def rooted (start : Tree) : Tree := node ⟨0, rootLabel, none, none⟩ [start]

mutual

/-- All subtrees, each before those below it, from left to right. -/
def preorder : Tree → List Tree
  | node info children => node info children :: preorderAll children

def preorderAll : List Tree → List Tree
  | [] => []
  | t :: rest => preorder t ++ preorderAll rest

end

def size (t : Tree) : Nat := t.preorder.length

def find? (t : Tree) (id : Nat) : Option Tree :=
  t.preorder.find? (·.id = id)

def byId (t : Tree) : List Tree :=
  t.preorder.mergeSort fun a b => a.id ≤ b.id

def leaves (t : Tree) : List Node :=
  (t.preorder.filter (·.children.isEmpty)).map info

mutual

/-- The line of the first matched token at or below a node. -/
def firstLine : Tree → Option Nat
  | node info children => info.line <|> firstLineAmong children

def firstLineAmong : List Tree → Option Nat
  | [] => none
  | t :: rest => firstLine t <|> firstLineAmong rest

end

mutual

def graft (parent : Nat) (child : Tree) : Tree → Tree
  | node info children =>
    let grafted := graftAll parent child children
    node info (if info.id = parent then grafted ++ [child] else grafted)

def graftAll (parent : Nat) (child : Tree) : List Tree → List Tree
  | [] => []
  | t :: rest => graft parent child t :: graftAll parent child rest

end

def add (t : Tree) (parent : Nat) (label : Symbol) : Tree :=
  graft parent (leaf t.size label) t

def caption (n : Node) : String :=
  match n.literal with
  | some literal => s!"{n.label}({literal})"
  | none => n.label

mutual

/-- One line a node, two spaces a level. -/
def renderAt (depth : Nat) : Tree → String
  | node info children =>
    "".pushn ' ' (2 * depth) ++ caption info ++ "\n" ++ renderAll (depth + 1) children

def renderAll (depth : Nat) : List Tree → String
  | [] => ""
  | t :: rest => renderAt depth t ++ renderAll depth rest

end

def render (t : Tree) : String := renderAt 0 t

theorem sizeOf_lt_of_mem_children {t c : Tree} (h : c ∈ t.children) : sizeOf c < sizeOf t := by
  cases t with
  | node info children =>
    have := List.sizeOf_lt_of_mem h
    simp only [Tree.children, node.sizeOf_spec] at *
    omega

end Tree

end Lookahead
