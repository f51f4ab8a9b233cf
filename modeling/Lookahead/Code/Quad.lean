namespace Lookahead

inductive Op
  | label | assign
  | add | sub | mul | div | mod
  | lt | le | gt | ge | eq | ne
  | and | or | not
  | ifFalse | goto | param | call | ret
deriving DecidableEq, Repr

namespace Op

def text : Op → String
  | label => "label"
  | assign => "="
  | add => "+"
  | sub => "-"
  | mul => "*"
  | div => "/"
  | mod => "%"
  | lt => "<"
  | le => "<="
  | gt => ">"
  | ge => ">="
  | eq => "=="
  | ne => "!="
  | and => "&&"
  | or => "||"
  | not => "!"
  | ifFalse => "ifFalse"
  | goto => "goto"
  | param => "param"
  | call => "call"
  | ret => "return"

def all : List Op :=
  [label, assign, add, sub, mul, div, mod, lt, le, gt, ge, eq, ne, and, or, not, ifFalse, goto,
    param, call, ret]

def ofText? (s : String) : Option Op := all.find? (·.text = s)

/-- How tightly an operator binds in a chain of comparisons and logical operators. Other operators
have no place in one. -/
def precedence? : Op → Option Nat
  | lt | le | gt | ge | eq | ne => some 2
  | and | or => some 1
  | _ => none

/-- Operators without a precedence bind least. -/
def strength (op : Op) : Nat := op.precedence?.getD 0

end Op

/-- A number keeps its spelling; constants that lowering makes are 64-bit integers. -/
inductive Operand
  | name (name : String)
  | temp (index : Nat)
  | param (index : Nat)
  | num (digits : String)
  | imm (value : Int)
  | char (c : Char)
  | label (name : String)
deriving DecidableEq, Repr

def Operand.text : Operand → String
  | name s | label s | num s => s
  | temp i => s!"t{i}"
  | param i => s!"param{i}"
  | imm v => s!"{v}"
  | char c => s!"'{c}'"

/-- An instruction: an operator, up to two arguments and a result. The operator decides which of
the slots are in use. -/
structure Quad where
  op : Op
  arg1 : Option Operand
  arg2 : Option Operand
  result : Option Operand
deriving DecidableEq, Repr

namespace Quad

def label (name : String) : Quad := ⟨.label, none, none, some (.label name)⟩

def assign (target source : Operand) : Quad := ⟨.assign, some source, none, some target⟩

def binary (op : Op) (lhs rhs result : Operand) : Quad := ⟨op, some lhs, some rhs, some result⟩

def not (operand result : Operand) : Quad := ⟨.not, some operand, none, some result⟩

def ifFalse (condition : Operand) (target : String) : Quad :=
  ⟨.ifFalse, some condition, none, some (.label target)⟩

def goto (target : String) : Quad := ⟨.goto, none, none, some (.label target)⟩

def param (argument : Operand) : Quad := ⟨.param, some argument, none, none⟩

/-- The argument count is kept as a 64-bit integer and wraps around. -/
def call (callee : String) (count : Nat) (result : Option Operand) : Quad :=
  ⟨.call, some (.name callee), some (.imm (Int.bmod count UInt64.size)), result⟩

def ret (value : Option Operand) : Quad := ⟨.ret, value, none, none⟩

def labelName? (q : Quad) : Option String :=
  match q.op, q.result with
  | .label, some (.label name) => some name
  | _, _ => none

def slotText (slot : Option Operand) : String := (slot.map Operand.text).getD ""

def dumpSlot (slot : Option Operand) : String := (slot.map Operand.text).getD "_"

/-- The form of the listing. An empty slot leaves no text. -/
def text (q : Quad) : String :=
  let arg1 := slotText q.arg1
  let arg2 := slotText q.arg2
  let result := slotText q.result
  match q.op with
  | .label => s!"label {result}"
  | .assign => s!"{result} = {arg1}"
  | .not => s!"{result} = ! {arg1}"
  | .ifFalse => s!"ifFalse {arg1} -> {result}"
  | .goto => s!"goto {result}"
  | .param => s!"param {arg1}"
  | .call => if q.result.isSome then s!"{result} = call {arg1}, {arg2}" else s!"call {arg1}, {arg2}"
  | .ret => if q.arg1.isSome then s!"return {arg1}" else "return"
  | op => s!"{result} = {arg1} {op.text} {arg2}"

def dumpLine (q : Quad) : String :=
  s!"Result: {dumpSlot q.result} Arg1: {dumpSlot q.arg1} Arg2: {dumpSlot q.arg2} Op: {q.op.text}"

end Quad

end Lookahead
