import Lookahead.Code.Program
import Lookahead.Lowering.Shape

namespace Lookahead

namespace Lowering

structure Scope where
  name : String
  start : Nat
  hasReturn : Bool
deriving DecidableEq, Repr

inductive Note
  | entered (function : String)
  | defaultReturn (function : String) (value : Operand)
deriving DecidableEq, Repr

/-- `temps` and `labels` count the names given out so far. New code is put down to `line` and
`component`. The newest note comes first. -/
structure State where
  program : Program
  temps : Nat
  labels : Nat
  scope : Option Scope
  line : Option Nat
  component : Option Component
  notes : List Note

def State.initial : State := ⟨.empty, 0, 0, none, none, none, []⟩

end Lowering

/-- Failing keeps the state: what was emitted before stays emitted. -/
abbrev Lowering := ExceptT LoweringError (StateM Lowering.State)

namespace Lowering

def newTemp : Lowering Operand :=
  modifyGet fun s => (.temp s.temps, { s with temps := s.temps + 1 })

def newLabel : Lowering String :=
  modifyGet fun s => (s!"L{s.labels}", { s with labels := s.labels + 1 })

def emit (q : Quad) : Lowering Unit :=
  modify fun s => { s with program := s.program.emit q ⟨s.line, s.component⟩ }

def note (n : Note) : Lowering Unit :=
  modify fun s => { s with notes := n :: s.notes }

/-- Puts the code of `act` down to the first line below `t`, if there is one. -/
def withLine {α : Type} (t : Tree) (act : Lowering α) : Lowering α := fun s =>
  let (result, s') := act { s with line := t.firstLine <|> s.line }
  (result, { s' with line := s.line })

def withComponent {α : Type} (component : Component) (act : Lowering α) : Lowering α := fun s =>
  let (result, s') := act { s with component := some component }
  (result, { s' with component := s.component })

def emitGlue (q : Quad) : Lowering Unit := withComponent .glue (emit q)

end Lowering

end Lookahead
