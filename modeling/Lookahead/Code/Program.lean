import Lookahead.Code.Quad
import Lookahead.Code.SourceMap

namespace Lookahead

/-- Code with a line of its dump and a place in the source for each instruction. -/
structure Program where
  code : Array Quad
  dump : Array String
  sourceMap : SourceMap
deriving DecidableEq, Repr

/-- The code of one function, from its label to its end label. -/
structure FunctionSlice where
  name : String
  start : Nat
  code : List Quad
deriving DecidableEq, Repr

namespace Program

def empty : Program := ⟨#[], #[], .empty⟩

def size (p : Program) : Nat := p.code.size

def emit (p : Program) (q : Quad) (provenance : Provenance) : Program :=
  ⟨p.code.push q, p.dump.push q.dumpLine, p.sourceMap.insert p.code.size provenance⟩

def toLines (p : Program) : List String := p.code.toList.map Quad.text

def annotationColumn : Nat := 28

def padRight (width : Nat) (s : String) : String := s.pushn ' ' (width - s.length)

def annotate (line? : Option Nat) (q : Quad) : String :=
  match line? with
  | some line => s!"{padRight annotationColumn q.text} ; line {line}"
  | none => q.text

def toAnnotatedLines (p : Program) : List String :=
  p.code.toList.zipIdx.map fun (q, i) => annotate (p.sourceMap.lineOf? i) q

def dumpText (p : Program) : String :=
  let text := "\n".intercalate p.dump.toList
  if text.isEmpty then text else text ++ "\n"

def endLabel (name : String) : String := "end_" ++ name

/-- Name, start and length of each stretch from a label to its end label. A label inside an open
stretch opens none of its own. -/
def brackets : Option (String × Nat) → Nat → List Quad → List (String × Nat × Nat)
  | _, _, [] => []
  | opened, i, q :: rest =>
    match q.labelName?, opened with
    | none, _ => brackets opened (i + 1) rest
    | some label, none => brackets (some (label, i)) (i + 1) rest
    | some label, some (name, start) =>
      if label = endLabel name then (name, start, i + 1 - start) :: brackets none (i + 1) rest
      else brackets opened (i + 1) rest

def functions (p : Program) : List FunctionSlice :=
  (brackets none 0 p.code.toList).map fun (name, start, length) =>
    ⟨name, start, (p.code.toList.drop start).take length⟩

end Program

end Lookahead
