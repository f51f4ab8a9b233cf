namespace Lookahead

/-- The part of a control-flow construct that an instruction belongs to. -/
inductive Component
  | condition
  | thenBranch
  | elseBranch
  | loopBody
  | glue
deriving DecidableEq, Repr

structure Provenance where
  line : Option Nat
  component : Option Component
deriving DecidableEq, Repr

def Provenance.unknown : Provenance := ⟨none, none⟩

structure SourceMap where
  entries : Array Provenance
deriving DecidableEq, Repr

namespace SourceMap

def empty : SourceMap := ⟨#[]⟩

def size (m : SourceMap) : Nat := m.entries.size

/-- Indices skipped on the way get an unknown provenance. -/
def insert (m : SourceMap) (i : Nat) (p : Provenance) : SourceMap :=
  ⟨(m.entries ++ Array.replicate (i + 1 - m.entries.size) Provenance.unknown).setIfInBounds i p⟩

def get? (m : SourceMap) (i : Nat) : Option Provenance := m.entries[i]?

def lineOf? (m : SourceMap) (i : Nat) : Option Nat := (m.get? i).bind (·.line)

def indicesWhere (m : SourceMap) (p : Provenance → Bool) : List Nat :=
  (m.entries.toList.zipIdx.filter (p ·.1)).map (·.2)

def forLine (m : SourceMap) (line : Nat) : List Nat :=
  m.indicesWhere (·.line = some line)

def forComponent (m : SourceMap) (component : Component) : List Nat :=
  m.indicesWhere (·.component = some component)

/-- Adds an index behind the others of its line. The lines stay in increasing order. -/
def addToGroup (line i : Nat) : List (Nat × List Nat) → List (Nat × List Nat)
  | [] => [(line, [i])]
  | (l, indices) :: rest =>
    if line < l then (line, [i]) :: (l, indices) :: rest
    else if line = l then (l, indices ++ [i]) :: rest
    else (l, indices) :: addToGroup line i rest

def addEntry (groups : List (Nat × List Nat)) (entry : Provenance × Nat) :
    List (Nat × List Nat) :=
  match entry.1.line with
  | some line => addToGroup line entry.2 groups
  | none => groups

def byLine (m : SourceMap) : List (Nat × List Nat) :=
  m.entries.toList.zipIdx.foldl addEntry []

end SourceMap

end Lookahead
