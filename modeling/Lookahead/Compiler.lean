import Lookahead.Grammar.Language
import Lookahead.Log
import Lookahead.Lowering.Stmt
import Lookahead.Scanner

namespace Lookahead

/-- A grammar with its table, ready for any number of sources. The function called `entry` may end
without a return. -/
structure Compiler where
  grammar : Grammar
  table : Table
  entry : String

namespace Conflict

def message (c : Conflict) : String :=
  s!"grammar is not LL(1): cell ({c.rule}, {c.lookahead}) '{c.replaced.text}' replaced by " ++
    s!"'{c.winner.text}'"

end Conflict

namespace Derivation

def Step.message : Step → String
  | expand rule production lookahead => s!"expand {rule} -> {production.text} on {lookahead}"
  | matched kind line => s!"match {kind} at line {line}"

def expansions (steps : List Step) : Nat :=
  steps.countP fun
    | .expand .. => true
    | .matched .. => false

end Derivation

def Lowering.Note.message : Lowering.Note → String
  | entered function => s!"lowering function '{function}'"
  | defaultReturn function value =>
    s!"'{function}' has no return; synthesizing 'return {value.text}'"

namespace Compiler

open Logged

def defaultEntry : String := "main"

def computeSets (g : Grammar) : Logged FirstFollow := do
  let sets := FirstFollow.compute g
  say .debug .sets <|
    s!"computed FIRST for {sets.first.size} symbols and FOLLOW for {sets.follow.size} non-terminals"
  return sets

def fillTable (g : Grammar) (sets : FirstFollow) : Logged Table :=
  let (table, error?) := Table.fill g sets
  { result := match error? with
      | some e => .error (.grammar e)
      | none => .ok table
    log := table.conflicts.map fun c => ⟨.warn, .table, c.message⟩ }

def build (g : Grammar) (sets : FirstFollow) (entry : String) : Logged Compiler := do
  let table ← fillTable g sets
  let conflicts := table.conflicts.length
  say .debug .table <|
    s!"parsing table built: {table.size} cells over {table.rules.length} non-terminals, " ++
      s!"{conflicts} overwritten"
  say .info .compiler s!"parsing table ready: {table.size} cells, {conflicts} overwritten"
  return ⟨g, table, entry⟩

def language (entry : String) : Logged Compiler := do
  build .language (← computeSets .language) entry

def derive (c : Compiler) (stream : TokenStream) : Logged Tree :=
  let outcome := Derivation.parse c.table c.grammar.start stream
  let steps := outcome.steps.map fun step => ⟨.trace, .derivation, step.message⟩
  match outcome.result with
  | .error e => ⟨.error (.parse e), steps⟩
  | .ok tree =>
    let expansions := Derivation.expansions outcome.steps
    ⟨.ok tree, steps ++ [⟨.debug, .derivation,
      s!"parse finished: {expansions} expansions, {tree.size} tree nodes"⟩]⟩

def parse (c : Compiler) (source : String) : Logged Tree := do
  let tree ← c.derive (.scan source)
  say .info .compiler s!"parsed {tree.size} tree nodes"
  return tree

def lower (c : Compiler) (tree : Tree) : Logged Program :=
  let (result, notes) := Lowering.lower c.entry tree
  let log := notes.map fun note => ⟨.debug, .function, note.message⟩
  match result with
  | .error e => ⟨.error (.lowering e), log⟩
  | .ok program =>
    ⟨.ok program, log ++ [⟨.debug, .program,
      s!"lowered {program.functions.length} functions to {program.size} instructions"⟩]⟩

def compile (c : Compiler) (source : String) : Logged Program := do
  let tree ← c.parse source
  let program ← c.lower tree
  say .info .compiler s!"generated {program.size} TAC instructions"
  return program

end Compiler

end Lookahead
