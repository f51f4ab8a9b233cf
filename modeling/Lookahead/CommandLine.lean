import Lookahead.Compiler
import Lookahead.FirstFollow.Document
import Lookahead.Grammar.Text
import Lookahead.Shell

namespace Lookahead.CommandLine

inductive EmitMode
  | tac
  | dump
  | tree
  | table
  | tokens
  | sets
deriving DecidableEq, Repr

def EmitMode.ofName? : String → Option EmitMode
  | "tac" => some .tac
  | "dump" => some .dump
  | "tree" => some .tree
  | "table" => some .table
  | "tokens" => some .tokens
  | "sets" => some .sets
  | _ => none

structure Options where
  source : Option String
  emit : EmitMode
  dumpPath : Option String
  grammar : Option String
  sets : Option String
  entry : String
  verbosity : Nat

def sample : String :=
  "\n".intercalate
    ["# Sum, clamp and count down",
      "def add(int a, int b):",
      "    int s = a + b",
      "    return s",
      "",
      "def clamp(int v, int hi):",
      "    if (v > hi): v = hi",
      "    elif (v < 0): v = 0",
      "",
      "def main():",
      "    int x = 5",
      "    int y = add(x, 10) * 2",
      "    char c = 'k'",
      "    if (x < y && y < 100 || !x):",
      "        y = clamp(y, 20)",
      "    else:",
      "        y--",
      "    while (y > 0):",
      "        y = y - 1",
      "    for (int i = 0; i < 3; i++):",
      "        x = x + i",
      "    do:",
      "        x--",
      "    until (x <= 0)",
      "    add(x, y)",
      ""]

def tokenLine (t : Token) : String :=
  let number := toString t.line
  "".pushn ' ' (4 - number.length) ++ number ++ "  " ++ t.text

def conflictLine (c : Conflict) : String :=
  s!"overwritten: M[{c.rule}, {c.lookahead}] = {c.rule} -> {c.winner.text} (was {c.replaced.text})"

def threshold : Nat → Level
  | 0 => .warn
  | 1 => .info
  | 2 => .debug
  | _ => .trace

section Run

variable {m : Type → Type} [Monad m] [Shell m]

def readFile (path : String) : ExceptT CompileError m String := do
  match ← ExceptT.lift (Shell.readFile path) with
  | .ok text => return text
  | .error reason => throw (.file reason)

def writeFile (path contents : String) : ExceptT CompileError m Unit := do
  match ← ExceptT.lift (Shell.writeFile path contents) with
  | .ok () => return ()
  | .error reason => throw (.file reason)

def print (text : String) : ExceptT CompileError m Unit :=
  ExceptT.lift (Shell.print text)

def printLines (lines : List String) : ExceptT CompileError m Unit :=
  lines.forM fun line => print (line ++ "\n")

namespace Options

def log (o : Options) (records : List Record) : ExceptT CompileError m Unit :=
  records.forM fun r =>
    if (threshold o.verbosity).rank ≤ r.level.rank then ExceptT.lift (Shell.log r.text) else pure ()

def perform {α : Type} (o : Options) (x : Logged α) : ExceptT CompileError m α := do
  o.log x.log
  match x.result with
  | .ok a => return a
  | .error e => throw e

def readSource (o : Options) : ExceptT CompileError m String := do
  match o.source with
  | some path =>
    o.perform (.say .info .commandLine s!"compiling {path}")
    readFile path
  | none =>
    o.perform (.say .info .commandLine "no input file, compiling the built-in sample")
    return sample

def readGrammar (o : Options) : ExceptT CompileError m Grammar := do
  match o.grammar with
  | some path =>
    match Grammar.ofText (← readFile path) with
    | .ok g => return g
    | .error e => throw (.grammar e)
  | none => return .language

def readSets (o : Options) (g : Grammar) : ExceptT CompileError m FirstFollow := do
  match o.sets with
  | some path =>
    match FirstFollow.ofDocument (← readFile path) with
    | some sets => return sets
    | none => throw .document
  | none => o.perform (Compiler.computeSets g)

/-- Compiles, and leaves the dump where it is asked for. -/
def compile (o : Options) (compiler : Compiler) (source : String) :
    ExceptT CompileError m Program := do
  let program ← o.perform (compiler.compile source)
  if let some path := o.dumpPath then
    writeFile path program.dumpText
    o.perform (.say .info .compiler s!"wrote TAC dump to {path}")
  return program

def emitAs (o : Options) (compiler : Compiler) (sets : FirstFollow) (source : String) :
    EmitMode → ExceptT CompileError m Unit
  | .tokens => do
    match tokenize source with
    | .ok tokens => printLines (tokens.map tokenLine)
    | .error e => throw (.parse (.lexical e))
  | .sets => do print ((← o.perform (pure sets.toDocument)) ++ "\n")
  | .table => do
    printLines compiler.table.toLines
    printLines (compiler.table.conflicts.map conflictLine)
  | .tree => do print (← o.perform (compiler.parse source)).render
  | .tac => do printLines (← o.compile compiler source).toAnnotatedLines
  | .dump => do print (← o.compile compiler source).dumpText

def prepare (o : Options) : ExceptT CompileError m (String × FirstFollow × Compiler) := do
  let source ← o.readSource
  let grammar ← o.readGrammar
  let sets ← o.readSets grammar
  let compiler ← o.perform (Compiler.build grammar sets o.entry)
  return (source, sets, compiler)

def run (o : Options) : ExceptT CompileError m Unit := do
  let (source, sets, compiler) ← o.prepare
  o.emitAs compiler sets source o.emit

def main (o : Options) : m Nat := do
  match ← o.run.run with
  | .ok () => return 0
  | .error e =>
    Shell.report s!"Compilation error: {e.message}\n"
    return 1

end Options

end Run

def Options.default : Options := ⟨none, .tac, none, none, none, Compiler.defaultEntry, 0⟩

def Options.set (o : Options) (flag value : String) : Except String Options :=
  match flag with
  | "--emit" =>
    match EmitMode.ofName? value with
    | some mode => .ok { o with emit := mode }
    | none => .error s!"invalid value '{value}' for '--emit'"
  | "--dump" => .ok { o with dumpPath := some value }
  | "--grammar" => .ok { o with grammar := some value }
  | "--first-follow" => .ok { o with sets := some value }
  | "--entry" => .ok { o with entry := value }
  | _ => .error s!"unexpected argument '{flag}'"

def splitFlag (arg : String) : String × Option String :=
  let flag := arg.toList.takeWhile (· ≠ '=')
  match arg.toList.dropWhile (· ≠ '=') with
  | [] => (arg, none)
  | _ :: value => (String.ofList flag, some (String.ofList value))

def isVerbose (arg : String) : Bool :=
  match arg.toList with
  | '-' :: 'v' :: more => more.all (· = 'v')
  | _ => arg = "--verbose"

def verbosityOf (arg : String) : Nat := if arg = "--verbose" then 1 else arg.length - 1

def Options.read (o : Options) : List String → Except String Options
  | [] => .ok o
  | arg :: rest =>
    if isVerbose arg then { o with verbosity := o.verbosity + verbosityOf arg }.read rest
    else if arg.startsWith "--" then
      match splitFlag arg with
      | (flag, some value) =>
        match o.set flag value with
        | .ok o => o.read rest
        | .error e => .error e
      | (flag, none) =>
        match rest with
        | [] => .error s!"a value is required for '{flag}'"
        | value :: rest =>
          match o.set flag value with
          | .ok o => o.read rest
          | .error e => .error e
    else if o.source.isSome then .error s!"unexpected argument '{arg}'"
    else { o with source := some arg }.read rest

end Lookahead.CommandLine
