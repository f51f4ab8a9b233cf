import Lookahead.Table
import Lookahead.Token
import Lookahead.Tree

namespace Lookahead

inductive SyntaxError
  | mismatch (expected : Symbol) (found : Token)
  | noProduction (rule : Symbol) (found : Token)
deriving DecidableEq, Repr

namespace SyntaxError

def kind : SyntaxError → String
  | mismatch _ _ => "TerminalMismatch"
  | noProduction _ _ => "NoProduction"

def line : SyntaxError → Nat
  | mismatch _ found => found.line
  | noProduction _ found => found.line

def detail : SyntaxError → String
  | mismatch expected found => s!"expected {expected}, found {found.describe}"
  | noProduction rule found => s!"no production for token {found.describe} while expanding {rule}"

def message (e : SyntaxError) : String := s!"SyntaxError:{e.kind} (line {e.line}) - {e.detail}"

end SyntaxError

/-- Why a derivation ends without a tree. It is `endless` if it would open rules for ever. -/
inductive ParseError
  | lexical (error : LexicalError)
  | rejected (error : SyntaxError)
  | endless
deriving DecidableEq, Repr

namespace Derivation

inductive Step
  | expand (rule : Symbol) (production : Production) (lookahead : Symbol)
  | matched (kind : Symbol) (line : Nat)
deriving DecidableEq, Repr

/-- Where a derivation stands: the token it looks at, those behind it, how often it asked for
one, how many nodes it has made, and its steps, the newest first. -/
structure Cursor where
  lookahead : Token
  stream : TokenStream
  pulled : Nat
  size : Nat
  steps : List Step

end Derivation

/-- Failing keeps the cursor. -/
abbrev Derivation := ExceptT ParseError (StateM Derivation.Cursor)

namespace Derivation

def record (step : Step) : Derivation Unit :=
  modify fun c => { c with steps := step :: c.steps }

def pull : Derivation Unit := do
  let c ← get
  let (item, stream) := c.stream.next
  set { c with stream, pulled := c.pulled + 1 }
  match item with
  | .ok token => modify fun c => { c with lookahead := token }
  | .error e => throw (.lexical e)

/-- Makes room for a row of new nodes and gives the first of their identifiers. -/
def allocate (count : Nat) : Derivation Nat :=
  modifyGet fun c => (c.size, { c with size := c.size + count })

/-- Derives the symbols of a production in order. `EPSILON` becomes a leaf at once. -/
def deriveAll (derive : Symbol → Nat → Derivation Tree) :
    List Symbol → Nat → Derivation (List Tree)
  | [], _ => return []
  | s :: rest, id => do
    let t ← if s = Symbol.epsilon then pure (Tree.leaf id s) else derive s id
    return t :: (← deriveAll derive rest (id + 1))

/-- Derives one symbol from the tokens ahead, in a tree of at most `depth` levels. A symbol that
is the kind of the next token is matched with it, whether it names a rule or not. -/
def derive (table : Table) : Nat → Symbol → Nat → Derivation Tree
  | 0, _, _ => throw .endless
  | depth + 1, symbol, id => do
    let token := (← get).lookahead
    if symbol = token.kind then
      record (.matched token.kind token.line)
      pull
      return .node ⟨id, symbol, token.literal, some token.line⟩ []
    if !table.isRule symbol then
      throw (.rejected (.mismatch symbol token))
    match table.lookup symbol token.kind with
    | none => throw (.rejected (.noProduction symbol token))
    | some p =>
      record (.expand symbol p token.kind)
      let first ← allocate p.length
      let children ← deriveAll (derive table depth) p first
      return .node ⟨id, symbol, none, none⟩ children

/-- No path of a finite derivation is longer. Of two nodes of one rule on a path, with the same
number of items read before them, the lower would come again below itself for ever; and beyond
the items the end marker stays as it is. -/
def depthBound (table : Table) (stream : TokenStream) : Nat :=
  (stream.items.length + 2) * (table.rules.length + 1)

structure Outcome where
  result : Except ParseError Tree
  pulled : Nat
  steps : List Step

/-- Derives `start` from the stream. The root has number zero and the start symbol one. -/
def parse (table : Table) (start : Symbol) (stream : TokenStream) : Outcome :=
  match stream.next with
  | (.error e, _) => ⟨.error (.lexical e), 1, []⟩
  | (.ok token, rest) =>
    let (result, c) := derive table (depthBound table stream) start 1 ⟨token, rest, 1, 2, []⟩
    ⟨result.map Tree.rooted, c.pulled, c.steps.reverse⟩

end Derivation

end Lookahead
