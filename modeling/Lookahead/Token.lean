import Lookahead.Symbol

namespace Lookahead

structure Token where
  kind : Symbol
  literal : Option String
  line : Nat
deriving DecidableEq, Repr

namespace Token

def eof (line : Nat) : Token := ⟨Symbol.eof, none, line⟩

def text (t : Token) : String :=
  match t.literal with
  | some literal => s!"{t.kind}({literal})"
  | none => t.kind

def describe (t : Token) : String :=
  match t.literal with
  | some literal => s!"{t.kind} '{literal}'"
  | none => t.kind

end Token

/-- Columns count UTF-8 bytes from one. -/
inductive LexicalError
  | unexpectedChar (line column : Nat) (ch : Char) (context : String)
  | inconsistentDedent (line width : Nat)
  | reservedName (line column : Nat) (name : String)
deriving DecidableEq, Repr

namespace LexicalError

def line : LexicalError → Nat
  | unexpectedChar line _ _ _ => line
  | inconsistentDedent line _ => line
  | reservedName line _ _ => line

def message : LexicalError → String
  | unexpectedChar line column ch context =>
    s!"Unexpected character '{ch}' at line {line}, column {column}\n  Context: {context}"
  | inconsistentDedent line width =>
    s!"Inconsistent dedent at line {line}: indentation {width} matches no enclosing block"
  | reservedName line column name =>
    s!"Reserved name '{name}' at line {line}, column {column}: temporaries, parameter slots and " ++
      "generated labels use this form"

end LexicalError

/-- What a reader of tokens is given, one result at a time: the items in order, then the end
marker at `eofLine` as often as asked. Reading may go on after an error. -/
structure TokenStream where
  items : List (Except LexicalError Token)
  eofLine : Nat

namespace TokenStream

def ofTokens (tokens : List Token) : TokenStream where
  items := tokens.map .ok
  eofLine := (tokens.getLast?.map (·.line)).getD 1

def next (s : TokenStream) : Except LexicalError Token × TokenStream :=
  match s.items with
  | [] => (.ok (.eof s.eofLine), s)
  | item :: rest => (item, { s with items := rest })

def take (s : TokenStream) (count : Nat) : List (Except LexicalError Token) :=
  s.items.take count ++ List.replicate (count - s.items.length) (.ok (.eof s.eofLine))

def prepend (items : List (Except LexicalError Token)) (s : TokenStream) : TokenStream :=
  { s with items := items ++ s.items }

end TokenStream

end Lookahead
