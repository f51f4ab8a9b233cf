import Lookahead.Derivation
import Lookahead.Lowering.Shape

namespace Lookahead

inductive CompileError
  | parse (error : ParseError)
  | grammar (error : GrammarError)
  | lowering (error : LoweringError)
  | document
  | file (reason : String)
deriving DecidableEq, Repr

namespace CompileError

def message : CompileError → String
  | parse (.lexical e) => s!"Lexical error: {e.message}"
  | parse (.rejected e) => e.message
  | parse .endless => "Grammar error: the derivation does not end"
  | grammar e => s!"Grammar error: {e.message}"
  | lowering e => s!"Internal lowering error: {e.message}"
  | document => "FIRST/FOLLOW document: malformed"
  | file reason => s!"I/O error: {reason}"

def line? : CompileError → Option Nat
  | parse (.lexical e) => some e.line
  | parse (.rejected e) => some e.line
  | _ => none

end CompileError

end Lookahead
