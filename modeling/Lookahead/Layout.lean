import Lookahead.Lexeme
import Lookahead.Text.Blank
import Lookahead.Text.Lines
import Lookahead.Token

namespace Lookahead.Layout

def tabWidth : Nat := 4

def isIndent (c : Char) : Bool := c == ' ' || c == '\t'

/-- A tab reaches to the next multiple of the tab width. -/
def advance (width : Nat) (c : Char) : Nat :=
  if c = '\t' then width + (tabWidth - width % tabWidth) else width + 1

def indentWidth (line : List Char) : Nat :=
  (line.takeWhile isIndent).foldl advance 0

/-- Lines without code: white space alone, or a comment after the indentation. -/
def isSkipped (line : List Char) : Bool :=
  let content := line.dropWhile isIndent
  content.all Text.isBlank || content.head? == some '#'

/-- The widths of the open blocks, innermost first. Around them all lies the outermost level,
whose width is zero. -/
abbrev Blocks := List Nat

def Blocks.width (blocks : Blocks) : Nat := blocks.headD 0

def marker (kind : Terminal) (line : Nat) : Token := ⟨kind.name, none, line⟩

/-- The block markers that a line of the given width calls for, and the blocks open after them. -/
def settle (blocks : Blocks) (line width : Nat) : List Token × Blocks :=
  if blocks.width < width then ([marker .blockBegin line], width :: blocks)
  else
    let kept := blocks.dropWhile (width < ·)
    (List.replicate (blocks.length - kept.length) (marker .blockEnd line), kept)

def lexicalError (number : Nat) (line : List Char) (stop : Lexeme.Stop) : LexicalError :=
  let column := Text.utf8Length line - Text.utf8Length stop.rest + 1
  match stop.fault with
  | .unexpected ch => .unexpectedChar number column ch (String.ofList (Text.trim line))
  | .reserved name => .reservedName number column name

/-- What a line that is not skipped adds: its error if it has one, its tokens, which end before the
error, and the blocks open after it. -/
def readLine (blocks : Blocks) (number : Nat) (line : List Char) :
    Option LexicalError × List Token × Blocks :=
  let width := indentWidth line
  let (markers, blocks) := settle blocks number width
  if blocks.width ≠ width then (some (.inconsistentDedent number width), markers, blocks)
  else
    let (lexemes, stop?) := Lexeme.ofLine (line.dropWhile isIndent)
    let tokens := markers ++ lexemes.map fun l => ⟨l.kind.name, l.literal, number⟩
    match stop? with
    | some stop => (some (lexicalError number line stop), tokens, blocks)
    | none => (none, tokens ++ [marker .newline number], blocks)

end Lookahead.Layout
