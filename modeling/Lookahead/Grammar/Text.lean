import Lookahead.Grammar.Basic
import Lookahead.Text.Blank
import Lookahead.Text.Lines

namespace Lookahead

open Text

def Text.splitArrow : List Char → Option (List Char × List Char)
  | [] => none
  | '-' :: '>' :: rest => some ([], rest)
  | c :: rest => (splitArrow rest).map fun (left, right) => (c :: left, right)

namespace Rule

def text (r : Rule) : String :=
  s!"{r.name} -> " ++ " | ".intercalate (r.productions.map Production.text)

def readAlternatives (name : Symbol) (body : List Char) : Except LineFault (List Production) :=
  (body.splitOn '|').mapM fun alternative =>
    match words alternative with
    | [] => .error (.emptyAlternative name)
    | symbols => .ok (symbols.map String.ofList)

/-- A line starting with a bar continues the rule `current`; any other names its rule. -/
def readLine (current : Option Symbol) (content : List Char) : Except LineFault Rule :=
  match content with
  | '|' :: body =>
    match current with
    | none => .error .orphanContinuation
    | some name => return ⟨name, ← readAlternatives name body⟩
  | _ =>
    match splitArrow content with
    | none => .error (.missingArrow (String.ofList content))
    | some (left, body) => do
      let name := trim left
      if name.isEmpty || name.any isBlank then throw (.invalidName (String.ofList name))
      let symbol := String.ofList name
      return ⟨symbol, ← readAlternatives symbol body⟩

end Rule

namespace Grammar

/-- The part of a line before its comment, without the blanks around it. -/
def content (line : List Char) : List Char :=
  trim (line.takeWhile (· ≠ '#'))

def readLines (current : Option Symbol) :
    List (Nat × List Char) → Except GrammarError (List Rule)
  | [] => .ok []
  | (number, line) :: rest =>
    if (content line).isEmpty then readLines current rest
    else
      match Rule.readLine current (content line) with
      | .error fault => .error (.malformed number fault)
      | .ok rule => return rule :: (← readLines (some rule.name) rest)

/-- One rule a line, `Name -> A B | c | EPSILON`; a line that starts with a bar goes on with the
rule before it, and a hash starts a comment. -/
def ofText (text : String) : Except GrammarError Grammar := do
  ofRules (← readLines none (numberedLines text.toList))

def toLines (g : Grammar) : List String :=
  g.rules.map Rule.text

end Grammar

end Lookahead
