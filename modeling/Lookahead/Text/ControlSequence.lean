namespace Lookahead.Text.ControlSequence

/-- Where a text stands: outside any control sequence, or in a part of one. A device control string
has a head of parameters; its data, like that of other strings for a device, is a payload. -/
inductive Mode
  | text
  | escape
  | intermediate
  | control
  | deviceEntry
  | deviceParam
  | deviceIntermediate
  | payload
  | command
deriving DecidableEq, Repr

def isBetween (low high c : Char) : Bool := low ≤ c && c ≤ high

def isLayout (c : Char) : Bool := c == '\t' || c == '\n' || c == '\x0c' || c == '\r'

def isPlain (c : Char) : Bool := isLayout c || (' ' ≤ c && c != '\x7f')

def isAscii (c : Char) : Bool := c.toNat < 0x80

/-- A payload ends at the byte `9C`, also inside a longer character. -/
def endsPayload (c : Char) : Bool := (String.utf8EncodeChar c).contains 0x9C

def afterEscape (c : Char) : Mode :=
  if c = '[' then .control
  else if c = ']' then .command
  else if c = 'P' then .deviceEntry
  else if c = 'X' || c = '^' || c = '_' then .payload
  else if isBetween ' ' '/' c then .intermediate
  else if isBetween '0' '~' c then .text
  else .escape

namespace Mode

def advance (m : Mode) (c : Char) : Mode :=
  match m with
  | text => text
  | escape => afterEscape c
  | intermediate => if isBetween '0' '~' c then text else m
  | control => if isBetween '@' '~' c then text else m
  | deviceEntry =>
    if isBetween ' ' '/' c then deviceIntermediate
    else if isBetween '0' '?' c then deviceParam
    else if isBetween '@' '~' c then payload
    else m
  | deviceParam =>
    if isBetween ' ' '/' c then deviceIntermediate
    else if isBetween '<' '~' c then payload
    else m
  | deviceIntermediate => if isBetween '0' '~' c then payload else m
  | payload => if endsPayload c then text else m
  | command => if c = '\x07' then text else m

/-- Cancelling and escaping are the same in every mode. -/
def next (m : Mode) (c : Char) : Mode :=
  if c = '\x18' || c = '\x1a' then text
  else if c = '\x1b' then escape
  else m.advance c

def shows (m : Mode) (c : Char) : Bool :=
  match m with
  | text => isPlain c
  | escape | intermediate | control => isLayout c
  | _ => false

end Mode

/-- The characters that are shown. Layout inside a sequence suspends it: what is plain is shown
up to the next control character, where the sequence goes on, unless a character beyond ASCII
has ended it. -/
def shown (m : Mode) (suspended : Bool) : List Char → List Char
  | [] => []
  | c :: rest =>
    if suspended && isPlain c then c :: shown (if isAscii c then m else .text) true rest
    else if m.shows c then c :: shown (m.next c) true rest
    else shown (m.next c) false rest

def strip (text : String) : String := String.ofList (shown .text false text.toList)

end Lookahead.Text.ControlSequence
