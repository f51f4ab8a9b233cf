import Lookahead.Symbol

namespace Lookahead

inductive Terminal
  | kwDef | kwIf | kwElif | kwElse | kwWhile | kwFor | kwDo | kwUntil | kwReturn | kwInt | kwChar
  | ident | number | charLit
  | eqEq | ne | le | ge | lt | gt | and | or | not | inc | dec
  | assign | plus | minus | star | slash | percent
  | lparen | rparen | colon | comma | semi
  | newline | blockBegin | blockEnd | eof
deriving DecidableEq, Repr

namespace Terminal

def name : Terminal → Symbol
  | kwDef => "DEF"
  | kwIf => "IF"
  | kwElif => "ELIF"
  | kwElse => "ELSE"
  | kwWhile => "WHILE"
  | kwFor => "FOR"
  | kwDo => "DO"
  | kwUntil => "UNTIL"
  | kwReturn => "RETURN"
  | kwInt => "INT"
  | kwChar => "CHAR"
  | ident => "ID"
  | number => "NUM"
  | charLit => "CHARLIT"
  | eqEq => "EQEQ"
  | ne => "NE"
  | le => "LE"
  | ge => "GE"
  | lt => "LT"
  | gt => "GT"
  | and => "AND"
  | or => "OR"
  | not => "NOT"
  | inc => "INC"
  | dec => "DEC"
  | assign => "EQ"
  | plus => "PLUS"
  | minus => "MINUS"
  | star => "STAR"
  | slash => "SLASH"
  | percent => "PERCENT"
  | lparen => "LPAREN"
  | rparen => "RPAREN"
  | colon => "COLON"
  | comma => "COMMA"
  | semi => "SEMI"
  | newline => "NEWLINE"
  | blockBegin => "BEGIN"
  | blockEnd => "END"
  | eof => Symbol.eof

def all : List Terminal :=
  [kwDef, kwIf, kwElif, kwElse, kwWhile, kwFor, kwDo, kwUntil, kwReturn, kwInt, kwChar, ident,
    number, charLit, eqEq, ne, le, ge, lt, gt, and, or, not, inc, dec, assign, plus, minus, star,
    slash, percent, lparen, rparen, colon, comma, semi, newline, blockBegin, blockEnd, eof]

def ofName? (s : Symbol) : Option Terminal :=
  all.find? (·.name = s)

theorem ofName?_name (t : Terminal) : ofName? t.name = some t := by
  cases t <;> decide +kernel

end Terminal

end Lookahead
