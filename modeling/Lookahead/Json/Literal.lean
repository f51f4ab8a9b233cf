namespace Lookahead.Json

/-- What a string literal is made of: characters, and UTF-16 code units given by number. -/
inductive Item
  | char (c : Char)
  | unit (value : Nat)
deriving DecidableEq, Repr

def hexValue? (c : Char) : Option Nat :=
  if '0' ≤ c ∧ c ≤ '9' then some (c.toNat - '0'.toNat)
  else if 'a' ≤ c ∧ c ≤ 'f' then some (c.toNat - 'a'.toNat + 10)
  else if 'A' ≤ c ∧ c ≤ 'F' then some (c.toNat - 'A'.toNat + 10)
  else none

def hexUnit? (a b c d : Char) : Option Nat := do
  return (((← hexValue? a) * 16 + (← hexValue? b)) * 16 + (← hexValue? c)) * 16 + (← hexValue? d)

def escaped? : Char → Option Char
  | '"' => some '"'
  | '\\' => some '\\'
  | '/' => some '/'
  | 'b' => some '\x08'
  | 'f' => some '\x0c'
  | 'n' => some '\n'
  | 'r' => some '\r'
  | 't' => some '\t'
  | _ => none

def isControl (c : Char) : Bool := c.toNat < 0x20

def prependItem (item : Item) (tail : Option (List Item × List Char)) :
    Option (List Item × List Char) :=
  tail.map fun (items, rest) => (item :: items, rest)

def readLiteral : List Char → Option (List Item × List Char)
  | [] => none
  | '"' :: rest => some ([], rest)
  | '\\' :: 'u' :: a :: b :: c :: d :: rest =>
    match hexUnit? a b c d with
    | some value => prependItem (.unit value) (readLiteral rest)
    | none => none
  | '\\' :: c :: rest =>
    match escaped? c with
    | some c => prependItem (.char c) (readLiteral rest)
    | none => none
  | c :: rest =>
    if isControl c || c == '\\' then none else prependItem (.char c) (readLiteral rest)

def isHighSurrogate (u : Nat) : Bool := 0xD800 ≤ u && u < 0xDC00

def isLowSurrogate (u : Nat) : Bool := 0xDC00 ≤ u && u < 0xE000

def isSurrogate (u : Nat) : Bool := isHighSurrogate u || isLowSurrogate u

def ofSurrogates (high low : Nat) : Char :=
  Char.ofNat (0x10000 + (high - 0xD800) * 0x400 + (low - 0xDC00))

/-- The text of a literal. Surrogates have to come in pairs. -/
def decode : List Item → Option (List Char)
  | [] => some []
  | .char c :: rest => (decode rest).map (c :: ·)
  | .unit high :: .unit low :: rest =>
    if isHighSurrogate high && isLowSurrogate low then
      (decode rest).map (ofSurrogates high low :: ·)
    else if isSurrogate high then none
    else (decode (.unit low :: rest)).map (Char.ofNat high :: ·)
  | .unit u :: rest => if isSurrogate u then none else (decode rest).map (Char.ofNat u :: ·)

def hexDigit (n : Nat) : Char := Nat.digitChar (n % 16)

/-- Quotes, backslashes and control characters are escaped, all else stands for itself. -/
def escape (c : Char) : List Char :=
  if c = '"' then ['\\', '"']
  else if c = '\\' then ['\\', '\\']
  else if c = '\x08' then ['\\', 'b']
  else if c = '\t' then ['\\', 't']
  else if c = '\n' then ['\\', 'n']
  else if c = '\x0c' then ['\\', 'f']
  else if c = '\r' then ['\\', 'r']
  else if isControl c then ['\\', 'u', '0', '0', hexDigit (c.toNat / 16), hexDigit c.toNat]
  else [c]

def quote (s : String) : List Char := '"' :: s.toList.flatMap escape ++ ['"']

theorem eq_some_of_prependItem {item : Item} {tail : Option (List Item × List Char)}
    {items : List Item} {rest : List Char} (h : prependItem item tail = some (items, rest)) :
    ∃ more, tail = some (more, rest) := by
  obtain ⟨⟨more, r⟩, htail, heq⟩ := Option.map_eq_some_iff.1 h
  cases heq
  exact ⟨more, htail⟩

theorem readLiteral_length_lt {cs rest : List Char} {items : List Item}
    (h : readLiteral cs = some (items, rest)) : rest.length < cs.length := by
  fun_induction readLiteral cs generalizing items with
  | case1 => contradiction
  | case2 tail => cases h; simp
  | case3 a b c d tail value hvalue ih =>
    obtain ⟨more, htail⟩ := eq_some_of_prependItem h
    have := ih htail
    simp only [List.length_cons]; omega
  | case4 => contradiction
  | case5 c tail _ c' hc ih =>
    obtain ⟨more, htail⟩ := eq_some_of_prependItem h
    have := ih htail
    simp only [List.length_cons]; omega
  | case6 => contradiction
  | case7 => contradiction
  | case8 c tail _ _ _ _ ih =>
    obtain ⟨more, htail⟩ := eq_some_of_prependItem h
    have := ih htail
    simp only [List.length_cons]; omega

end Lookahead.Json
