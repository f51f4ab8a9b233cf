import Lookahead.Terminal

namespace Lookahead

structure Lexeme where
  kind : Terminal
  literal : Option String
deriving DecidableEq, Repr

namespace Lexeme

def isWordStart (c : Char) : Bool := c.isAlpha || c == '_'

def isWordChar (c : Char) : Bool := c.isAlphanum || c == '_'

/-- Blanks that may stand between the lexemes of a line. -/
def isGap (c : Char) : Bool := c == ' ' || c == '\t' || c == '\r'

def keywordTexts : List (List Char × Terminal) :=
  [(['d', 'e', 'f'], .kwDef), (['i', 'f'], .kwIf), (['e', 'l', 'i', 'f'], .kwElif),
    (['e', 'l', 's', 'e'], .kwElse), (['w', 'h', 'i', 'l', 'e'], .kwWhile),
    (['f', 'o', 'r'], .kwFor), (['d', 'o'], .kwDo), (['u', 'n', 't', 'i', 'l'], .kwUntil),
    (['r', 'e', 't', 'u', 'r', 'n'], .kwReturn), (['i', 'n', 't'], .kwInt),
    (['c', 'h', 'a', 'r'], .kwChar), (['n', 'o', 't'], .not)]

-- Of two operators that begin alike the longer one comes first.
def operatorTexts : List (List Char × Terminal) :=
  [(['=', '='], .eqEq), (['!', '='], .ne), (['<', '='], .le), (['>', '='], .ge),
    (['&', '&'], .and), (['|', '|'], .or), (['+', '+'], .inc), (['-', '-'], .dec), (['<'], .lt),
    (['>'], .gt), (['!'], .not), (['='], .assign), (['+'], .plus), (['-'], .minus),
    (['*'], .star), (['/'], .slash), (['%'], .percent), (['('], .lparen), ([')'], .rparen),
    ([':'], .colon), ([','], .comma), ([';'], .semi)]

def keyword? (word : List Char) : Option Terminal :=
  (keywordTexts.find? (·.1 = word)).map (·.2)

def operator? (cs : List Char) : Option (Terminal × List Char) :=
  (operatorTexts.find? (·.1.isPrefixOf cs)).map fun e => (e.2, cs.drop e.1.length)

def ofWord (word : List Char) : Lexeme :=
  match keyword? word with
  | some kind => ⟨kind, none⟩
  | none => ⟨.ident, some (String.ofList word)⟩

/-- A character literal holds one character other than a quote, a backslash or a line feed. -/
def isLiteralChar (c : Char) : Bool := c != '\'' && c != '\\' && c != '\n'

def charLit? : List Char → Option (Lexeme × List Char)
  | '\'' :: c :: '\'' :: rest =>
    if isLiteralChar c then some (⟨.charLit, some (String.singleton c)⟩, rest) else none
  | _ => none

def read? : List Char → Option (Lexeme × List Char)
  | [] => none
  | c :: rest =>
    if isWordStart c then some (ofWord (c :: rest.takeWhile isWordChar), rest.dropWhile isWordChar)
    else if c.isDigit then
      some (⟨.number, some (String.ofList (c :: rest.takeWhile Char.isDigit))⟩,
        rest.dropWhile Char.isDigit)
    else if c = '\'' then charLit? (c :: rest)
    else (operator? (c :: rest)).map fun (kind, rest) => (⟨kind, none⟩, rest)

theorem length_dropWhile_le (p : Char → Bool) (cs : List Char) :
    (cs.dropWhile p).length ≤ cs.length :=
  (List.dropWhile_suffix p).sublist.length_le

theorem operator?_eq_some {cs rest : List Char} {kind : Terminal}
    (h : operator? cs = some (kind, rest)) :
    ∃ text, (text, kind) ∈ operatorTexts ∧ cs = text ++ rest := by
  obtain ⟨⟨text, kind'⟩, hfind, heq⟩ := Option.map_eq_some_iff.1 h
  have hprefix := List.find?_some hfind
  obtain ⟨more, rfl⟩ := List.isPrefixOf_iff_prefix.1 hprefix
  simp only [List.drop_left, Prod.mk.injEq] at heq
  obtain ⟨rfl, rfl⟩ := heq
  exact ⟨text, List.mem_of_find?_eq_some hfind, rfl⟩

theorem operator?_length_lt {cs rest : List Char} {kind : Terminal}
    (h : operator? cs = some (kind, rest)) : rest.length < cs.length := by
  obtain ⟨text, htext, rfl⟩ := operator?_eq_some h
  have hne : operatorTexts.all fun e => 0 < e.1.length := by decide
  have hpos : 0 < text.length := of_decide_eq_true (List.all_eq_true.1 hne _ htext)
  rw [List.length_append]
  omega

theorem charLit?_length_lt {cs rest : List Char} {lexeme : Lexeme}
    (h : charLit? cs = some (lexeme, rest)) : rest.length < cs.length := by
  unfold charLit? at h
  split at h
  · split at h
    · cases h; simp only [List.length_cons]; omega
    · contradiction
  · contradiction

theorem read?_length_lt {cs rest : List Char} {lexeme : Lexeme}
    (h : read? cs = some (lexeme, rest)) : rest.length < cs.length := by
  cases cs with
  | nil => contradiction
  | cons c cs =>
    simp only [read?] at h
    split at h
    · cases h; exact Nat.lt_succ_of_le (length_dropWhile_le _ _)
    split at h
    · cases h; exact Nat.lt_succ_of_le (length_dropWhile_le _ _)
    split at h
    · exact charLit?_length_lt h
    · obtain ⟨⟨kind, tail⟩, hop, heq⟩ := Option.map_eq_some_iff.1 h
      cases heq
      exact operator?_length_lt hop

/-- Names of this form are kept for temporaries, parameter slots and generated labels. -/
def isReserved (name : List Char) : Bool :=
  [['t'], ['p', 'a', 'r', 'a', 'm'], ['L']].any fun stem =>
    stem.isPrefixOf name && (let digits := name.drop stem.length
      !digits.isEmpty && digits.all Char.isDigit)

inductive Fault
  | unexpected (ch : Char)
  | reserved (name : String)
deriving DecidableEq, Repr

/-- A fault with the text from the faulty place to the end of the line. -/
structure Stop where
  fault : Fault
  rest : List Char

def fault? (lexeme : Lexeme) : Option Fault :=
  match lexeme with
  | ⟨.ident, some name⟩ => if isReserved name.toList then some (.reserved name) else none
  | _ => none

/-- The lexemes of a line up to its end, its comment or its first fault. -/
def ofLine (cs : List Char) : List Lexeme × Option Stop :=
  match cs with
  | [] => ([], none)
  | c :: rest =>
    if isGap c then ofLine rest
    else if c = '#' then ([], none)
    else match h : read? (c :: rest) with
      | none => ([], some ⟨.unexpected c, c :: rest⟩)
      | some (lexeme, more) =>
        match lexeme.fault? with
        | some fault => ([], some ⟨fault, c :: rest⟩)
        | none =>
          have := read?_length_lt h
          let tail := ofLine more
          (lexeme :: tail.1, tail.2)
termination_by cs.length
decreasing_by all_goals simp only [List.length_cons] at *; omega

end Lexeme

end Lookahead
