import Lookahead.Json.Literal

namespace Lookahead.Json

/-- Numbers, truth values and null are not told apart: no document here has a use for them. -/
inductive Token
  | beginArray | endArray | beginObject | endObject | colon | comma
  | string (items : List Item)
  | scalar
deriving DecidableEq, Repr

def isSpace (c : Char) : Bool := c == ' ' || c == '\n' || c == '\t' || c == '\r'

def skipDigits : List Char → Option (List Char)
  | [] => none
  | c :: rest => if c.isDigit then some (rest.dropWhile Char.isDigit) else none

/-- No digit follows a leading zero. -/
def skipInteger : List Char → Option (List Char)
  | '0' :: rest => some rest
  | cs => skipDigits cs

def skipFraction : List Char → Option (List Char)
  | '.' :: rest => skipDigits rest
  | cs => some cs

def skipSign : List Char → List Char
  | '+' :: rest => rest
  | '-' :: rest => rest
  | cs => cs

def skipExponent : List Char → Option (List Char)
  | 'e' :: rest => skipDigits (skipSign rest)
  | 'E' :: rest => skipDigits (skipSign rest)
  | cs => some cs

def skipMinus : List Char → List Char
  | '-' :: rest => rest
  | cs => cs

def skipNumber (cs : List Char) : Option (List Char) :=
  (skipInteger (skipMinus cs)).bind fun rest => (skipFraction rest).bind skipExponent

def readToken : List Char → Option (Token × List Char)
  | '[' :: rest => some (.beginArray, rest)
  | ']' :: rest => some (.endArray, rest)
  | '\x7b' :: rest => some (.beginObject, rest)
  | '\x7d' :: rest => some (.endObject, rest)
  | ':' :: rest => some (.colon, rest)
  | ',' :: rest => some (.comma, rest)
  | '"' :: rest => (readLiteral rest).map fun (items, rest) => (.string items, rest)
  | 't' :: 'r' :: 'u' :: 'e' :: rest => some (.scalar, rest)
  | 'f' :: 'a' :: 'l' :: 's' :: 'e' :: rest => some (.scalar, rest)
  | 'n' :: 'u' :: 'l' :: 'l' :: rest => some (.scalar, rest)
  | cs => (skipNumber cs).map fun rest => (.scalar, rest)

theorem skipDigits_length_lt {cs rest : List Char} (h : skipDigits cs = some rest) :
    rest.length < cs.length := by
  unfold skipDigits at h
  split at h
  · contradiction
  · split at h
    · cases h
      exact Nat.lt_succ_of_le (List.dropWhile_suffix _).sublist.length_le
    · contradiction

theorem skipInteger_length_lt {cs rest : List Char} (h : skipInteger cs = some rest) :
    rest.length < cs.length := by
  unfold skipInteger at h
  split at h
  · cases h; simp
  · exact skipDigits_length_lt h

theorem skipFraction_length_le {cs rest : List Char} (h : skipFraction cs = some rest) :
    rest.length ≤ cs.length := by
  unfold skipFraction at h
  split at h
  · have := skipDigits_length_lt h
    simp only [List.length_cons]; omega
  · cases h; exact Nat.le_refl _

theorem skipSign_length_le (cs : List Char) : (skipSign cs).length ≤ cs.length := by
  unfold skipSign
  split <;> simp

theorem skipMinus_length_le (cs : List Char) : (skipMinus cs).length ≤ cs.length := by
  unfold skipMinus
  split <;> simp

theorem skipExponent_length_le {cs rest : List Char} (h : skipExponent cs = some rest) :
    rest.length ≤ cs.length := by
  unfold skipExponent at h
  split at h
  · have := skipDigits_length_lt h
    have := skipSign_length_le ‹_›
    simp only [List.length_cons]; omega
  · have := skipDigits_length_lt h
    have := skipSign_length_le ‹_›
    simp only [List.length_cons]; omega
  · cases h; exact Nat.le_refl _

theorem skipNumber_length_lt {cs rest : List Char} (h : skipNumber cs = some rest) :
    rest.length < cs.length := by
  obtain ⟨a, hint, h⟩ := Option.bind_eq_some_iff.1 h
  obtain ⟨b, hfrac, hexp⟩ := Option.bind_eq_some_iff.1 h
  have := skipMinus_length_le cs
  have := skipInteger_length_lt hint
  have := skipFraction_length_le hfrac
  have := skipExponent_length_le hexp
  omega

theorem readToken_length_lt {cs rest : List Char} {token : Token}
    (h : readToken cs = some (token, rest)) : rest.length < cs.length := by
  unfold readToken at h
  split at h
  case h_7 =>
    obtain ⟨⟨items, tail⟩, hread, heq⟩ := Option.map_eq_some_iff.1 h
    cases heq
    have := readLiteral_length_lt hread
    simp only [List.length_cons]; omega
  case h_11 =>
    obtain ⟨tail, hskip, heq⟩ := Option.map_eq_some_iff.1 h
    cases heq
    exact skipNumber_length_lt hskip
  all_goals
    cases h
    simp only [List.length_cons]
    omega

def tokens (cs : List Char) : Option (List Token) :=
  match cs with
  | [] => some []
  | c :: rest =>
    if isSpace c then tokens rest
    else match h : readToken (c :: rest) with
      | none => none
      | some (token, more) =>
        have := readToken_length_lt h
        (tokens more).map (token :: ·)
termination_by cs.length
decreasing_by all_goals simp only [List.length_cons] at *; omega

inductive Frame
  | array
  | object
deriving DecidableEq, Repr

/-- What may come next inside a value. -/
inductive Expect
  | value
  | firstItem
  | firstKey
  | key
  | colon
  | separator
deriving DecidableEq, Repr

def enter (stack : List Frame) : Token → Option (Expect × List Frame)
  | .string _ | .scalar => some (.separator, stack)
  | .beginArray => some (.firstItem, .array :: stack)
  | .beginObject => some (.firstKey, .object :: stack)
  | _ => none

def step : Expect → List Frame → Token → Option (Expect × List Frame)
  | .value, stack, token => enter stack token
  | .firstItem, .array :: stack, .endArray => some (.separator, stack)
  | .firstItem, stack, token => enter stack token
  | .firstKey, .object :: stack, .endObject => some (.separator, stack)
  | .firstKey, stack, .string _ => some (.colon, stack)
  | .key, stack, .string _ => some (.colon, stack)
  | .colon, stack, .colon => some (.value, stack)
  | .separator, .array :: stack, .comma => some (.value, .array :: stack)
  | .separator, .array :: stack, .endArray => some (.separator, stack)
  | .separator, .object :: stack, .comma => some (.key, .object :: stack)
  | .separator, .object :: stack, .endObject => some (.separator, stack)
  | _, _, _ => none

/-- Passes over the rest of a value, up to where no bracket is open. Only the form is checked: a
string in it need not be the text of anything. -/
def skip (e : Expect) (stack : List Frame) : List Token → Option (List Token)
  | [] => none
  | token :: rest =>
    match step e stack token with
    | none => none
    | some (.separator, []) => some rest
    | some (e, stack) => skip e stack rest

def skipValue (ts : List Token) : Option (List Token) := skip .value [] ts

theorem skip_length_lt {e : Expect} {stack : List Frame} {ts rest : List Token}
    (h : skip e stack ts = some rest) : rest.length < ts.length := by
  induction ts generalizing e stack with
  | nil => simp [skip] at h
  | cons token ts ih =>
    unfold skip at h
    split at h
    · contradiction
    · cases h; simp
    · exact Nat.lt_succ_of_lt (ih h)

end Lookahead.Json
