import Lookahead.Json.Token

namespace Lookahead.Json

section Literals

/-- Control characters that have no letter of their own are escaped by number. -/
def isNumbered (c : Char) : Bool :=
  isControl c && c != '\x08' && c != '\t' && c != '\n' && c != '\x0c' && c != '\r'

def itemOf (c : Char) : Item := if isNumbered c then .unit c.toNat else .char c

def itemsOf (s : String) : List Item := s.toList.map itemOf

theorem hexValue?_digitChar : ∀ n < 16, hexValue? (Nat.digitChar n) = some n := by decide

theorem hexUnit?_hexDigit {n : Nat} (h : n < 0x20) :
    hexUnit? '0' '0' (hexDigit (n / 16)) (hexDigit n) = some n := by
  have hzero : hexValue? '0' = some 0 := by decide
  have hhigh := hexValue?_digitChar (n / 16 % 16) (Nat.mod_lt _ (by decide))
  have hlow := hexValue?_digitChar (n % 16) (Nat.mod_lt _ (by decide))
  have hvalue : ((0 * 16 + 0) * 16 + n / 16 % 16) * 16 + n % 16 = n := by omega
  rw [hexUnit?, hexDigit, hexDigit, hzero, hhigh, hlow]
  exact congrArg some hvalue

theorem readLiteral_escape (c : Char) (rest : List Char) :
    readLiteral (escape c ++ rest) = prependItem (itemOf c) (readLiteral rest) := by
  fun_cases escape c with
  | case8 hquote hback hb ht hn hf hr hcontrol =>
    have hitem : itemOf c = .unit c.toNat := by
      simp [itemOf, isNumbered, hcontrol, hb, ht, hn, hf, hr]
    have hunit := hexUnit?_hexDigit (of_decide_eq_true hcontrol)
    simp only [List.cons_append, List.nil_append, readLiteral, hunit, hitem]
  | case9 hquote hback hb ht hn hf hr hcontrol =>
    have hitem : itemOf c = .char c := by simp [itemOf, isNumbered, hcontrol]
    rw [List.singleton_append, readLiteral, hitem]
    · simp [hcontrol, hback]
    all_goals simp [hquote, hback]
  | _ => subst_vars; rfl

theorem readLiteral_flatMap_escape (cs rest : List Char) :
    readLiteral (cs.flatMap escape ++ '"' :: rest) = some (cs.map itemOf, rest) := by
  induction cs with
  | nil => rfl
  | cons c cs ih =>
    rw [List.flatMap_cons, List.append_assoc, readLiteral_escape, ih]
    rfl

theorem decode_unit {u : Nat} (h : isSurrogate u = false) (rest : List Item) :
    decode (.unit u :: rest) = (decode rest).map (Char.ofNat u :: ·) := by
  have hhigh : isHighSurrogate u = false := (Bool.or_eq_false_iff.1 h).1
  -- Only a unit that follows could have made a pair with this one.
  cases rest with
  | nil => simp [decode, h]
  | cons item rest =>
    cases item with
    | char c => simp [decode, h]
    | unit low => simp [decode, h, hhigh]

theorem decode_itemOf (c : Char) (rest : List Item) :
    decode (itemOf c :: rest) = (decode rest).map (c :: ·) := by
  cases hnum : isNumbered c with
  | false => simp only [itemOf, hnum, Bool.false_eq_true, if_false, decode]
  | true =>
    have hsmall : c.toNat < 0x20 := by
      simp only [isNumbered, isControl, Bool.and_eq_true, decide_eq_true_eq] at hnum
      exact hnum.1.1.1.1.1
    have hplain : isSurrogate c.toNat = false := by
      simp only [isSurrogate, isHighSurrogate, isLowSurrogate, Bool.or_eq_false_iff,
        Bool.and_eq_false_iff, decide_eq_false_iff_not]
      omega
    simp only [itemOf, hnum, if_true, decode_unit hplain, Char.ofNat_toNat]

theorem decode_itemsOf (s : String) : decode (itemsOf s) = some s.toList := by
  unfold itemsOf
  induction s.toList with
  | nil => rfl
  | cons c cs ih => rw [List.map_cons, decode_itemOf, ih]; rfl

end Literals

section Tokens

theorem tokens_space {c : Char} (h : isSpace c = true) (rest : List Char) :
    tokens (c :: rest) = tokens rest := by
  rw [tokens, if_pos h]

theorem tokens_of_readToken {c : Char} {rest more : List Char} {token : Token}
    (hspace : isSpace c = false) (h : readToken (c :: rest) = some (token, more)) :
    tokens (c :: rest) = (tokens more).map (token :: ·) := by
  rw [tokens, if_neg (by simp [hspace])]
  split
  · next hread => rw [h] at hread; contradiction
  · next hread => rw [h] at hread; cases hread; rfl

/-- The tokens of a piece do not depend on what it is followed by. -/
def Prints (text : List Char) (ts : List Token) : Prop :=
  ∀ rest, tokens (text ++ rest) = (tokens rest).map (ts ++ ·)

theorem Prints.nil : Prints [] [] := fun rest => by simp

theorem Prints.append {text text' : List Char} {ts ts' : List Token} (h : Prints text ts)
    (h' : Prints text' ts') : Prints (text ++ text') (ts ++ ts') := by
  intro rest
  rw [List.append_assoc, h, h', Option.map_map]
  congr 1
  funext ts''
  exact (List.append_assoc ..).symm

theorem Prints.tokens_eq {text : List Char} {ts : List Token} (h : Prints text ts) :
    tokens text = some ts := by
  have hend : tokens [] = some [] := by rw [tokens]
  have htext := h []
  rwa [List.append_nil, hend, Option.map_some, List.append_nil] at htext

theorem Prints.space {c : Char} (h : isSpace c = true) : Prints [c] [] := by
  intro rest
  rw [List.singleton_append, tokens_space h]
  simp

/-- A line end and the indentation of the line after it. -/
theorem Prints.newline (indent : Nat) : Prints ('\n' :: List.replicate indent ' ') [] := by
  refine (Prints.space (c := '\n') rfl).append ?_
  induction indent with
  | zero => exact .nil
  | succ n ih => exact (Prints.space (c := ' ') rfl).append ih

theorem Prints.token {c : Char} {token : Token} (hspace : isSpace c = false)
    (h : ∀ rest, readToken (c :: rest) = some (token, rest)) : Prints [c] [token] :=
  fun rest => tokens_of_readToken hspace (h rest)

theorem Prints.quote (s : String) : Prints (quote s) [.string (itemsOf s)] := by
  intro rest
  have hread := readLiteral_flatMap_escape s.toList rest
  have htext : Json.quote s ++ rest = '"' :: (s.toList.flatMap escape ++ '"' :: rest) := by
    simp [Json.quote]
  rw [htext]
  exact tokens_of_readToken rfl (by rw [readToken, hread]; rfl)

end Tokens

end Lookahead.Json
