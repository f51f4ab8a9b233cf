import Lookahead.Proofs.Layout.Append
import Lookahead.Proofs.Lexeme.LongestMatch

namespace Lookahead

namespace Lexeme

/-- A lexeme with a text that it is read from. -/
structure Spelling where
  text : List Char
  lexeme : Lexeme
  isMatch : Matches text lexeme
  isPreferred : lexeme.kind = .ident → ∀ kind, (text, kind) ∉ fixedTexts
  isFree : lexeme.kind = .ident → isReserved text = false

section Characters

def isGlyph (c : Char) : Bool := isWordChar c || operatorTexts.any fun e => e.1.contains c

variable {c : Char} {text rest : List Char} {lexeme : Lexeme}

theorem isBlank_of_isWordChar (h : isWordChar c = true) : Text.isBlank c = false := by
  rw [isWordChar, Bool.or_eq_true, beq_iff_eq] at h
  rcases h with h | rfl
  · delta Char.isAlphanum Char.isAlpha Char.isUpper Char.isLower Char.isDigit at h
    simp only [Bool.or_eq_true, Bool.and_eq_true, decide_eq_true_eq, UInt32.le_iff_toNat_le,
      ge_iff_le] at h
    change ((65 ≤ c.toNat ∧ c.toNat ≤ 90) ∨ (97 ≤ c.toNat ∧ c.toNat ≤ 122)) ∨
      (48 ≤ c.toNat ∧ c.toNat ≤ 57) at h
    simp only [Text.isBlank, Text.blankRanges, List.any_cons, List.any_nil, Bool.or_false,
      Bool.or_eq_false_iff, Bool.and_eq_false_iff, decide_eq_false_iff_not]
    omega
  · decide

/-- Neither white space nor a comment begins like a lexeme. -/
theorem isBlank_of_isGlyph (h : isGlyph c = true) : Text.isBlank c = false ∧ c ≠ '#' := by
  rw [isGlyph, Bool.or_eq_true, List.any_eq_true] at h
  rcases h with h | ⟨e, he, hc⟩
  · refine ⟨isBlank_of_isWordChar h, ?_⟩
    rintro rfl
    exact absurd h (by decide)
  · have htable : ∀ e ∈ operatorTexts, e.1.all (fun c => !Text.isBlank c && c != '#') = true := by
      decide
    simpa using List.all_eq_true.1 (htable e he) c (List.contains_iff_mem.1 hc)

theorem isGap_of_isBlank (h : Text.isBlank c = false) :
    isGap c = false ∧ Layout.isIndent c = false := by
  have hne (d : Char) (hd : Text.isBlank d = true) : c ≠ d := by
    rintro rfl
    rw [h] at hd
    cases hd
  simp [isGap, Layout.isIndent, hne ' ' (by decide), hne '\t' (by decide), hne '\r' (by decide)]

theorem isWordChar_of_isWordStart (h : isWordStart c = true) : isWordChar c = true := by
  rw [isWordStart, Bool.or_eq_true] at h
  rw [isWordChar, Char.isAlphanum, Bool.or_eq_true, Bool.or_eq_true]
  exact h.imp_left .inl

theorem isWordChar_of_isDigit (h : c.isDigit = true) : isWordChar c = true := by
  rw [isWordChar, Char.isAlphanum, h, Bool.or_true, Bool.true_or]

theorem Matches.chars (h : Matches text lexeme) :
    (∀ c ∈ text, isGlyph c = true) ∨
      ∃ c, isLiteralChar c = true ∧ text = ['\'', c, '\''] := by
  have hword {c : Char} (hc : isWordChar c = true) : isGlyph c = true := by
    rw [isGlyph, hc, Bool.true_or]
  cases h with
  | fixed h =>
    have htable : ∀ e ∈ fixedTexts, e.1.all isGlyph = true := by decide
    exact .inl (List.all_eq_true.1 (htable _ h))
  | word hc hrest =>
    refine .inl (List.forall_mem_cons.2 ⟨hword (isWordChar_of_isWordStart hc), ?_⟩)
    exact fun d hd => hword (hrest d hd)
  | number hc hrest =>
    refine .inl (List.forall_mem_cons.2 ⟨hword (isWordChar_of_isDigit hc), ?_⟩)
    exact fun d hd => hword (isWordChar_of_isDigit (hrest d hd))
  | charLit hc => exact .inr ⟨_, hc, rfl⟩

theorem Matches.newline_not_mem (h : Matches text lexeme) : '\n' ∉ text := by
  intro hmem
  rcases h.chars with hglyph | ⟨c, hc, rfl⟩
  · exact absurd (hglyph '\n' hmem) (by decide)
  · simp only [List.mem_cons, Char.reduceEq, List.not_mem_nil, or_false, false_or] at hmem
    subst hmem
    exact absurd hc (by decide)

theorem Matches.head (h : Matches text lexeme) :
    ∃ c rest, text = c :: rest ∧ Text.isBlank c = false ∧ c ≠ '#' := by
  obtain ⟨c, rest, rfl, -⟩ := h.exists_form
  refine ⟨c, rest, rfl, ?_⟩
  rcases h.chars with hglyph | ⟨d, -, heq⟩
  · exact isBlank_of_isGlyph (hglyph c List.mem_cons_self)
  · cases heq
    decide

/-- A space behind a lexeme is where the longest match ends. -/
theorem Matches.length_le_of_space {text' : List Char} {lexeme' : Lexeme} (h : Matches text lexeme)
    (h' : Matches text' lexeme') (hpre : text' <+: text ++ ' ' :: rest) :
    text'.length ≤ text.length := by
  by_contra! hlt
  obtain ⟨more, rfl⟩ : text ++ [' '] <+: text' := by
    have hspace : text ++ [' '] <+: text ++ ' ' :: rest := ⟨rest, by simp⟩
    apply List.prefix_of_prefix_length_le hspace hpre
    simp only [List.length_append, List.length_singleton]
    omega
  rcases h'.chars with hglyph | ⟨d, -, heq⟩
  · exact absurd (hglyph ' ' (by simp)) (by decide)
  · -- then the text is no longer than the opening quote and the character
    obtain ⟨c, tail, rfl, -⟩ := h.exists_form
    obtain ⟨rfl, -⟩ := List.cons.inj heq
    obtain ⟨d', rfl, -⟩ := h.form
    simp at heq

theorem Matches.literal_eq (h : Matches text lexeme) (hident : lexeme.kind = .ident) :
    lexeme.literal = some (String.ofList text) := by
  cases h with
  | fixed h => exact absurd hident ((by decide : ∀ e ∈ fixedTexts, e.2 ≠ .ident) _ h)
  | word => rfl
  | number => cases hident
  | charLit => cases hident

end Characters

namespace Spelling

theorem isLongest (w : Spelling) {rest : List Char} (hrest : rest = [] ∨ rest.head? = some ' ') :
    IsLongest (w.text ++ rest) w.lexeme rest := by
  refine ⟨w.text, rfl, w.isMatch, ?_, w.isPreferred⟩
  intro text' lexeme' hmatch hpre
  rcases hrest with rfl | hspace
  · rw [List.append_nil] at hpre
    exact hpre.length_le
  · obtain ⟨more, rfl⟩ := List.head?_eq_some_iff.1 hspace
    exact w.isMatch.length_le_of_space hmatch hpre

theorem fault?_eq_none (w : Spelling) : w.lexeme.fault? = none := by
  have hliteral := w.isMatch.literal_eq
  have hfree := w.isFree
  unfold fault?
  split
  · next name heq =>
    rw [heq] at hliteral hfree
    cases hliteral rfl
    rw [String.toList_ofList, hfree rfl]
    rfl
  · rfl

theorem ofLine_append (w : Spelling) {rest : List Char}
    (hrest : rest = [] ∨ rest.head? = some ' ') :
    ofLine (w.text ++ rest) = (w.lexeme :: (ofLine rest).1, (ofLine rest).2) := by
  have hread := read?_eq_some_iff.2 (w.isLongest hrest)
  obtain ⟨c, more, htext, hblank, hcomment⟩ := w.isMatch.head
  have hgap : isGap c = false := (isGap_of_isBlank hblank).1
  rw [htext, List.cons_append] at hread ⊢
  rw [ofLine, hgap, if_neg Bool.false_ne_true, if_neg hcomment]
  split
  · next h =>
    rw [hread] at h
    cases h
  · next lexeme' more' h =>
    rw [hread] at h
    cases h
    rw [w.fault?_eq_none]

def line (words : List Spelling) : List Char := [' '].intercalate (words.map text)

theorem line_singleton (w : Spelling) : line [w] = w.text := by
  rw [line, List.map_singleton, List.intercalate_singleton]

theorem line_cons_cons (w w' : Spelling) (words : List Spelling) :
    line (w :: w' :: words) = w.text ++ ' ' :: line (w' :: words) := by
  rw [line, List.map_cons, List.map_cons, List.intercalate_cons_cons, List.append_assoc]
  rfl

theorem ofLine_line (words : List Spelling) : ofLine (line words) = (words.map lexeme, none) := by
  induction words with
  | nil => rw [line, List.map_nil, List.intercalate_nil, ofLine, List.map_nil]
  | cons w words ih =>
    cases words with
    | nil =>
      have hlast := w.ofLine_append (.inl rfl)
      rw [List.append_nil] at hlast
      rw [line_singleton, hlast, ofLine]
      rfl
    | cons w' words =>
      have hgap (rest : List Char) : ofLine (' ' :: rest) = ofLine rest := by
        rw [ofLine, if_pos (by decide)]
      rw [line_cons_cons, w.ofLine_append (.inr rfl), hgap, ih]
      rfl

theorem newline_not_mem_line (words : List Spelling) : '\n' ∉ line words := by
  intro hmem
  induction words with
  | nil => cases hmem
  | cons w words ih =>
    cases words with
    | nil =>
      rw [line_singleton] at hmem
      exact w.isMatch.newline_not_mem hmem
    | cons w' words =>
      rw [line_cons_cons] at hmem
      simp only [List.mem_append, List.mem_cons, Char.reduceEq, false_or] at hmem
      exact hmem.elim w.isMatch.newline_not_mem ih

theorem exists_line_eq (w : Spelling) (words : List Spelling) :
    ∃ c rest, line (w :: words) = c :: rest ∧ Text.isBlank c = false ∧ c ≠ '#' := by
  obtain ⟨c, rest, htext, hc⟩ := w.isMatch.head
  have hpre : w.text <+: line (w :: words) := by
    cases words with
    | nil => exact ⟨[], (List.append_nil _).trans (line_singleton w).symm⟩
    | cons w' words => exact ⟨_, (line_cons_cons w w' words).symm⟩
  obtain ⟨more, hline⟩ := hpre
  rw [htext] at hline
  exact ⟨c, rest ++ more, hline.symm, hc⟩

end Spelling

end Lexeme

/-- A source of one line that begins with a lexeme. -/
theorem tokenize_line {source : String} {c : Char} {rest : List Char} {lexemes : List Lexeme}
    (hsource : source.toList = c :: rest) (hblank : Text.isBlank c = false) (hcomment : c ≠ '#')
    (hnewline : '\n' ∉ source.toList) (hread : Lexeme.ofLine source.toList = (lexemes, none)) :
    tokenize source = .ok ((lexemes.map fun l => ⟨l.kind.name, l.literal, 1⟩) ++
      [Layout.marker .newline 1, .eof 1]) := by
  have hindent : Layout.isIndent c = false := (Lexeme.isGap_of_isBlank hblank).2
  have hdrop : (c :: rest).dropWhile Layout.isIndent = c :: rest := by
    rw [List.dropWhile_cons_of_neg (by rw [hindent]; decide)]
  have hwidth : Layout.indentWidth (c :: rest) = 0 := by
    rw [Layout.indentWidth, List.takeWhile_cons_of_neg (by rw [hindent]; decide)]
    rfl
  have hskipped : Layout.isSkipped (c :: rest) = false := by
    simp [Layout.isSkipped, hdrop, hblank, hcomment]
  have hlines : Layout.codeLines source = [(1, c :: rest)] := by
    have hne : source.toList ≠ [] := hsource ▸ List.cons_ne_nil c rest
    rw [Layout.codeLines, Text.numberedLines, Text.lines_eq_singleton hne hnewline, hsource]
    simp [hskipped]
  rw [hsource] at hread
  have hscan : TokenStream.scan source = ⟨(Layout.lineTokens 1 (c :: rest)).map .ok, 1⟩ := by
    rw [Layout.scan_eq, hlines, Layout.scanLines_cons hskipped, Layout.scanLine_of_readable, hwidth]
    · simp [TokenStream.prepend, Layout.settle, Layout.Blocks.width, Layout.scanLines]
    · rw [hwidth]
      rfl
    · rw [Layout.isReadable, hdrop, hread]
      rfl
  rw [tokenize_eq_ok, hscan]
  refine ⟨_, rfl, ?_⟩
  rw [Layout.lineTokens, hdrop, hread, List.append_assoc]
  rfl

/-- At the head of a text the longest match is read, fixed texts before identifiers, and lexemes
printed on one line with spaces in between are the tokens of that line. -/
theorem tokenize_intercalate :
    (∀ (cs rest : List Char) (lexeme : Lexeme),
      Lexeme.read? cs = some (lexeme, rest) ↔ Lexeme.IsLongest cs lexeme rest) ∧
    ∀ words : List Lexeme.Spelling, words ≠ [] →
      tokenize (" ".intercalate (words.map fun w => String.ofList w.text)) =
        .ok ((words.map fun w => ⟨w.lexeme.kind.name, w.lexeme.literal, 1⟩) ++
          [Layout.marker .newline 1, .eof 1]) := by
  refine ⟨fun _ _ _ => Lexeme.read?_eq_some_iff, fun words hne => ?_⟩
  obtain ⟨w, words, rfl⟩ := List.exists_cons_of_ne_nil hne
  have hsource : (" ".intercalate ((w :: words).map fun w => String.ofList w.text)).toList =
      Lexeme.Spelling.line (w :: words) := by
    rw [String.toList_intercalate, Lexeme.Spelling.line, List.map_map]
    congr 1
    exact List.map_congr_left fun w _ => String.toList_ofList
  obtain ⟨c, rest, hline, hblank, hcomment⟩ := Lexeme.Spelling.exists_line_eq w words
  rw [tokenize_line (hsource.trans hline) hblank hcomment
    (by rw [hsource]; exact Lexeme.Spelling.newline_not_mem_line _)
    (by rw [hsource]; exact Lexeme.Spelling.ofLine_line _), List.map_map]
  rfl

theorem tokenize_intercalate_comparison :
    tokenize (" ".intercalate ["not", "x", "<=", "' '"]) =
      .ok [⟨Terminal.not.name, none, 1⟩, ⟨Terminal.ident.name, some "x", 1⟩,
        ⟨Terminal.le.name, none, 1⟩, ⟨Terminal.charLit.name, some " ", 1⟩,
        Layout.marker .newline 1, .eof 1] :=
  tokenize_intercalate.2
    [⟨['n', 'o', 't'], ⟨.not, none⟩, .fixed (by decide), nofun, nofun⟩,
      ⟨['x'], ⟨.ident, some "x"⟩, .word rfl nofun, fun _ kind => by cases kind <;> decide,
        fun _ => rfl⟩,
      ⟨['<', '='], ⟨.le, none⟩, .fixed (by decide), nofun, nofun⟩,
      ⟨['\'', ' ', '\''], ⟨.charLit, some " "⟩, .charLit rfl, nofun, nofun⟩] (List.cons_ne_nil _ _)

end Lookahead
