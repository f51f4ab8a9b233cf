import Lookahead.Lexeme
import Mathlib.Data.List.TakeWhile
import Mathlib.Tactic.FinCases

namespace Lookahead.Lexeme

/-- The texts that stand for one kind. The kind of `not` has two of them. -/
def fixedTexts : List (List Char × Terminal) := keywordTexts ++ operatorTexts

/-- The patterns of the lexemes. A word may be a keyword by its pattern. -/
inductive Matches : List Char → Lexeme → Prop
  | fixed {text : List Char} {kind : Terminal} (h : (text, kind) ∈ fixedTexts) :
      Matches text ⟨kind, none⟩
  | word {c : Char} {rest : List Char} (hc : isWordStart c = true)
      (hrest : ∀ d ∈ rest, isWordChar d = true) :
      Matches (c :: rest) ⟨.ident, some (String.ofList (c :: rest))⟩
  | number {c : Char} {rest : List Char} (hc : c.isDigit = true)
      (hrest : ∀ d ∈ rest, d.isDigit = true) :
      Matches (c :: rest) ⟨.number, some (String.ofList (c :: rest))⟩
  | charLit {c : Char} (hc : isLiteralChar c = true) :
      Matches ['\'', c, '\''] ⟨.charLit, some (String.singleton c)⟩

/-- The lexeme matches the text in front of `rest`, no pattern matches a longer one, and where the
text is a fixed one the lexeme is no identifier. -/
def IsLongest (cs : List Char) (lexeme : Lexeme) (rest : List Char) : Prop :=
  ∃ text, cs = text ++ rest ∧ Matches text lexeme ∧
    (∀ text' lexeme', Matches text' lexeme' → text' <+: cs → text'.length ≤ text.length) ∧
    (lexeme.kind = .ident → ∀ kind, (text, kind) ∉ fixedTexts)

section Patterns

theorem isWordStart_of_isDigit {c : Char} (h : c.isDigit = true) : isWordStart c = false := by
  have hne : c ≠ '_' := by
    rintro rfl
    exact absurd h (by decide)
  simp only [Char.isDigit, Bool.and_eq_true, decide_eq_true_eq] at h
  rw [isWordStart]
  delta Char.isAlpha Char.isUpper Char.isLower
  grind

theorem keyword?_of_mem : ∀ e ∈ keywordTexts, keyword? e.1 = some e.2 := by decide

theorem mem_keywordTexts {word : List Char} {kind : Terminal} (h : keyword? word = some kind) :
    (word, kind) ∈ keywordTexts := by
  obtain ⟨⟨text, _⟩, hfind, rfl⟩ := Option.map_eq_some_iff.1 h
  have htext := List.find?_some hfind
  obtain rfl : text = word := of_decide_eq_true htext
  exact List.mem_of_find?_eq_some hfind

/-- Keywords look like words. -/
theorem keyword_shape : ∀ e ∈ keywordTexts, ∃ c rest, e.1 = c :: rest ∧ isWordStart c = true ∧
    ∀ d ∈ rest, isWordChar d = true := by
  intro e he
  fin_cases he <;> exact ⟨_, _, rfl, by decide, List.all_eq_true.1 (by decide)⟩

/-- Operators begin like no other lexeme. -/
theorem operator_shape : ∀ e ∈ operatorTexts, ∃ c rest, e.1 = c :: rest ∧
    isWordStart c = false ∧ c.isDigit = false ∧ c ≠ '\'' := by
  intro e he
  fin_cases he <;> exact ⟨_, _, rfl, by decide, by decide, by decide⟩

/-- What a lexeme is by its first character: that tells its pattern, up to words and keywords. -/
def IsForm (c : Char) (rest : List Char) (lexeme : Lexeme) : Prop :=
  if isWordStart c then (∀ d ∈ rest, isWordChar d = true) ∧
    (lexeme = ⟨.ident, some (String.ofList (c :: rest))⟩ ∨
      ∃ kind, (c :: rest, kind) ∈ keywordTexts ∧ lexeme = ⟨kind, none⟩)
  else if c.isDigit then (∀ d ∈ rest, d.isDigit = true) ∧
    lexeme = ⟨.number, some (String.ofList (c :: rest))⟩
  else if c = '\'' then ∃ d, rest = [d, '\''] ∧ isLiteralChar d = true ∧
    lexeme = ⟨.charLit, some (String.singleton d)⟩
  else ∃ kind, (c :: rest, kind) ∈ operatorTexts ∧ lexeme = ⟨kind, none⟩

theorem Matches.exists_form {text : List Char} {lexeme : Lexeme} (h : Matches text lexeme) :
    ∃ c rest, text = c :: rest ∧ IsForm c rest lexeme := by
  unfold IsForm
  cases h with
  | @fixed _ kind h =>
    rcases List.mem_append.1 h with h | h
    · obtain ⟨c, rest, rfl, hc, hrest⟩ := keyword_shape _ h
      refine ⟨c, rest, rfl, ?_⟩
      rw [if_pos hc]
      exact ⟨hrest, .inr ⟨kind, h, rfl⟩⟩
    · obtain ⟨c, rest, rfl, hstart, hdigit, hquote⟩ := operator_shape _ h
      refine ⟨c, rest, rfl, ?_⟩
      simp only [hstart, hdigit, hquote, if_false, Bool.false_eq_true]
      exact ⟨kind, h, rfl⟩
  | @word c rest hc hrest =>
    refine ⟨c, rest, rfl, ?_⟩
    rw [if_pos hc]
    exact ⟨hrest, .inl rfl⟩
  | @number c rest hc hrest =>
    refine ⟨c, rest, rfl, ?_⟩
    rw [if_neg (by rw [isWordStart_of_isDigit hc]; decide), if_pos hc]
    exact ⟨hrest, rfl⟩
  | @charLit d hd => exact ⟨_, _, rfl, d, rfl, hd, rfl⟩

theorem Matches.form {c : Char} {rest : List Char} {lexeme : Lexeme}
    (h : Matches (c :: rest) lexeme) : IsForm c rest lexeme := by
  obtain ⟨_, _, heq, hform⟩ := h.exists_form
  cases heq
  exact hform

/-- No text stands for two kinds. -/
theorem nodup_fixedTexts : (fixedTexts.map Prod.fst).Nodup := by decide +kernel

/-- A text matches one lexeme if a fixed text is not taken for an identifier. -/
theorem Matches.unique {text : List Char} {l l' : Lexeme} (h : Matches text l)
    (h' : Matches text l') (hfixed : l.kind = .ident → ∀ kind, (text, kind) ∉ fixedTexts)
    (hfixed' : l'.kind = .ident → ∀ kind, (text, kind) ∉ fixedTexts) : l = l' := by
  have hkind {kind kind' : Terminal} (hk : (text, kind) ∈ fixedTexts)
      (hk' : (text, kind') ∈ fixedTexts) : kind = kind' :=
    congrArg Prod.snd (List.inj_on_of_nodup_map nodup_fixedTexts hk hk' rfl)
  obtain ⟨c, rest, rfl, hform⟩ := h.exists_form
  have hform' := h'.form
  unfold IsForm at hform hform'
  split at hform
  · next hc =>
    rw [if_pos hc] at hform'
    obtain ⟨-, rfl | ⟨kind, hk, rfl⟩⟩ := hform <;> obtain ⟨-, rfl | ⟨kind', hk', rfl⟩⟩ := hform'
    · rfl
    · exact absurd (List.mem_append_left _ hk') (hfixed rfl kind')
    · exact absurd (List.mem_append_left _ hk) (hfixed' rfl kind)
    · rw [hkind (List.mem_append_left _ hk) (List.mem_append_left _ hk')]
  · next hstart =>
    rw [if_neg hstart] at hform'
    split at hform
    · next hc =>
      rw [if_pos hc] at hform'
      rw [hform.2, hform'.2]
    · next hdigit =>
      rw [if_neg hdigit] at hform'
      split at hform
      · next hc =>
        rw [if_pos hc] at hform'
        obtain ⟨d, hd, -, rfl⟩ := hform
        obtain ⟨d', hd', -, rfl⟩ := hform'
        obtain ⟨rfl, -⟩ := List.cons.inj (hd.symm.trans hd')
        rfl
      · next hquote =>
        rw [if_neg hquote] at hform'
        obtain ⟨kind, hk, rfl⟩ := hform
        obtain ⟨kind', hk', rfl⟩ := hform'
        rw [hkind (List.mem_append_right _ hk) (List.mem_append_right _ hk')]

end Patterns

section Operators

/-- An operator is found where its text stands, or a longer one that begins like it. -/
theorem operator?_ne_none {cs : List Char} : ∀ e ∈ operatorTexts, e.1 <+: cs →
    operator? cs ≠ none := by
  intro e he hpre h
  have hnone := List.find?_eq_none.1 (Option.map_eq_none_iff.1 h) e he
  exact hnone (List.isPrefixOf_iff_prefix.2 hpre)

/-- Operators of two characters are found where they stand. -/
theorem operator?_pair : ∀ e ∈ operatorTexts, e.1.length ≠ 1 →
    ∀ rest, operator? (e.1 ++ rest) = some (e.2, rest) := by
  intro e he hlength rest
  fin_cases he <;> first | rfl | exact absurd rfl hlength

/-- The operator found is the longest that stands at the head of the text. -/
theorem length_le_operator? {cs text rest text' : List Char} {kind kind' : Terminal}
    (h : operator? cs = some (kind, rest)) (hcs : cs = text ++ rest)
    (htext : (text, kind) ∈ operatorTexts) (htext' : (text', kind') ∈ operatorTexts)
    (hpre : text' <+: cs) : text'.length ≤ text.length := by
  by_cases hlength : text'.length = 1
  · obtain ⟨c, more, rfl, -⟩ := operator_shape _ htext
    simp only [hlength, List.length_cons]
    omega
  · obtain ⟨rest', hcs'⟩ := hpre
    have h' := operator?_pair _ htext' hlength rest'
    rw [hcs', h] at h'
    cases h'
    rw [List.append_cancel_right (hcs'.trans hcs)]

end Operators

section Reading

theorem length_le_takeWhile {p : Char → Bool} {text cs : List Char} (h : ∀ d ∈ text, p d = true)
    (hpre : text <+: cs) : text.length ≤ (cs.takeWhile p).length := by
  obtain ⟨rest, rfl⟩ := hpre
  rw [List.takeWhile_append_of_pos h, List.length_append]
  omega

theorem matches_ofWord {c : Char} {rest : List Char} (hc : isWordStart c = true)
    (hrest : ∀ d ∈ rest, isWordChar d = true) : Matches (c :: rest) (ofWord (c :: rest)) := by
  unfold ofWord
  split
  · next h => exact .fixed (List.mem_append_left _ (mem_keywordTexts h))
  · exact .word hc hrest

/-- A word taken for an identifier is no fixed text. -/
theorem not_mem_fixedTexts {c : Char} {rest : List Char} (hc : isWordStart c = true)
    (hident : (ofWord (c :: rest)).kind = .ident) (kind : Terminal) :
    (c :: rest, kind) ∉ fixedTexts := by
  intro hmem
  rcases List.mem_append.1 hmem with h | h
  · rw [ofWord, keyword?_of_mem _ h] at hident
    cases hident
    exact absurd h (by simp [keywordTexts])
  · obtain ⟨_, _, heq, hstart, -⟩ := operator_shape _ h
    cases heq
    rw [hc] at hstart
    cases hstart

theorem isLongest_of_read? {cs rest : List Char} {lexeme : Lexeme}
    (h : read? cs = some (lexeme, rest)) : IsLongest cs lexeme rest := by
  cases cs with
  | nil => cases h
  | cons c cs =>
    -- whatever else matches at the head begins with `c`, so it is of the kind that was read
    have hlongest {text : List Char}
        (hform : ∀ rest' lexeme', IsForm c rest' lexeme' → rest' <+: cs →
          rest'.length + 1 ≤ text.length) (text' : List Char) (lexeme' : Lexeme)
        (hmatch : Matches text' lexeme') (hpre : text' <+: c :: cs) :
        text'.length ≤ text.length := by
      obtain ⟨c', rest', rfl, hhead⟩ := hmatch.exists_form
      obtain ⟨rfl, hpre'⟩ := List.cons_prefix_cons.1 hpre
      exact hform rest' lexeme' hhead hpre'
    simp only [read?] at h
    split at h
    · next hc =>
      cases h
      have hword : ∀ d ∈ cs.takeWhile isWordChar, isWordChar d = true := fun _ hd =>
        List.mem_takeWhile_imp hd
      refine ⟨_, by rw [List.cons_append, List.takeWhile_append_dropWhile], matches_ofWord hc hword,
        hlongest ?_, not_mem_fixedTexts hc⟩
      intro rest' lexeme' hform hpre
      unfold IsForm at hform
      rw [if_pos hc] at hform
      exact Nat.succ_le_succ (length_le_takeWhile hform.1 hpre)
    · next hstart =>
      split at h
      · next hc =>
        cases h
        refine ⟨_, by rw [List.cons_append, List.takeWhile_append_dropWhile],
          .number hc fun _ hd => List.mem_takeWhile_imp hd, hlongest ?_, fun h => by cases h⟩
        intro rest' lexeme' hform hpre
        unfold IsForm at hform
        rw [if_neg hstart, if_pos hc] at hform
        exact Nat.succ_le_succ (length_le_takeWhile hform.1 hpre)
      · next hdigit =>
        split at h
        · next hquote =>
          unfold charLit? at h
          split at h
          · next d more heq =>
            cases heq
            split at h <;> cases h
            next hd =>
            refine ⟨['\'', d, '\''], rfl, .charLit hd, hlongest ?_, fun h => by cases h⟩
            intro rest' lexeme' hform hpre
            unfold IsForm at hform
            rw [if_neg hstart, if_neg hdigit, if_pos rfl] at hform
            obtain ⟨d', rfl, -⟩ := hform
            rfl
          · cases h
        · next hquote =>
          obtain ⟨⟨kind, more⟩, hop, heq⟩ := Option.map_eq_some_iff.1 h
          cases heq
          obtain ⟨text, htext, hcs⟩ := operator?_eq_some hop
          refine ⟨text, hcs, .fixed (List.mem_append_right _ htext), hlongest ?_, ?_⟩
          · intro rest' lexeme' hform hpre
            unfold IsForm at hform
            rw [if_neg hstart, if_neg hdigit, if_neg hquote] at hform
            obtain ⟨kind', htext', -⟩ := hform
            exact length_le_operator? hop hcs htext htext'
              (List.cons_prefix_cons.2 ⟨rfl, hpre⟩)
          · intro hident
            cases hident
            exact absurd htext (by simp [operatorTexts])

theorem read?_ne_none {cs text : List Char} {lexeme : Lexeme} (h : Matches text lexeme)
    (hpre : text <+: cs) : read? cs ≠ none := by
  obtain ⟨c, rest, rfl, hform⟩ := h.exists_form
  obtain ⟨more, rfl⟩ := hpre
  unfold IsForm at hform
  simp only [List.cons_append, read?]
  split at hform
  · next hc => simp [hc]
  · next hstart =>
    rw [if_neg hstart]
    split at hform
    · next hc => simp [hc]
    · next hdigit =>
      rw [if_neg hdigit]
      split at hform
      · next hc =>
        obtain ⟨d, rfl, hd, -⟩ := hform
        simp [hc, charLit?, hd]
      · next hquote =>
        obtain ⟨kind, htext, -⟩ := hform
        rw [if_neg hquote, Ne, Option.map_eq_none_iff]
        exact operator?_ne_none _ htext ⟨more, rfl⟩

theorem IsLongest.unique {cs rest rest' : List Char} {lexeme lexeme' : Lexeme}
    (h : IsLongest cs lexeme rest) (h' : IsLongest cs lexeme' rest') :
    lexeme = lexeme' ∧ rest = rest' := by
  obtain ⟨text, rfl, hmatch, hlongest, hfixed⟩ := h
  obtain ⟨text', hcs, hmatch', hlongest', hfixed'⟩ := h'
  have hlength : text.length = text'.length := by
    apply Nat.le_antisymm
    · exact hlongest' text lexeme hmatch ⟨rest, rfl⟩
    · exact hlongest text' lexeme' hmatch' ⟨rest', hcs.symm⟩
  obtain ⟨rfl, rfl⟩ := List.append_inj hcs hlength
  exact ⟨hmatch.unique hmatch' hfixed hfixed', rfl⟩

/-- The reader takes the longest match, a fixed text before an identifier of the same length, and
fails only where nothing matches. -/
theorem read?_eq_some_iff {cs rest : List Char} {lexeme : Lexeme} :
    read? cs = some (lexeme, rest) ↔ IsLongest cs lexeme rest := by
  refine ⟨isLongest_of_read?, fun h => ?_⟩
  obtain ⟨text, hcs, hmatch, -⟩ := id h
  obtain ⟨⟨lexeme', rest'⟩, hread⟩ :=
    Option.ne_none_iff_exists'.1 (read?_ne_none hmatch ⟨rest, hcs.symm⟩)
  obtain ⟨rfl, rfl⟩ := h.unique (isLongest_of_read? hread)
  exact hread

end Reading

end Lookahead.Lexeme
