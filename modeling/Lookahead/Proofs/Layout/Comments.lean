import Lookahead.Proofs.Layout.Blocks
import Lookahead.Proofs.Layout.Printing
import Lookahead.Proofs.Lexeme.Reading

namespace Lookahead

namespace Layout

/-- A line without its comment, which begins at the first hash outside of a character literal. -/
def stripComment : List Char → List Char
  | [] => []
  | '#' :: _ => []
  | '\'' :: c :: '\'' :: rest =>
    if Lexeme.isLiteralChar c then '\'' :: c :: '\'' :: stripComment rest
    else '\'' :: stripComment (c :: '\'' :: rest)
  | c :: rest => c :: stripComment rest

def brokenLines : List Char → List (List Char × List Char)
  | [] => []
  | '\r' :: '\n' :: rest => ([], ['\r', '\n']) :: brokenLines rest
  | '\n' :: rest => ([], ['\n']) :: brokenLines rest
  | c :: rest =>
    match brokenLines rest with
    | [] => [([c], [])]
    | (line, ending) :: more => (c :: line, ending) :: more

def stripLines (lines : List (List Char × List Char)) : List Char :=
  lines.flatMap fun e => stripComment e.1 ++ e.2

/-- White space alone stands before the comment of the line. -/
def IsComment (line blanks : List Char) : Prop :=
  (∀ c ∈ blanks, Text.isBlank c = true) ∧ ∃ rest, line = blanks ++ '#' :: rest

/-- A comment that does not make its line one without code. -/
def HidesComment (line : List Char) : Prop := ∃ blanks, IsComment line blanks ∧ '\r' ∈ blanks

end Layout

/-- The source with every comment deleted. Line breaks stay. -/
def withoutComments (source : String) : String :=
  String.ofList (Layout.stripLines (Layout.brokenLines source.toList))

namespace Layout

section Stripping

variable {c : Char} {cs text rest : List Char} {lexeme : Lexeme} {lexemes : List Lexeme}

theorem stripComment_cons (hquote : c ≠ '\'') (hcomment : c ≠ '#') :
    stripComment (c :: cs) = c :: stripComment cs := by
  rw [stripComment]
  · exact hcomment
  · intro d rest h
    exact absurd h hquote

theorem stripComment_append (h : ∀ c ∈ text, c ≠ '\'' ∧ c ≠ '#') (cs : List Char) :
    stripComment (text ++ cs) = text ++ stripComment cs := by
  induction text with
  | nil => rfl
  | cons c text ih =>
    obtain ⟨⟨hquote, hcomment⟩, htext⟩ := List.forall_mem_cons.1 h
    rw [List.cons_append, stripComment_cons hquote hcomment, ih htext, List.cons_append]

theorem ne_of_isBlank (h : Text.isBlank c = true) : c ≠ '\'' ∧ c ≠ '#' := by
  constructor <;> rintro rfl <;> exact absurd h (by decide)

theorem isBlank_of_isGap (h : Lexeme.isGap c = true) : Text.isBlank c = true := by
  simp only [Lexeme.isGap, Bool.or_eq_true, beq_iff_eq] at h
  rcases h with (rfl | rfl) | rfl <;> decide

/-- A lexeme holds no comment. -/
theorem stripComment_append_of_matches (h : Lexeme.Matches text lexeme) (cs : List Char) :
    stripComment (text ++ cs) = text ++ stripComment cs := by
  rcases h.chars with hglyph | ⟨d, hd, rfl⟩
  · refine stripComment_append (fun c hc => ?_) cs
    have hc := hglyph c hc
    exact ⟨by rintro rfl; exact absurd hc (by decide), (Lexeme.isBlank_of_isGlyph hc).2⟩
  · simp [stripComment, hd]

/-- A line that can be read ends with its last lexeme or gap, or a comment follows it. -/
theorem exists_reads_of_ofLine (h : (Lexeme.ofLine cs).2 = none) :
    ∃ rest, Lexeme.Reads cs (Lexeme.ofLine cs).1 rest ∧ stripComment rest = [] := by
  fun_induction Lexeme.ofLine cs with
  | case1 => exact ⟨[], .done _, rfl⟩
  | case2 c cs hc ih =>
    obtain ⟨rest, hreads, hrest⟩ := ih h
    exact ⟨rest, .gap hc hreads, hrest⟩
  | case3 cs hgap => exact ⟨'#' :: cs, .done _, rfl⟩
  | case4 => cases h
  | case5 => cases h
  | case6 c cs hgap hcomment lexeme more hread hfault hlength tail ih =>
    obtain ⟨rest, hreads, hrest⟩ := ih h
    exact ⟨rest, .lexeme (Lexeme.read?_eq_some_iff.1 hread) (Lexeme.fault?_eq_none_iff.1 hfault)
      hreads, hrest⟩

end Stripping

end Layout

namespace Lexeme

open Layout

section Reading

variable {cs more tail rest : List Char} {l : Lexeme} {lexemes : List Lexeme}

theorem ofLine_gap {c : Char} (hc : isGap c = true) : ofLine (c :: cs) = ofLine cs := by
  rw [ofLine, if_pos hc]

theorem ofLine_dropWhile (cs : List Char) : ofLine (cs.dropWhile isIndent) = ofLine cs := by
  induction cs with
  | nil => rfl
  | cons c cs ih =>
    by_cases hc : isIndent c = true
    · rw [List.dropWhile_cons_of_pos hc, ih, ofLine_gap (isGap_of_isIndent hc)]
    · rw [List.dropWhile_cons_of_neg hc]

/-- The longest match stays the longest if the text behind it is cut. -/
theorem IsLongest.of_append (h : IsLongest (cs ++ tail) l (more ++ tail)) :
    IsLongest cs l more := by
  obtain ⟨text, heq, hmatch, hlongest, hfixed⟩ := h
  rw [← List.append_assoc] at heq
  refine ⟨text, List.append_cancel_right heq, hmatch, fun text' lexeme' hmatch' hpre => ?_, hfixed⟩
  exact hlongest text' lexeme' hmatch' (hpre.trans (List.prefix_append _ _))

/-- What is read can be read for itself, and there is no comment in it. -/
theorem Reads.exists_before (h : Reads cs lexemes rest) :
    ∃ before, cs = before ++ rest ∧ Reads before lexemes [] ∧
      stripComment cs = before ++ stripComment rest := by
  induction h with
  | done rest => exact ⟨[], rfl, .done _, rfl⟩
  | @gap c cs rest lexemes hc h ih =>
    obtain ⟨before, rfl, hbefore, hstrip⟩ := ih
    obtain ⟨hquote, hcomment⟩ := ne_of_isBlank (isBlank_of_isGap hc)
    refine ⟨c :: before, rfl, .gap hc hbefore, ?_⟩
    rw [stripComment_cons hquote hcomment, hstrip, List.cons_append]
  | @lexeme cs more rest l lexemes hread hfree h ih =>
    obtain ⟨before, rfl, hbefore, hstrip⟩ := ih
    obtain ⟨text, rfl, hmatch, -⟩ := id hread
    refine ⟨text ++ before, by rw [List.append_assoc], .lexeme ?_ hfree hbefore, ?_⟩
    · rw [← List.append_assoc] at hread
      exact hread.of_append
    · rw [stripComment_append_of_matches hmatch, hstrip, List.append_assoc]

/-- Lexemes are read up to where the reading ends, and the rest behind them. -/
theorem Reads.ofLine_eq (h : Reads cs lexemes rest) :
    ofLine cs = (lexemes ++ (ofLine rest).1, (ofLine rest).2) := by
  induction h with
  | done rest => rfl
  | gap hc h ih => rw [ofLine_gap hc, ih]
  | @lexeme cs more rest l lexemes hread hfree h ih =>
    have hread' := read?_eq_some_iff.2 hread
    obtain ⟨text, rfl, hmatch, -⟩ := hread
    obtain ⟨c, tail, rfl, hblank, hcomment⟩ := hmatch.head
    rw [List.cons_append] at hread' ⊢
    rw [ofLine, if_neg (by rw [(isGap_of_isBlank hblank).1]; decide), if_neg hcomment]
    split
    · next hnone =>
      rw [hread'] at hnone
      cases hnone
    · next l' more' hsome =>
      rw [hread'] at hsome
      cases hsome
      rw [fault?_eq_none_iff.2 hfree, ih]
      rfl

/-- A carriage return at the end of a line can be left out: no lexeme ends with one. -/
theorem Reads.of_append_return (h : Reads (cs ++ ['\r']) lexemes []) : Reads cs lexemes [] := by
  generalize hline : cs ++ ['\r'] = line at h
  generalize hrest : ([] : List Char) = rest at h
  induction h generalizing cs with
  | done rest =>
    subst hrest
    simp at hline
  | @gap c line rest lexemes hc h ih =>
    cases cs with
    | nil =>
      obtain ⟨rfl, rfl⟩ := List.cons.inj hline
      subst hrest
      exact h
    | cons d cs =>
      obtain ⟨rfl, htail⟩ := List.cons.inj hline
      exact .gap hc (ih htail hrest)
  | @lexeme line more rest l lexemes hread hfree h ih =>
    obtain ⟨text, rfl, hmatch, -⟩ := id hread
    rcases List.eq_nil_or_concat more with rfl | ⟨more, d, rfl⟩
    · rw [List.append_nil] at hline
      rcases hmatch.chars with hglyph | ⟨d, -, rfl⟩
      · exact absurd (hglyph '\r' (by rw [← hline]; simp)) (by decide)
      · simpa using congrArg List.getLast? hline
    · rw [List.concat_eq_append, ← List.append_assoc] at hline
      obtain ⟨rfl, hd⟩ := List.append_inj' hline rfl
      cases hd
      rw [List.concat_eq_append, ← List.append_assoc] at hread
      exact .lexeme hread.of_append hfree (ih List.concat_eq_append.symm hrest)

/-- A line with a lexeme is a line of code. -/
theorem Reads.isSkipped_eq_false (h : Reads cs lexemes rest) (hne : lexemes ≠ []) :
    isSkipped cs = false := by
  induction h with
  | done rest => exact absurd rfl hne
  | @gap c cs rest lexemes hc h ih =>
    have hskipped := ih hne
    by_cases hindent : isIndent c = true
    · rwa [isSkipped, List.dropWhile_cons_of_pos hindent]
    · have hcomment := (ne_of_isBlank (isBlank_of_isGap hc)).2
      have hblanks : cs.all Text.isBlank = false := by
        by_contra hall
        rw [Bool.not_eq_false, List.all_eq_true] at hall
        have hdrop : (cs.dropWhile isIndent).all Text.isBlank = true :=
          List.all_eq_true.2 fun d hd => hall d ((List.dropWhile_suffix _).subset hd)
        rw [isSkipped, hdrop] at hskipped
        cases hskipped
      simp [isSkipped, List.dropWhile_cons_of_neg hindent, hblanks, hcomment]
  | lexeme hread hfree h ih =>
    obtain ⟨text, rfl, hmatch, -⟩ := hread
    obtain ⟨c, tail, rfl, hblank, hcomment⟩ := hmatch.head
    have hindent := (isGap_of_isBlank hblank).2
    simp [isSkipped, hindent, hblank, hcomment]

/-- Without lexemes there are only gaps. -/
theorem Reads.exists_gaps (h : Reads cs [] rest) :
    ∃ gaps, cs = gaps ++ rest ∧ ∀ c ∈ gaps, isGap c = true := by
  generalize hlexemes : ([] : List Lexeme) = ls at h
  induction h with
  | done rest => exact ⟨[], rfl, List.forall_mem_nil _⟩
  | @gap c cs rest ls hc h ih =>
    obtain ⟨gaps, rfl, hgaps⟩ := ih hlexemes
    exact ⟨c :: gaps, rfl, List.forall_mem_cons.2 ⟨hc, hgaps⟩⟩
  | lexeme hread hfree h ih => cases hlexemes

end Reading

end Lexeme

namespace Layout

section Lines

/-- What is left of a line without its comment. A carriage return at its end may have become a part
of the line break. -/
def Leaves (line line' : List Char) : Prop :=
  line' = stripComment line ∨ line' ++ ['\r'] = stripComment line

variable {line line' blanks : List Char}

theorem isSkipped_of_isBlank (h : ∀ c ∈ line, Text.isBlank c = true) : isSkipped line = true := by
  have hall : (line.dropWhile isIndent).all Text.isBlank = true :=
    List.all_eq_true.2 fun c hc => h c ((List.dropWhile_suffix _).subset hc)
  rw [isSkipped, hall, Bool.true_or]

theorem isSkipped_of_isIndent (h : ∀ c ∈ blanks, isIndent c = true) (rest : List Char) :
    isSkipped (blanks ++ '#' :: rest) = true := by
  rw [isSkipped, List.dropWhile_append_of_pos h]
  simp [isIndent]

theorem isBlank_of_isIndent {c : Char} (h : isIndent c = true) : Text.isBlank c = true :=
  isBlank_of_isGap (isGap_of_isIndent h)

theorem exists_isComment (h : isSkipped line = true) :
    (∀ c ∈ line, Text.isBlank c = true) ∨ ∃ blanks, IsComment line blanks := by
  have hindent : ∀ c ∈ line.takeWhile isIndent, Text.isBlank c = true := fun c hc =>
    isBlank_of_isIndent (List.mem_takeWhile_imp hc)
  rw [isSkipped, Bool.or_eq_true, beq_iff_eq, List.all_eq_true] at h
  rcases h with hblank | hcomment
  · left
    intro c hc
    rw [← List.takeWhile_append_dropWhile (p := isIndent) (l := line)] at hc
    rcases List.mem_append.1 hc with hc | hc
    · exact hindent c hc
    · exact hblank c hc
  · right
    obtain ⟨rest, hrest⟩ := List.head?_eq_some_iff.1 hcomment
    exact ⟨_, hindent, rest, by rw [← hrest, List.takeWhile_append_dropWhile]⟩

theorem IsComment.stripComment_eq (h : IsComment line blanks) : stripComment line = blanks := by
  obtain ⟨hblanks, rest, rfl⟩ := h
  rw [stripComment_append fun c hc => ne_of_isBlank (hblanks c hc)]
  exact List.append_nil _

theorem Leaves.subset (h : Leaves line line') : line' ⊆ stripComment line := by
  rcases h with rfl | h
  · exact List.Subset.refl _
  · rw [← h]
    exact List.subset_append_left _ _

theorem Leaves.isSkipped_of_isComment (h : Leaves line line') (hline : IsComment line blanks) :
    isSkipped line' = true := by
  refine isSkipped_of_isBlank fun c hc => hline.1 c ?_
  rw [← hline.stripComment_eq]
  exact h.subset hc

/-- Lines without code stay so. -/
theorem Leaves.skipped (h : Leaves line line') (hline : isSkipped line = true) :
    isSkipped line' = true := by
  rcases exists_isComment hline with hblank | ⟨blanks, hcomment⟩
  · have hstrip : stripComment line = line := by
      have h := stripComment_append (fun c hc => ne_of_isBlank (hblank c hc)) []
      rwa [List.append_nil, stripComment, List.append_nil] at h
    refine isSkipped_of_isBlank fun c hc => hblank c ?_
    rw [← hstrip]
    exact h.subset hc
  · exact h.isSkipped_of_isComment hcomment

/-- A comment behind a carriage return makes a line of code. -/
theorem HidesComment.isSkipped_eq_false (h : HidesComment line) : isSkipped line = false := by
  obtain ⟨blanks, ⟨hblanks, rest, rfl⟩, hreturn⟩ := h
  have hmem : '\r' ∈ blanks.dropWhile isIndent := by
    rw [← List.takeWhile_append_dropWhile (p := isIndent) (l := blanks)] at hreturn
    rcases List.mem_append.1 hreturn with h | h
    · exact absurd (List.mem_takeWhile_imp h) (by decide)
    · exact h
  obtain ⟨c, content, hcontent⟩ := List.exists_cons_of_ne_nil (List.ne_nil_of_mem hmem)
  have hc : c ∈ blanks := (List.dropWhile_suffix isIndent).subset (by rw [hcontent]; simp)
  have hdrop : (blanks ++ '#' :: rest).dropWhile isIndent = c :: content ++ '#' :: rest := by
    rw [List.dropWhile_append, hcontent]
    rfl
  have hcomment := (ne_of_isBlank (hblanks c hc)).2
  have hblank : Text.isBlank '#' = false := by decide
  simp [isSkipped, hdrop, hcomment, hblank]

theorem eq_nil_or_comment {cs : List Char} (h : stripComment cs = []) :
    cs = [] ∨ ∃ rest, cs = '#' :: rest := by
  unfold stripComment at h
  split at h
  · exact .inl rfl
  · exact .inr ⟨_, rfl⟩
  · split at h <;> cases h
  · cases h

theorem isReadable_iff : isReadable line = true ↔ (Lexeme.ofLine line).2 = none := by
  rw [isReadable, Lexeme.ofLine_dropWhile, Option.isNone_iff_eq_none]

/-- A line of code that can be read has a lexeme, or a carriage return before its comment. -/
theorem ofLine_ne_nil {rest : List Char} (hline : isSkipped line = false)
    (hplain : ¬HidesComment line) (hreads : Lexeme.Reads line (Lexeme.ofLine line).1 rest)
    (hrest : stripComment rest = []) : (Lexeme.ofLine line).1 ≠ [] := by
  intro hnil
  rw [hnil] at hreads
  obtain ⟨gaps, rfl, hgaps⟩ := hreads.exists_gaps
  have hblanks : ∀ c ∈ gaps, Text.isBlank c = true := fun c hc => isBlank_of_isGap (hgaps c hc)
  have hskipped : isSkipped (gaps ++ rest) = true := by
    rcases eq_nil_or_comment hrest with rfl | ⟨rest, rfl⟩
    · exact isSkipped_of_isBlank (by rwa [List.append_nil])
    · refine isSkipped_of_isIndent (fun c hc => ?_) rest
      have hreturn : c ≠ '\r' := by
        rintro rfl
        exact hplain ⟨gaps, ⟨hblanks, rest, rfl⟩, hc⟩
      simpa [Lexeme.isGap, isIndent, hreturn] using hgaps c hc
  rw [hline] at hskipped
  cases hskipped

theorem takeWhile_isIndent_append (h : isSkipped line = false) (rest : List Char) :
    (line ++ rest).takeWhile isIndent = line.takeWhile isIndent := by
  rw [List.takeWhile_append, if_neg]
  intro hlength
  have hall : line.takeWhile isIndent = line :=
    (List.takeWhile_prefix _).eq_of_length hlength
  have hskipped : isSkipped line = true := isSkipped_of_isBlank fun c hc =>
    isBlank_of_isIndent (List.mem_takeWhile_imp (hall.symm ▸ hc))
  rw [h] at hskipped
  cases hskipped

/-- A line of code keeps its width and its lexemes. -/
theorem Leaves.read (h : Leaves line line') (hline : isSkipped line = false)
    (hread : isReadable line = true) (hplain : ¬HidesComment line) :
    isSkipped line' = false ∧ indentWidth line' = indentWidth line ∧
      Lexeme.ofLine line' = Lexeme.ofLine line := by
  have hnone := isReadable_iff.1 hread
  obtain ⟨rest, hreads, hrest⟩ := exists_reads_of_ofLine hnone
  have hne := ofLine_ne_nil hline hplain hreads hrest
  obtain ⟨before, heq, hbefore, hstrip⟩ := hreads.exists_before
  rw [hrest, List.append_nil] at hstrip
  obtain ⟨hreads', tail, htail⟩ :
      Lexeme.Reads line' (Lexeme.ofLine line).1 [] ∧ ∃ tail, before = line' ++ tail := by
    rcases h with rfl | h
    · rw [hstrip]
      exact ⟨hbefore, [], (List.append_nil _).symm⟩
    · rw [hstrip] at h
      rw [← h] at hbefore ⊢
      exact ⟨hbefore.of_append_return, _, rfl⟩
  have hskipped := hreads'.isSkipped_eq_false hne
  refine ⟨hskipped, ?_, ?_⟩
  · rw [indentWidth, indentWidth, heq, htail, List.append_assoc, takeWhile_isIndent_append hskipped]
  · rw [hreads'.ofLine_eq]
    simp [Lexeme.ofLine, Prod.ext_iff, hnone]

theorem scanLine_congr (hwidth : indentWidth line' = indentWidth line)
    (hlexemes : Lexeme.ofLine line' = Lexeme.ofLine line) (hread : isReadable line = true)
    (blocks : Blocks) (number : Nat) :
    scanLine blocks number line' = scanLine blocks number line := by
  simp only [scanLine_eq, Lexeme.ofLine_dropWhile, hwidth, hlexemes, isReadable_iff.1 hread]

end Lines

section Breaks

/-- Lines with the breaks between them. The last line need not have one. -/
inductive Broken : List (List Char × List Char) → Prop
  | nil : Broken []
  | last {line : List Char} (h : '\n' ∉ line) : Broken [(line, [])]
  | cons {line ending : List Char} {more : List (List Char × List Char)} (h : '\n' ∉ line)
      (hending : ending = ['\n'] ∨ ending = ['\r', '\n']) (hmore : Broken more) :
      Broken ((line, ending) :: more)

theorem head?_ne_newline {c : Char} {rest : List Char}
    (h : ∀ more, c = '\r' → rest = '\n' :: more → False) : c = '\r' → rest.head? ≠ some '\n' := by
  intro hc hhead
  obtain ⟨more, rfl⟩ := List.head?_eq_some_iff.1 hhead
  exact h more hc rfl

theorem map_fst_brokenLines (cs : List Char) : (brokenLines cs).map Prod.fst = Text.lines cs := by
  fun_induction brokenLines cs with
  | case1 => rfl
  | case2 rest ih => rw [List.map_cons, ih, Text.lines]
  | case3 rest ih => rw [List.map_cons, ih, Text.lines]
  | case4 c rest hr hc hnil ih =>
    rw [hnil] at ih
    rw [Text.lines_cons hc (head?_ne_newline hr), ← ih]
    rfl
  | case5 c rest hr hc line ending more hcons ih =>
    rw [hcons] at ih
    rw [Text.lines_cons hc (head?_ne_newline hr), ← ih]
    rfl

theorem broken_brokenLines (cs : List Char) : Broken (brokenLines cs) := by
  fun_induction brokenLines cs with
  | case1 => exact .nil
  | case2 rest ih => exact .cons List.not_mem_nil (.inr rfl) ih
  | case3 rest ih => exact .cons List.not_mem_nil (.inl rfl) ih
  | case4 c rest hr hc hnil ih => exact .last (by simpa using Ne.symm hc)
  | case5 c rest hr hc line ending more hcons ih =>
    rw [hcons] at ih
    have hmem {line : List Char} (h : '\n' ∉ line) : '\n' ∉ c :: line := by
      simpa [h] using Ne.symm hc
    cases ih with
    | last h => exact .last (hmem h)
    | cons h hending hmore => exact .cons (hmem h) hending hmore

theorem prefix_stripComment (cs : List Char) : stripComment cs <+: cs := by
  fun_induction stripComment cs with
  | case1 => exact List.prefix_rfl
  | case2 => exact List.nil_prefix
  | case3 c rest hc ih => simpa using ih
  | case4 c rest hc ih => simpa using ih
  | case5 c rest _ _ ih => simpa using ih

/-- The lines of a source without its comments, and maybe an empty line at the end that is no longer
there. -/
theorem Broken.exists_leaves {lines : List (List Char × List Char)} (h : Broken lines) :
    ∃ tail, List.Forall₂ Leaves (lines.map Prod.fst) (Text.lines (stripLines lines) ++ tail) ∧
      ∀ line ∈ tail, line = [] := by
  have hmem {line : List Char} (h : '\n' ∉ line) : '\n' ∉ stripComment line := fun hmem =>
    h ((prefix_stripComment line).subset hmem)
  induction h with
  | nil => exact ⟨[], .nil, List.forall_mem_nil _⟩
  | @last line h =>
    have hstrip : stripLines [(line, [])] = stripComment line := by simp [stripLines]
    rw [hstrip]
    cases hline : stripComment line with
    | nil => exact ⟨[[]], .cons (.inl hline.symm) .nil, by simp⟩
    | cons c rest =>
      have hsingle := Text.lines_eq_singleton (List.cons_ne_nil c rest) (hline ▸ hmem h)
      rw [hsingle]
      exact ⟨[], .cons (.inl hline.symm) .nil, List.forall_mem_nil _⟩
  | @cons line ending more h hending hmore ih =>
    obtain ⟨tail, hleaves, htail⟩ := ih
    obtain ⟨line', hline', hlines⟩ := Text.exists_lines_eq (hmem h) hending (stripLines more)
    refine ⟨tail, ?_, htail⟩
    have hstrip : stripLines ((line, ending) :: more) =
        stripComment line ++ (ending ++ stripLines more) := by
      rw [stripLines, List.flatMap_cons, List.append_assoc]
      rfl
    rw [hstrip, hlines]
    exact .cons hline' hleaves

end Breaks

section Scanning

variable {blocks : Blocks} {last : Nat} {ts : List Token}

def numbered (start : Nat) (lines : List (List Char)) : List (Nat × List Char) :=
  (lines.zipIdx start).map fun p => (p.2 + 1, p.1)

theorem numbered_cons (start : Nat) (line : List Char) (lines : List (List Char)) :
    numbered start (line :: lines) = (start + 1, line) :: numbered (start + 1) lines := by
  rw [numbered, List.zipIdx_cons, List.map_cons]
  rfl

/-- Lines whose comments are deleted are scanned as before. -/
theorem scanLines_leaves {lines lines' : List (List Char)} (h : List.Forall₂ Leaves lines lines')
    (hplain : ∀ line ∈ lines, ¬HidesComment line) (start : Nat)
    (hitems : (scanLines blocks last (numbered start lines)).items = ts.map .ok) :
    scanLines blocks last (numbered start lines') =
      scanLines blocks last (numbered start lines) := by
  induction h generalizing blocks last ts start with
  | nil => rfl
  | @cons line line' lines lines' hleaves h ih =>
    obtain ⟨hline, hlines⟩ := List.forall_mem_cons.1 hplain
    rw [numbered_cons] at hitems ⊢
    rw [numbered_cons]
    cases hskipped : isSkipped line with
    | true =>
      rw [scanLines, if_pos hskipped] at hitems
      rw [scanLines, if_pos (hleaves.skipped hskipped), scanLines, if_pos hskipped]
      exact ih hlines (start + 1) hitems
    | false =>
      obtain ⟨us, -, hwidth, hread, hus⟩ := exists_of_scanLines_cons hskipped hitems
      obtain ⟨hskipped', hwidth', hlexemes⟩ := hleaves.read hskipped hread hline
      rw [scanLines_cons hskipped', scanLines_cons hskipped,
        scanLine_congr hwidth' hlexemes hread, scanLine_of_readable hwidth hread,
        ih hlines (start + 1) hus]

theorem scanLines_append_nil {lines tail : List (List Char)} (h : ∀ line ∈ tail, line = [])
    (start : Nat) :
    scanLines blocks last (numbered start (lines ++ tail)) =
      scanLines blocks last (numbered start lines) := by
  have htail : (numbered (start + lines.length) tail).filter (fun e => !isSkipped e.2) = [] := by
    rw [List.filter_eq_nil_iff]
    intro e he
    obtain ⟨p, hp, rfl⟩ := List.mem_map.1 he
    have hskipped : isSkipped [] = true := by decide
    simp [h p.1 (List.fst_mem_of_mem_zipIdx hp), hskipped]
  have happend : numbered start (lines ++ tail) =
      numbered start lines ++ numbered (start + lines.length) tail := by
    rw [numbered, List.zipIdx_append, List.map_append]
    rfl
  rw [← scanLines_filter, happend, List.filter_append, htail, List.append_nil, scanLines_filter]

theorem exists_leaves (source : String) :
    ∃ tail, List.Forall₂ Leaves (Text.lines source.toList)
        (Text.lines (withoutComments source).toList ++ tail) ∧ ∀ line ∈ tail, line = [] := by
  rw [withoutComments, String.toList_ofList, ← map_fst_brokenLines]
  exact (broken_brokenLines source.toList).exists_leaves

theorem scan_withoutComments {source : String}
    (h : (TokenStream.scan source).items = ts.map .ok)
    (hplain : ∀ line ∈ Text.lines source.toList, ¬HidesComment line) :
    TokenStream.scan (withoutComments source) = TokenStream.scan source := by
  obtain ⟨tail, hleaves, htail⟩ := exists_leaves source
  rw [TokenStream.scan_eq_scanLines] at h ⊢
  rw [TokenStream.scan_eq_scanLines]
  calc
    scanLines [] 1 (numbered 0 (Text.lines (withoutComments source).toList))
      = scanLines [] 1 (numbered 0 (Text.lines (withoutComments source).toList ++ tail)) :=
        (scanLines_append_nil htail 0).symm
    _ = scanLines [] 1 (numbered 0 (Text.lines source.toList)) :=
        scanLines_leaves hleaves hplain 0 h

variable {lines : List (Nat × List Char)}

/-- Every token is on a line of code, or there is none. -/
theorem line_of_mem_scanLines (hlines : ∀ e ∈ lines, isSkipped e.2 = false)
    (h : (scanLines blocks last lines).items = ts.map .ok) :
    ∀ x ∈ ts ++ [.eof (scanLines blocks last lines).eofLine],
      (lines = [] ∧ x.line = last) ∨ ∃ line, (x.line, line) ∈ lines := by
  induction lines generalizing blocks last ts with
  | nil =>
    rw [scanLines_nil] at h
    rw [← map_ok_injective h]
    intro x hx
    left
    rcases List.mem_append.1 hx with hx | hx
    · rw [List.eq_of_mem_replicate hx]
      exact ⟨rfl, rfl⟩
    · rw [List.mem_singleton.1 hx]
      exact ⟨rfl, rfl⟩
  | cons e lines ih =>
    obtain ⟨number, line⟩ := e
    obtain ⟨hline, hlines⟩ := List.forall_mem_cons.1 hlines
    obtain ⟨us, rfl, hwidth, hread, hus⟩ := exists_of_scanLines_cons hline h
    have heof : (scanLines blocks last ((number, line) :: lines)).eofLine =
        (scanLines (settle blocks number (indentWidth line)).2 number lines).eofLine := by
      rw [scanLines_cons hline, scanLine_of_readable hwidth hread]
      rfl
    have hhere {x : Token} (hx : x.line = number) :
        ∃ line', (x.line, line') ∈ (number, line) :: lines := by
      rw [hx]
      exact ⟨line, List.mem_cons_self⟩
    intro x hx
    right
    rw [heof, List.append_assoc, List.append_assoc, List.mem_append, List.mem_append] at hx
    rcases hx with hx | hx | hx
    · exact hhere (line_of_mem_settle hx)
    · exact hhere (mem_lineTokens x hx).1
    · rcases ih hlines hus x hx with ⟨-, hx⟩ | ⟨line', hmem⟩
      · exact hhere hx
      · exact ⟨line', List.mem_cons_of_mem _ hmem⟩

/-- Every line of code is read to its end. -/
theorem read_of_mem_scanLines (hlines : ∀ e ∈ lines, isSkipped e.2 = false)
    (h : (scanLines blocks last lines).items = ts.map .ok) :
    ∀ e ∈ lines, isReadable e.2 = true ∧ marker .newline e.1 ∈ ts := by
  induction lines generalizing blocks last ts with
  | nil => exact List.forall_mem_nil _
  | cons e lines ih =>
    obtain ⟨number, line⟩ := e
    obtain ⟨hline, hlines⟩ := List.forall_mem_cons.1 hlines
    obtain ⟨us, rfl, -, hread, hus⟩ := exists_of_scanLines_cons hline h
    refine List.forall_mem_cons.2 ⟨⟨hread, ?_⟩, fun e he => ?_⟩
    · simp [lineTokens]
    · obtain ⟨hread', hmem⟩ := ih hlines hus e he
      exact ⟨hread', by simp [hmem]⟩

end Scanning

end Layout

open Layout

section Tokens

variable {source : String} {tokens : List Token}

theorem read_of_mem_codeLines (h : tokenize source = .ok tokens) {e : Nat × List Char}
    (he : e ∈ codeLines source) : isReadable e.2 = true ∧ marker .newline e.1 ∈ tokens := by
  obtain ⟨ts, hts, rfl⟩ := tokenize_eq_ok.1 h
  rw [scan_eq] at hts
  obtain ⟨hread, hmem⟩ :=
    read_of_mem_scanLines (fun _ hline => isSkipped_of_mem_codeLines hline) hts e he
  exact ⟨hread, List.mem_append_left _ hmem⟩

theorem line_of_mem_tokenize (h : tokenize source = .ok tokens) :
    tokens = [.eof 1] ∨ ∀ x ∈ tokens, ∃ line, (x.line, line) ∈ codeLines source := by
  obtain ⟨ts, hts, rfl⟩ := tokenize_eq_ok.1 h
  rw [scan_eq] at hts ⊢
  cases hcode : codeLines source with
  | nil =>
    rw [hcode, scanLines_nil] at hts
    left
    rw [← map_ok_injective hts]
    rfl
  | cons e lines =>
    right
    intro x hx
    rw [hcode] at hts
    have hlines : ∀ e' ∈ e :: lines, isSkipped e'.2 = false := fun e' he =>
      isSkipped_of_mem_codeLines (hcode ▸ he)
    rcases line_of_mem_scanLines hlines hts x hx with ⟨hnil, -⟩ | hmem
    · cases hnil
    · exact hmem

theorem eq_of_mem_numberedLines {cs line line' : List Char} {number : Nat}
    (h : (number, line) ∈ Text.numberedLines cs) (h' : (number, line') ∈ Text.numberedLines cs) :
    line = line' :=
  Option.some.inj ((mem_numberedLines h).2.symm.trans (mem_numberedLines h').2)

/-- A comment behind spaces and tabs leaves no token on its line. -/
theorem isSkipped_of_isComment {number : Nat} {line blanks : List Char}
    (h : tokenize source = .ok tokens) (hline : (number, line) ∈ Text.numberedLines source.toList)
    (hcomment : IsComment line blanks) (hreturn : '\r' ∉ blanks) : isSkipped line = true := by
  by_contra hskipped
  rw [Bool.not_eq_true] at hskipped
  have hplain : ¬HidesComment line := by
    rintro ⟨blanks', hcomment', hreturn'⟩
    rw [← hcomment'.stripComment_eq, hcomment.stripComment_eq] at hreturn'
    exact hreturn hreturn'
  have hcode : (number, line) ∈ codeLines source :=
    List.mem_filter.2 ⟨hline, by rw [hskipped]; rfl⟩
  have hleaves : Leaves line (stripComment line) := .inl rfl
  have hstays := (hleaves.read hskipped (read_of_mem_codeLines h hcode).1 hplain).1
  rw [hleaves.isSkipped_of_isComment hcomment] at hstays
  cases hstays

/-- What is left of a line stands on the line with the same number. -/
theorem leaves_of_mem_numberedLines {number : Nat} {line line' : List Char}
    (h : (number, line) ∈ Text.numberedLines source.toList)
    (h' : (number, line') ∈ Text.numberedLines (withoutComments source).toList) :
    Leaves line line' := by
  obtain ⟨tail, hleaves, -⟩ := exists_leaves source
  obtain ⟨hlt, hget⟩ := List.getElem?_eq_some_iff.1 (mem_numberedLines h).2
  obtain ⟨hlt', hget'⟩ := List.getElem?_eq_some_iff.1 (mem_numberedLines h').2
  have hleaf := (List.forall₂_iff_get.1 hleaves).2 (number - 1) hlt
    (Nat.lt_of_lt_of_le hlt' (by simp))
  rwa [List.get_eq_getElem, hget, List.get_eq_getElem, List.getElem_append_left hlt', hget']
    at hleaf

/-- Deleting the comments of a source leaves its tokens as they are exactly if no comment has a
carriage return among the white space before it on its line. A line of other white space and a
comment has no token; where no line has one, the end marker is on line one. -/
theorem tokenize_withoutComments_iff (h : tokenize source = .ok tokens) :
    (tokenize (withoutComments source) = .ok tokens ↔
      ∀ line ∈ Text.lines source.toList, ¬HidesComment line) ∧
    ∀ number line blanks, (number, line) ∈ Text.numberedLines source.toList →
      IsComment line blanks → '\r' ∉ blanks →
        ∀ x ∈ tokens, x.line = number → tokens = [.eof 1] := by
  refine ⟨⟨fun h' line hline hhides => ?_, fun hplain => ?_⟩, ?_⟩
  · obtain ⟨i, hi⟩ := List.mem_iff_getElem?.1 hline
    have hnumbered : (i + 1, line) ∈ Text.numberedLines source.toList :=
      List.mem_map.2 ⟨(line, i), List.mem_zipIdx_iff_getElem?.2 hi, rfl⟩
    have hcode : (i + 1, line) ∈ codeLines source :=
      List.mem_filter.2 ⟨hnumbered, by rw [hhides.isSkipped_eq_false]; rfl⟩
    -- the line is ended in the source, but there is no code left on it
    have hnewline := (read_of_mem_codeLines h hcode).2
    rcases line_of_mem_tokenize h' with rfl | hcode'
    · have hkind : Terminal.newline.name = Symbol.eof :=
        congrArg Token.kind (List.mem_singleton.1 hnewline)
      exact absurd hkind (by decide)
    · obtain ⟨line', hline'⟩ := hcode' _ hnewline
      have hleaves := leaves_of_mem_numberedLines hnumbered (List.mem_filter.1 hline').1
      obtain ⟨blanks, hcomment, -⟩ := hhides
      have hskipped := isSkipped_of_mem_codeLines hline'
      rw [hleaves.isSkipped_of_isComment hcomment] at hskipped
      cases hskipped
  · obtain ⟨ts, hts, -⟩ := tokenize_eq_ok.1 h
    rw [← h, tokenize_eq, tokenize_eq, scan_withoutComments hts hplain]
  · intro number line blanks hline hcomment hreturn x hx hnumber
    rcases line_of_mem_tokenize h with hempty | hcode
    · exact hempty
    · obtain ⟨line', hline'⟩ := hcode x hx
      rw [hnumber] at hline'
      obtain rfl := eq_of_mem_numberedLines hline (List.mem_filter.1 hline').1
      have hskipped := isSkipped_of_mem_codeLines hline'
      rw [isSkipped_of_isComment h hline hcomment hreturn] at hskipped
      cases hskipped

theorem tokenize_withoutComments_iff_trailing :
    tokenize "x = '#' # c\r\n\t # d\ny\r# e" =
        .ok [⟨"ID", some "x", 1⟩, ⟨"EQ", none, 1⟩, ⟨"CHARLIT", some "#", 1⟩, ⟨"NEWLINE", none, 1⟩,
          ⟨"ID", some "y", 3⟩, ⟨"NEWLINE", none, 3⟩, .eof 3] ∧
      withoutComments "x = '#' # c\r\n\t # d\ny\r# e" = "x = '#' \r\n\t \ny\r" ∧
      ∀ line ∈ Text.lines "x = '#' # c\r\n\t # d\ny\r# e".toList, ¬HidesComment line := by
  have htokens : tokenize "x = '#' # c\r\n\t # d\ny\r# e" =
      .ok [⟨"ID", some "x", 1⟩, ⟨"EQ", none, 1⟩, ⟨"CHARLIT", some "#", 1⟩, ⟨"NEWLINE", none, 1⟩,
        ⟨"ID", some "y", 3⟩, ⟨"NEWLINE", none, 3⟩, .eof 3] := by
    rw [tokenize_eq_scanLines]
    decide +kernel
  exact ⟨htokens, by decide +kernel,
    (tokenize_withoutComments_iff htokens).1.1 (by rw [tokenize_eq_scanLines]; decide +kernel)⟩

/-- A carriage return before a comment makes an empty line a line of code. -/
theorem tokenize_withoutComments_ne :
    tokenize "\r#c\n" = .ok [marker .newline 1, .eof 1] ∧
      tokenize (withoutComments "\r#c\n") = .ok [.eof 1] := by
  rw [tokenize_eq_scanLines, tokenize_eq_scanLines]
  decide +kernel

end Tokens

end Lookahead
