import Lookahead.Proofs.Layout.Lines
import Lookahead.Proofs.Text.Splitting
import Mathlib.Data.List.Forall2
import Mathlib.Data.List.TakeWhile

namespace Lookahead

namespace Text

/-- The text is empty, or its last line is ended. -/
def EndsLine (cs : List Char) : Prop := cs = [] ∨ cs.getLast? = some '\n'

theorem EndsLine.tail {c : Char} {cs : List Char} (h : EndsLine (c :: cs)) : EndsLine cs := by
  cases cs with
  | nil => exact .inl rfl
  | cons d cs => simpa [EndsLine] using h

theorem EndsLine.ne_nil {c : Char} {cs : List Char} (h : EndsLine (c :: cs)) (hc : c ≠ '\n') :
    cs ≠ [] := by
  rintro rfl
  simp [EndsLine, hc] at h

theorem lines_append {cs ds : List Char} (h : EndsLine cs) :
    lines (cs ++ ds) = lines cs ++ lines ds := by
  induction cs using lines.induct with
  | case1 => rfl
  | case2 cs ih => exact congrArg ([] :: ·) (ih h.tail.tail)
  | case3 cs ih => exact congrArg ([] :: ·) (ih h.tail)
  | case4 c cs hr hc heq => exact absurd heq (lines_ne_nil (h.ne_nil hc))
  | case5 c cs hr hc line more heq ih =>
    obtain ⟨d, cs, rfl⟩ := List.exists_cons_of_ne_nil (h.ne_nil hc)
    have hhead : c = '\r' → d ≠ '\n' := fun h h' => hr cs h (by rw [h'])
    rw [List.cons_append, lines_cons hc (by simpa using hhead), ih h.tail,
      lines_cons hc (by simpa using hhead), heq]
    rfl

end Text

def Token.shift (count : Nat) (x : Token) : Token := { x with line := x.line + count }

/-- A token that has been moved to another line. The end of a block may be on any line. -/
structure Token.Moved (f : Nat → Nat) (x y : Token) : Prop where
  kind : y.kind = x.kind
  literal : y.literal = x.literal
  line : x.kind = Terminal.blockEnd.name ∨ y.line = f x.line

namespace Layout

def shiftLine (count : Nat) (e : Nat × List Char) : Nat × List Char := (e.1 + count, e.2)

theorem codeLines_append {s₁ s₂ : String} (h : Text.EndsLine s₁.toList) :
    codeLines (s₁ ++ s₂) =
      codeLines s₁ ++ (codeLines s₂).map (shiftLine (Text.lines s₁.toList).length) := by
  have hnumbered : Text.numberedLines (s₁ ++ s₂).toList = Text.numberedLines s₁.toList ++
      (Text.numberedLines s₂.toList).map (shiftLine (Text.lines s₁.toList).length) := by
    rw [String.toList_append, Text.numberedLines, Text.lines_append h, List.zipIdx_append,
      List.map_append, Nat.zero_add, ← Nat.add_zero (Text.lines s₁.toList).length,
      ← List.map_snd_add_zipIdx_eq_zipIdx, Text.numberedLines, Text.numberedLines, List.map_map,
      List.map_map, Nat.add_zero]
    congr 1
    refine List.map_congr_left fun p _ => ?_
    simp only [Function.comp, Prod.map, shiftLine, id]
    rw [Nat.add_right_comm]
  rw [codeLines, hnumbered, List.filter_append, List.filter_map]
  rfl

section Seam

variable {blocks : Blocks} {lines : List (Nat × List Char)} {last : Nat} {ts : List Token}

theorem pos_of_mem_settle (h : ∀ b ∈ blocks, 0 < b) (number width : Nat) :
    ∀ b ∈ (settle blocks number width).2, 0 < b := by
  intro b hb
  unfold settle at hb
  split at hb
  · next hlt =>
    rcases List.mem_cons.1 hb with rfl | hb
    · omega
    · exact h b hb
  · exact h b ((List.dropWhile_suffix _).subset hb)

/-- A line that is not indented closes all blocks. -/
theorem settle_zero (h : ∀ b ∈ blocks, 0 < b) (number : Nat) :
    settle blocks number 0 = (List.replicate blocks.length (marker .blockEnd number), []) := by
  have hnone : blocks.dropWhile (0 < ·) = [] := by
    rw [List.dropWhile_eq_nil_iff]
    simpa using h
  rw [settle, if_neg (Nat.not_lt_zero _), hnone]
  rfl

/-- More lines go on with the blocks that are open at the end, which are closed there only if there
are no more lines. -/
theorem exists_of_scanLines (hlines : ∀ e ∈ lines, isSkipped e.2 = false)
    (hpos : ∀ b ∈ blocks, 0 < b) (h : (scanLines blocks last lines).items = ts.map .ok) :
    ∃ us blocks' last', ts = us ++ List.replicate blocks'.length (marker .blockEnd last') ∧
      (∀ b ∈ blocks', 0 < b) ∧ ∀ more, (scanLines blocks last (lines ++ more)).items =
        us.map .ok ++ (scanLines blocks' last' more).items := by
  induction lines generalizing blocks last ts with
  | nil =>
    rw [scanLines_nil] at h
    exact ⟨[], blocks, last, (map_ok_injective h).symm, hpos, fun more => rfl⟩
  | cons e lines ih =>
    obtain ⟨number, line⟩ := e
    obtain ⟨hline, hlines⟩ := List.forall_mem_cons.1 hlines
    obtain ⟨vs, rfl, hwidth, hread, hvs⟩ := exists_of_scanLines_cons hline h
    obtain ⟨us, blocks', last', rfl, hpos', hmore⟩ :=
      ih hlines (pos_of_mem_settle hpos number (indentWidth line)) hvs
    refine ⟨(settle blocks number (indentWidth line)).1 ++ (lineTokens number line ++ us), blocks',
      last', ?_, hpos', fun more => ?_⟩
    · simp only [List.append_assoc]
    · rw [List.cons_append, scanLines_cons hline, scanLine_of_readable hwidth hread]
      change _ ++ (scanLines _ number (lines ++ more)).items = _
      rw [hmore more]
      simp only [List.map_append, List.append_assoc]

theorem settle_shift (blocks : Blocks) (number width count : Nat) :
    settle blocks (number + count) width =
      ((settle blocks number width).1.map (Token.shift count), (settle blocks number width).2) := by
  unfold settle
  split
  · rfl
  · rw [List.map_replicate]
    rfl

theorem lineTokens_shift (number count : Nat) (line : List Char) :
    lineTokens (number + count) line = (lineTokens number line).map (Token.shift count) := by
  rw [lineTokens, lineTokens, List.map_append, List.map_map]
  rfl

theorem scanLines_shift (hlines : ∀ e ∈ lines, isSkipped e.2 = false)
    (h : (scanLines blocks last lines).items = ts.map .ok) (count : Nat) :
    (scanLines blocks (last + count) (lines.map (shiftLine count))).items =
      (ts.map (Token.shift count)).map .ok := by
  induction lines generalizing blocks last ts with
  | nil =>
    rw [scanLines_nil] at h
    rw [← map_ok_injective h, List.map_nil, scanLines_nil,
      List.map_replicate (f := Token.shift count)]
    rfl
  | cons e lines ih =>
    obtain ⟨number, line⟩ := e
    obtain ⟨hline, hlines⟩ := List.forall_mem_cons.1 hlines
    obtain ⟨vs, rfl, hwidth, hread, hvs⟩ := exists_of_scanLines_cons hline h
    have hshift := settle_shift blocks number (indentWidth line) count
    rw [List.map_cons, shiftLine, scanLines_cons hline,
      scanLine_of_readable (by rw [hshift]; exact hwidth) hread, hshift, lineTokens_shift]
    change _ ++ (scanLines _ (number + count) (lines.map (shiftLine count))).items = _
    rw [ih hlines hvs]
    simp only [List.map_append, List.append_assoc]

/-- Where a line is not indented, only the ends of blocks tell what came before it. -/
theorem scanLines_of_indentWidth_zero {number : Nat} {line : List Char} (hpos : ∀ b ∈ blocks, 0 < b)
    (hline : isSkipped line = false) (hread : isReadable line = true)
    (hzero : indentWidth line = 0) (last' : Nat) :
    (scanLines blocks last ((number, line) :: lines)).items =
      (List.replicate blocks.length (marker .blockEnd number)).map .ok ++
        (scanLines [] last' ((number, line) :: lines)).items := by
  have hsettle := settle_zero hpos number
  have hsettle' := settle_zero (List.forall_mem_nil _) number
  rw [scanLines_cons hline, scanLine_of_readable (by rw [hzero, hsettle]; rfl) hread,
    scanLines_cons hline, scanLine_of_readable (by rw [hzero, hsettle']; rfl) hread, hzero, hsettle,
    hsettle', List.map_append]
  exact List.append_assoc _ _ _

end Seam

/-- A source that does not begin with a block has no indentation at its first line. -/
theorem indentWidth_eq_zero {number last : Nat} {line : List Char}
    {rest : List (Nat × List Char)} {ts : List Token} (hline : isSkipped line = false)
    (h : (scanLines [] last ((number, line) :: rest)).items = ts.map .ok)
    (hfirst : ∀ x ∈ ts.head?, x.kind ≠ Terminal.blockBegin.name) : indentWidth line = 0 := by
  obtain ⟨vs, rfl, -⟩ := exists_of_scanLines_cons hline h
  rcases Nat.eq_zero_or_pos (indentWidth line) with hwidth | hwidth
  · exact hwidth
  · have hopens : Blocks.width [] < indentWidth line := hwidth
    rw [settle, if_pos hopens] at hfirst
    exact absurd rfl (hfirst _ rfl)

/-- The tokens of two sources put together. The second must not begin with a block, so that its
first line closes all blocks of the first. -/
theorem exists_scan_append {s₁ s₂ : String} (hs : Text.EndsLine s₁.toList) {ts₁ ts₂ : List Token}
    (h₁ : (TokenStream.scan s₁).items = ts₁.map .ok)
    (h₂ : (TokenStream.scan s₂).items = ts₂.map .ok)
    (hfirst : ∀ x ∈ ts₂.head?, x.kind ≠ Terminal.blockBegin.name) :
    ∃ us vs, (TokenStream.scan (s₁ ++ s₂)).items = (us ++ vs).map .ok ∧
      List.Forall₂ (Token.Moved id) ts₁ us ∧
      List.Forall₂ (Token.Moved (· + (Text.lines s₁.toList).length)) ts₂ vs := by
  have hlines₁ : ∀ e ∈ codeLines s₁, isSkipped e.2 = false := fun e he =>
    isSkipped_of_mem_codeLines he
  have hlines₂ : ∀ e ∈ codeLines s₂, isSkipped e.2 = false := fun e he =>
    isSkipped_of_mem_codeLines he
  have hself (ts : List Token) : List.Forall₂ (Token.Moved id) ts ts :=
    List.forall₂_same.2 fun _ _ => ⟨rfl, rfl, .inr rfl⟩
  rw [scan_eq] at h₁ h₂ ⊢
  rw [codeLines_append hs]
  generalize (Text.lines s₁.toList).length = count
  have hshift (ts : List Token) :
      List.Forall₂ (Token.Moved (· + count)) ts (ts.map (Token.shift count)) :=
    List.forall₂_map_right_iff.2 (List.forall₂_same.2 fun _ _ => ⟨rfl, rfl, .inr rfl⟩)
  obtain ⟨us, blocks, last, rfl, hpos, hmore⟩ :=
    exists_of_scanLines hlines₁ (List.forall_mem_nil _) h₁
  rw [hmore]
  cases hcode : codeLines s₂ with
  | nil =>
    rw [hcode] at h₂
    obtain rfl : ts₂ = [] := List.map_eq_nil_iff.1 h₂.symm
    refine ⟨_, [], ?_, hself _, .nil⟩
    rw [List.map_nil, scanLines_nil, List.append_nil, List.map_append]
  | cons e rest =>
    obtain ⟨number, line⟩ := e
    rw [hcode] at h₂ hlines₂
    have hline := hlines₂ _ List.mem_cons_self
    have hzero := indentWidth_eq_zero hline h₂ hfirst
    obtain ⟨_, -, -, hread, -⟩ := exists_of_scanLines_cons hline h₂
    have hsecond : (scanLines [] (1 + count)
        ((number + count, line) :: rest.map (shiftLine count))).items = _ :=
      scanLines_shift hlines₂ h₂ count
    -- The blocks that the end of the first source would close are closed by this line.
    refine ⟨us ++ List.replicate blocks.length (marker .blockEnd (number + count)),
      ts₂.map (Token.shift count), ?_, ?_, hshift ts₂⟩
    · rw [List.map_cons, shiftLine, scanLines_of_indentWidth_zero hpos hline hread hzero, hsecond]
      simp only [List.map_append, List.append_assoc]
    · refine List.rel_append (hself us) (List.forall₂_iff_get.2 ⟨by simp, fun i h₁ h₂ => ?_⟩)
      simp only [List.get_eq_getElem, List.getElem_replicate]
      exact ⟨rfl, rfl, .inl rfl⟩

end Layout

end Lookahead
