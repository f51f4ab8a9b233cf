import Lookahead.Proofs.Layout.Tokens

namespace Lookahead.Layout

def codeLines (source : String) : List (Nat × List Char) :=
  (Text.numberedLines source.toList).filter fun e => !isSkipped e.2

/-- At the end of the source all blocks are closed. -/
theorem scanLines_nil (blocks : Blocks) (last : Nat) :
    (scanLines blocks last []).items =
      (List.replicate blocks.length (marker .blockEnd last)).map .ok := by
  rw [scanLines, List.map_replicate, List.map_const']

theorem scanLines_cons {number : Nat} {line : List Char} (h : isSkipped line = false)
    (blocks : Blocks) (last : Nat) (rest : List (Nat × List Char)) :
    scanLines blocks last ((number, line) :: rest) =
      (scanLines (scanLine blocks number line).2 number rest).prepend
        (scanLine blocks number line).1 := by
  rw [scanLines, if_neg (Bool.eq_false_iff.1 h)]

theorem scanLines_filter (blocks : Blocks) (last : Nat) (lines : List (Nat × List Char)) :
    scanLines blocks last (lines.filter fun e => !isSkipped e.2) = scanLines blocks last lines := by
  induction lines generalizing blocks last with
  | nil => rfl
  | cons e lines ih =>
    obtain ⟨number, line⟩ := e
    cases h : isSkipped line with
    | true => rw [List.filter_cons_of_neg (by simp [h]), ih, scanLines, if_pos h]
    | false =>
      rw [List.filter_cons_of_pos (by simp [h]), scanLines_cons h, scanLines_cons h, ih]

theorem scan_eq (source : String) : TokenStream.scan source = scanLines [] 1 (codeLines source) :=
  (TokenStream.scan_eq_scanLines source).trans (scanLines_filter [] 1 _).symm

theorem isGap_of_isIndent {c : Char} (h : isIndent c = true) : Lexeme.isGap c = true := by
  rw [isIndent] at h
  rw [Lexeme.isGap, h, Bool.true_or]

def isReadable (line : List Char) : Bool := (Lexeme.ofLine (line.dropWhile isIndent)).2.isNone

def lineTokens (number : Nat) (line : List Char) : List Token :=
  ((Lexeme.ofLine (line.dropWhile isIndent)).1.map fun l => ⟨l.kind.name, l.literal, number⟩) ++
    [marker .newline number]

inductive Scans (blocks : Blocks) (number : Nat) (line : List Char) : Prop
  | misaligned
      (width_ne : (settle blocks number (indentWidth line)).2.width ≠ indentWidth line)
      (items : ∃ rest, (scanLine blocks number line).1 =
        .error (.inconsistentDedent number (indentWidth line)) :: rest)
  | unreadable
      (width_eq : (settle blocks number (indentWidth line)).2.width = indentWidth line)
      (readable : isReadable line = false)
      (items : ∃ e rest, (scanLine blocks number line).1 = .error e :: rest ∧
        ∀ number width, e ≠ .inconsistentDedent number width)
  | read
      (width_eq : (settle blocks number (indentWidth line)).2.width = indentWidth line)
      (readable : isReadable line = true)
      (scan : scanLine blocks number line =
        (((settle blocks number (indentWidth line)).1 ++ lineTokens number line).map .ok,
          (settle blocks number (indentWidth line)).2))

theorem lexicalError_ne (number : Nat) (line : List Char) (stop : Lexeme.Stop) (n w : Nat) :
    lexicalError number line stop ≠ .inconsistentDedent n w := by
  intro h
  unfold lexicalError at h
  split at h <;> cases h

theorem scans (blocks : Blocks) (number : Nat) (line : List Char) : Scans blocks number line := by
  by_cases hwidth : (settle blocks number (indentWidth line)).2.width = indentWidth line
  · cases hstop : (Lexeme.ofLine (line.dropWhile isIndent)).2 with
    | none =>
      refine .read hwidth (by rw [isReadable, hstop]; rfl) ?_
      simp only [scanLine_eq, hwidth, ne_eq, not_true, if_false, hstop, lineTokens,
        List.append_assoc]
    | some stop =>
      refine .unreadable hwidth (by rw [isReadable, hstop]; rfl)
        ⟨lexicalError number line stop, ?_⟩
      simp only [scanLine_eq, hwidth, ne_eq, not_true, if_false, hstop]
      exact ⟨_, rfl, lexicalError_ne number line stop⟩
  · refine .misaligned hwidth ?_
    simp only [scanLine_eq, ne_eq, hwidth, not_false_eq_true, if_true]
    exact ⟨_, rfl⟩

theorem scanLine_of_readable {blocks : Blocks} {number : Nat} {line : List Char}
    (hwidth : (settle blocks number (indentWidth line)).2.width = indentWidth line)
    (hread : isReadable line = true) :
    scanLine blocks number line =
      (((settle blocks number (indentWidth line)).1 ++ lineTokens number line).map .ok,
        (settle blocks number (indentWidth line)).2) := by
  cases scans blocks number line with
  | misaligned hne _ => exact absurd hwidth hne
  | unreadable _ hunread _ =>
    rw [hread] at hunread
    cases hunread
  | read _ _ hscan => exact hscan

theorem map_ok_injective {as bs : List Token}
    (h : (as.map .ok : List (Except LexicalError Token)) = bs.map .ok) : as = bs :=
  (List.map_inj_right fun _ _ => Except.ok.inj).1 h

/-- What a line without an error adds to the tokens. -/
theorem exists_of_scanLines_cons {blocks : Blocks} {last number : Nat} {line : List Char}
    {rest : List (Nat × List Char)} {ts : List Token} (hline : isSkipped line = false)
    (h : (scanLines blocks last ((number, line) :: rest)).items = ts.map .ok) :
    ∃ us, ts = (settle blocks number (indentWidth line)).1 ++ (lineTokens number line ++ us) ∧
      (settle blocks number (indentWidth line)).2.width = indentWidth line ∧
      isReadable line = true ∧
      (scanLines (settle blocks number (indentWidth line)).2 number rest).items = us.map .ok := by
  rw [scanLines_cons hline] at h
  change (scanLine blocks number line).1 ++ _ = _ at h
  cases scans blocks number line with
  | misaligned hne hitems =>
    obtain ⟨items, hitems⟩ := hitems
    rw [hitems, List.cons_append] at h
    cases ts <;> cases h
  | unreadable heq hread hitems =>
    obtain ⟨e, items, hitems, -⟩ := hitems
    rw [hitems, List.cons_append] at h
    cases ts <;> cases h
  | read heq hread hscan =>
    rw [hscan] at h
    obtain ⟨vs, us, rfl, hvs, hus⟩ := List.append_eq_map_iff.1 h
    obtain rfl : vs = (settle blocks number (indentWidth line)).1 ++ lineTokens number line :=
      map_ok_injective hvs
    exact ⟨us, List.append_assoc _ _ _, heq, hread, hus.symm⟩

section Numbers

theorem mem_numberedLines {cs line : List Char} {number : Nat}
    (h : (number, line) ∈ Text.numberedLines cs) :
    0 < number ∧ (Text.lines cs)[number - 1]? = some line := by
  obtain ⟨⟨text, i⟩, hmem, heq⟩ := List.mem_map.1 h
  obtain ⟨rfl, rfl⟩ := Prod.mk.inj heq
  exact ⟨Nat.succ_pos i, List.mem_zipIdx_iff_getElem?.1 hmem⟩

theorem pairwise_codeLines (source : String) :
    (codeLines source).Pairwise fun e e' => e.1 < e'.1 := by
  refine List.Pairwise.filter _ (List.pairwise_map.2 ?_)
  have hrange : ((Text.lines source.toList).zipIdx.map Prod.snd).Pairwise (· < ·) := by
    rw [List.zipIdx_map_snd]
    exact List.pairwise_lt_range'
  exact (List.pairwise_map.1 hrange).imp fun h => Nat.succ_lt_succ h

theorem isSkipped_of_mem_codeLines {source : String} {e : Nat × List Char}
    (h : e ∈ codeLines source) : isSkipped e.2 = false := by
  simpa using (List.mem_filter.1 h).2

end Numbers

section First

variable {ε α : Type}

theorem mapM_ok_append (as : List α) (items : List (Except ε α)) :
    (as.map Except.ok ++ items).mapM id = (items.mapM id).map (as ++ ·) := by
  induction as with
  | nil =>
    rw [List.map_nil, List.nil_append]
    cases items.mapM id <;> rfl
  | cons a as ih =>
    rw [List.map_cons, List.cons_append, List.mapM_cons, ih]
    cases items.mapM id <;> rfl

theorem mapM_error_cons (e : ε) (items : List (Except ε α)) :
    (.error e :: items).mapM id = .error e := by
  rw [List.mapM_cons]
  rfl

end First

end Lookahead.Layout
