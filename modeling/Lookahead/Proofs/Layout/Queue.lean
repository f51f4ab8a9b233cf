import Lookahead.Proofs.Layout.Lines

namespace Lookahead

namespace Text

variable {cs cs' : List Char} {n : Nat}

theorem take_numberedLines (h : (lines cs').take n = (lines cs).take n) :
    (numberedLines cs').take n = (numberedLines cs).take n := by
  apply List.ext_getElem?
  intro i
  by_cases hi : i < n
  · have hline : (lines cs')[i]? = (lines cs)[i]? := by
      rw [← List.getElem?_take_of_lt hi, h, List.getElem?_take_of_lt hi]
    rw [List.getElem?_take_of_lt hi, List.getElem?_take_of_lt hi, numberedLines, numberedLines,
      List.getElem?_map, List.getElem?_map, List.getElem?_zipIdx, List.getElem?_zipIdx, hline]
  · rw [List.getElem?_take_eq_none (by omega), List.getElem?_take_eq_none (by omega)]

theorem lt_of_mem_drop_numberedLines {e : Nat × List Char}
    (h : e ∈ (numberedLines cs).drop n) : n < e.1 := by
  obtain ⟨i, hi⟩ := List.mem_iff_getElem?.1 h
  rw [List.getElem?_drop, numberedLines, List.getElem?_map, List.getElem?_zipIdx] at hi
  simp only [Option.map_map, Option.map_eq_some_iff, Function.comp_apply] at hi
  obtain ⟨line, -, rfl⟩ := hi
  change n < 0 + (n + i) + 1
  omega

end Text

namespace Layout

/-- What some lines add to the stream, and the blocks open behind them. -/
def readLines (blocks : Blocks) :
    List (Nat × List Char) → List (Except LexicalError Token) × Blocks
  | [] => ([], blocks)
  | (number, line) :: rest =>
    if isSkipped line then readLines blocks rest
    else
      let (items, blocks) := scanLine blocks number line
      let (more, blocks) := readLines blocks rest
      (items ++ more, blocks)

variable {blocks : Blocks} {lines : List (Nat × List Char)}

/-- Scanning goes on behind some lines as if it began there with the blocks that they leave open. -/
theorem scanLines_append (blocks : Blocks) (last : Nat) (lines more : List (Nat × List Char)) :
    ∃ last', scanLines blocks last (lines ++ more) =
      (scanLines (readLines blocks lines).2 last' more).prepend (readLines blocks lines).1 := by
  induction lines generalizing blocks last with
  | nil => exact ⟨last, rfl⟩
  | cons e rest ih =>
    obtain ⟨number, line⟩ := e
    rw [List.cons_append]
    cases hline : isSkipped line with
    | true =>
      rw [scanLines, if_pos hline, readLines, if_pos hline]
      exact ih blocks last
    | false =>
      obtain ⟨last', hrest⟩ := ih (scanLine blocks number line).2 number
      refine ⟨last', ?_⟩
      rw [scanLines_cons hline, hrest, readLines, if_neg (Bool.eq_false_iff.1 hline)]
      exact congrArg (TokenStream.mk · _) (List.append_assoc _ _ _).symm

theorem line_lexicalError (number : Nat) (line : List Char) (stop : Lexeme.Stop) :
    (lexicalError number line stop).line = number := by
  unfold lexicalError
  split <;> rfl

/-- The errors of a line. -/
theorem error_of_mem_scanLine {number : Nat} {line : List Char} {e : LexicalError}
    (h : .error e ∈ (scanLine blocks number line).1) :
    e = .inconsistentDedent number (indentWidth line) ∨
      ∃ stop, (Lexeme.ofLine (line.dropWhile isIndent)).2 = some stop ∧
        e = lexicalError number line stop := by
  rw [error_mem_scanLine] at h
  unfold readLine at h
  dsimp only at h
  split at h
  · exact .inl (Option.some.inj h).symm
  · split at h
    · next stop hstop => exact .inr ⟨stop, hstop, (Option.some.inj h).symm⟩
    · cases h

theorem error_of_mem_scanLines {last : Nat} {e : LexicalError}
    (h : .error e ∈ (scanLines blocks last lines).items) :
    ∃ number line blocks', (number, line) ∈ lines ∧
      .error e ∈ (scanLine blocks' number line).1 := by
  induction lines generalizing blocks last with
  | nil =>
    obtain ⟨-, -, h⟩ := List.mem_map.1 h
    cases h
  | cons e' rest ih =>
    obtain ⟨number, line⟩ := e'
    have hlater {blocks last} (h : .error e ∈ (scanLines blocks last rest).items) :
        ∃ n l blocks', (n, l) ∈ (number, line) :: rest ∧ .error e ∈ (scanLine blocks' n l).1 := by
      obtain ⟨n, l, blocks', hmem, herror⟩ := ih h
      exact ⟨n, l, blocks', List.mem_cons_of_mem _ hmem, herror⟩
    rw [scanLines] at h
    split at h
    · exact hlater h
    · rcases List.mem_append.1 h with h | h
      · exact ⟨number, line, blocks, List.mem_cons_self, h⟩
      · exact hlater h

theorem line_of_error_mem_scanLine {number : Nat} {line : List Char} {e : LexicalError}
    (h : .error e ∈ (scanLine blocks number line).1) : e.line = number := by
  rcases error_of_mem_scanLine h with rfl | ⟨stop, -, rfl⟩
  · rfl
  · exact line_lexicalError number line stop

/-- An error names the line that it comes from. -/
theorem line_of_error_mem_scanLines {last : Nat} {e : LexicalError}
    (h : .error e ∈ (scanLines blocks last lines).items) : ∃ line, (e.line, line) ∈ lines := by
  obtain ⟨number, line, blocks', hmem, herror⟩ := error_of_mem_scanLines h
  rw [line_of_error_mem_scanLine herror]
  exact ⟨line, hmem⟩

/-- What the first `n` lines of a source add to the stream. The markers that close blocks at the end
of the source are not among it. -/
def queued (source : String) (n : Nat) : List (Except LexicalError Token) :=
  (readLines [] ((Text.numberedLines source.toList).take n)).1

/-- The result number `i` is put into the stream while line `n` is scanned. -/
def IsQueuedAt (source : String) (n i : Nat) : Prop :=
  (queued source (n - 1)).length ≤ i ∧ i < (queued source n).length

theorem queued_congr {source source' : String} {n : Nat}
    (h : (Text.lines source'.toList).take n = (Text.lines source.toList).take n) :
    queued source' n = queued source n := by
  rw [queued, queued, Text.take_numberedLines h]

/-- The stream begins with what the first lines add to it, and errors behind that are on later
lines. -/
theorem exists_items_eq (source : String) (n : Nat) :
    ∃ rest, (TokenStream.scan source).items = queued source n ++ rest ∧
      ∀ e, .error e ∈ rest → n < e.line := by
  obtain ⟨last, hscan⟩ := scanLines_append [] 1 ((Text.numberedLines source.toList).take n)
    ((Text.numberedLines source.toList).drop n)
  rw [List.take_append_drop, ← TokenStream.scan_eq_scanLines] at hscan
  refine ⟨_, congrArg TokenStream.items hscan, fun e he => ?_⟩
  obtain ⟨line, hmem⟩ := line_of_error_mem_scanLines he
  exact Text.lt_of_mem_drop_numberedLines hmem

/-- Sources with the same first lines give the same results as far as these lines reach. -/
theorem get_scan_congr {source source' : String} {n i : Nat}
    (h : (Text.lines source'.toList).take n = (Text.lines source.toList).take n)
    (hi : i < (queued source n).length) :
    (TokenStream.scan source').get i = (TokenStream.scan source).get i := by
  obtain ⟨rest, hitems, -⟩ := exists_items_eq source n
  obtain ⟨rest', hitems', -⟩ := exists_items_eq source' n
  rw [queued_congr h] at hitems'
  rw [TokenStream.get, TokenStream.get, hitems, hitems', List.getD_append _ _ _ _ hi,
    List.getD_append _ _ _ _ hi, List.getD_eq_getElem _ _ hi, List.getD_eq_getElem _ _ hi]

/-- An error on line `n` is among what the first `n` lines add. -/
theorem lt_length_queued_of_error {source : String} {i : Nat} {e : LexicalError}
    (h : (TokenStream.scan source).get i = .error e) : i < (queued source e.line).length := by
  obtain ⟨rest, hitems, hrest⟩ := exists_items_eq source e.line
  apply Nat.lt_of_not_le
  intro hle
  have hmem : .error e ∈ rest := by
    rw [TokenStream.get, hitems, List.getD_append_right _ _ _ _ hle] at h
    by_cases hi : i - (queued source e.line).length < rest.length
    · rw [List.getD_eq_getElem _ _ hi] at h
      exact h ▸ List.getElem_mem hi
    · rw [List.getD_eq_default _ _ (by omega)] at h
      cases h
  exact absurd (hrest e hmem) (Nat.lt_irrefl _)

end Layout

end Lookahead
