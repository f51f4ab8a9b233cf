import Lookahead.Scanner

namespace Lookahead

namespace Layout

/-- What a line that is not skipped gives to a reader of tokens: its error comes first, then the
tokens read before it. -/
def scanLine (blocks : Blocks) (number : Nat) (line : List Char) :
    List (Except LexicalError Token) × Blocks :=
  let (error?, tokens, blocks) := readLine blocks number line
  (error?.toList.map .error ++ tokens.map .ok, blocks)

theorem scanLine_eq (blocks : Blocks) (number : Nat) (line : List Char) :
    scanLine blocks number line =
      let width := indentWidth line
      let opened := (settle blocks number width).2
      let markers := (settle blocks number width).1
      let (lexemes, stop?) := Lexeme.ofLine (line.dropWhile isIndent)
      let tokens := markers ++ lexemes.map fun l => ⟨l.kind.name, l.literal, number⟩
      if opened.width ≠ width then
        (.error (.inconsistentDedent number width) :: markers.map .ok, opened)
      else match stop? with
        | some stop => (.error (lexicalError number line stop) :: tokens.map .ok, opened)
        | none => ((tokens ++ [marker .newline number]).map .ok, opened) := by
  unfold scanLine readLine
  obtain ⟨lexemes, stop?⟩ := Lexeme.ofLine (line.dropWhile isIndent)
  dsimp only
  split
  · rfl
  · cases stop? <;> rfl

theorem ok_mem_scanLine {blocks : Blocks} {number : Nat} {line : List Char} {x : Token} :
    .ok x ∈ (scanLine blocks number line).1 ↔ x ∈ (readLine blocks number line).2.1 := by
  simp [scanLine]

theorem error_mem_scanLine {blocks : Blocks} {number : Nat} {line : List Char}
    {e : LexicalError} :
    .error e ∈ (scanLine blocks number line).1 ↔ (readLine blocks number line).1 = some e := by
  simp [scanLine]

/-- `last` is the number of the last line that was not skipped. -/
def scanLines (blocks : Blocks) (last : Nat) : List (Nat × List Char) → TokenStream
  | [] => ⟨blocks.map fun _ => .ok (marker .blockEnd last), last⟩
  | (number, line) :: rest =>
    if isSkipped line then scanLines blocks last rest
    else
      let (items, blocks) := scanLine blocks number line
      (scanLines blocks number rest).prepend items

end Layout

namespace TokenStream

theorem next_cases {s s' : TokenStream} {r : Except LexicalError Token} (h : s.next = (r, s')) :
    s.items = [] ∧ r = .ok (.eof s.eofLine) ∧ s' = s ∨ s = s'.prepend [r] := by
  obtain ⟨items, eofLine⟩ := s
  cases items with
  | nil =>
    cases h
    exact .inl ⟨rfl, rfl, rfl⟩
  | cons item rest =>
    cases h
    exact .inr rfl

theorem take_succ (s : TokenStream) (count : Nat) :
    s.take (count + 1) = s.next.1 :: s.next.2.take count := by
  obtain ⟨items, eofLine⟩ := s
  cases items with
  | nil => simp [take, next, List.replicate_succ]
  | cons item rest => simp [take, next]

end TokenStream

namespace Scanner

variable {s s' : Scanner} {r : Except LexicalError Token}

/-- What a scanner has still to give, with all its lines read at once. -/
def stream (s : Scanner) : TokenStream :=
  (if s.finished then ⟨[], s.lastLine⟩ else Layout.scanLines s.blocks s.lastLine s.lines).prepend
    (s.pending.map .ok)

theorem stream_fill (hpending : s.pending = []) (hfinished : s.finished = false) :
    s.stream = s.fill.2.stream.prepend (s.fill.1.toList.map .error) := by
  obtain ⟨lines, blocks, pending, lastLine, finished⟩ := s
  obtain rfl : pending = [] := hpending
  obtain rfl : finished = false := hfinished
  cases lines with
  | nil =>
    simp [stream, fill, Layout.scanLines, TokenStream.prepend]
  | cons entry lines =>
    by_cases hskipped : Layout.isSkipped entry.2
    · simp [stream, fill, Layout.scanLines, TokenStream.prepend, hskipped]
    · simp [stream, fill, Layout.scanLines, Layout.scanLine, TokenStream.prepend, hskipped]

/-- One step: the machine gives what its stream gives, and goes on as the stream does. -/
theorem stream_next (h : s.next = (r, s')) : s.stream.next = (r, s'.stream) := by
  induction s using next.induct with
  | case1 s token pending hpending =>
    rw [next, hpending] at h
    cases h
    simp [stream, TokenStream.next, TokenStream.prepend, hpending]
  | case2 s hpending hfinished =>
    rw [next, hpending] at h
    simp only [hfinished, dif_pos] at h
    cases h
    simp [stream, TokenStream.next, TokenStream.prepend, hpending, hfinished]
  | case3 s hpending hfinished e herror =>
    rw [next, hpending] at h
    simp only [hfinished, herror] at h
    cases h
    rw [stream_fill hpending (Bool.eq_false_iff.2 hfinished), herror]
    rfl
  | case4 s hpending hfinished hnone ih =>
    rw [next, hpending] at h
    simp only [hfinished, hnone] at h
    rw [stream_fill hpending (Bool.eq_false_iff.2 hfinished), hnone]
    exact ih h

/-- A run: whatever is asked of the machine, its stream answers the same. -/
theorem results_eq_take (s : Scanner) (count : Nat) : s.results count = s.stream.take count := by
  induction count generalizing s with
  | zero => simp [results, TokenStream.take]
  | succ count ih => rw [results, ih, TokenStream.take_succ, stream_next rfl]

section Ends

variable {token : Token} {e : LexicalError}

theorem stream_of_error (h : s.next = (.error e, s')) :
    s.stream = s'.stream.prepend [.error e] := by
  rcases TokenStream.next_cases (stream_next h) with ⟨-, heof, -⟩ | hstream
  · cases heof
  · exact hstream

theorem stream_of_ok (h : s.next = (.ok token, s')) (hkind : token.kind ≠ Symbol.eof) :
    s.stream = s'.stream.prepend [.ok token] := by
  rcases TokenStream.next_cases (stream_next h) with ⟨-, heof, -⟩ | hstream
  · cases heof
    exact absurd rfl hkind
  · exact hstream

/-- No token of the source is an end marker. -/
def Unmarked (s : Scanner) : Prop := ∀ x, .ok x ∈ s.stream.items → x.kind ≠ Symbol.eof

theorem Unmarked.of_prepend (h : s.Unmarked) {item : Except LexicalError Token}
    (hstream : s.stream = s'.stream.prepend [item]) : s'.Unmarked :=
  fun x hx => h x (hstream ▸ List.mem_append_right _ hx)

theorem Unmarked.stream_of_eof (h : s.Unmarked) (hnext : s.next = (.ok token, s'))
    (hkind : token.kind = Symbol.eof) : s.stream = ⟨[], token.line⟩ ∧ token = .eof token.line := by
  rcases TokenStream.next_cases (stream_next hnext) with ⟨hitems, heof, -⟩ | hstream
  · cases heof
    exact ⟨by simp [Token.eof, ← hitems], rfl⟩
  · exact absurd hkind (h token (hstream ▸ List.mem_append_left _ List.mem_cons_self))

/-- Reading the machine to its end gives its stream. -/
theorem Unmarked.drain_eq (h : s.Unmarked) : s.drain = s.stream := by
  induction s using drain.induct with
  | case1 s e s' hnext ih =>
    have hstream := stream_of_error hnext
    rw [drain, hnext, hstream]
    dsimp only
    rw [ih (h.of_prepend hstream)]
  | case2 s token s' hnext hkind =>
    rw [drain, hnext, (h.stream_of_eof hnext hkind).1]
    exact if_pos hkind
  | case3 s token s' hnext hkind ih =>
    have hstream := stream_of_ok hnext hkind
    rw [drain, hnext, hstream]
    dsimp only
    rw [if_neg hkind, ih (h.of_prepend hstream)]

theorem Unmarked.tokens_eq (h : s.Unmarked) :
    s.tokens = (· ++ [.eof s.stream.eofLine]) <$> s.stream.items.mapM id := by
  induction s using tokens.induct with
  | case1 s e s' hnext =>
    rw [tokens, hnext, stream_of_error hnext]
    rfl
  | case2 s token s' hnext hkind =>
    obtain ⟨hstream, htoken⟩ := h.stream_of_eof hnext hkind
    rw [tokens, hnext, hstream, htoken]
    rfl
  | case3 s token s' hnext hkind ih =>
    have hstream := stream_of_ok hnext hkind
    rw [tokens, hnext, hstream]
    dsimp only
    rw [if_neg hkind, ih (h.of_prepend hstream)]
    simp only [TokenStream.prepend, List.cons_append, List.nil_append, List.mapM_cons, id]
    cases s'.stream.items.mapM id <;> rfl

end Ends

end Scanner

end Lookahead
