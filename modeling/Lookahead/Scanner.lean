import Lookahead.Layout

namespace Lookahead

/-- A scanner between two tokens: the lines ahead, the open blocks, the tokens that were read and
not given out yet, the last line with code, and whether the end was reached. -/
structure Scanner where
  lines : List (Nat × List Char)
  blocks : Layout.Blocks
  pending : List Token
  lastLine : Nat
  finished : Bool

namespace Scanner

open Layout

def ofSource (source : String) : Scanner :=
  ⟨Text.numberedLines source.toList, [], [], 1, false⟩

/-- Reads one more line. Behind the last line all blocks are closed. -/
def fill (s : Scanner) : Option LexicalError × Scanner :=
  match s.lines with
  | [] =>
    (none, { s with
      blocks := []
      pending := s.pending ++ s.blocks.map fun _ => marker .blockEnd s.lastLine
      finished := true })
  | (number, line) :: lines =>
    if isSkipped line then (none, { s with lines })
    else
      let (error?, tokens, blocks) := readLine s.blocks number line
      (error?, { s with lines, blocks, pending := s.pending ++ tokens, lastLine := number })

def fillsLeft (s : Scanner) : Nat := if s.finished then 0 else s.lines.length + 1

theorem fillsLeft_fill {s : Scanner} (h : s.finished = false) :
    s.fill.2.fillsLeft < s.fillsLeft := by
  obtain ⟨lines, blocks, pending, lastLine, finished⟩ := s
  obtain rfl : finished = false := h
  cases lines with
  | nil => exact Nat.zero_lt_one
  | cons entry lines =>
    unfold fill
    dsimp only
    split <;> exact Nat.lt_succ_self _

/-- Gives out a token or an error. The end marker is given for ever. -/
def next (s : Scanner) : Except LexicalError Token × Scanner :=
  match s.pending with
  | token :: pending => (.ok token, { s with pending })
  | [] =>
    if _h : s.finished then (.ok (.eof s.lastLine), s)
    else
      match s.fill.1 with
      | some e => (.error e, s.fill.2)
      | none => s.fill.2.next
termination_by s.fillsLeft
decreasing_by exact fillsLeft_fill (Bool.eq_false_iff.2 _h)

/-- Unless it is the end marker, what is given out is taken off the tokens that are pending, or
comes after a fill. -/
theorem next_decreases {s s' : Scanner} {r : Except LexicalError Token} (h : s.next = (r, s'))
    (hr : ∀ line, r ≠ .ok (.eof line)) :
    s'.fillsLeft < s.fillsLeft ∨
      s'.fillsLeft = s.fillsLeft ∧ s'.pending.length < s.pending.length := by
  induction s using next.induct generalizing s' r with
  | case1 s token pending hpending =>
    rw [next, hpending] at h
    cases h
    rw [hpending]
    exact .inr ⟨rfl, Nat.lt_succ_self _⟩
  | case2 s hpending hfinished =>
    rw [next, hpending] at h
    simp only [hfinished, dif_pos] at h
    cases h
    exact absurd rfl (hr s.lastLine)
  | case3 s hpending hfinished e herror =>
    rw [next, hpending] at h
    simp only [hfinished, herror] at h
    cases h
    exact .inl (fillsLeft_fill (Bool.eq_false_iff.2 hfinished))
  | case4 s hpending hfinished hnone ih =>
    rw [next, hpending] at h
    simp only [hfinished, hnone] at h
    have hlt := fillsLeft_fill (Bool.eq_false_iff.2 hfinished)
    have := ih h hr
    omega

def results (s : Scanner) : Nat → List (Except LexicalError Token)
  | 0 => []
  | count + 1 => s.next.1 :: s.next.2.results count

def tokens (s : Scanner) : Except LexicalError (List Token) :=
  match _h : s.next with
  | (.error e, _) => .error e
  | (.ok token, s') => if token.kind = Symbol.eof then .ok [token] else (token :: ·) <$> s'.tokens
termination_by (s.fillsLeft, s.pending.length)
decreasing_by
  exact Prod.lex_def.2 (next_decreases _h fun line h => by cases h; contradiction)

/-- Everything that is given out before the end marker, with the errors. -/
def drain (s : Scanner) : TokenStream :=
  match _h : s.next with
  | (.error e, s') => s'.drain.prepend [.error e]
  | (.ok token, s') =>
    if token.kind = Symbol.eof then ⟨[], token.line⟩ else s'.drain.prepend [.ok token]
termination_by (s.fillsLeft, s.pending.length)
decreasing_by
  · exact Prod.lex_def.2 (next_decreases _h fun line h => by cases h)
  · exact Prod.lex_def.2 (next_decreases _h fun line h => by cases h; contradiction)

end Scanner

def TokenStream.scan (source : String) : TokenStream := (Scanner.ofSource source).drain

/-- All tokens of a source with the end marker last, or the first error. -/
def tokenize (source : String) : Except LexicalError (List Token) :=
  (Scanner.ofSource source).tokens

end Lookahead
