import Lookahead.Proofs.Layout.Blocks

namespace Lookahead

namespace TokenStream

def results (s : TokenStream) : Nat → List (Except LexicalError Token)
  | 0 => []
  | count + 1 => s.next.1 :: s.next.2.results count

theorem results_eq (s : TokenStream) (count : Nat) :
    s.results count = (List.range count).map s.get := by
  induction count generalizing s with
  | zero => rfl
  | succ count ih =>
    rw [results, ih, next_fst, List.range_succ_eq_map, List.map_cons, List.map_map]
    congr 1
    apply List.map_congr_left
    intro i _
    exact get_next s i

theorem results_eq_take (s : TokenStream) (count : Nat) : s.results count = s.take count := by
  rw [results_eq, take_eq]

end TokenStream

namespace Layout

def yielded (results : List (Except LexicalError Token)) : List Token :=
  results.filterMap Except.toOption

def faults (results : List (Except LexicalError Token)) : Nat := results.countP (!·.isOk)

def begins (tokens : List Token) : Nat := tokens.countP (·.kind = Terminal.blockBegin.name)

def ends (tokens : List Token) : Nat := tokens.countP (·.kind = Terminal.blockEnd.name)

@[simp] theorem yielded_append (xs ys : List (Except LexicalError Token)) :
    yielded (xs ++ ys) = yielded xs ++ yielded ys := List.filterMap_append

@[simp] theorem yielded_error_cons (e : LexicalError) (xs : List (Except LexicalError Token)) :
    yielded (.error e :: xs) = yielded xs := rfl

@[simp] theorem yielded_map_ok (ts : List Token) : yielded (ts.map .ok) = ts := by
  rw [yielded, List.filterMap_map]
  exact List.filterMap_some

theorem faults_append (xs ys : List (Except LexicalError Token)) :
    faults (xs ++ ys) = faults xs + faults ys := List.countP_append

theorem faults_le_of_isPrefix {xs ys : List (Except LexicalError Token)} (h : xs <+: ys) :
    faults xs ≤ faults ys := h.sublist.countP_le

@[simp] theorem faults_map_ok (ts : List Token) : faults (ts.map .ok) = 0 := by
  rw [faults, List.countP_map]
  exact List.countP_eq_zero.2 fun _ _ h => by cases h

@[simp] theorem faults_error_cons (e : LexicalError) (ts : List Token) :
    faults (.error e :: ts.map .ok) = 1 := by
  rw [faults, List.countP_cons_of_pos rfl]
  exact congrArg (· + 1) (faults_map_ok ts)

section Depth

/-- How a token changes the number of open blocks. There must be one to be closed. -/
def climb (depth : Nat) (x : Token) : Option Nat :=
  if x.kind = Terminal.blockBegin.name then some (depth + 1)
  else if x.kind = Terminal.blockEnd.name then
    if depth = 0 then none else some (depth - 1)
  else some depth

variable {tokens front : List Token} {depth depth' : Nat}

theorem climb_end (depth line : Nat) :
    climb (depth + 1) (marker .blockEnd line) = some depth := rfl

theorem climb_plain {x : Token} (h : isMark x = false) (depth : Nat) :
    climb depth x = some depth := by
  rw [isMark, Bool.or_eq_false_iff, decide_eq_false_iff_not, decide_eq_false_iff_not] at h
  rw [climb, if_neg h.1, if_neg h.2]

theorem foldlM_climb_plain (h : ∀ x ∈ tokens, isMark x = false) (depth : Nat) :
    tokens.foldlM climb depth = some depth := by
  induction tokens with
  | nil => rfl
  | cons x tokens ih =>
    obtain ⟨hx, htokens⟩ := List.forall_mem_cons.1 h
    rw [List.foldlM_cons, climb_plain hx]
    exact ih htokens

theorem foldlM_climb_ends (depth count line : Nat) :
    (List.replicate count (marker .blockEnd line)).foldlM climb (depth + count) = some depth := by
  induction count with
  | zero => rfl
  | succ count ih =>
    rw [List.replicate_succ, List.foldlM_cons, ← Nat.add_assoc, climb_end]
    exact ih

/-- Walking over tokens counts the blocks that they begin and end. -/
theorem begins_of_foldlM_climb (h : tokens.foldlM climb depth = some depth') :
    depth + begins tokens = depth' + ends tokens := by
  induction tokens generalizing depth with
  | nil => exact congrArg (· + 0) (Option.some.inj h)
  | cons x tokens ih =>
    rw [List.foldlM_cons] at h
    obtain ⟨middle, hx, hrest⟩ := Option.bind_eq_some_iff.1 h
    have hsum := ih hrest
    simp only [begins, ends] at hsum
    simp only [begins, ends, List.countP_cons, decide_eq_true_eq]
    unfold climb at hx
    split at hx
    · next hbegin =>
      have hend : x.kind ≠ Terminal.blockEnd.name := by
        rw [hbegin]
        decide
      rw [if_pos hbegin, if_neg hend]
      cases hx
      omega
    · next hbegin =>
      rw [if_neg hbegin]
      split at hx
      · next hend =>
        rw [if_pos hend]
        split at hx <;> cases hx
        omega
      · next hend =>
        rw [if_neg hend]
        cases hx
        omega

/-- A walk is one over each prefix as well. -/
theorem ends_le_of_isPrefix (h : tokens.foldlM climb depth = some depth')
    (hfront : front <+: tokens) : ends front ≤ depth + begins front := by
  obtain ⟨rest, rfl⟩ := hfront
  rw [List.foldlM_append] at h
  obtain ⟨middle, hfront, -⟩ := Option.bind_eq_some_iff.1 h
  have := begins_of_foldlM_climb hfront
  omega

/-- The markers of a line take the walk to the blocks left open, in line with it or not. -/
theorem foldlM_climb_settle (blocks : Blocks) (number width : Nat) :
    (settle blocks number width).1.foldlM climb blocks.length =
      some (settle blocks number width).2.length := by
  by_cases h : blocks.width < width
  · rw [settle_of_lt h]
    rfl
  · rw [settle, if_neg h]
    have hle := (List.dropWhile_suffix (width < ·) (l := blocks)).length_le
    have hclosed := foldlM_climb_ends (blocks.dropWhile (width < ·)).length
      (blocks.length - (blocks.dropWhile (width < ·)).length) number
    rwa [Nat.add_sub_cancel' hle] at hclosed

end Depth

section Order

/-- The lines of the tokens never decrease, and lie between these two. -/
structure Ascends (first : Nat) (tokens : List Token) (last : Nat) : Prop where
  le : first ≤ last
  between : ∀ x ∈ tokens, first ≤ x.line ∧ x.line ≤ last
  pairwise : tokens.Pairwise fun x y => x.line ≤ y.line

variable {first middle last : Nat} {tokens more : List Token}

theorem Ascends.append (h : Ascends first tokens middle) (hmore : Ascends middle more last) :
    Ascends first (tokens ++ more) last := by
  refine ⟨Nat.le_trans h.le hmore.le, fun x hx => ?_,
    List.pairwise_append.2 ⟨h.pairwise, hmore.pairwise, fun x hx y hy => ?_⟩⟩
  · have := h.le
    have := hmore.le
    rcases List.mem_append.1 hx with hx | hx
    · have := h.between x hx
      omega
    · have := hmore.between x hx
      omega
  · exact Nat.le_trans (h.between x hx).2 (hmore.between y hy).1

theorem ascends_of_line (hle : first ≤ last) (h : ∀ x ∈ tokens, x.line = last) :
    Ascends first tokens last := by
  refine ⟨hle, fun x hx => ?_, List.pairwise_of_forall_mem_list fun x hx y hy => ?_⟩
  · have := h x hx
    omega
  · exact Nat.le_of_eq ((h x hx).trans (h y hy).symm)

end Order

section Lines

variable {blocks : Blocks} {lines : List (Nat × List Char)}

/-- What any line with code adds: its markers, then tokens that are none, all of them on the line,
and an error at most. -/
theorem scanLine_adds (blocks : Blocks) (number : Nat) (line : List Char) :
    (scanLine blocks number line).2 = (settle blocks number (indentWidth line)).2 ∧
      faults (scanLine blocks number line).1 ≤ 1 ∧
      ∃ plain, yielded (scanLine blocks number line).1 =
          (settle blocks number (indentWidth line)).1 ++ plain ∧
        ∀ x ∈ plain, x.line = number ∧ isMark x = false := by
  by_cases hwidth : (settle blocks number (indentWidth line)).2.width = indentWidth line
  · cases hstop : (Lexeme.ofLine (line.dropWhile isIndent)).2 with
    | none =>
      rw [scanLine_of_readable hwidth (by rw [isReadable, hstop]; rfl)]
      exact ⟨rfl, by rw [faults_map_ok]; exact Nat.zero_le 1, lineTokens number line,
        yielded_map_ok _, mem_lineTokens⟩
    | some stop =>
      simp only [scanLine_eq, hwidth, ne_eq, not_true, if_false, hstop]
      refine ⟨trivial, Nat.le_of_eq (faults_error_cons _ _), _,
        by rw [yielded_error_cons, yielded_map_ok], fun x hx => ?_⟩
      -- What was read before the fault is what `lineTokens` begins with.
      exact mem_lineTokens x (List.mem_append_left _ hx)
  · simp only [scanLine_eq, ne_eq, hwidth, not_false_eq_true, if_true]
    exact ⟨trivial, Nat.le_of_eq (faults_error_cons _ _), [], by simp, List.forall_mem_nil _⟩

/-- Whatever errors occur, the markers of some lines and of the end behind them close all blocks. -/
theorem foldlM_climb_scanLines (hlines : ∀ e ∈ lines, isSkipped e.2 = false) (blocks : Blocks)
    (last : Nat) :
    (yielded (scanLines blocks last lines).items).foldlM climb blocks.length = some 0 := by
  induction lines generalizing blocks last with
  | nil =>
    have hclosed := foldlM_climb_ends 0 blocks.length last
    rw [Nat.zero_add] at hclosed
    rw [scanLines_nil, yielded_map_ok]
    exact hclosed
  | cons e rest ih =>
    obtain ⟨number, line⟩ := e
    obtain ⟨hline, hrest⟩ := List.forall_mem_cons.1 hlines
    obtain ⟨hblocks, -, plain, hyielded, hplain⟩ := scanLine_adds blocks number line
    rw [scanLines_cons hline]
    change (yielded ((scanLine blocks number line).1 ++ _)).foldlM climb _ = _
    rw [yielded_append, hyielded, hblocks, List.foldlM_append, List.foldlM_append,
      foldlM_climb_settle]
    change (plain.foldlM climb _ >>= _) = _
    rw [foldlM_climb_plain fun x hx => (hplain x hx).2]
    exact ih hrest _ number

theorem ascends_scanLines (hlines : ∀ e ∈ lines, isSkipped e.2 = false)
    (hnumbers : lines.Pairwise fun e e' => e.1 < e'.1) {last : Nat}
    (hlast : ∀ e ∈ lines, last ≤ e.1) :
    Ascends last (yielded (scanLines blocks last lines).items)
      (scanLines blocks last lines).eofLine := by
  induction lines generalizing blocks last with
  | nil =>
    rw [scanLines_nil, yielded_map_ok]
    apply ascends_of_line (Nat.le_refl last)
    intro x hx
    rw [List.eq_of_mem_replicate hx]
    rfl
  | cons e rest ih =>
    obtain ⟨number, line⟩ := e
    obtain ⟨hline, hrest⟩ := List.forall_mem_cons.1 hlines
    obtain ⟨hnumber, hincreasing⟩ := List.pairwise_cons.1 hnumbers
    obtain ⟨-, -, plain, hyielded, hplain⟩ := scanLine_adds blocks number line
    rw [scanLines_cons hline]
    change Ascends last (yielded ((scanLine blocks number line).1 ++ _)) _
    rw [yielded_append, hyielded]
    refine Ascends.append (ascends_of_line (hlast _ List.mem_cons_self) fun x hx => ?_)
      (ih hrest hincreasing fun e he => Nat.le_of_lt (hnumber e he))
    rcases List.mem_append.1 hx with hx | hx
    · exact line_of_mem_settle hx
    · exact (hplain x hx).1

/-- A line adds one error at most. -/
theorem faults_scanLines (hlines : ∀ e ∈ lines, isSkipped e.2 = false) (last : Nat) :
    faults (scanLines blocks last lines).items ≤ lines.length := by
  induction lines generalizing blocks last with
  | nil => exact Nat.le_of_eq (by rw [scanLines_nil, faults_map_ok, List.length_nil])
  | cons e rest ih =>
    obtain ⟨number, line⟩ := e
    obtain ⟨hline, hrest⟩ := List.forall_mem_cons.1 hlines
    obtain ⟨-, hone, -⟩ := scanLine_adds blocks number line
    rw [scanLines_cons hline]
    change faults ((scanLine blocks number line).1 ++ _) ≤ _
    rw [faults_append, List.length_cons, Nat.add_comm]
    exact Nat.add_le_add (ih hrest number) hone

end Lines

end Layout

namespace TokenStream

open Layout

/-- What holds of the first results of a source, however many they are. -/
structure WellFormed (source : String) (results : List (Except LexicalError Token)) : Prop where
  ends_le : ∀ front, front <+: yielded results → ends front ≤ begins front
  lines_le : (yielded results).Pairwise fun x y => x.line ≤ y.line
  at_eof : ∀ before x after, results = before ++ .ok x :: after → x.kind = Symbol.eof →
    begins (yielded before) = ends (yielded before) ∧ ∀ r ∈ after, r = .ok x
  faults_le : faults results ≤ (Text.lines source.toList).length

variable (source : String) (count : Nat)

/-- The first results are those of the items, then end markers. -/
theorem take_isPrefix (s : TokenStream) :
    s.take count <+: s.items ++ (List.replicate count (.eof s.eofLine)).map .ok := by
  rw [List.map_replicate, take]
  have htake : List.replicate (count - s.items.length) (Except.ok (Token.eof s.eofLine)) =
      (List.replicate count (.ok (.eof s.eofLine)) : List (Except LexicalError Token)).take
        (count - s.items.length) := by
    rw [List.take_replicate, Nat.min_eq_left (Nat.sub_le _ _)]
  rw [htake, ← List.take_append]
  exact List.take_prefix _ _

theorem isMark_eof (line : Nat) : isMark (.eof line) = false := by
  change (decide (Symbol.eof = _) || decide (Symbol.eof = _)) = false
  decide

theorem foldlM_climb_scan :
    (yielded (scan source).items ++ List.replicate count (Token.eof (scan source).eofLine)).foldlM
      climb 0 = some 0 := by
  have hclosed : (yielded (scan source).items).foldlM climb 0 = some 0 := by
    rw [scan_eq]
    exact foldlM_climb_scanLines (fun e he => isSkipped_of_mem_codeLines he) [] 1
  rw [List.foldlM_append, hclosed]
  apply foldlM_climb_plain
  intro x hx
  rw [List.eq_of_mem_replicate hx]
  exact isMark_eof _

theorem ascends_scan :
    Ascends 1 (yielded (scan source).items ++ List.replicate count (.eof (scan source).eofLine))
      (scan source).eofLine := by
  have hitems : Ascends 1 (yielded (scan source).items) (scan source).eofLine := by
    rw [scan_eq]
    apply ascends_scanLines (fun e he => isSkipped_of_mem_codeLines he) (pairwise_codeLines source)
    intro e he
    exact (mem_numberedLines (List.mem_filter.1 he).1).1
  apply hitems.append (ascends_of_line (Nat.le_refl _) _)
  intro x hx
  rw [List.eq_of_mem_replicate hx]
  rfl

theorem faults_scan : faults (scan source).items ≤ (Text.lines source.toList).length := by
  rw [scan_eq]
  calc faults (scanLines [] 1 (codeLines source)).items
      ≤ (codeLines source).length := faults_scanLines (fun e he => isSkipped_of_mem_codeLines he) 1
    _ ≤ (Text.numberedLines source.toList).length := List.length_filter_le _ _
    _ = (Text.lines source.toList).length := by simp [Text.numberedLines]

/-- Behind an end marker there are only more of them, and all blocks are closed. -/
theorem balanced_of_eof {before after : List (Except LexicalError Token)} {x : Token}
    (h : (scan source).take count = before ++ .ok x :: after) (hx : x.kind = Symbol.eof) :
    begins (yielded before) = ends (yielded before) ∧ ∀ r ∈ after, r = .ok x := by
  have hget (i : Nat) (hi : i < (before ++ .ok x :: after).length) :
      (before ++ .ok x :: after)[i] = (scan source).get i := by
    simp only [← h, take_eq, List.getElem_map, List.getElem_range]
  have hlength : before.length < (before ++ .ok x :: after).length := by simp
  have hat : (scan source).get before.length = .ok x := by
    rw [← hget _ hlength]
    simp
  rcases get_scan hat with ⟨-, kind, hkind, -, hne⟩ | ⟨hle, rfl⟩
  · rw [hx] at hkind
    exact absurd (Terminal.name_injective hkind.symm) hne
  constructor
  · have hbefore : before = (scan source).take before.length := by
      rw [take_eq]
      apply List.ext_getElem (by simp)
      intro i hi _
      rw [List.getElem_map, List.getElem_range, ← hget i (by omega), List.getElem_append_left hi]
    have hclosed := begins_of_foldlM_climb
      (foldlM_climb_scan source (before.length - (scan source).items.length))
    rw [hbefore, take, List.take_of_length_le hle, yielded_append, ← List.map_replicate,
      yielded_map_ok]
    omega
  · intro r hr
    obtain ⟨i, hi, rfl⟩ := List.getElem_of_mem hr
    have hlater := hget (before.length + (i + 1)) (by simp; omega)
    rw [get_of_le (by omega)] at hlater
    rw [← hlater]
    simp

/-- However often a source is asked for a token, errors or not, no block ends that has not begun,
lines never decrease, and no line has more than one error. The end marker comes after finitely many
calls, once all blocks are closed, and nothing but it comes then. -/
theorem results_wellFormed :
    (∀ count, WellFormed source ((scan source).results count)) ∧
      ∃ count line, .ok (.eof line) ∈ (scan source).results count := by
  constructor
  · intro count
    rw [results_eq_take]
    have htake := take_isPrefix count (scan source)
    have hyielded : yielded ((scan source).take count) <+:
        yielded (scan source).items ++ List.replicate count (.eof (scan source).eofLine) := by
      rw [← yielded_map_ok (List.replicate count _), ← yielded_append]
      exact htake.filterMap _
    refine ⟨fun front hfront => ?_, ?_, fun before x after => balanced_of_eof source count, ?_⟩
    · have := ends_le_of_isPrefix (foldlM_climb_scan source count) (hfront.trans hyielded)
      omega
    · exact (ascends_scan source count).pairwise.sublist hyielded.sublist
    · calc faults ((scan source).take count)
          ≤ faults ((scan source).items ++
              (List.replicate count (.eof (scan source).eofLine)).map .ok) :=
            faults_le_of_isPrefix htake
        _ = faults (scan source).items := by rw [faults_append, faults_map_ok, Nat.add_zero]
        _ ≤ (Text.lines source.toList).length := faults_scan source
  · refine ⟨(scan source).items.length + 1, (scan source).eofLine, ?_⟩
    rw [results_eq, ← get_of_le (Nat.le_refl _)]
    exact List.mem_map_of_mem (List.mem_range.2 (Nat.lt_succ_self _))

end TokenStream

end Lookahead
