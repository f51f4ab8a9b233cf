import Lookahead.Proofs.Layout.Lines

namespace Lookahead.Layout

section History

/-- Among lines of these widths, the last one first, a line of width `b` has opened a block, being
wider than the line before it, and no line since has closed the block, being narrower. -/
def IsOpen (widths : List Nat) (b : Nat) : Prop :=
  ∃ later earlier, widths = later ++ b :: earlier ∧ earlier.headD 0 < b ∧ ∀ v ∈ later, b ≤ v

/-- A width that is less than that of an open block, and so than that of the innermost, but that
neither an open block nor the outermost level has. -/
def Misaligned (widths : List Nat) (w : Nat) : Prop :=
  (∃ b, IsOpen widths b ∧ w < b) ∧ w ≠ 0 ∧ ¬IsOpen widths w

variable {widths : List Nat} {b w : Nat}

theorem IsOpen.pos (h : IsOpen widths b) : 0 < b := by
  obtain ⟨later, earlier, -, hlt, -⟩ := h
  omega

theorem IsOpen.le_headD (h : IsOpen widths b) : b ≤ widths.headD 0 := by
  obtain ⟨later, earlier, rfl, -, hlater⟩ := h
  cases later with
  | nil => exact Nat.le_refl b
  | cons v later => exact hlater v List.mem_cons_self

theorem not_isOpen_nil : ¬IsOpen [] b := by
  rintro ⟨later, earlier, h, -⟩
  exact List.append_ne_nil_of_right_ne_nil _ (List.cons_ne_nil _ _) h.symm

/-- A further line closes the blocks that are wider than it, and opens one if it is wider than the
line before. -/
theorem isOpen_cons : IsOpen (w :: widths) b ↔
    IsOpen widths b ∧ b ≤ w ∨ b = w ∧ widths.headD 0 < w := by
  constructor
  · rintro ⟨later, earlier, heq, hlt, hlater⟩
    cases later with
    | nil =>
      obtain ⟨rfl, rfl⟩ := List.cons.inj heq
      exact .inr ⟨rfl, hlt⟩
    | cons v later =>
      obtain ⟨rfl, rfl⟩ := List.cons.inj heq
      obtain ⟨hw, hlater⟩ := List.forall_mem_cons.1 hlater
      exact .inl ⟨⟨later, earlier, rfl, hlt, hlater⟩, hw⟩
  · rintro (⟨⟨later, earlier, rfl, hlt, hlater⟩, hle⟩ | ⟨rfl, hlt⟩)
    · exact ⟨w :: later, earlier, rfl, hlt, List.forall_mem_cons.2 ⟨hle, hlater⟩⟩
    · exact ⟨[], widths, rfl, hlt, List.forall_mem_nil _⟩

end History

section Settling

variable {blocks : Blocks} {widths : List Nat} {b w : Nat}

/-- The blocks, innermost first, are those that lines of these widths have left open. -/
structure Follows (blocks : Blocks) (widths : List Nat) : Prop where
  mem_iff : ∀ b, b ∈ blocks ↔ IsOpen widths b
  decreasing : blocks.Pairwise (· > ·)
  width_eq : blocks.width = widths.headD 0

theorem follows_nil : Follows [] [] := by
  refine ⟨fun b => ?_, .nil, rfl⟩
  exact iff_of_false List.not_mem_nil not_isOpen_nil

theorem dropWhile_eq_filter (h : blocks.Pairwise (· > ·)) (w : Nat) :
    blocks.dropWhile (w < ·) = blocks.filter (· ≤ w) := by
  induction blocks with
  | nil => rfl
  | cons b blocks ih =>
    obtain ⟨hb, hblocks⟩ := List.pairwise_cons.1 h
    by_cases hw : w < b
    · rw [List.dropWhile_cons_of_pos (by simpa using hw), ih hblocks,
        List.filter_cons_of_neg (by simpa using hw)]
    · rw [List.dropWhile_cons_of_neg (by simpa using hw), List.filter_eq_self.2]
      intro v hv
      rcases List.mem_cons.1 hv with rfl | hv
      · simpa using hw
      · have := hb v hv
        simp only [decide_eq_true_eq]
        omega

theorem settle_of_lt (h : blocks.width < w) (number : Nat) :
    settle blocks number w = ([marker .blockBegin number], w :: blocks) := if_pos h

/-- A line that is no wider closes the blocks that are wider than it. -/
theorem settle_of_le (hblocks : blocks.Pairwise (· > ·)) (h : w ≤ blocks.width) (number : Nat) :
    settle blocks number w = (List.replicate (blocks.countP (w < ·)) (marker .blockEnd number),
      blocks.drop (blocks.countP (w < ·))) ∧
      blocks.drop (blocks.countP (w < ·)) = blocks.filter (· ≤ w) := by
  have hkept := dropWhile_eq_filter hblocks w
  have hcount : blocks.length - (blocks.filter (· ≤ w)).length = blocks.countP (w < ·) := by
    have hlength := List.length_eq_countP_add_countP (fun b => decide (w < b)) (l := blocks)
    have hrest : blocks.countP (fun b => ¬decide (w < b) = true) =
        (blocks.filter (· ≤ w)).length := by
      rw [← List.countP_eq_length_filter]
      exact List.countP_congr fun b _ => by simp
    omega
  have hdrop : blocks.drop (blocks.countP (w < ·)) = blocks.filter (· ≤ w) := by
    rw [← hcount, ← hkept]
    exact (List.suffix_iff_eq_drop.1 (List.dropWhile_suffix _)).symm
  refine ⟨?_, hdrop⟩
  rw [settle, if_neg (Nat.not_lt.2 h), hkept, hdrop, ← hcount]

theorem mem_or_eq_zero_of_width (h : blocks.width = w) : w ∈ blocks ∨ w = 0 := by
  cases blocks with
  | nil => exact .inr h.symm
  | cons b blocks => exact .inl (h ▸ List.mem_cons_self)

theorem width_of_mem (hblocks : blocks.Pairwise (· > ·)) (hle : ∀ b ∈ blocks, b ≤ w)
    (h : w ∈ blocks) : blocks.width = w := by
  cases blocks with
  | nil => cases h
  | cons b blocks =>
    rcases List.mem_cons.1 h with rfl | h
    · rfl
    · have := (List.pairwise_cons.1 hblocks).1 w h
      have := hle b List.mem_cons_self
      omega

/-- A line that is no wider than the one before is misaligned unless it fits a block. -/
theorem Follows.not_misaligned_iff (h : Follows blocks widths) (hw : w ≤ widths.headD 0) :
    ¬Misaligned widths w ↔ w = 0 ∨ IsOpen widths w := by
  constructor
  · intro hfits
    by_cases hzero : w = 0
    · exact .inl hzero
    by_cases hopen : IsOpen widths w
    · exact .inr hopen
    refine absurd ⟨?_, hzero, hopen⟩ hfits
    rcases mem_or_eq_zero_of_width h.width_eq with hmem | hempty
    · rw [h.mem_iff] at hmem
      have hne : w ≠ widths.headD 0 := fun heq => hopen (heq ▸ hmem)
      exact ⟨_, hmem, by omega⟩
    · omega
  · rintro (rfl | hopen) ⟨-, hzero, hclosed⟩
    · exact hzero rfl
    · exact hclosed hopen

theorem Follows.width_filter_iff (h : Follows blocks widths) :
    Blocks.width (blocks.filter (· ≤ w)) = w ↔ w = 0 ∨ IsOpen widths w := by
  have hmem (b : Nat) : b ∈ blocks.filter (· ≤ w) ↔ IsOpen widths b ∧ b ≤ w := by
    rw [List.mem_filter, h.mem_iff, decide_eq_true_eq]
  constructor
  · intro hwidth
    rcases mem_or_eq_zero_of_width hwidth with hw | hw
    · exact .inr ((hmem w).1 hw).1
    · exact .inl hw
  · rintro (rfl | hw)
    · have hnil : blocks.filter (· ≤ 0) = [] := by
        refine List.eq_nil_iff_forall_not_mem.2 fun b hb => ?_
        obtain ⟨hopen, hle⟩ := (hmem b).1 hb
        have := hopen.pos
        omega
      rw [hnil]
      rfl
    · exact width_of_mem (h.decreasing.filter _) (fun b hb => ((hmem b).1 hb).2)
        ((hmem w).2 ⟨hw, Nat.le_refl w⟩)

/-- A line is in line with the blocks it leaves open unless it is misaligned, and then they follow
it. -/
theorem Follows.settle (h : Follows blocks widths) (number w : Nat) :
    ((settle blocks number w).2.width = w ↔ ¬Misaligned widths w) ∧
      (¬Misaligned widths w → Follows (settle blocks number w).2 (w :: widths)) := by
  rcases Nat.lt_or_ge (widths.headD 0) w with hw | hw
  · -- A wider line is wider than all open blocks, and opens one.
    have haligned : ¬Misaligned widths w := by
      rintro ⟨⟨b, hb, hlt⟩, -⟩
      have := hb.le_headD
      omega
    rw [settle_of_lt (h.width_eq ▸ hw)]
    refine ⟨iff_of_true rfl haligned, fun _ => ⟨fun b => ?_, ?_, rfl⟩⟩
    · rw [List.mem_cons, h.mem_iff, isOpen_cons]
      constructor
      · rintro (rfl | hb)
        · exact .inr ⟨rfl, hw⟩
        · have := hb.le_headD
          exact .inl ⟨hb, by omega⟩
      · rintro (⟨hb, -⟩ | ⟨rfl, -⟩)
        · exact .inr hb
        · exact .inl rfl
    · refine List.pairwise_cons.2 ⟨fun b hb => ?_, h.decreasing⟩
      have := ((h.mem_iff b).1 hb).le_headD
      omega
  · obtain ⟨hsettle, hdrop⟩ := settle_of_le h.decreasing (h.width_eq ▸ hw) number
    rw [hsettle, hdrop, h.not_misaligned_iff hw]
    refine ⟨h.width_filter_iff, fun haligned =>
      ⟨fun b => ?_, h.decreasing.filter _, h.width_filter_iff.2 haligned⟩⟩
    · rw [List.mem_filter, h.mem_iff, decide_eq_true_eq, isOpen_cons]
      constructor
      · exact .inl
      · rintro (hb | ⟨-, hlt⟩)
        · exact hb
        · omega

end Settling

section Marks

def isMark (x : Token) : Bool :=
  x.kind = Terminal.blockBegin.name || x.kind = Terminal.blockEnd.name

def track (opened : List Nat) (x : Token) : List Nat :=
  if x.kind = Terminal.blockBegin.name then x.line :: opened
  else if x.kind = Terminal.blockEnd.name then opened.tail
  else opened

/-- The lines of the markers that have begun a block and are not matched yet by one that ends it,
the innermost first. -/
def openLines (tokens : List Token) : List Nat := tokens.foldl track []

theorem openLines_append (tokens more : List Token) :
    openLines (tokens ++ more) = more.foldl track (openLines tokens) := List.foldl_append

theorem foldl_track_ends (opened : List Nat) (count number : Nat) :
    (List.replicate count (marker .blockEnd number)).foldl track opened = opened.drop count := by
  induction count generalizing opened with
  | zero => rfl
  | succ count ih =>
    rw [List.replicate_succ, List.foldl_cons, ih]
    exact List.drop_tail

theorem foldl_track_plain {tokens : List Token} (h : ∀ x ∈ tokens, isMark x = false)
    (opened : List Nat) : tokens.foldl track opened = opened := by
  induction tokens with
  | nil => rfl
  | cons x tokens ih =>
    obtain ⟨hx, htokens⟩ := List.forall_mem_cons.1 h
    rw [isMark, Bool.or_eq_false_iff, decide_eq_false_iff_not, decide_eq_false_iff_not] at hx
    rw [List.foldl_cons, track, if_neg hx.1, if_neg hx.2, ih htokens]

theorem isMark_eq_false {kind : Terminal} (h : kind.isLayout = false ∨ kind = .newline)
    (literal : Option String) (line : Nat) : isMark ⟨kind.name, literal, line⟩ = false := by
  rw [isMark, Bool.or_eq_false_iff, decide_eq_false_iff_not, decide_eq_false_iff_not]
  constructor <;> intro heq <;> obtain rfl := Terminal.name_injective heq <;>
    rcases h with h | h <;> cases h

/-- The tokens of a line behind its markers are on that line, and no markers. -/
theorem mem_lineTokens {number : Nat} {line : List Char} :
    ∀ x ∈ lineTokens number line, x.line = number ∧ isMark x = false := by
  intro x hx
  rcases List.mem_append.1 hx with hx | hx
  · obtain ⟨l, hl, rfl⟩ := List.mem_map.1 hx
    exact ⟨rfl, isMark_eq_false (.inl (Lexeme.hasLiteral_ofLine _ l hl).2) _ _⟩
  · rw [List.mem_singleton.1 hx]
    exact ⟨rfl, isMark_eq_false (.inr rfl) _ _⟩

end Marks

section Refusal

def widthsOf (lines : List (Nat × List Char)) : List Nat :=
  (lines.map fun e => indentWidth e.2).reverse

theorem widthsOf_append_singleton (lines : List (Nat × List Char)) (e : Nat × List Char) :
    widthsOf (lines ++ [e]) = indentWidth e.2 :: widthsOf lines := by
  rw [widthsOf, List.map_append, List.reverse_append]
  rfl

/-- Behind the lines `done`, the first misaligned line has this number and this width, and all lines
before it can be read. -/
def FirstMisaligned (done lines : List (Nat × List Char)) (number width : Nat) : Prop :=
  ∃ before line after, lines = before ++ (number, line) :: after ∧ indentWidth line = width ∧
    Misaligned (widthsOf (done ++ before)) width ∧
    (∀ earlier e later, before = earlier ++ e :: later →
      ¬Misaligned (widthsOf (done ++ earlier)) (indentWidth e.2)) ∧
    ∀ e ∈ before, isReadable e.2 = true

variable {done lines : List (Nat × List Char)} {number width : Nat}

theorem not_firstMisaligned_nil : ¬FirstMisaligned done [] number width := by
  rintro ⟨before, line, after, h, -⟩
  exact List.append_ne_nil_of_right_ne_nil _ (List.cons_ne_nil _ _) h.symm

theorem firstMisaligned_cons {e : Nat × List Char} :
    FirstMisaligned done (e :: lines) number width ↔
      Misaligned (widthsOf done) (indentWidth e.2) ∧ e.1 = number ∧ indentWidth e.2 = width ∨
        ¬Misaligned (widthsOf done) (indentWidth e.2) ∧ isReadable e.2 = true ∧
          FirstMisaligned (done ++ [e]) lines number width := by
  constructor
  · rintro ⟨before, line, after, heq, hwidth, hmis, hfirst, hread⟩
    cases before with
    | nil =>
      obtain ⟨rfl, rfl⟩ := List.cons.inj heq
      rw [List.append_nil, ← hwidth] at hmis
      exact .inl ⟨hmis, rfl, hwidth⟩
    | cons e' before =>
      obtain ⟨rfl, rfl⟩ := List.cons.inj heq
      obtain ⟨he, hbefore⟩ := List.forall_mem_cons.1 hread
      have hfits := hfirst [] e before rfl
      rw [List.append_nil] at hfits
      refine .inr ⟨hfits, he, before, line, after, rfl, hwidth, ?_, fun earlier e' later h => ?_,
        hbefore⟩
      · rwa [List.append_assoc]
      · rw [List.append_assoc]
        exact hfirst (e :: earlier) e' later (by rw [h]; rfl)
  · rintro (⟨hmis, rfl, rfl⟩ | ⟨hfits, he, before, line, after, rfl, hwidth, hmis, hfirst, hread⟩)
    · refine ⟨[], e.2, lines, rfl, rfl, ?_, fun earlier e' later h => ?_, List.forall_mem_nil _⟩
      · rwa [List.append_nil]
      · exact absurd h.symm (List.append_ne_nil_of_right_ne_nil _ (List.cons_ne_nil _ _))
    · refine ⟨e :: before, line, after, rfl, hwidth, ?_, fun earlier e' later h => ?_,
        List.forall_mem_cons.2 ⟨he, hread⟩⟩
      · rwa [List.append_assoc] at hmis
      · cases earlier with
        | nil =>
          obtain ⟨rfl, -⟩ := List.cons.inj h
          rwa [List.append_nil]
        | cons e'' earlier =>
          obtain ⟨rfl, hbefore⟩ := List.cons.inj h
          have hlater := hfirst earlier e' later hbefore
          rwa [List.append_assoc] at hlater

/-- Scanning ends with an inconsistent dedent exactly at the first misaligned line. -/
theorem mapM_eq_dedent_iff {blocks : Blocks} (hlines : ∀ e ∈ lines, isSkipped e.2 = false)
    (h : Follows blocks (widthsOf done)) (last : Nat) :
    (scanLines blocks last lines).items.mapM id = .error (.inconsistentDedent number width) ↔
      FirstMisaligned done lines number width := by
  induction lines generalizing blocks done last with
  | nil =>
    rw [mapM_id_eq_ok.2 (scanLines_nil blocks last)]
    exact iff_of_false (fun h => by cases h) not_firstMisaligned_nil
  | cons e rest ih =>
    obtain ⟨m, line⟩ := e
    obtain ⟨hline, hrest⟩ := List.forall_mem_cons.1 hlines
    obtain ⟨hwidth, hfollows⟩ := h.settle m (indentWidth line)
    rw [scanLines_cons hline, firstMisaligned_cons]
    change List.mapM id ((scanLine blocks m line).1 ++ _) = _ ↔ _
    cases scans blocks m line with
    | misaligned hne hitems =>
      obtain ⟨items, hitems⟩ := hitems
      have hmis : Misaligned (widthsOf done) (indentWidth line) :=
        Classical.not_not.1 fun hfits => hne (hwidth.2 hfits)
      rw [hitems, List.cons_append, mapM_error_cons]
      simp [hmis]
    | unreadable heq hread hitems =>
      obtain ⟨e, items, hitems, hother⟩ := hitems
      rw [hitems, List.cons_append, mapM_error_cons]
      simp [hwidth.1 heq, hread, hother]
    | read heq hread hscan =>
      have hfits := hwidth.1 heq
      have hnext : Follows (scanLine blocks m line).2 (widthsOf (done ++ [(m, line)])) := by
        rw [hscan, widthsOf_append_singleton]
        exact hfollows hfits
      rw [hscan] at hnext ⊢
      rw [mapM_ok_append, ← ih hrest hnext m]
      cases (scanLines _ m rest).items.mapM id <;> simp [hfits, hread, Except.map]

end Refusal

section Tracking

def widthAt (source : String) (number : Nat) : Nat :=
  indentWidth ((Text.lines source.toList).getD (number - 1) [])

theorem widthAt_of_mem {source : String} {e : Nat × List Char} (h : e ∈ codeLines source) :
    widthAt source e.1 = indentWidth e.2 := by
  obtain ⟨-, hline⟩ := mem_numberedLines (List.mem_filter.1 h).1
  rw [widthAt, List.getD_eq_getElem?_getD, hline, Option.getD_some]

/-- The widths of the lines that opened blocks increase from the outermost level inwards. -/
def Nested (source : String) (opened : List Nat) : Prop :=
  (0 :: (opened.map (widthAt source)).reverse).Pairwise (· < ·)

/-- The tokens leave open those blocks that lines of these widths do. -/
structure Tracks (source : String) (tokens : List Token) (blocks : Blocks) (widths : List Nat) :
    Prop where
  follows : Follows blocks widths
  opened : (openLines tokens).map (widthAt source) = blocks

variable {source : String} {tokens : List Token} {blocks : Blocks} {widths : List Nat}

theorem Follows.nested (h : Follows blocks widths) {opened : List Nat}
    (hopened : (opened.map (widthAt source)).Sublist blocks) : Nested source opened := by
  refine List.pairwise_cons.2 ⟨fun b hb => ?_, ?_⟩
  · exact ((h.mem_iff b).1 (hopened.subset (List.mem_reverse.1 hb))).pos
  · exact List.pairwise_reverse.2 (h.decreasing.sublist hopened)

theorem Tracks.marks_eq (h : Tracks source tokens blocks widths) (number width : Nat) :
    (settle blocks number width).1 =
      if widths.headD 0 < width then [marker .blockBegin number]
      else List.replicate ((openLines tokens).countP (width < widthAt source ·))
        (marker .blockEnd number) := by
  rw [← h.follows.width_eq]
  split
  · next hlt => rw [settle_of_lt hlt]
  · next hle =>
    have hcount : blocks.countP (width < ·) =
        (openLines tokens).countP (width < widthAt source ·) := by
      rw [← h.opened, List.countP_map]
      rfl
    rw [(settle_of_le h.follows.decreasing (Nat.not_lt.1 hle) number).1, hcount]

/-- Markers open and close the blocks that they are for. -/
theorem Tracks.marks (h : Tracks source tokens blocks widths) {number width : Nat}
    (hwidth : widthAt source number = width) :
    (openLines (tokens ++ (settle blocks number width).1)).map (widthAt source) =
      (settle blocks number width).2 := by
  rcases Nat.lt_or_ge blocks.width width with hlt | hle
  · rw [settle_of_lt hlt, openLines_append, ← h.opened, ← hwidth]
    rfl
  · rw [(settle_of_le h.follows.decreasing hle number).1, openLines_append, foldl_track_ends,
      List.map_drop, h.opened]

/-- A line that is read leaves the blocks tracked. -/
theorem Tracks.line (h : Tracks source tokens blocks widths) {number : Nat} {line : List Char}
    (hwidth : widthAt source number = indentWidth line)
    (haligned : (settle blocks number (indentWidth line)).2.width = indentWidth line) :
    Tracks source
      (tokens ++ ((settle blocks number (indentWidth line)).1 ++ lineTokens number line))
      (settle blocks number (indentWidth line)).2 (indentWidth line :: widths) := by
  obtain ⟨hiff, hfollows⟩ := h.follows.settle number (indentWidth line)
  refine ⟨hfollows (hiff.1 haligned), ?_⟩
  rw [← List.append_assoc, openLines_append, foldl_track_plain fun x hx => (mem_lineTokens x hx).2,
    h.marks hwidth]

end Tracking

section Introduction

/-- In front of the first token of a line other than a marker stand the markers of the line, and
before them the tokens of earlier lines, which leave open the blocks that the widths of these lines
tell of. A line that is wider than the one before has one marker, which begins a block; otherwise it
has one for each wider block, which ends it. After its markers the innermost block is as wide as the
line. -/
def Introduced (source : String) (tokens : List Token) (widths : List Nat) (number width : Nat) :
    Prop :=
  ∃ front marks x rest, tokens = front ++ (marks ++ x :: rest) ∧ (∀ y ∈ front, y.line < number) ∧
    x.line = number ∧ isMark x = false ∧
    (∀ b, b ∈ (openLines front).map (widthAt source) ↔ IsOpen widths b) ∧
    (marks = if widths.headD 0 < width then [marker .blockBegin number]
      else List.replicate ((openLines front).countP (width < widthAt source ·))
        (marker .blockEnd number)) ∧
    ((openLines (front ++ marks)).map (widthAt source)).headD 0 = width

variable {source : String} {blocks : Blocks} {lines done : List (Nat × List Char)}
  {front ts : List Token}

theorem line_of_mem_settle {number width : Nat} {x : Token}
    (h : x ∈ (settle blocks number width).1) : x.line = number := by
  unfold settle at h
  split at h
  · rw [List.mem_singleton.1 h]
    rfl
  · rw [List.eq_of_mem_replicate h]
    rfl

theorem introduced_of_scanLines (hlines : ∀ e ∈ lines, isSkipped e.2 = false)
    (hwidths : ∀ e ∈ lines, widthAt source e.1 = indentWidth e.2)
    (hnumbers : lines.Pairwise fun e e' => e.1 < e'.1)
    (hfront : ∀ x ∈ front, ∀ e ∈ lines, x.line < e.1)
    (h : Tracks source front blocks (widthsOf done)) {last : Nat}
    (hts : (scanLines blocks last lines).items = ts.map .ok) (more : List Token) :
    ∀ before e after, lines = before ++ e :: after →
      Introduced source (front ++ (ts ++ more)) (widthsOf (done ++ before)) e.1
        (indentWidth e.2) := by
  induction lines generalizing blocks done front ts last with
  | nil =>
    intro before e after heq
    exact absurd heq.symm (List.append_ne_nil_of_right_ne_nil _ (List.cons_ne_nil _ _))
  | cons e lines ih =>
    obtain ⟨number, line⟩ := e
    obtain ⟨hline, hlines⟩ := List.forall_mem_cons.1 hlines
    obtain ⟨hwidth, hwidths⟩ := List.forall_mem_cons.1 hwidths
    obtain ⟨hnumber, hnumbers⟩ := List.pairwise_cons.1 hnumbers
    obtain ⟨us, rfl, haligned, -, hus⟩ := exists_of_scanLines_cons hline hts
    intro before e after heq
    cases before with
    | nil =>
      obtain ⟨rfl, rfl⟩ := List.cons.inj heq
      obtain ⟨x, rest, hx⟩ : ∃ x rest, lineTokens number line = x :: rest :=
        List.exists_cons_of_ne_nil (List.append_ne_nil_of_right_ne_nil _ (List.cons_ne_nil _ _))
      have hmem : x ∈ lineTokens number line := hx ▸ List.mem_cons_self
      refine ⟨front, (settle blocks number (indentWidth line)).1, x, rest ++ (us ++ more), ?_,
        fun y hy => hfront y hy _ List.mem_cons_self, (mem_lineTokens x hmem).1,
        (mem_lineTokens x hmem).2, fun b => ?_, ?_, ?_⟩
      · simp only [hx, List.append_assoc, List.cons_append]
      · rw [h.opened, List.append_nil, h.follows.mem_iff]
      · rw [List.append_nil]
        exact h.marks_eq number (indentWidth line)
      · rw [h.marks hwidth]
        exact haligned
    | cons e' before =>
      obtain ⟨rfl, rfl⟩ := List.cons.inj heq
      have htracks := h.line hwidth haligned
      rw [← widthsOf_append_singleton done (number, line)] at htracks
      have hnext := ih hlines hwidths hnumbers ?_ htracks hus before e after rfl
      · simpa only [List.append_assoc, List.cons_append, List.nil_append] using hnext
      · intro x hx e he
        rcases List.mem_append.1 hx with hx | hx
        · exact hfront x hx e (List.mem_cons_of_mem _ he)
        · have hx : x.line = number := by
            rcases List.mem_append.1 hx with hx | hx
            · exact line_of_mem_settle hx
            · exact (mem_lineTokens x hx).1
          rw [hx]
          exact hnumber e he

end Introduction

section Nesting

def StaysNested (source : String) (opened : List Nat) (tokens : List Token) : Prop :=
  ∀ i, Nested source ((tokens.take i).foldl track opened)

variable {source : String} {opened : List Nat} {tokens more : List Token} {blocks : Blocks}

theorem StaysNested.append (h : StaysNested source opened tokens)
    (hmore : StaysNested source (tokens.foldl track opened) more) :
    StaysNested source opened (tokens ++ more) := by
  intro i
  rw [List.take_append, List.foldl_append]
  rcases Nat.lt_or_ge tokens.length i with hi | hi
  · rw [List.take_of_length_le (Nat.le_of_lt hi)]
    exact hmore _
  · rw [Nat.sub_eq_zero_of_le hi]
    exact h i

theorem staysNested_plain (hplain : ∀ x ∈ tokens, isMark x = false) (h : Nested source opened) :
    StaysNested source opened tokens := by
  intro i
  rwa [foldl_track_plain fun x hx => hplain x (List.mem_of_mem_take hx)]

theorem Tracks.staysNested_ends {widths : List Nat} (h : Tracks source tokens blocks widths)
    (count number : Nat) : StaysNested source (openLines tokens)
      (List.replicate count (marker .blockEnd number)) := by
  intro i
  rw [List.take_replicate, foldl_track_ends]
  refine h.follows.nested ?_
  rw [List.map_drop, h.opened]
  exact List.drop_sublist _ _

theorem Tracks.nested {widths : List Nat} (h : Tracks source tokens blocks widths) :
    Nested source (openLines tokens) :=
  h.follows.nested (h.opened ▸ List.Sublist.refl _)

theorem Tracks.staysNested_line {widths : List Nat} (h : Tracks source tokens blocks widths)
    {number : Nat} {line : List Char} (hwidth : widthAt source number = indentWidth line)
    (haligned : (settle blocks number (indentWidth line)).2.width = indentWidth line) :
    StaysNested source (openLines tokens)
      ((settle blocks number (indentWidth line)).1 ++ lineTokens number line) := by
  have hplain : ∀ x ∈ lineTokens number line, isMark x = false := fun x hx =>
    (mem_lineTokens x hx).2
  have hnext : Nested source ((settle blocks number (indentWidth line)).1.foldl track
      (openLines tokens)) := by
    have hline := (h.line hwidth haligned).nested
    rwa [openLines_append, List.foldl_append, foldl_track_plain hplain] at hline
  refine StaysNested.append ?_ (staysNested_plain hplain hnext)
  rcases Nat.lt_or_ge blocks.width (indentWidth line) with hlt | hle
  · rw [settle_of_lt hlt] at hnext ⊢
    intro i
    cases i with
    | zero => exact h.nested
    | succ i => simpa using hnext
  · rw [(settle_of_le h.follows.decreasing hle number).1]
    exact h.staysNested_ends _ number

theorem staysNested_of_scanLines {lines done : List (Nat × List Char)} {front ts : List Token}
    (hlines : ∀ e ∈ lines, isSkipped e.2 = false)
    (hwidths : ∀ e ∈ lines, widthAt source e.1 = indentWidth e.2)
    (h : Tracks source front blocks (widthsOf done)) {last : Nat}
    (hts : (scanLines blocks last lines).items = ts.map .ok) :
    StaysNested source (openLines front) ts := by
  induction lines generalizing blocks done front ts last with
  | nil =>
    rw [scanLines_nil] at hts
    rw [← map_ok_injective hts]
    exact h.staysNested_ends _ last
  | cons e lines ih =>
    obtain ⟨number, line⟩ := e
    obtain ⟨hline, hlines⟩ := List.forall_mem_cons.1 hlines
    obtain ⟨hwidth, hwidths⟩ := List.forall_mem_cons.1 hwidths
    obtain ⟨us, rfl, haligned, -, hus⟩ := exists_of_scanLines_cons hline hts
    have htracks := h.line hwidth haligned
    rw [← widthsOf_append_singleton done (number, line)] at htracks
    have hrest := ih hlines hwidths htracks hus
    rw [openLines_append] at hrest
    rw [← List.append_assoc]
    exact (h.staysNested_line hwidth haligned).append hrest

end Nesting

/-- Every line with code is introduced by its markers, and the open blocks are always nested. -/
structure LaidOut (source : String) (tokens : List Token) : Prop where
  introduced : ∀ before e after, codeLines source = before ++ e :: after →
    Introduced source tokens (widthsOf before) e.1 (indentWidth e.2)
  nested : ∀ i, Nested source (openLines (tokens.take i))

theorem tracks_nil (source : String) : Tracks source [] [] (widthsOf []) := ⟨follows_nil, rfl⟩

theorem tokenize_eq_error {source : String} {e : LexicalError} :
    tokenize source = .error e ↔ (TokenStream.scan source).items.mapM id = .error e := by
  rw [tokenize_eq]
  cases (TokenStream.scan source).items.mapM id with
  | error e' => rfl
  | ok ts => exact iff_of_false (fun h => by cases h) fun h => by cases h

/-- Indentation becomes blocks exactly: the first line that fits no block is refused, unless the
scanner has stopped before, and if no line is at fault, the markers are those of the blocks that
the widths tell of. -/
theorem indentation_exact (source : String) :
    (∀ number width, tokenize source = .error (.inconsistentDedent number width) ↔
      FirstMisaligned [] (codeLines source) number width) ∧
    ∀ tokens, tokenize source = .ok tokens → LaidOut source tokens := by
  have hlines : ∀ e ∈ codeLines source, isSkipped e.2 = false := fun e he =>
    isSkipped_of_mem_codeLines he
  have hwidths : ∀ e ∈ codeLines source, widthAt source e.1 = indentWidth e.2 := fun e he =>
    widthAt_of_mem he
  constructor
  · intro number width
    rw [tokenize_eq_error, scan_eq]
    exact mapM_eq_dedent_iff hlines (tracks_nil source).follows 1
  · intro tokens htokens
    obtain ⟨ts, hts, rfl⟩ := tokenize_eq_ok.1 htokens
    rw [scan_eq] at hts
    refine ⟨?_, ?_⟩
    · exact introduced_of_scanLines hlines hwidths (pairwise_codeLines source)
        (List.forall_mem_nil _) (tracks_nil source) hts _
    · have hnested := staysNested_of_scanLines hlines hwidths (tracks_nil source) hts
      refine hnested.append (staysNested_plain (List.forall_mem_singleton.2 rfl) ?_)
      have hall := hnested ts.length
      rwa [List.take_length] at hall

end Lookahead.Layout
