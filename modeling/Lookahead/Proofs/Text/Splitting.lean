import Lookahead.Grammar.Text
import Mathlib.Data.List.DropRight

namespace Lookahead.Text

section Lines

theorem lines_cons {c : Char} {cs : List Char} (hc : c ≠ '\n')
    (hr : c = '\r' → cs.head? ≠ some '\n') :
    lines (c :: cs) = (c :: (lines cs).headD []) :: (lines cs).tail := by
  rw [lines]
  · cases lines cs <;> rfl
  · rintro rest rfl rfl
    exact hr rfl rfl
  · exact hc

theorem lines_ne_nil {cs : List Char} (h : cs ≠ []) : lines cs ≠ [] := by
  intro hnil
  unfold lines at hnil
  split at hnil
  · exact h rfl
  · cases hnil
  · cases hnil
  · split at hnil <;> cases hnil

theorem lines_eq_singleton {cs : List Char} (hne : cs ≠ []) (h : '\n' ∉ cs) : lines cs = [cs] := by
  induction cs with
  | nil => exact absurd rfl hne
  | cons c cs ih =>
    rw [List.mem_cons, not_or] at h
    rw [lines_cons (Ne.symm h.1) fun _ hhead => h.2 (List.mem_of_head? hhead)]
    cases cs with
    | nil => rfl
    | cons d cs =>
      rw [ih (List.cons_ne_nil d cs) h.2]
      rfl

/-- A line break ends the line, and takes a carriage return from its end. -/
theorem exists_lines_eq {line ending : List Char} (h : '\n' ∉ line)
    (hending : ending = ['\n'] ∨ ending = ['\r', '\n']) (more : List Char) :
    ∃ line', (line' = line ∨ line' ++ ['\r'] = line) ∧
      lines (line ++ (ending ++ more)) = line' :: lines more := by
  induction line with
  | nil =>
    refine ⟨[], .inl rfl, ?_⟩
    rcases hending with rfl | rfl
    · rw [List.nil_append, List.cons_append, lines]
      rfl
    · rfl
  | cons c line ih =>
    rw [List.mem_cons, not_or] at h
    obtain ⟨line', hline', hlines⟩ := ih h.2
    by_cases hreturn : c = '\r' ∧ (line ++ (ending ++ more)).head? = some '\n'
    · obtain ⟨rfl, hhead⟩ := hreturn
      cases line with
      | nil =>
        rcases hending with rfl | rfl
        · exact ⟨[], .inr rfl, rfl⟩
        · cases hhead
      | cons d line =>
        obtain rfl : d = '\n' := Option.some.inj hhead
        exact absurd List.mem_cons_self h.2
    · refine ⟨c :: line', ?_, ?_⟩
      · exact hline'.imp (congrArg (c :: ·)) (congrArg (c :: ·))
      · rw [List.cons_append, lines_cons (Ne.symm h.1) fun hc hhead => hreturn ⟨hc, hhead⟩, hlines]
        rfl

/-- Texts without line breaks, one a line. -/
theorem lines_intercalate {texts : List (List Char)}
    (h : ∀ text ∈ texts, text ≠ [] ∧ '\n' ∉ text ∧ '\r' ∉ text) :
    lines (['\n'].intercalate texts) = texts := by
  induction texts with
  | nil => rfl
  | cons text texts ih =>
    obtain ⟨⟨hne, hnewline, hreturn⟩, htexts⟩ := List.forall_mem_cons.1 h
    cases texts with
    | nil =>
      rw [List.intercalate_singleton]
      exact lines_eq_singleton hne hnewline
    | cons text' texts =>
      rw [List.intercalate_cons_cons, List.append_assoc]
      obtain ⟨line, hline, hlines⟩ := exists_lines_eq hnewline (.inl rfl)
        (['\n'].intercalate (text' :: texts))
      rw [hlines, ih htexts]
      rcases hline with rfl | rfl
      · rfl
      · exact absurd (by simp) hreturn

end Lines

section Words

variable {p : Char → Bool} {cs part : List Char}

theorem mem_of_mem_splitOnP (h : part ∈ cs.splitOnP p) : ∀ c ∈ part, c ∈ cs ∧ p c = false := by
  induction cs generalizing part with
  | nil =>
    rw [List.splitOnP_nil, List.mem_singleton] at h
    rw [h]
    exact List.forall_mem_nil _
  | cons d cs ih =>
    have hlater {part : List Char} (h : part ∈ cs.splitOnP p) :
        ∀ c ∈ part, c ∈ d :: cs ∧ p c = false := fun c hc =>
      ⟨List.mem_cons_of_mem d (ih h c hc).1, (ih h c hc).2⟩
    rw [List.splitOnP_cons_eq_if_modifyHead] at h
    split at h
    · rcases List.mem_cons.1 h with rfl | h
      · exact List.forall_mem_nil _
      · exact hlater h
    · next hd =>
      cases hsplit : cs.splitOnP p with
      | nil => exact absurd hsplit (List.splitOnP_ne_nil p cs)
      | cons first rest =>
        rw [hsplit] at h
        rcases List.mem_cons.1 h with rfl | h
        · refine List.forall_mem_cons.2 ⟨⟨List.mem_cons_self, by simpa using hd⟩, ?_⟩
          exact hlater (hsplit ▸ List.mem_cons_self)
        · exact hlater (hsplit ▸ List.mem_cons_of_mem _ h)

theorem mem_of_mem_words (h : part ∈ words cs) :
    part ≠ [] ∧ ∀ c ∈ part, c ∈ cs ∧ isBlank c = false := by
  obtain ⟨hmem, hne⟩ := List.mem_filter.1 h
  exact ⟨by simpa using hne, mem_of_mem_splitOnP hmem⟩

theorem words_append_blank {c : Char} (hc : isBlank c = true) (cs ds : List Char) :
    words (cs ++ c :: ds) = words cs ++ words ds := by
  rw [words, List.splitOnP_append_cons cs ds hc, List.filter_append, words, words]

theorem words_eq_singleton (hne : part ≠ []) (h : ∀ c ∈ part, isBlank c = false) :
    words part = [part] := by
  rw [words, List.splitOnP_eq_singleton h]
  simp [hne]

theorem words_intercalate {ws : List (List Char)}
    (h : ∀ w ∈ ws, w ≠ [] ∧ ∀ c ∈ w, isBlank c = false) : words ([' '].intercalate ws) = ws := by
  induction ws with
  | nil => rfl
  | cons w ws ih =>
    obtain ⟨⟨hne, hw⟩, hws⟩ := List.forall_mem_cons.1 h
    cases ws with
    | nil => rw [List.intercalate_singleton, words_eq_singleton hne hw]
    | cons w' ws =>
      rw [List.intercalate_cons_cons, List.append_assoc, List.singleton_append,
        words_append_blank (by decide), words_eq_singleton hne hw, ih hws]
      rfl

end Words

section Trimming

variable {cs : List Char}

theorem prefix_trim (cs : List Char) : trim cs <+: trimLeft cs :=
  List.rdropWhile_prefix isBlank (trimLeft cs)

theorem trim_subset (cs : List Char) : trim cs ⊆ cs := fun _ hc =>
  (List.dropWhile_suffix _).subset ((prefix_trim cs).subset hc)

theorem isBlank_head?_trim {c : Char} (h : (trim cs).head? = some c) : isBlank c = false := by
  obtain ⟨rest, hrest⟩ := List.head?_eq_some_iff.1 h
  obtain ⟨more, hmore⟩ := prefix_trim cs
  have hhead : (cs.dropWhile isBlank).head? = some c := by
    rw [← trimLeft, ← hmore, hrest]
    rfl
  have hnot := List.head?_dropWhile_not isBlank cs
  rw [hhead] at hnot
  simpa using hnot

/-- Blanks behind a text with none at its ends are trimmed away. -/
theorem trim_append {c d : Char} {blanks : List Char} (hhead : cs.head? = some c)
    (hc : isBlank c = false) (hlast : cs.getLast? = some d) (hd : isBlank d = false)
    (hblanks : ∀ c ∈ blanks, isBlank c = true) : trim (cs ++ blanks) = cs := by
  have hleft : trimLeft (cs ++ blanks) = cs ++ blanks := by
    obtain ⟨rest, rfl⟩ := List.head?_eq_some_iff.1 hhead
    rw [trimLeft, List.cons_append, List.dropWhile_cons_of_neg (by rw [hc]; decide)]
  have hright : cs.reverse.dropWhile isBlank = cs.reverse := by
    rw [← List.head?_reverse] at hlast
    obtain ⟨rest, hrest⟩ := List.head?_eq_some_iff.1 hlast
    rw [hrest, List.dropWhile_cons_of_neg (by rw [hd]; decide)]
  rw [trim, hleft, List.reverse_append, trimLeft,
    List.dropWhile_append_of_pos fun c hc => hblanks c (List.mem_reverse.1 hc), hright,
    List.reverse_reverse]

end Trimming

section Arrows

variable {cs ds : List Char}

theorem splitArrow_cons {c : Char} (h : ¬(c = '-' ∧ cs.head? = some '>')) :
    splitArrow (c :: cs) = (splitArrow cs).map fun (left, right) => (c :: left, right) := by
  rw [splitArrow]
  rintro rest rfl rfl
  exact h ⟨rfl, rfl⟩

theorem splitArrow_cons_eq_none {c : Char} :
    splitArrow (c :: cs) = none ↔ ¬(c = '-' ∧ cs.head? = some '>') ∧ splitArrow cs = none := by
  constructor
  · intro h
    have hhead : ¬(c = '-' ∧ cs.head? = some '>') := by
      rintro ⟨rfl, hhead⟩
      obtain ⟨rest, rfl⟩ := List.head?_eq_some_iff.1 hhead
      cases h
    rw [splitArrow_cons hhead, Option.map_eq_none_iff] at h
    exact ⟨hhead, h⟩
  · rintro ⟨hhead, h⟩
    rw [splitArrow_cons hhead, h]
    rfl

theorem splitArrow_append_eq_none (h : splitArrow (cs ++ ds) = none) : splitArrow cs = none := by
  induction cs with
  | nil => rfl
  | cons c cs ih =>
    rw [List.cons_append, splitArrow_cons_eq_none] at h
    refine splitArrow_cons_eq_none.2 ⟨fun hhead => h.1 ⟨hhead.1, ?_⟩, ih h.2⟩
    rw [List.head?_append, hhead.2]
    rfl

/-- The first arrow is the one behind a text that has none. -/
theorem splitArrow_append (h : splitArrow cs = none) (rest : List Char) :
    splitArrow (cs ++ ' ' :: '-' :: '>' :: rest) = some (cs ++ [' '], rest) := by
  induction cs with
  | nil => rfl
  | cons c cs ih =>
    obtain ⟨hhead, hcs⟩ := splitArrow_cons_eq_none.1 h
    rw [List.cons_append, splitArrow_cons, ih hcs]
    · rfl
    · rintro ⟨rfl, hhead'⟩
      cases cs with
      | nil => cases hhead'
      | cons d cs => exact hhead ⟨rfl, hhead'⟩

/-- A text is split around its first arrow. -/
theorem eq_of_splitArrow {left right : List Char} (h : splitArrow cs = some (left, right)) :
    cs = left ++ '-' :: '>' :: right ∧ splitArrow left = none := by
  fun_induction splitArrow cs generalizing left with
  | case1 => cases h
  | case2 rest =>
    cases h
    exact ⟨rfl, rfl⟩
  | case3 c rest harrow ih =>
    obtain ⟨⟨left, right⟩, hsplit, heq⟩ := Option.map_eq_some_iff.1 h
    cases heq
    obtain ⟨rfl, hleft⟩ := ih hsplit
    refine ⟨rfl, splitArrow_cons_eq_none.2 ⟨?_, hleft⟩⟩
    rintro ⟨rfl, hhead⟩
    obtain ⟨more, rfl⟩ := List.head?_eq_some_iff.1 hhead
    exact harrow _ rfl rfl

end Arrows

end Lookahead.Text
