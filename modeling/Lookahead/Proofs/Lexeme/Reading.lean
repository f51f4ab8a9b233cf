import Lookahead.Proofs.Lexeme.LongestMatch

namespace Lookahead.Lexeme

/-- The patterns of the text that is passed over. -/
inductive Skips : List Char → Prop
  | gaps {text : List Char} (hne : text ≠ []) (h : ∀ c ∈ text, isGap c = true) : Skips text
  | comment {rest : List Char} (h : '\n' ∉ rest) : Skips ('#' :: rest)

/-- A text that begins with nothing that can be passed over or read. -/
structure Unmatched (cs : List Char) : Prop where
  skips : ∀ text, Skips text → ¬text <+: cs
  lexemes : ∀ text lexeme, Matches text lexeme → ¬text <+: cs

def IsName (word : List Char) : Prop :=
  ∃ c rest, word = c :: rest ∧ isWordStart c = true ∧ ∀ d ∈ rest, isWordChar d = true

structure IsLongestName (name cs : List Char) : Prop where
  isName : IsName name
  isPrefix : name <+: cs
  longest : ∀ word, IsName word → word <+: cs → word.length ≤ name.length

/-- The text is read as gaps and lexemes up to `rest`, and no lexeme is a reserved name. Since a
comment reaches to the end of its line, there is none before `rest`. -/
inductive Reads : List Char → List Lexeme → List Char → Prop
  | done (rest : List Char) : Reads rest [] rest
  | gap {c : Char} {cs rest : List Char} {lexemes : List Lexeme} (hc : isGap c = true)
      (h : Reads cs lexemes rest) : Reads (c :: cs) lexemes rest
  | lexeme {cs more rest : List Char} {lexeme : Lexeme} {lexemes : List Lexeme}
      (hread : IsLongest cs lexeme more)
      (hfree : ∀ name, lexeme = ⟨.ident, some name⟩ → isReserved name.toList = false)
      (h : Reads more lexemes rest) : Reads cs (lexeme :: lexemes) rest

theorem fault?_eq_none_iff {lexeme : Lexeme} : lexeme.fault? = none ↔
    ∀ name, lexeme = ⟨.ident, some name⟩ → isReserved name.toList = false := by
  unfold fault?
  split
  · next name => simp
  · next h => simpa using fun name heq => absurd heq (h name)

theorem fault?_eq_some {lexeme : Lexeme} {fault : Fault} (h : lexeme.fault? = some fault) :
    ∃ name, lexeme = ⟨.ident, some name⟩ ∧ isReserved name.toList = true ∧
      fault = .reserved name := by
  unfold fault? at h
  split at h
  · next name =>
    split at h
    · next hname =>
      cases h
      exact ⟨name, rfl, hname, rfl⟩
    · cases h
  · cases h

theorem Reads.exists_append {cs rest : List Char} {lexemes : List Lexeme}
    (h : Reads cs lexemes rest) : ∃ before, cs = before ++ rest := by
  induction h with
  | done rest => exact ⟨[], rfl⟩
  | @gap c cs rest lexemes hc h ih =>
    obtain ⟨before, rfl⟩ := ih
    exact ⟨c :: before, rfl⟩
  | @lexeme cs more rest lexeme lexemes hread hfree h ih =>
    obtain ⟨before, rfl⟩ := ih
    obtain ⟨text, rfl, -⟩ := hread
    exact ⟨text ++ before, by rw [List.append_assoc]⟩

/-- Gaps may stand in front of what is read. -/
theorem Reads.append_gaps {gaps cs rest : List Char} {lexemes : List Lexeme}
    (hgaps : ∀ c ∈ gaps, isGap c = true) (h : Reads cs lexemes rest) :
    Reads (gaps ++ cs) lexemes rest := by
  induction gaps with
  | nil => exact h
  | cons c gaps ih =>
    obtain ⟨hc, hgaps⟩ := List.forall_mem_cons.1 hgaps
    exact .gap hc (ih hgaps)

theorem unmatched_cons {c : Char} {cs : List Char} (hgap : isGap c = false) (hcomment : c ≠ '#')
    (hread : read? (c :: cs) = none) : Unmatched (c :: cs) where
  skips text h hpre := by
    cases h with
    | gaps hne h =>
      obtain ⟨d, text, rfl⟩ := List.exists_cons_of_ne_nil hne
      obtain ⟨rfl, -⟩ := List.cons_prefix_cons.1 hpre
      rw [h d List.mem_cons_self] at hgap
      cases hgap
    | comment h =>
      obtain ⟨rfl, -⟩ := List.cons_prefix_cons.1 hpre
      exact hcomment rfl
  lexemes text lexeme h hpre := read?_ne_none h hpre hread

/-- A word that is read is the longest name at its place. -/
theorem isLongestName_of_read? {cs rest : List Char} {name : String}
    (h : read? cs = some (⟨.ident, some name⟩, rest)) : IsLongestName name.toList cs := by
  obtain ⟨text, rfl, hmatch, hlongest, -⟩ := read?_eq_some_iff.1 h
  have hlength (word : List Char) (hword : IsName word) (hpre : word <+: text ++ rest) :
      word.length ≤ text.length := by
    obtain ⟨c, more, rfl, hc, hmore⟩ := hword
    exact hlongest _ _ (.word hc hmore) hpre
  cases hmatch with
  | word hc hmore =>
    rw [String.toList_ofList]
    exact ⟨⟨_, _, rfl, hc, hmore⟩, List.prefix_append _ _, hlength⟩

def Stop.IsFault (stop : Stop) : Prop :=
  match stop.fault with
  | .unexpected ch => stop.rest.head? = some ch ∧ Unmatched stop.rest
  | .reserved name => isReserved name.toList = true ∧ IsLongestName name.toList stop.rest

/-- A line that cannot be read to its end is read up to the fault. -/
theorem reads_of_stop {cs : List Char} {stop : Stop} (h : (ofLine cs).2 = some stop) :
    Reads cs (ofLine cs).1 stop.rest ∧ stop.IsFault := by
  fun_induction ofLine cs with
  | case1 => cases h
  | case2 c cs hc ih =>
    obtain ⟨hreads, hfault⟩ := ih h
    exact ⟨.gap hc hreads, hfault⟩
  | case3 => cases h
  | case4 c cs hgap hcomment hread =>
    cases h
    exact ⟨.done _, rfl, unmatched_cons (Bool.eq_false_iff.2 hgap) hcomment hread⟩
  | case5 c cs hgap hcomment lexeme more hread fault hfault =>
    cases h
    obtain ⟨name, rfl, hname, rfl⟩ := fault?_eq_some hfault
    exact ⟨.done _, hname, isLongestName_of_read? hread⟩
  | case6 c cs hgap hcomment lexeme more hread hfault hlength tail ih =>
    obtain ⟨hreads, hstop⟩ := ih h
    exact ⟨.lexeme (read?_eq_some_iff.1 hread) (fault?_eq_none_iff.1 hfault) hreads, hstop⟩

end Lookahead.Lexeme
