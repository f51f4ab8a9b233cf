import Lookahead.Proofs.Grammar.Declared
import Lookahead.Proofs.Grammar.Respelling
import Lookahead.Proofs.Text.Splitting

namespace Lookahead

open Text

/-- A word of a grammar's text: no blank is in it and no comment. -/
structure Symbol.IsWord (s : Symbol) : Prop where
  ne_nil : s.toList ≠ []
  plain : ∀ c ∈ s.toList, isBlank c = false ∧ c ≠ '#'

/-- A word that can stand on the left of the arrow. -/
structure Rule.IsName (s : Symbol) : Prop extends Symbol.IsWord s where
  head?_ne : s.toList.head? ≠ some '|'
  arrow : splitArrow s.toList = none

def Production.IsTextual (p : Production) : Prop :=
  p ≠ [] ∧ ∀ s ∈ p, s.IsWord ∧ '|' ∉ s.toList

structure Rule.IsTextual (r : Rule) : Prop where
  isName : Rule.IsName r.name
  ne_nil : r.productions ≠ []
  productions : ∀ p ∈ r.productions, Production.IsTextual p

def EndsPlain (cs : List Char) : Prop := ∃ c, cs.getLast? = some c ∧ isBlank c = false

theorem EndsPlain.append (cs : List Char) {ds : List Char} (h : EndsPlain ds) :
    EndsPlain (cs ++ ds) := by
  obtain ⟨c, hlast, hc⟩ := h
  refine ⟨c, ?_, hc⟩
  rw [List.getLast?_append, hlast]
  rfl

theorem endsPlain_intercalate {sep : List Char} {parts : List (List Char)} (hne : parts ≠ [])
    (h : ∀ part ∈ parts, EndsPlain part) : EndsPlain (sep.intercalate parts) := by
  induction parts with
  | nil => exact absurd rfl hne
  | cons part parts ih =>
    obtain ⟨hpart, hparts⟩ := List.forall_mem_cons.1 h
    cases parts with
    | nil => rwa [List.intercalate_singleton]
    | cons part' parts =>
      rw [List.intercalate_cons_cons]
      exact (ih (List.cons_ne_nil _ _) hparts).append _

theorem Symbol.IsWord.endsPlain {s : Symbol} (h : s.IsWord) : EndsPlain s.toList := by
  refine ⟨s.toList.getLast h.ne_nil, List.getLast?_eq_some_getLast h.ne_nil, ?_⟩
  exact (h.plain _ (List.getLast_mem h.ne_nil)).1

theorem mapM_eq_ok_iff {ε α β : Type} {f : α → Except ε β} {as : List α} {bs : List β} :
    as.mapM f = .ok bs ↔ List.Forall₂ (fun a b => f a = .ok b) as bs := by
  induction as generalizing bs with
  | nil =>
    rw [List.mapM_nil, List.forall₂_nil_left_iff]
    exact ⟨fun h => (Except.ok.inj h).symm, fun h => by rw [h]; rfl⟩
  | cons a as ih =>
    rw [List.mapM_cons, List.forall₂_cons_left_iff]
    constructor
    · intro h
      cases ha : f a with
      | error e =>
        rw [ha] at h
        cases h
      | ok b =>
        rw [ha] at h
        cases has : as.mapM f with
        | error e =>
          rw [has] at h
          cases h
        | ok bs =>
          rw [has] at h
          cases h
          exact ⟨b, bs, rfl, ih.1 has, rfl⟩
    · rintro ⟨b, bs, hb, hbs, rfl⟩
      rw [hb, ih.2 hbs]
      rfl

namespace Rule

section Reading

variable {name : Symbol} {body : List Char} {ps : List Production}

def readAlternative (name : Symbol) (alternative : List Char) : Except LineFault Production :=
  match words alternative with
  | [] => .error (.emptyAlternative name)
  | symbols => .ok (symbols.map String.ofList)

theorem readAlternative_eq_ok {alternative : List Char} {p : Production} :
    readAlternative name alternative = .ok p ↔
      words alternative ≠ [] ∧ p = (words alternative).map String.ofList := by
  unfold readAlternative
  split
  · next h => simp [h]
  · next h => exact ⟨fun heq => ⟨h, (Except.ok.inj heq).symm⟩, fun heq => by rw [heq.2]⟩

theorem readAlternatives_eq_ok : readAlternatives name body = .ok ps ↔
    List.Forall₂ (fun alternative p => readAlternative name alternative = .ok p)
      (body.splitOn '|') ps :=
  mapM_eq_ok_iff

theorem isTextual_of_readAlternative {alternative : List Char} {p : Production}
    (h : readAlternative name alternative = .ok p) (hbar : '|' ∉ alternative)
    (hcomment : '#' ∉ alternative) : Production.IsTextual p := by
  obtain ⟨hne, rfl⟩ := readAlternative_eq_ok.1 h
  refine ⟨by simpa using hne, fun s hs => ?_⟩
  obtain ⟨word, hword, rfl⟩ := List.mem_map.1 hs
  obtain ⟨hnil, hchars⟩ := mem_of_mem_words hword
  refine ⟨⟨by rwa [String.toList_ofList], fun c hc => ?_⟩, fun hmem => ?_⟩
  · rw [String.toList_ofList] at hc
    obtain ⟨hmem, hblank⟩ := hchars c hc
    exact ⟨hblank, fun heq => hcomment (heq ▸ hmem)⟩
  · rw [String.toList_ofList] at hmem
    exact hbar (hchars '|' hmem).1

/-- What is read between bars can be printed there. -/
theorem isTextual_of_readAlternatives (h : readAlternatives name body = .ok ps)
    (hbody : '#' ∉ body) : ps ≠ [] ∧ ∀ p ∈ ps, Production.IsTextual p := by
  have hparts := readAlternatives_eq_ok.1 h
  have hplain : ∀ part ∈ body.splitOn '|', '|' ∉ part ∧ '#' ∉ part := by
    intro part hpart
    rw [List.splitOn_eq_splitOnP] at hpart
    have hmem := mem_of_mem_splitOnP hpart
    exact ⟨fun hbar => absurd (hmem _ hbar).2 (by simp), fun hhash => hbody (hmem _ hhash).1⟩
  constructor
  · rintro rfl
    exact List.splitOn_ne_nil _ _ (List.forall₂_nil_right_iff.1 hparts)
  · clear h
    generalize body.splitOn '|' = parts at hparts hplain
    induction hparts with
    | nil => exact List.forall_mem_nil _
    | cons hpart _ ih =>
      obtain ⟨⟨hbar, hcomment⟩, hrest⟩ := List.forall_mem_cons.1 hplain
      exact List.forall_mem_cons.2
        ⟨isTextual_of_readAlternative hpart hbar hcomment, ih hrest⟩

/-- The text before the first arrow begins like the line, and so does the name in it. -/
theorem isName_of_splitArrow {content left right : List Char}
    (hsplit : splitArrow content = some (left, right)) (hcomment : '#' ∉ content)
    (hhead : ∀ c ∈ content.head?, isBlank c = false) (hbar : content.head? ≠ some '|')
    (hne : trim left ≠ []) (hblank : ∀ c ∈ trim left, isBlank c = false) :
    IsName (String.ofList (trim left)) := by
  obtain ⟨rfl, hleft⟩ := eq_of_splitArrow hsplit
  obtain ⟨c, rest, rfl⟩ : ∃ c rest, left = c :: rest := by
    apply List.exists_cons_of_ne_nil
    rintro rfl
    exact hne rfl
  have hstart : trimLeft (c :: rest) = c :: rest := by
    rw [trimLeft, List.dropWhile_cons_of_neg (by rw [hhead c rfl]; decide)]
  have hprefix := prefix_trim (c :: rest)
  rw [hstart] at hprefix
  obtain ⟨more, hmore⟩ := hprefix
  refine ⟨⟨?_, fun d hd => ?_⟩, ?_, ?_⟩
  · rwa [String.toList_ofList]
  · rw [String.toList_ofList] at hd
    refine ⟨hblank d hd, ?_⟩
    rintro rfl
    exact hcomment (List.mem_append_left _ (trim_subset _ hd))
  · rw [String.toList_ofList]
    obtain ⟨d, name, hname⟩ := List.exists_cons_of_ne_nil hne
    rw [hname, List.cons_append] at hmore
    rw [hname, (List.cons.inj hmore).1]
    exact hbar
  · rw [String.toList_ofList]
    rw [← hmore] at hleft
    exact splitArrow_append_eq_none hleft

theorem isTextual_of_readLine {current : Option Symbol} {content : List Char} {rule : Rule}
    (h : readLine current content = .ok rule) (hcurrent : ∀ name ∈ current, IsName name)
    (hcomment : '#' ∉ content) (hhead : ∀ c ∈ content.head?, isBlank c = false) :
    rule.IsTextual := by
  have hrule {name : Symbol} {body : List Char} (hname : IsName name) (hbody : '#' ∉ body)
      (h : (do return ⟨name, ← readAlternatives name body⟩ : Except LineFault Rule) = .ok rule) :
      rule.IsTextual := by
    cases hread : readAlternatives name body with
    | error fault =>
      rw [hread] at h
      cases h
    | ok ps =>
      rw [hread] at h
      cases h
      obtain ⟨hne, hps⟩ := isTextual_of_readAlternatives hread hbody
      exact ⟨hname, hne, hps⟩
  unfold readLine at h
  split at h
  · split at h
    · cases h
    · next body name =>
      exact hrule (hcurrent name rfl) (fun hmem => hcomment (List.mem_cons_of_mem _ hmem)) h
  · next hbar =>
    split at h
    · cases h
    · next left body hsplit =>
      dsimp only at h
      split at h
      · cases h
      · next hname =>
        rw [Bool.not_eq_true, Bool.or_eq_false_iff, List.isEmpty_eq_false_iff,
          List.any_eq_false] at hname
        have hhead' : content.head? ≠ some '|' := by
          intro heq
          obtain ⟨rest, hrest⟩ := List.head?_eq_some_iff.1 heq
          exact hbar rest hrest
        refine hrule (isName_of_splitArrow hsplit hcomment hhead hhead' hname.1 ?_) ?_ h
        · simpa using hname.2
        · rw [(eq_of_splitArrow hsplit).1] at hcomment
          simp only [List.mem_append, List.mem_cons, not_or] at hcomment
          exact hcomment.2.2.2

end Reading

section Printing

def symbolsText (p : Production) : List Char := [' '].intercalate (p.map String.toList)

def bodyText (ps : List Production) : List Char :=
  ' ' :: [' ', '|', ' '].intercalate (ps.map symbolsText)

theorem toList_text (r : Rule) :
    r.text.toList = r.name.toList ++ ' ' :: '-' :: '>' :: bodyText r.productions := by
  have hproduction (p : Production) : (Production.text p).toList = symbolsText p := by
    rw [Production.text, String.toList_intercalate, symbolsText]
    rfl
  simp only [text, bodyText, String.toList_append, String.toList_intercalate, List.map_map,
    Function.comp_def, hproduction]
  exact List.append_assoc _ _ _

variable {name : Symbol} {p : Production} {ps : List Production}

theorem words_symbolsText (h : p.IsTextual) : words (symbolsText p) = p.map String.toList := by
  refine words_intercalate fun w hw => ?_
  obtain ⟨s, hs, rfl⟩ := List.mem_map.1 hw
  obtain ⟨hword, -⟩ := h.2 s hs
  exact ⟨hword.ne_nil, fun c hc => (hword.plain c hc).1⟩

/-- Blanks around the symbols do not count. -/
theorem readAlternative_of_words {alternative : List Char} (h : p.IsTextual)
    (hwords : words alternative = p.map String.toList) :
    readAlternative name alternative = .ok p := by
  refine readAlternative_eq_ok.2 ⟨by rw [hwords]; simpa using h.1, ?_⟩
  rw [hwords, List.map_map]
  simp [Function.comp_def]

theorem mem_intercalate {c : Char} {sep : List Char} {parts : List (List Char)}
    (h : c ∈ sep.intercalate parts) : c ∈ sep ∨ ∃ part ∈ parts, c ∈ part := by
  induction parts with
  | nil => cases h
  | cons part parts ih =>
    cases parts with
    | nil =>
      rw [List.intercalate_singleton] at h
      exact .inr ⟨part, List.mem_cons_self, h⟩
    | cons part' parts =>
      rw [List.intercalate_cons_cons, List.mem_append, List.mem_append] at h
      rcases h with (h | h) | h
      · exact .inr ⟨part, List.mem_cons_self, h⟩
      · exact .inl h
      · exact (ih h).imp_right fun ⟨part, hpart, hc⟩ => ⟨part, List.mem_cons_of_mem _ hpart, hc⟩

theorem bar_not_mem_symbolsText (h : p.IsTextual) : '|' ∉ symbolsText p := by
  intro hmem
  rcases mem_intercalate hmem with hmem | ⟨part, hpart, hmem⟩
  · simp at hmem
  · obtain ⟨s, hs, rfl⟩ := List.mem_map.1 hpart
    exact (h.2 s hs).2 hmem

theorem readAlternatives_bodyText (hne : ps ≠ []) (h : ∀ p ∈ ps, Production.IsTextual p) :
    readAlternatives name (bodyText ps) = .ok ps := by
  have hspace : isBlank ' ' = true := by decide
  have hnil : words [] = [] := rfl
  rw [readAlternatives_eq_ok]
  induction ps with
  | nil => exact absurd rfl hne
  | cons p ps ih =>
    obtain ⟨hp, hps⟩ := List.forall_mem_cons.1 h
    have hwords := words_symbolsText hp
    have hbar := bar_not_mem_symbolsText hp
    cases ps with
    | nil =>
      rw [bodyText, List.map_singleton, List.intercalate_singleton,
        List.splitOn_eq_singleton (by simpa using hbar)]
      refine .cons (readAlternative_of_words hp ?_) .nil
      have happend := words_append_blank hspace [] (symbolsText p)
      rwa [hnil, List.nil_append, List.nil_append, hwords] at happend
    | cons p' ps =>
      have hbody : bodyText (p :: p' :: ps) =
          (' ' :: symbolsText p ++ [' ']) ++ '|' :: bodyText (p' :: ps) := by
        rw [bodyText, List.map_cons, List.map_cons, List.intercalate_cons_cons]
        simp [bodyText]
      rw [hbody, List.splitOn_append_cons_self_of_not_mem (by simpa using hbar)]
      refine .cons (readAlternative_of_words hp ?_) (ih (List.cons_ne_nil _ _) hps)
      have hbefore := words_append_blank hspace [] (symbolsText p ++ [' '])
      have hbehind := words_append_blank hspace (symbolsText p) []
      rw [hnil, List.append_nil] at hbehind
      rwa [hnil, List.nil_append, List.nil_append, hbehind, hwords] at hbefore

/-- Printed rules hold no blanks but spaces, and no comment. -/
theorem IsTextual.chars {r : Rule} (h : r.IsTextual) :
    ∀ c ∈ r.text.toList, c = ' ' ∨ isBlank c = false ∧ c ≠ '#' := by
  intro c hc
  have hsymbols {p : Production} (hp : p ∈ r.productions) (hc : c ∈ symbolsText p) :
      c = ' ' ∨ isBlank c = false ∧ c ≠ '#' := by
    rcases mem_intercalate hc with hc | ⟨part, hpart, hc⟩
    · exact .inl (List.mem_singleton.1 hc)
    · obtain ⟨s, hs, rfl⟩ := List.mem_map.1 hpart
      exact .inr (((h.productions p hp).2 s hs).1.plain c hc)
  rw [toList_text, bodyText] at hc
  simp only [List.mem_append, List.mem_cons] at hc
  rcases hc with hc | rfl | rfl | rfl | rfl | hc
  · exact .inr (h.isName.plain c hc)
  · exact .inl rfl
  · decide
  · decide
  · exact .inl rfl
  · rcases mem_intercalate hc with hc | ⟨part, hpart, hc⟩
    · simp only [List.mem_cons, List.not_mem_nil, or_false] at hc
      rcases hc with rfl | rfl | rfl <;> decide
    · obtain ⟨p, hp, rfl⟩ := List.mem_map.1 hpart
      exact hsymbols hp hc

theorem endsPlain_bodyText (hne : ps ≠ []) (h : ∀ p ∈ ps, Production.IsTextual p) :
    EndsPlain (bodyText ps) := by
  refine EndsPlain.append [' '] (endsPlain_intercalate (by simpa using hne) fun part hpart => ?_)
  obtain ⟨p, hp, rfl⟩ := List.mem_map.1 hpart
  obtain ⟨hnil, hsymbols⟩ := h p hp
  refine endsPlain_intercalate (by simpa using hnil) fun word hword => ?_
  obtain ⟨s, hs, rfl⟩ := List.mem_map.1 hword
  exact (hsymbols s hs).1.endsPlain

theorem IsName.exists_cons {s : Symbol} (h : IsName s) :
    ∃ c rest, s.toList = c :: rest ∧ isBlank c = false ∧ c ≠ '|' := by
  obtain ⟨c, rest, hcons⟩ := List.exists_cons_of_ne_nil h.ne_nil
  refine ⟨c, rest, hcons, (h.plain c (hcons ▸ List.mem_cons_self)).1, ?_⟩
  rintro rfl
  exact h.head?_ne (by rw [hcons]; rfl)

/-- A printed rule is the content of its line. -/
theorem content_text {r : Rule} (h : r.IsTextual) :
    Grammar.content r.text.toList = r.text.toList := by
  have hcut : r.text.toList.takeWhile (· ≠ '#') = r.text.toList := by
    rw [List.takeWhile_eq_self_iff]
    intro c hc
    rcases h.chars c hc with rfl | ⟨-, hne⟩
    · decide
    · exact decide_eq_true hne
  obtain ⟨c, name, hcons, hc, -⟩ := h.isName.exists_cons
  have hhead : r.text.toList.head? = some c := by
    rw [toList_text, hcons]
    rfl
  obtain ⟨d, hlast, hd⟩ : EndsPlain r.text.toList := by
    have hbody :=
      (endsPlain_bodyText h.ne_nil h.productions).append (r.name.toList ++ [' ', '-', '>'])
    rw [toList_text]
    simpa using hbody
  have htrim := trim_append hhead hc hlast hd (List.forall_mem_nil _)
  rw [List.append_nil] at htrim
  rw [Grammar.content, hcut, htrim]

/-- A printed rule is read as it is, whatever came before. -/
theorem readLine_text {r : Rule} (h : r.IsTextual) (current : Option Symbol) :
    readLine current r.text.toList = .ok r := by
  obtain ⟨c, name, hcons, hc, hbar⟩ := h.isName.exists_cons
  obtain ⟨d, hlast, hd⟩ := h.isName.endsPlain
  have hname : trim (r.name.toList ++ [' ']) = r.name.toList :=
    trim_append (by rw [hcons]; rfl) hc hlast hd (List.forall_mem_singleton.2 (by decide))
  have hvalid : (r.name.toList.isEmpty || r.name.toList.any isBlank) = false := by
    rw [Bool.or_eq_false_iff, List.isEmpty_eq_false_iff, List.any_eq_false]
    exact ⟨h.isName.ne_nil, fun c hc => by rw [(h.isName.plain c hc).1]; decide⟩
  have hsplit := splitArrow_append h.isName.arrow (bodyText r.productions)
  rw [← toList_text] at hsplit
  unfold readLine
  split
  · next body heq =>
    rw [toList_text, hcons, List.cons_append] at heq
    exact absurd (List.cons.inj heq).1 hbar
  · rw [hsplit]
    dsimp only
    rw [hname, if_neg (by rw [hvalid]; decide), String.ofList_toList,
      readAlternatives_bodyText h.ne_nil h.productions]
    rfl

end Printing

end Rule

namespace Grammar

section Reading

variable {rule : Rule} {rules : List Rule}

/-- All rules that are read could be printed on lines of their own. -/
theorem isTextual_of_readLines {current : Option Symbol} {lines : List (Nat × List Char)}
    (h : readLines current lines = .ok rules) (hcurrent : ∀ name ∈ current, Rule.IsName name) :
    ∀ r ∈ rules, r.IsTextual := by
  induction lines generalizing current rules with
  | nil =>
    cases h
    exact List.forall_mem_nil _
  | cons e lines ih =>
    obtain ⟨number, line⟩ := e
    have hcomment : '#' ∉ content line := by
      intro hmem
      exact absurd (List.mem_takeWhile_imp (trim_subset _ hmem)) (by decide)
    have hhead : ∀ c ∈ (content line).head?, isBlank c = false := fun c hc =>
      isBlank_head?_trim hc
    rw [readLines] at h
    split at h
    · exact ih h hcurrent
    · split at h
      · cases h
      · next rule hrule =>
        have hrule := Rule.isTextual_of_readLine hrule hcurrent hcomment hhead
        cases hrest : readLines (some rule.name) lines with
        | error e =>
          rw [hrest] at h
          cases h
        | ok rest =>
          rw [hrest] at h
          cases h
          exact List.forall_mem_cons.2 ⟨hrule, ih hrest (by simpa using hrule.isName)⟩

theorem isTextual_extend (hrule : rule.IsTextual) (h : ∀ r ∈ rules, r.IsTextual) :
    ∀ r ∈ extend rule rules, r.IsTextual := by
  fun_induction extend rule rules with
  | case1 => exact List.forall_mem_singleton.2 hrule
  | case2 r rest hname =>
    obtain ⟨hr, hrest⟩ := List.forall_mem_cons.1 h
    refine List.forall_mem_cons.2 ⟨⟨hr.isName, ?_, fun p hp => ?_⟩, hrest⟩
    · exact List.append_ne_nil_of_left_ne_nil hr.ne_nil _
    · rcases List.mem_append.1 hp with hp | hp
      · exact hr.productions p hp
      · exact hrule.productions p hp
  | case3 r rest hname ih =>
    obtain ⟨hr, hrest⟩ := List.forall_mem_cons.1 h
    exact List.forall_mem_cons.2 ⟨hr, ih hrest⟩

theorem isTextual_foldl_extend {acc : List Rule} (hacc : ∀ r ∈ acc, r.IsTextual)
    (h : ∀ r ∈ rules, r.IsTextual) :
    ∀ r ∈ rules.foldl (fun acc rule => extend rule acc) acc, r.IsTextual := by
  induction rules generalizing acc with
  | nil => exact hacc
  | cons rule rules ih =>
    obtain ⟨hrule, hrules⟩ := List.forall_mem_cons.1 h
    exact ih (isTextual_extend hrule hacc) hrules

theorem isTextual_of_ofText {text : String} {g : Grammar} (h : ofText text = .ok g) :
    ∀ r ∈ g.rules, r.IsTextual := by
  cases hread : readLines none (numberedLines text.toList) with
  | error e =>
    rw [ofText, hread] at h
    cases h
  | ok rules =>
    rw [ofText, hread] at h
    rw [rules_of_ofRules h]
    exact isTextual_foldl_extend (List.forall_mem_nil _)
      (isTextual_of_readLines hread fun name hname => by cases hname)

end Reading

section Printing

theorem readLines_text {rules : List Rule} {lines : List (Nat × List Char)}
    (h : lines.map Prod.snd = rules.map fun r => r.text.toList) (hrules : ∀ r ∈ rules, r.IsTextual)
    (current : Option Symbol) : readLines current lines = .ok rules := by
  induction rules generalizing lines current with
  | nil =>
    rw [List.map_eq_nil_iff.1 h]
    rfl
  | cons r rules ih =>
    obtain ⟨hr, hrules⟩ := List.forall_mem_cons.1 hrules
    obtain ⟨⟨number, line⟩, lines, rfl, rfl, hlines⟩ := List.map_eq_cons_iff.1 h
    have hne : r.text.toList.isEmpty = false := by
      rw [Rule.toList_text]
      simp [hr.isName.ne_nil]
    rw [readLines, Rule.content_text hr, if_neg (by rw [hne]; decide), Rule.readLine_text hr]
    dsimp only
    rw [ih hlines hrules]
    rfl

theorem map_snd_numberedLines (cs : List Char) : (numberedLines cs).map Prod.snd = lines cs := by
  rw [numberedLines, List.map_map]
  exact List.zipIdx_map_fst 0 (lines cs)

/-- A grammar whose names and symbols can stand in a text is read from its printed rules. -/
theorem ofText_toLines {g : Grammar} (h : ∀ r ∈ g.rules, r.IsTextual) :
    ofText ("\n".intercalate g.toLines) = .ok g := by
  have hlines : lines ("\n".intercalate g.toLines).toList = g.rules.map fun r => r.text.toList := by
    rw [String.toList_intercalate, toLines, List.map_map]
    refine lines_intercalate fun text htext => ?_
    obtain ⟨r, hr, rfl⟩ := List.mem_map.1 htext
    have hchars := (h r hr).chars
    refine ⟨?_, fun hmem => ?_, fun hmem => ?_⟩
    · simp [Function.comp, Rule.toList_text]
    · exact absurd (hchars _ hmem) (by decide)
    · exact absurd (hchars _ hmem) (by decide)
  rw [ofText, readLines_text ((map_snd_numberedLines _).trans hlines) h]
  exact ofRules_rules g

end Printing

/-- Printing a grammar that was read from a text, one rule a line, and reading the printed text
gives the same grammar. -/
theorem ofText_toLines_of_ofText {text : String} {g : Grammar} (h : ofText text = .ok g) :
    ofText ("\n".intercalate g.toLines) = .ok g :=
  ofText_toLines (isTextual_of_ofText h)

theorem ofText_toLines_of_ofText_merged :
    ∃ g, ofText "S|->a -> b|EPSILON\n\n | c->\nT-->S\nS| ->\te # again" = .ok g ∧
      g.toLines = ["S| -> a -> b | EPSILON | c-> | e", "T- -> S"] ∧
      ofText ("\n".intercalate g.toLines) = .ok g := by
  have hlines : (ofText "S|->a -> b|EPSILON\n\n | c->\nT-->S\nS| ->\te # again").map toLines =
      .ok ["S| -> a -> b | EPSILON | c-> | e", "T- -> S"] := by
    decide +kernel
  cases h : ofText "S|->a -> b|EPSILON\n\n | c->\nT-->S\nS| ->\te # again" with
  | error e =>
    rw [h] at hlines
    cases hlines
  | ok g =>
    rw [h] at hlines
    exact ⟨g, rfl, Except.ok.inj hlines, ofText_toLines_of_ofText h⟩

end Grammar

end Lookahead
