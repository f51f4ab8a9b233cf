import Lookahead.Proofs.Derivation.Run
import Lookahead.Proofs.Layout.Scanning
import Lookahead.Proofs.Lexeme.LongestMatch

namespace Lookahead

namespace Terminal

theorem name_injective {kind kind' : Terminal} (h : kind.name = kind'.name) : kind = kind' := by
  have heq := congrArg ofName? h
  rw [ofName?_name, ofName?_name] at heq
  exact Option.some.inj heq

def isLayout : Terminal → Bool
  | newline | blockBegin | blockEnd | eof => true
  | _ => false

end Terminal

namespace Lexeme

def HasLiteral : Terminal → Option String → Prop
  | .ident, literal => ∃ name : String, literal = some name ∧ isReserved name.toList = false
  | .number, literal => ∃ digits, literal = some digits
  | .charLit, literal => ∃ c, literal = some (String.singleton c)
  | _, _ => True

theorem hasLiteral_of_fixed : ∀ e ∈ fixedTexts, ∀ literal,
    HasLiteral e.2 literal ∧ e.2.isLayout = false := by
  intro e he literal
  fin_cases he <;> exact ⟨trivial, rfl⟩

theorem hasLiteral_ofWord {word : List Char} (h : (ofWord word).fault? = none) :
    HasLiteral (ofWord word).kind (ofWord word).literal ∧
      (ofWord word).kind.isLayout = false := by
  unfold ofWord at h ⊢
  split
  · next kind hk =>
    exact hasLiteral_of_fixed _ (List.mem_append_left _ (mem_keywordTexts hk)) none
  · next hk =>
    rw [hk] at h
    refine ⟨⟨_, rfl, ?_⟩, rfl⟩
    simpa [fault?] using h

theorem hasLiteral_of_charLit? {cs rest : List Char} {lexeme : Lexeme}
    (h : charLit? cs = some (lexeme, rest)) :
    HasLiteral lexeme.kind lexeme.literal ∧ lexeme.kind.isLayout = false := by
  unfold charLit? at h
  split at h
  · split at h
    · cases h
      exact ⟨⟨_, rfl⟩, rfl⟩
    · cases h
  · cases h

theorem hasLiteral_of_read? {cs rest : List Char} {lexeme : Lexeme}
    (h : read? cs = some (lexeme, rest)) (hf : lexeme.fault? = none) :
    HasLiteral lexeme.kind lexeme.literal ∧ lexeme.kind.isLayout = false := by
  cases cs with
  | nil => cases h
  | cons c cs =>
    rw [read?] at h
    split at h
    · cases h
      exact hasLiteral_ofWord hf
    split at h
    · cases h
      exact ⟨⟨_, rfl⟩, rfl⟩
    split at h
    · exact hasLiteral_of_charLit? h
    · obtain ⟨⟨kind, tail⟩, hop, heq⟩ := Option.map_eq_some_iff.1 h
      cases heq
      obtain ⟨text, htext, -⟩ := operator?_eq_some hop
      exact hasLiteral_of_fixed _ (List.mem_append_right _ htext) none

theorem hasLiteral_ofLine (cs : List Char) :
    ∀ l ∈ (ofLine cs).1, HasLiteral l.kind l.literal ∧ l.kind.isLayout = false := by
  fun_induction ofLine cs with
  | case1 => exact fun l h => absurd h List.not_mem_nil
  | case2 c rest _ ih => exact ih
  | case3 => exact fun l h => absurd h List.not_mem_nil
  | case4 => exact fun l h => absurd h List.not_mem_nil
  | case5 => exact fun l h => absurd h List.not_mem_nil
  | case6 c rest _ _ lexeme more hread hfault _ tail ih =>
    intro l hl
    rcases List.mem_cons.1 hl with rfl | hl
    · exact hasLiteral_of_read? hread hfault
    · exact ih l hl

end Lexeme

def Token.Scanned (x : Token) : Prop :=
  ∃ kind : Terminal, x.kind = kind.name ∧ Lexeme.HasLiteral kind x.literal ∧ kind ≠ .eof

namespace Layout

theorem scanned_marker {kind : Terminal}
    (h : kind = .newline ∨ kind = .blockBegin ∨ kind = .blockEnd) (line : Nat) :
    (marker kind line).Scanned := by
  refine ⟨kind, rfl, ?_⟩
  rcases h with rfl | rfl | rfl <;> exact ⟨trivial, nofun⟩

theorem scanned_settle (blocks : Blocks) (line width : Nat) :
    ∀ x ∈ (settle blocks line width).1, x.Scanned := by
  intro x hx
  unfold settle at hx
  split at hx
  · rw [List.mem_singleton.1 hx]
    exact scanned_marker (.inr (.inl rfl)) line
  · rw [List.eq_of_mem_replicate hx]
    exact scanned_marker (.inr (.inr rfl)) line

theorem scanned_readLine (blocks : Blocks) (number : Nat) (line : List Char) :
    ∀ x ∈ (readLine blocks number line).2.1, x.Scanned := by
  have hmarkers := scanned_settle blocks number (indentWidth line)
  have htokens : ∀ x ∈ (settle blocks number (indentWidth line)).1 ++
      (Lexeme.ofLine (line.dropWhile isIndent)).1.map
        (fun l => (⟨l.kind.name, l.literal, number⟩ : Token)), x.Scanned := by
    intro x hx
    rcases List.mem_append.1 hx with hx | hx
    · exact hmarkers x hx
    · obtain ⟨l, hl, rfl⟩ := List.mem_map.1 hx
      obtain ⟨hliteral, hlayout⟩ := Lexeme.hasLiteral_ofLine _ l hl
      refine ⟨l.kind, rfl, hliteral, fun heof => ?_⟩
      rw [heof] at hlayout
      cases hlayout
  intro x hx
  unfold readLine at hx
  dsimp only at hx
  split at hx
  · exact hmarkers x hx
  split at hx
  · exact htokens x hx
  · rcases List.mem_append.1 hx with hx | hx
    · exact htokens x hx
    · rw [List.mem_singleton.1 hx]
      exact scanned_marker (.inl rfl) number

theorem scanned_scanLines (blocks : Blocks) (last : Nat) (lines : List (Nat × List Char)) :
    ∀ x, .ok x ∈ (scanLines blocks last lines).items → x.Scanned := by
  induction lines generalizing blocks last with
  | nil =>
    intro x hx
    obtain ⟨-, -, hx⟩ := List.mem_map.1 hx
    cases hx
    exact scanned_marker (.inr (.inr rfl)) last
  | cons e rest ih =>
    obtain ⟨number, line⟩ := e
    rw [scanLines]
    split
    · exact ih blocks last
    · intro x hx
      rcases List.mem_append.1 hx with hx | hx
      · exact scanned_readLine blocks number line x (ok_mem_scanLine.1 hx)
      · exact ih _ number x hx

end Layout

theorem Token.Scanned.kind_ne_eof {x : Token} (h : x.Scanned) : x.kind ≠ Symbol.eof := by
  obtain ⟨kind, hkind, -, hne⟩ := h
  rw [hkind]
  exact fun heof => hne (Terminal.name_injective heof)

theorem Scanner.unmarked_ofSource (source : String) : (Scanner.ofSource source).Unmarked :=
  fun x hx => (Layout.scanned_scanLines [] 1 (Text.numberedLines source.toList) x hx).kind_ne_eof

namespace TokenStream

/-- What the scanner gives is what reading all lines at once gives. -/
theorem scan_eq_scanLines (source : String) :
    scan source = Layout.scanLines [] 1 (Text.numberedLines source.toList) :=
  (Scanner.unmarked_ofSource source).drain_eq

/-- Asked for any number of results, the scanner gives those of the stream. -/
theorem results_ofSource (source : String) (count : Nat) :
    (Scanner.ofSource source).results count = (scan source).take count := by
  rw [Scanner.results_eq_take, scan, (Scanner.unmarked_ofSource source).drain_eq]

theorem scanned_scan {source : String} {x : Token} (h : .ok x ∈ (scan source).items) :
    x.Scanned := by
  rw [scan_eq_scanLines] at h
  exact Layout.scanned_scanLines [] 1 _ x h

/-- A result is one of the items, or it is the end marker. -/
theorem get_scan {source : String} {i : Nat} {x : Token} (h : (scan source).get i = .ok x) :
    i < (scan source).items.length ∧ x.Scanned ∨
      (scan source).items.length ≤ i ∧ x = .eof (scan source).eofLine := by
  by_cases hi : i < (scan source).items.length
  · left
    rw [get, List.getD_eq_getElem _ _ hi] at h
    exact ⟨hi, scanned_scan (h ▸ List.getElem_mem hi)⟩
  · right
    rw [get_of_le (by omega)] at h
    exact ⟨by omega, (Except.ok.inj h).symm⟩

end TokenStream

theorem mapM_id_eq_ok {ε α : Type} {l : List (Except ε α)} {as : List α} :
    l.mapM id = .ok as ↔ l = as.map .ok := by
  induction l generalizing as with
  | nil =>
    cases as with
    | nil => exact ⟨fun _ => rfl, fun _ => rfl⟩
    | cons a as => exact ⟨nofun, nofun⟩
  | cons x l ih =>
    rw [List.mapM_cons]
    constructor
    · intro h
      cases x with
      | error e => cases h
      | ok a =>
        cases hl : l.mapM id with
        | error e =>
          rw [hl] at h
          cases h
        | ok bs =>
          rw [hl] at h
          cases h
          rw [ih.1 hl, List.map_cons]
    · intro h
      cases as with
      | nil => cases h
      | cons a as =>
        obtain ⟨rfl, hl⟩ := List.cons.inj h
        rw [ih.2 hl]
        rfl

/-- The loop over the scanner's results, in terms of the stream. -/
theorem tokenize_eq (source : String) :
    tokenize source = (· ++ [.eof (TokenStream.scan source).eofLine]) <$>
      (TokenStream.scan source).items.mapM id := by
  have h := Scanner.unmarked_ofSource source
  rw [tokenize, h.tokens_eq, TokenStream.scan, h.drain_eq]

theorem tokenize_eq_scanLines (source : String) : tokenize source =
    let stream := Layout.scanLines [] 1 (Text.numberedLines source.toList)
    (· ++ [.eof stream.eofLine]) <$> stream.items.mapM id := by
  rw [tokenize_eq, TokenStream.scan_eq_scanLines]

/-- A source can be tokenized if no item is an error. -/
theorem tokenize_eq_ok {source : String} {tokens : List Token} :
    tokenize source = .ok tokens ↔ ∃ ts : List Token, (TokenStream.scan source).items = ts.map .ok ∧
      tokens = ts ++ [.eof (TokenStream.scan source).eofLine] := by
  rw [tokenize_eq]
  constructor
  · intro h
    cases hl : (TokenStream.scan source).items.mapM id with
    | error e =>
      rw [hl] at h
      cases h
    | ok ts =>
      rw [hl] at h
      cases h
      exact ⟨ts, mapM_id_eq_ok.1 hl, rfl⟩
  · rintro ⟨ts, hts, rfl⟩
    rw [mapM_id_eq_ok.2 hts]
    rfl

theorem items_of_tokenize {source : String} {ts : List Token} {x : Token}
    (h : tokenize source = .ok (ts ++ [x])) : (TokenStream.scan source).items = ts.map .ok := by
  obtain ⟨us, hitems, heq⟩ := tokenize_eq_ok.1 h
  obtain ⟨rfl, -⟩ := List.append_inj' heq rfl
  exact hitems

end Lookahead
