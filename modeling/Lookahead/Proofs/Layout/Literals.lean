import Lookahead.Proofs.Layout.Lines
import Lookahead.Proofs.Lexeme.Reading

namespace Lookahead

namespace Lexeme

theorem matches_ofLine (cs : List Char) :
    ∀ l ∈ (ofLine cs).1, (∃ text, Matches text l) ∧ l.fault? = none := by
  fun_induction ofLine cs with
  | case1 => exact List.forall_mem_nil _
  | case2 c rest _ ih => exact ih
  | case3 => exact List.forall_mem_nil _
  | case4 => exact List.forall_mem_nil _
  | case5 => exact List.forall_mem_nil _
  | case6 c rest _ _ lexeme more hread hfault _ tail ih =>
    obtain ⟨text, -, hmatches, -⟩ := read?_eq_some_iff.1 hread
    exact List.forall_mem_cons.2 ⟨⟨⟨text, hmatches⟩, hfault⟩, ih⟩

theorem Matches.isName {text : List Char} {name : String}
    (h : Matches text ⟨.ident, some name⟩) : IsName name.toList := by
  cases h with
  | word hc hrest => exact ⟨_, _, String.toList_ofList, hc, hrest⟩

theorem Matches.isDigits {text : List Char} {digits : String}
    (h : Matches text ⟨.number, some digits⟩) :
    digits.toList ≠ [] ∧ ∀ c ∈ digits.toList, c.isDigit = true := by
  cases h with
  | number hc hrest =>
    rw [String.toList_ofList]
    exact ⟨List.cons_ne_nil _ _, List.forall_mem_cons.2 ⟨hc, hrest⟩⟩

end Lexeme

namespace Layout

/-- A token of a kind that tells of lines and blocks, or one that a lexeme was read for. -/
def IsRead (x : Token) : Prop :=
  ∀ kind : Terminal, x.kind = kind.name → kind.isLayout = false →
    (∃ text, Lexeme.Matches text ⟨kind, x.literal⟩) ∧ Lexeme.fault? ⟨kind, x.literal⟩ = none

theorem isRead_of_isLayout (kind : Terminal) (h : kind.isLayout = true) {x : Token}
    (hx : x.kind = kind.name) : IsRead x := by
  intro kind' hkind hlayout
  rw [Terminal.name_injective (hkind.symm.trans hx), h] at hlayout
  cases hlayout

theorem isRead_settle (blocks : Blocks) (line width : Nat) :
    ∀ x ∈ (settle blocks line width).1, IsRead x := by
  intro x hx
  unfold settle at hx
  split at hx
  · rw [List.mem_singleton.1 hx]
    exact isRead_of_isLayout .blockBegin rfl rfl
  · rw [List.eq_of_mem_replicate hx]
    exact isRead_of_isLayout .blockEnd rfl rfl

theorem isRead_lineTokens (number : Nat) (line : List Char) :
    ∀ x ∈ lineTokens number line, IsRead x := by
  refine List.forall_mem_append.2 ⟨fun x hx => ?_, List.forall_mem_singleton.2 ?_⟩
  · obtain ⟨l, hl, rfl⟩ := List.mem_map.1 hx
    intro kind hkind _
    obtain rfl := Terminal.name_injective hkind
    exact Lexeme.matches_ofLine _ l hl
  · exact isRead_of_isLayout .newline rfl rfl

theorem isRead_scanLines {lines : List (Nat × List Char)}
    (hlines : ∀ e ∈ lines, isSkipped e.2 = false) {blocks : Blocks} {last : Nat} {ts : List Token}
    (h : (scanLines blocks last lines).items = ts.map .ok) : ∀ x ∈ ts, IsRead x := by
  induction lines generalizing blocks last ts with
  | nil =>
    rw [scanLines_nil] at h
    obtain rfl := map_ok_injective h
    intro x hx
    rw [List.eq_of_mem_replicate hx]
    exact isRead_of_isLayout .blockEnd rfl rfl
  | cons e rest ih =>
    obtain ⟨number, line⟩ := e
    obtain ⟨hline, hrest⟩ := List.forall_mem_cons.1 hlines
    obtain ⟨us, rfl, -, -, hus⟩ := exists_of_scanLines_cons hline h
    exact List.forall_mem_append.2 ⟨isRead_settle blocks number _,
      List.forall_mem_append.2 ⟨isRead_lineTokens number line, ih hrest hus⟩⟩

theorem isRead_of_tokenize {source : String} {tokens : List Token}
    (h : tokenize source = .ok tokens) : ∀ x ∈ tokens, IsRead x := by
  obtain ⟨ts, hitems, rfl⟩ := tokenize_eq_ok.1 h
  rw [scan_eq] at hitems
  refine List.forall_mem_append.2
    ⟨isRead_scanLines (fun e he => isSkipped_of_mem_codeLines he) hitems, ?_⟩
  exact List.forall_mem_singleton.2 (isRead_of_isLayout .eof rfl rfl)

end Layout

end Lookahead
