import Lookahead.Proofs.Layout.Queue
import Lookahead.Proofs.Lexeme.Reading

namespace Lookahead

namespace Text

theorem foldl_utf8Size (cs : List Char) (n : Nat) :
    cs.foldl (fun n c => n + c.utf8Size) n = n + utf8Length cs := by
  induction cs generalizing n with
  | nil => rfl
  | cons c cs ih =>
    rw [utf8Length, List.foldl_cons, List.foldl_cons, ih, ih (0 + c.utf8Size)]
    omega

theorem utf8Length_append (cs ds : List Char) :
    utf8Length (cs ++ ds) = utf8Length cs + utf8Length ds := by
  rw [utf8Length, List.foldl_append, foldl_utf8Size ds]
  rfl

end Text

namespace Layout

/-- The source has this line, and what stands before `rest` on it fills the columns before
`column` and can be read. Columns count bytes from one. -/
structure Reaches (source : String) (number column : Nat) (line rest : List Char) : Prop where
  isLine : 0 < number ∧ (Text.lines source.toList)[number - 1]? = some line
  column_eq : ∃ before, line = before ++ rest ∧ column = Text.utf8Length before + 1
  reads : ∃ lexemes, Lexeme.Reads line lexemes rest

/-- The error tells the first place of its line that cannot be read, and what stands there. -/
def Pinpoints (source : String) : LexicalError → Prop
  | .unexpectedChar number column ch context => ∃ line rest,
      Reaches source number column line (ch :: rest) ∧ Lexeme.Unmatched (ch :: rest) ∧
        context = String.ofList (Text.trim line)
  | .reservedName number column name => ∃ line rest,
      Reaches source number column line rest ∧ Lexeme.IsLongestName name.toList rest ∧
        Lexeme.isReserved name.toList = true
  | .inconsistentDedent _ _ => True

/-- Where a line's lexemes stop, the column counts the indentation and all that was read. -/
theorem reaches_of_stop {source : String} {number : Nat} {line : List Char} {stop : Lexeme.Stop}
    (hline : (number, line) ∈ Text.numberedLines source.toList)
    (hstop : (Lexeme.ofLine (line.dropWhile isIndent)).2 = some stop) :
    Reaches source number (Text.utf8Length line - Text.utf8Length stop.rest + 1) line
      stop.rest := by
  have hindent : ∀ c ∈ line.takeWhile isIndent, Lexeme.isGap c = true := fun c hc =>
    isGap_of_isIndent (List.mem_takeWhile_imp hc)
  have hreads := (Lexeme.reads_of_stop hstop).1.append_gaps hindent
  rw [List.takeWhile_append_dropWhile] at hreads
  refine ⟨mem_numberedLines hline, ?_, _, hreads⟩
  obtain ⟨before, rfl⟩ := hreads.exists_append
  refine ⟨before, rfl, ?_⟩
  rw [Text.utf8Length_append]
  omega

theorem pinpoints_lexicalError {source : String} {number : Nat} {line : List Char}
    {stop : Lexeme.Stop} (hline : (number, line) ∈ Text.numberedLines source.toList)
    (hstop : (Lexeme.ofLine (line.dropWhile isIndent)).2 = some stop) :
    Pinpoints source (lexicalError number line stop) := by
  have hreaches := reaches_of_stop hline hstop
  have hfault := (Lexeme.reads_of_stop hstop).2
  obtain ⟨fault, rest⟩ := stop
  cases fault with
  | unexpected ch =>
    obtain ⟨hhead, hunmatched⟩ := hfault
    obtain ⟨more, rfl⟩ := List.head?_eq_some_iff.1 hhead
    exact ⟨line, more, hreaches, hunmatched, rfl⟩
  | reserved name =>
    obtain ⟨hreserved, hlongest⟩ := hfault
    exact ⟨line, rest, hreaches, hlongest, hreserved⟩

end Layout

/-- Every lexical error points at the first place of its line that cannot be read, and what is given
as a name is not reserved. -/
theorem TokenStream.errors_pinpoint (source : String) :
    (∀ e, .error e ∈ (scan source).items → Layout.Pinpoints source e) ∧
    ∀ x, .ok x ∈ (scan source).items → x.kind = Terminal.ident.name →
      ∃ name, x.literal = some name ∧ Lexeme.isReserved name.toList = false := by
  constructor
  · intro e he
    rw [scan_eq_scanLines] at he
    obtain ⟨number, line, blocks, hline, herror⟩ := Layout.error_of_mem_scanLines he
    rcases Layout.error_of_mem_scanLine herror with rfl | ⟨stop, hstop, rfl⟩
    · trivial
    · exact Layout.pinpoints_lexicalError hline hstop
  · intro x hx hkind
    obtain ⟨kind, hname, hliteral, -⟩ := scanned_scan hx
    obtain rfl : kind = .ident := Terminal.name_injective (hname.symm.trans hkind)
    exact hliteral

theorem TokenStream.errors_pinpoint_twoFaults :
    .error (.unexpectedChar 1 10 '?' "x = 'é' ? 1") ∈ (scan "x = 'é' ? 1\n\tt0 = y").items ∧
      .error (.reservedName 2 2 "t0") ∈ (scan "x = 'é' ? 1\n\tt0 = y").items ∧
      Layout.Pinpoints "x = 'é' ? 1\n\tt0 = y" (.unexpectedChar 1 10 '?' "x = 'é' ? 1") ∧
      Layout.Pinpoints "x = 'é' ? 1\n\tt0 = y" (.reservedName 2 2 "t0") := by
  have hchar : .error (.unexpectedChar 1 10 '?' "x = 'é' ? 1") ∈
      (scan "x = 'é' ? 1\n\tt0 = y").items := by
    rw [scan_eq_scanLines]
    decide +kernel
  have hname : .error (.reservedName 2 2 "t0") ∈ (scan "x = 'é' ? 1\n\tt0 = y").items := by
    rw [scan_eq_scanLines]
    decide +kernel
  exact ⟨hchar, hname, (errors_pinpoint _).1 _ hchar, (errors_pinpoint _).1 _ hname⟩

end Lookahead
