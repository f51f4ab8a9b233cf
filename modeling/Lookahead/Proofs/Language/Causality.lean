import Lookahead.Proofs.Derivation.Locality
import Lookahead.Proofs.Language.Acceptance
import Lookahead.Proofs.Layout.Queue

namespace Lookahead

open Lookahead.Derivation (parse IsCause)
open Layout

section Sources

variable {source : String} {tokens : List Token}

/-- The tokens of a source, with the end marker for ever behind them, are its results. -/
theorem TokenStream.get_ofTokens_of_tokenize (h : tokenize source = .ok tokens) (i : Nat) :
    (TokenStream.ofTokens tokens).get i = (TokenStream.scan source).get i := by
  obtain ⟨ts, hitems, rfl⟩ := tokenize_eq_ok.1 h
  have hstream : TokenStream.ofTokens (ts ++ [.eof (scan source).eofLine]) =
      ⟨(scan source).items ++ [.ok (.eof (scan source).eofLine)], (scan source).eofLine⟩ := by
    rw [ofTokens, List.map_append, ← hitems, List.getLast?_concat]
    rfl
  rw [hstream, get, get]
  by_cases hi : i < (scan source).items.length
  · exact List.getD_append _ _ _ _ hi
  · rw [List.getD_append_right _ _ _ _ (by omega),
      List.getD_eq_default (scan source).items _ (by omega)]
    cases i - (scan source).items.length <;> rfl

/-- A derivation from a source that can be tokenized and one from its tokens both end, with the same
tree or error after the same steps and calls for a token, or neither does. -/
theorem parse_ofTokens_of_tokenize (h : tokenize source = .ok tokens) (table : Table)
    (start : Symbol) :
    ((parse table start (.ofTokens tokens)).result = .error .endless ↔
      (parse table start (.scan source)).result = .error .endless) ∧
    ((parse table start (.scan source)).result ≠ .error .endless →
      parse table start (.ofTokens tokens) = parse table start (.scan source)) := by
  have hsame := TokenStream.get_ofTokens_of_tokenize h
  have hscan : (parse table start (.scan source)).result ≠ .error .endless →
      parse table start (.ofTokens tokens) = parse table start (.scan source) :=
    fun hend => Derivation.parse_eq_of_agree hend fun i _ => hsame i
  have hlist : (parse table start (.ofTokens tokens)).result ≠ .error .endless →
      parse table start (.scan source) = parse table start (.ofTokens tokens) :=
    fun hend => Derivation.parse_eq_of_agree hend fun i _ => (hsame i).symm
  refine ⟨⟨fun hendless => ?_, fun hendless => ?_⟩, hscan⟩
  · by_contra hend
    rw [hscan hend] at hendless
    exact hend hendless
  · by_contra hend
    rw [hlist hend] at hendless
    exact hend hendless

def twoEnds : Table :=
  Table.claim ⟨["S"], ∅, []⟩ ⟨"S", "ID", ["ID", "NEWLINE", Symbol.eof, Symbol.eof]⟩

theorem parse_ofTokens_of_tokenize_twoEnds :
    tokenize "x\n\n" = .ok [⟨"ID", some "x", 1⟩, ⟨"NEWLINE", none, 1⟩, .eof 1] ∧
      (parse twoEnds "S" (.scan "x\n\n")).pulled = 5 ∧
      parse twoEnds "S" (.ofTokens [⟨"ID", some "x", 1⟩, ⟨"NEWLINE", none, 1⟩, .eof 1]) =
        parse twoEnds "S" (.scan "x\n\n") := by
  have htokens : tokenize "x\n\n" = .ok [⟨"ID", some "x", 1⟩, ⟨"NEWLINE", none, 1⟩, .eof 1] := by
    rw [tokenize_eq_scanLines]
    decide +kernel
  refine ⟨htokens, ?_, (parse_ofTokens_of_tokenize htokens twoEnds "S").2 ?_⟩
  · rw [TokenStream.scan_eq_scanLines]
    decide +kernel
  · intro hendless
    have hmap := congrArg (Except.map fun _ => ()) hendless
    rw [TokenStream.scan_eq_scanLines] at hmap
    revert hmap
    decide +kernel

end Sources

section Errors

variable {c : Compiler} {source source' : String} {n : Nat} {e : ParseError}

theorem parse_result (c : Compiler) (source : String) :
    (c.parse source).result =
      (parse c.table c.grammar.start (.scan source)).result.mapError .parse := by
  rw [Compiler.parse, Logged.result_bind, Language.derive_result]
  cases (parse c.table c.grammar.start (.scan source)).result <;> rfl

theorem parse_result_eq_error :
    (c.parse source).result = .error (.parse e) ↔
      (parse c.table c.grammar.start (.scan source)).result = .error e := by
  rw [parse_result]
  cases (parse c.table c.grammar.start (.scan source)).result with
  | error e' => simp [Except.mapError]
  | ok tree => simp [Except.mapError]

/-- The error is found on line `n`: it is a lexical error of the line, or the token that has no
place was put into the stream while the line was scanned. -/
def FoundOn (c : Compiler) (source : String) (n : Nat) : ParseError → Prop
  | .lexical e => e.line = n
  | .rejected _ =>
    IsQueuedAt source n ((parse c.table c.grammar.start (.scan source)).pulled - 1)
  | .endless => False

/-- All that was asked for before an error on line `n` comes from the first `n` lines. -/
theorem pulled_le_of_foundOn
    (he : (parse c.table c.grammar.start (.scan source)).result = .error e)
    (hn : FoundOn c source n e) :
    (parse c.table c.grammar.start (.scan source)).pulled ≤ (queued source n).length := by
  have hpos : 0 < (parse c.table c.grammar.start (.scan source)).pulled :=
    Derivation.pulled_parse_pos _ _
  have hcause := Derivation.isCause_parse he
  cases e with
  | lexical e =>
    obtain rfl : e.line = n := hn
    have := lt_length_queued_of_error hcause
    omega
  | rejected e =>
    have := hn.2
    omega
  | endless => cases hn

/-- An error that is found on line `n` is the error of every source with the same first `n` lines,
after as many calls for a token. A token that has no place is the last that was asked for. -/
theorem parse_error_of_take_lines_eq (c : Compiler)
    (he : (c.parse source).result = .error (.parse e)) (hn : FoundOn c source n e)
    (hlines : (Text.lines source'.toList).take n = (Text.lines source.toList).take n) :
    (c.parse source').result = .error (.parse e) ∧
      (parse c.table c.grammar.start (.scan source')).pulled =
        (parse c.table c.grammar.start (.scan source)).pulled ∧
      ∀ rejected, e = .rejected rejected →
        (TokenStream.scan source).get
          ((parse c.table c.grammar.start (.scan source)).pulled - 1) = .ok rejected.found := by
  rw [parse_result_eq_error] at he
  have hpulled := pulled_le_of_foundOn he hn
  have hsame : parse c.table c.grammar.start (.scan source') =
      parse c.table c.grammar.start (.scan source) := by
    apply Derivation.parse_eq_of_agree
    · intro hendless
      rw [he] at hendless
      cases hendless
      cases hn
    · intro i hi
      exact get_scan_congr hlines (by omega)
  refine ⟨parse_result_eq_error.2 (hsame ▸ he), congrArg _ hsame, ?_⟩
  rintro rejected rfl
  exact Derivation.isCause_parse he

def twoNames : Compiler where
  grammar := {
    rules := [⟨"S", [["ID", "NEWLINE", "ID"]]⟩]
    nonempty := by decide
    nodup := by decide +kernel
    unmixed := by decide +kernel }
  table := Table.claim ⟨["S"], ∅, []⟩ ⟨"S", "ID", ["ID", "NEWLINE", "ID"]⟩
  entry := Compiler.defaultEntry

theorem parse_error_of_take_lines_eq_twoNames :
    (twoNames.parse "x\n y z\n").result =
        .error (.parse (.rejected (.mismatch "ID" ⟨"BEGIN", none, 2⟩))) ∧
      FoundOn twoNames "x\n y z\n" 2 (.rejected (.mismatch "ID" ⟨"BEGIN", none, 2⟩)) ∧
      (twoNames.parse "x\n y z\n$").result =
        .error (.parse (.rejected (.mismatch "ID" ⟨"BEGIN", none, 2⟩))) := by
  have he : (parse twoNames.table twoNames.grammar.start (.scan "x\n y z\n")).result =
      .error (.rejected (.mismatch "ID" ⟨"BEGIN", none, 2⟩)) := by
    have hmap : (parse twoNames.table twoNames.grammar.start (.scan "x\n y z\n")).result.map
        (fun _ => ()) = .error (.rejected (.mismatch "ID" ⟨"BEGIN", none, 2⟩)) := by
      rw [TokenStream.scan_eq_scanLines]
      decide +kernel
    revert hmap
    cases (parse twoNames.table twoNames.grammar.start (.scan "x\n y z\n")).result with
    | error e => exact fun hmap => congrArg _ (Except.error.inj hmap)
    | ok tree => exact fun hmap => by cases hmap
  have hn : FoundOn twoNames "x\n y z\n" 2 (.rejected (.mismatch "ID" ⟨"BEGIN", none, 2⟩)) := by
    constructor <;> rw [TokenStream.scan_eq_scanLines] <;> decide +kernel
  refine ⟨parse_result_eq_error.2 he, hn, ?_⟩
  exact (parse_error_of_take_lines_eq twoNames (parse_result_eq_error.2 he) hn
    (by decide +kernel)).1

end Errors

end Lookahead
