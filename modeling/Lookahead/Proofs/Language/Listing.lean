import Lookahead.Proofs.Code.Listing
import Lookahead.Proofs.Language.Moved
import Lookahead.Proofs.Language.Program
import Lookahead.Proofs.Language.Spelling
import Lookahead.Proofs.Layout.Literals

namespace Lookahead

open Grammar (language)
open Lookahead.Derivation (Bears)

namespace Language

section Lexical

open Source (labelText)

theorem lexical_of_spelledOn {source : String} {tokens : List Token}
    (h : tokenize source = .ok tokens) (line : Nat) (o : Operand)
    (ho : o.SpelledOn tokens line) : o.Lexical := by
  have hread := Layout.isRead_of_tokenize h
  cases o with
  | name s =>
    obtain ⟨⟨text, hmatches⟩, hfault⟩ := hread _ ho .ident rfl rfl
    exact ⟨hmatches.isName, Lexeme.fault?_eq_none_iff.1 hfault s rfl⟩
  | num s =>
    obtain ⟨⟨text, hmatches⟩, -⟩ := hread _ ho .number rfl rfl
    exact hmatches.isDigits
  | _ => trivial

theorem isName_labelText (i : Nat) : Lexeme.IsName (labelText i).toList := by
  refine ⟨'L', _, Machine.labelText_toList i, by decide, fun c hc => ?_⟩
  exact Lexeme.isWordChar_of_isDigit (Machine.isDigit_toDigits i c hc)

theorem isName_endLabel {name : String} (h : Lexeme.IsName name.toList) :
    Lexeme.IsName (Program.endLabel name).toList := by
  obtain ⟨c, rest, hcons, hc, hrest⟩ := h
  refine ⟨'e', ['n', 'd', '_'] ++ c :: rest, ?_, by decide, ?_⟩
  · rw [Program.endLabel, String.toList_append, hcons]
    rfl
  · refine List.forall_mem_append.2 ⟨List.all_eq_true.1 (by decide), ?_⟩
    exact List.forall_mem_cons.2 ⟨Lexeme.isWordChar_of_isWordStart hc, hrest⟩

variable {sets : FirstFollow} {entry source : String} {c : Compiler} {program : Program}

theorem lexical_of_compile (hc : (Compiler.build language sets entry).result = .ok c)
    (hp : (c.compile source).result = .ok program) : ∀ q ∈ program.code.toList, q.Lexical := by
  obtain ⟨table, t, tokens, fs, h, rfl⟩ := exists_compiles hc hp
  have hblank := Derivation.blank_of_parse (by decide) h.parse_result
  have hspelled := Source.spelled_program h.parsed hblank h.bears h.tokenize_eq h.read
  have hnames : ∀ f ∈ fs, Lexeme.IsName f.name.text.toList := by
    intro f hf
    obtain ⟨line, -, hname, -⟩ := (hspelled f hf).header
    exact (lexical_of_spelledOn h.tokenize_eq line _ hname).1
  rw [Machine.code_codeOf]
  intro q hq
  obtain ⟨e, he, rfl⟩ := List.mem_map.1 hq
  exact Source.forms_functions (lexical_of_spelledOn h.tokenize_eq) isName_labelText entry hspelled
    (fun f hf => ⟨hnames f hf, isName_endLabel (hnames f hf)⟩) ⟨none, none⟩ 0 0 e he

end Lexical

section Explicit

/-- A tree whose inner nodes have neither a literal nor a line. -/
theorem blank_of_preorder {t : Tree}
    (h : ∀ s ∈ t.preorder, s.children = [] ∧ s.label ≠ Symbol.epsilon ∨
      s.info.literal = none ∧ s.info.line = none) : t.Blank := by
  induction t using Tree.induct with
  | node info children ih =>
    refine .node (h _ (Tree.mem_preorder_self _)) fun c hc => ih c hc fun s hs => h s ?_
    rw [Tree.preorder_node]
    exact List.mem_cons_of_mem _ (List.mem_flatMap.2 ⟨c, hc, hs⟩)

theorem readProgram_moved {t t' : Tree} {fs : List Source.Function} (h : Tree.Moved id t t')
    (hread : Source.readProgram (.rooted t) = some fs) :
    Source.readProgram (.rooted t') = some fs := by
  obtain ⟨-, -, -, _ | ⟨hlist, _ | ⟨_, _ | ⟨_, _⟩⟩⟩⟩ := h
  · cases hread
  · cases hread
  · have hmoved := Source.readFunctions_moved hlist hread
    rwa [List.map_congr_left fun f _ => f.mapLines_id, List.map_id'] at hmoved
  · cases hread

/-- The code of a source whose tokens are at the leaves of a derivation. -/
theorem exists_compiled_code {source : String} {t : Tree} {code : List Quad}
    (hd : language.IsDerivation t) (hlabel : t.label = language.start)
    (hblank : ∀ s ∈ t.preorder, s.children = [] ∧ s.label ≠ Symbol.epsilon ∨
      s.info.literal = none ∧ s.info.line = none)
    (htokens : (tokenize source).map (·.map some) =
      .ok ((language.terminalLeaves t).map Node.token?))
    (entry : String) (hcode : (Source.readProgram (.rooted t)).map (fun fs =>
      Machine.quads (Source.lowerFunctions entry fs) ⟨none, none⟩ 0 0) = some code) :
    ∃ c program, (Compiler.build language (.compute language) entry).result = .ok c ∧
      (c.compile source).result = .ok program ∧ program.code.toList = code := by
  obtain ⟨table, hbuild⟩ := FirstFollow.exists_build_compute language
  obtain ⟨fs, hread, rfl⟩ := Option.map_eq_some_iff.1 hcode
  cases htokenize : tokenize source with
  | error e =>
    rw [htokenize] at htokens
    cases htokens
  | ok tokens =>
    rw [htokenize] at htokens
    have hbears : Bears language [t] tokens :=
      ⟨List.forall_mem_singleton.2 hd, by
        rw [List.flatMap_singleton]
        exact (Except.ok.inj htokens).symm⟩
    have hyield := hbears.flatMap_yield
    rw [List.flatMap_singleton] at hyield
    obtain ⟨t', hparse, hbare⟩ := exists_parse_of_derivation hbuild htokenize hd hlabel hyield
    obtain ⟨t'', tokens', fs', h⟩ := compiles_of_parse hbuild entry hparse
    obtain ⟨rfl⟩ : t' = t'' := by simpa [Tree.rooted] using hparse.symm.trans h.parse_result
    obtain rfl : tokens = tokens' := Except.ok.inj (htokenize.symm.trans h.tokenize_eq)
    -- The tree that is found differs from the one given in its identifiers only.
    have hmoved : Tree.Moved id t t' :=
      moved_of_bears hbare (blank_of_preorder hblank)
        (Derivation.blank_of_parse (by decide) h.parse_result) hbears h.bears
        (List.forall₂_same.2 fun x _ => ⟨rfl, rfl, .inr rfl⟩)
    obtain rfl : fs' = fs := Option.some.inj (h.read.symm.trans (readProgram_moved hmoved hread))
    exact ⟨_, _, build_result hbuild entry, h.compile_eq, Machine.code_codeOf entry fs'⟩

section BlankReturns

open Lookahead.Tree (branch emptied)

def blankReturnsTree : Tree :=
  let terminal (line : Nat) (label : Symbol) := Tree.node ⟨0, label, none, some line⟩ []
  let ident (line : Nat) (name : String) := Tree.node ⟨0, "ID", some name, some line⟩ []
  let blank := branch "Expr" [arithTree (branch "Factor" [ident 1 "_", emptied "FactorTail"]),
    emptied "ExprTail"]
  let definition (line : Nat) (name : String) (value : Tree) :=
    branch "FuncDef" [terminal line "DEF", ident line name, terminal line "LPAREN",
      emptied "Params", terminal line "RPAREN", branch "Block" [terminal line "COLON",
        branch "BlockBody" [branch "SimpleStmt" [branch "ReturnStmt"
          [terminal line "RETURN", value]], terminal line "NEWLINE"]]]
  programTree [definition 1 "f" (branch "ReturnValue" [blank]),
    definition 2 "g" (emptied "ReturnValue")] (terminal 2 "EOF")

end BlankReturns

theorem exists_compiled_blankReturns :
    ∃ c program, (Compiler.build language (.compute language) "main").result = .ok c ∧
      (c.compile "def f(): return _\ndef g(): return\n").result = .ok program ∧
      program.code.toList = [.label "f", .ret (some (.name "_")), .label "end_f", .label "g",
        .ret none, .label "end_g"] :=
  exists_compiled_code (t := blankReturnsTree) (by decide +kernel) (by decide +kernel)
    (by decide +kernel) (by rw [tokenize_eq_scanLines]; decide +kernel) "main" (by decide +kernel)

end Explicit

section Instructions

open Source (labelText)

/-- The listing tells two instructions apart, and the names in the first from what lowering makes
up. -/
structure Unambiguous (q r : Quad) : Prop where
  alike_iff : q.text = r.text ↔ q.Alike r
  unreserved : ∀ x, .name x ∈ q.operands → ∀ i,
    x ≠ (Operand.temp i).text ∧ x ≠ (Operand.param i).text ∧ x ≠ labelText i

theorem lexical_of_mem_operands {q : Quad} (h : q.Lexical) {x : String}
    (hx : .name x ∈ q.operands) : (Operand.name x).Lexical := by
  obtain ⟨harg1, harg2, hresult⟩ := h.slots
  simp only [Quad.operands, List.mem_append, Option.mem_toList] at hx
  rcases hx with (hx | hx) | hx
  · exact (harg1 _ hx).2
  · exact (harg2 _ hx).2
  · have hvalue := hresult _ hx
    split at hvalue
    · obtain ⟨name, heq, -⟩ := hvalue
      cases heq
    · exact hvalue.2

variable {sets sets' : FirstFollow} {entry entry' source source' : String} {c c' : Compiler}
  {program program' : Program} {q r : Quad}

/-- Instructions of compiled sources with the same text in the listing are the same. -/
theorem listing_unambiguous (hc : (Compiler.build language sets entry).result = .ok c)
    (hp : (c.compile source).result = .ok program)
    (hc' : (Compiler.build language sets' entry').result = .ok c')
    (hp' : (c'.compile source').result = .ok program')
    (hq : q ∈ program.code.toList) (hr : r ∈ program'.code.toList) : Unambiguous q r := by
  have hlexical := lexical_of_compile hc hp q hq
  refine ⟨Quad.text_eq_iff hlexical (lexical_of_compile hc' hp' r hr), fun x hx i => ?_⟩
  exact (lexical_of_mem_operands hlexical hx).ne_made i

theorem listing_unambiguous_blankReturns : ∃ c program,
    (Compiler.build language (.compute language) "main").result = .ok c ∧
      (c.compile "def f(): return _\ndef g(): return\n").result = .ok program ∧
      .ret (some (.name "_")) ∈ program.code.toList ∧ .ret none ∈ program.code.toList ∧
      Unambiguous (.ret (some (.name "_"))) (.ret none) := by
  obtain ⟨c, program, hc, hp, hcode⟩ := exists_compiled_blankReturns
  have hq : .ret (some (.name "_")) ∈ program.code.toList := by simp [hcode]
  have hr : .ret none ∈ program.code.toList := by simp [hcode]
  exact ⟨c, program, hc, hp, hq, hr, listing_unambiguous hc hp hc hp hq hr⟩

/-- Instructions of compiled sources with the same dump are the same, unless one is a return
without a value and the other a return of the variable `_`. -/
theorem dump_tells_apart (hc : (Compiler.build language sets entry).result = .ok c)
    (hp : (c.compile source).result = .ok program)
    (hc' : (Compiler.build language sets' entry').result = .ok c')
    (hp' : (c'.compile source').result = .ok program')
    (hq : q ∈ program.code.toList) (hr : r ∈ program'.code.toList) :
    q.dumpLine = r.dumpLine ↔ q.Alike r ∨ q.Blanks r :=
  Quad.dumpLine_eq_iff (lexical_of_compile hc hp q hq) (lexical_of_compile hc' hp' r hr)

theorem dump_tells_apart_blankReturns : ∃ c program,
    (Compiler.build language (.compute language) "main").result = .ok c ∧
      (c.compile "def f(): return _\ndef g(): return\n").result = .ok program ∧
      .label "f" ∈ program.code.toList ∧ .ret none ∈ program.code.toList ∧
      ((Quad.label "f").dumpLine = (Quad.ret none).dumpLine ↔
        (Quad.label "f").Alike (.ret none) ∨ (Quad.label "f").Blanks (.ret none)) := by
  obtain ⟨c, program, hc, hp, hcode⟩ := exists_compiled_blankReturns
  have hq : .label "f" ∈ program.code.toList := by simp [hcode]
  have hr : .ret none ∈ program.code.toList := by simp [hcode]
  exact ⟨c, program, hc, hp, hq, hr, dump_tells_apart hc hp hc hp hq hr⟩

/-- A source may spell the variable `_`, which the dump writes like an empty slot. -/
theorem dump_confuses_blankReturns : ∃ c program,
    (Compiler.build language (.compute language) "main").result = .ok c ∧
      (c.compile "def f(): return _\ndef g(): return\n").result = .ok program ∧
      ∃ q ∈ program.code.toList, ∃ r ∈ program.code.toList,
        q.dumpLine = r.dumpLine ∧ ¬q.Alike r := by
  obtain ⟨c, program, hc, hp, hcode⟩ := exists_compiled_blankReturns
  refine ⟨c, program, hc, hp, .ret (some (.name "_")), by simp [hcode], .ret none,
    by simp [hcode], rfl, fun h => ?_⟩
  cases h.arg1

end Instructions

end Language

end Lookahead
