import Lookahead.Proofs.Lowering.Function

namespace Lookahead.Language

open Grammar (language)
open Lookahead.Derivation (Bears matchCount)
open Lookahead.Tree (Parsed)

theorem fillTable_result (g : Grammar) (sets : FirstFollow) :
    (Compiler.fillTable g sets).result = (Table.build g sets).mapError .grammar := by
  rw [Compiler.fillTable, Table.build]
  rcases Table.fill g sets with ⟨table, _ | e⟩ <;> rfl

theorem build_result {g : Grammar} {sets : FirstFollow} {table : Table}
    (h : Table.build g sets = .ok table) (entry : String) :
    (Compiler.build g sets entry).result = .ok ⟨g, table, entry⟩ := by
  rw [Compiler.build, Logged.result_bind, fillTable_result, h]
  rfl

/-- A compiler that was made holds the table of its sets. -/
theorem exists_table_of_build {g : Grammar} {sets : FirstFollow} {entry : String} {c : Compiler}
    (h : (Compiler.build g sets entry).result = .ok c) :
    ∃ table, Table.build g sets = .ok table ∧ c = ⟨g, table, entry⟩ := by
  cases hbuild : Table.build g sets with
  | ok table =>
    rw [build_result hbuild] at h
    exact ⟨table, rfl, (Except.ok.inj h).symm⟩
  | error e =>
    rw [Compiler.build, Logged.result_bind, fillTable_result, hbuild] at h
    cases h

theorem build_computed_result {g : Grammar} {table : Table}
    (h : Table.build g (FirstFollow.compute g) = .ok table) (entry : String) :
    (Compiler.computeSets g >>= fun sets => Compiler.build g sets entry).result =
      .ok ⟨g, table, entry⟩ := by
  rw [Logged.result_bind]
  exact build_result h entry

/-- The compiler of the source language is made from the table of its grammar. -/
theorem exists_compiler (entry : String) :
    ∃ table, Table.build language (FirstFollow.compute language) = .ok table ∧
      (Compiler.language entry).result = .ok ⟨language, table, entry⟩ := by
  obtain ⟨table, htable⟩ := FirstFollow.exists_build_compute language
  exact ⟨table, htable, build_computed_result htable entry⟩

/-- The compiler of the source language is the one that is made of the computed sets. -/
theorem language_result (entry : String) : (Compiler.language entry).result =
    (Compiler.build language (FirstFollow.compute language) entry).result := by
  obtain ⟨table, hbuild, hc⟩ := exists_compiler entry
  rw [hc, build_result hbuild]

/-- The leaves of a tree that bears tokens have the kinds and literals of the tokens. -/
theorem leaves_of_bears {g : Grammar} {t : Tree} {tokens : List Token}
    (hbears : Bears g [t] tokens)
    (htokens : ∀ x ∈ tokens, ∃ kind : Terminal, x.kind = kind.name ∧
      Lexeme.HasLiteral kind x.literal) :
    ∀ n ∈ g.terminalLeaves t, ∃ kind : Terminal, n.label = kind.name ∧
      Lexeme.HasLiteral kind n.literal ∧ n.line.isSome = true := by
  intro n hn
  have hmem : n.token? ∈ tokens.map some := by
    rw [← hbears.2, List.flatMap_singleton]
    exact List.mem_map_of_mem hn
  obtain ⟨x, hx, htoken⟩ := List.mem_map.1 hmem
  obtain ⟨line, hline, rfl⟩ := Option.map_eq_some_iff.1 htoken.symm
  obtain ⟨kind, hkind, hliteral⟩ := htokens _ hx
  exact ⟨kind, hkind, hliteral, by rw [hline]; rfl⟩

/-- A tree that bears the tokens of a source has the shapes that lowering asks for. -/
theorem parsed_of_bears {source : String} {t : Tree} {tokens : List Token}
    (hlabel : t.label = language.start) (htokens : tokenize source = .ok tokens)
    (hbears : Bears language [t] tokens) : Parsed .program t := by
  refine ⟨hlabel, hbears.1 t List.mem_cons_self, leaves_of_bears hbears fun x hx => ?_⟩
  obtain ⟨ts, hitems, rfl⟩ := tokenize_eq_ok.1 htokens
  rcases List.mem_append.1 hx with hx | hx
  · have hitem : .ok x ∈ (TokenStream.scan source).items := by
      rw [hitems]
      exact List.mem_map_of_mem hx
    obtain ⟨kind, hkind, hliteral, -⟩ := TokenStream.scanned_scan hitem
    exact ⟨kind, hkind, hliteral⟩
  · exact ⟨.eof, congrArg Token.kind (List.mem_singleton.1 hx), trivial⟩

theorem derive_result (c : Compiler) (stream : TokenStream) :
    (c.derive stream).result =
      (Derivation.parse c.table c.grammar.start stream).result.mapError .parse := by
  rw [Compiler.derive]
  cases (Derivation.parse c.table c.grammar.start stream).result <;> rfl

theorem lower_result (c : Compiler) (tree : Tree) :
    (c.lower tree).result = (Lowering.lower c.entry tree).1.mapError .lowering := by
  rw [Compiler.lower]
  rcases Lowering.lower c.entry tree with ⟨_ | _, notes⟩ <;> rfl

theorem compile_result (c : Compiler) (source : String) :
    (c.compile source).result =
      (Derivation.parse c.table c.grammar.start (.scan source)).result.mapError .parse >>=
        fun tree => (Lowering.lower c.entry tree).1.mapError .lowering := by
  rw [Compiler.compile, Compiler.parse]
  simp only [Logged.result_bind, derive_result, lower_result, bind_assoc]
  cases (Derivation.parse c.table c.grammar.start (.scan source)).result with
  | error e => rfl
  | ok tree =>
    change ((Lowering.lower c.entry tree).1.mapError CompileError.lowering >>= pure) = _
    exact bind_pure _

/-- What becomes of a source that compiles: its tree `t` below the root, its tokens, which the
leaves of the tree bear, and the functions read from the tree, whose code is the program. -/
structure Compiles (table : Table) (entry source : String) (t : Tree) (tokens : List Token)
    (fs : List Source.Function) : Prop where
  parse_result : (Derivation.parse table language.start (.scan source)).result = .ok (.rooted t)
  parsed : Parsed .program t
  tokenize_eq : tokenize source = .ok tokens
  bears : Bears language [t] tokens
  matched : matchCount (Derivation.parse table language.start (.scan source)).steps = tokens.length
  pulled : (Derivation.parse table language.start (.scan source)).pulled = tokens.length + 1
  read : Source.readProgram (.rooted t) = some fs
  compile_eq : (Compiler.compile ⟨language, table, entry⟩ source).result =
    .ok (Program.empty.extend (Lowering.codeOf entry fs))

theorem compiles_of_parse {sets : FirstFollow} {table : Table}
    (hbuild : Table.build language sets = .ok table) {source : String} {tree : Tree}
    (entry : String)
    (h : (Derivation.parse table language.start (.scan source)).result = .ok tree) :
    ∃ t tokens fs, Compiles table entry source t tokens fs := by
  have hparse (o : Derivation.Outcome) (ho : o.result = .ok tree) :
      o = ⟨.ok tree, o.pulled, o.steps⟩ := by rw [← ho]
  obtain ⟨t, tokens, rfl, hlabel, htokens, hbears, hmatched, hpulled⟩ :=
    tokens_of_parse hbuild (hparse _ h)
  have hparsed := parsed_of_bears hlabel htokens hbears
  obtain ⟨fs, hread, hlower⟩ := Lowering.lower_eq hparsed
  refine ⟨t, tokens, fs, h, hparsed, htokens, hbears, hmatched, hpulled, hread, ?_⟩
  rw [compile_result, h]
  change (Lowering.lower entry (.rooted t)).1.mapError CompileError.lowering = _
  rw [hlower]
  rfl

theorem compiles_of_compile {sets : FirstFollow} {table : Table}
    (hbuild : Table.build language sets = .ok table) {entry source : String} {program : Program}
    (hp : (Compiler.compile ⟨language, table, entry⟩ source).result = .ok program) :
    ∃ t tokens fs, Compiles table entry source t tokens fs ∧
      program = Program.empty.extend (Lowering.codeOf entry fs) := by
  rcases h : (Derivation.parse table language.start (.scan source)).result with e | tree
  · rw [compile_result, h] at hp
    cases hp
  · obtain ⟨t, tokens, fs, h⟩ := compiles_of_parse hbuild entry h
    rw [h.compile_eq] at hp
    exact ⟨t, tokens, fs, h, (Except.ok.inj hp).symm⟩

/-- A program that a compiler of the source language makes is the code of the functions of a
source. -/
theorem exists_compiles {sets : FirstFollow} {entry source : String} {c : Compiler}
    {program : Program} (hc : (Compiler.build language sets entry).result = .ok c)
    (hp : (c.compile source).result = .ok program) :
    ∃ table t tokens fs, Compiles table entry source t tokens fs ∧
      program = Program.empty.extend (Lowering.codeOf entry fs) := by
  obtain ⟨table, hbuild, rfl⟩ := exists_table_of_build hc
  exact ⟨table, compiles_of_compile hbuild hp⟩

section Compile

variable {table : Table}
  (hbuild : Table.build language (FirstFollow.compute language) = .ok table)

include hbuild

/-- A source compiles, or the error is the one that its derivation ends with. -/
theorem compiles_or_error (entry source : String) :
    (∃ t tokens fs, Compiles table entry source t tokens fs) ∨
      ∃ e, e ≠ .endless ∧
        (Derivation.parse table language.start (.scan source)).result = .error e ∧
        (Compiler.compile ⟨language, table, entry⟩ source).result = .error (.parse e) := by
  rcases h : (Derivation.parse table language.start (.scan source)).result with e | tree
  · right
    refine ⟨e, ?_, rfl, ?_⟩
    · rintro rfl
      exact parse_ne_endless hbuild source h
    · rw [compile_result, h]
      rfl
  · exact .inl (compiles_of_parse hbuild entry h)

end Compile

theorem Compiles.isSentence {table : Table} {entry source : String} {t : Tree}
    {tokens : List Token} {fs : List Source.Function}
    (h : Compiles table entry source t tokens fs) :
    language.IsSentence (tokens.map (·.kind)) := by
  rw [Grammar.isSentence_iff Grammar.isRule_epsilon_language]
  refine ⟨t, h.parsed.derivation, h.parsed.label, ?_⟩
  rw [← h.bears.flatMap_yield, List.flatMap_singleton]

/-- A source whose tokens are the yield of a derivation compiles. -/
theorem exists_compiled {source : String} {t : Tree} (hd : language.IsDerivation t)
    (hlabel : t.label = language.start)
    (hkinds : (tokenize source).map (·.map (·.kind)) = .ok (language.yield t)) (entry : String) :
    ∃ c program, (Compiler.build language (.compute language) entry).result = .ok c ∧
      (c.compile source).result = .ok program := by
  obtain ⟨table, hbuild⟩ := FirstFollow.exists_build_compute language
  have hsentence : language.IsSentence (language.yield t) :=
    (Grammar.isSentence_iff Grammar.isRule_epsilon_language).2 ⟨t, hd, hlabel, rfl⟩
  cases htokens : tokenize source with
  | error e =>
    rw [htokens] at hkinds
    cases hkinds
  | ok tokens =>
    rw [htokens] at hkinds
    rw [← Except.ok.inj hkinds] at hsentence
    obtain ⟨tree, htree⟩ := exists_parse_of_sentence hbuild htokens hsentence
    obtain ⟨t, tokens, fs, h⟩ := compiles_of_parse hbuild entry htree
    exact ⟨_, _, build_result hbuild entry, h.compile_eq⟩

/-- The compiler of the source language can be made. It compiles a source exactly if the source can
be tokenized and its tokens form a sentence, and it then matches all of them. Every other source
ends in a lexical or a syntax error. -/
theorem compiles_iff_isSentence (entry source : String) :
    ∃ c, (Compiler.language entry).result = .ok c ∧
      ((∃ program, (c.compile source).result = .ok program) ↔
        ∃ tokens, tokenize source = .ok tokens ∧ language.IsSentence (tokens.map (·.kind))) ∧
      (∀ e, (c.compile source).result = .error e →
        (∃ lexical, e = .parse (.lexical lexical)) ∨ ∃ rejected, e = .parse (.rejected rejected)) ∧
      ∀ program, (c.compile source).result = .ok program →
        ∃ tokens, tokenize source = .ok tokens ∧
          matchCount (Derivation.parse c.table c.grammar.start (.scan source)).steps =
            tokens.length ∧
          (Derivation.parse c.table c.grammar.start (.scan source)).pulled = tokens.length + 1 := by
  obtain ⟨table, hbuild, hc⟩ := exists_compiler entry
  refine ⟨_, hc, ⟨?_, ?_⟩, ?_, ?_⟩
  · rintro ⟨program, hprogram⟩
    rcases compiles_or_error hbuild entry source with ⟨t, tokens, fs, h⟩ | ⟨e, -, -, herror⟩
    · exact ⟨tokens, h.tokenize_eq, h.isSentence⟩
    · rw [herror] at hprogram
      cases hprogram
  · rintro ⟨tokens, htokens, hsentence⟩
    obtain ⟨tree, htree⟩ := exists_parse_of_sentence hbuild htokens hsentence
    obtain ⟨t, tokens, fs, h⟩ := compiles_of_parse hbuild entry htree
    exact ⟨_, h.compile_eq⟩
  · intro e he
    rcases compiles_or_error hbuild entry source with ⟨t, tokens, fs, h⟩ | ⟨e', hne, -, herror⟩
    · rw [h.compile_eq] at he
      cases he
    · rw [herror] at he
      cases he
      cases e' with
      | lexical e => exact .inl ⟨e, rfl⟩
      | rejected e => exact .inr ⟨e, rfl⟩
      | endless => exact absurd rfl hne
  · intro program hprogram
    rcases compiles_or_error hbuild entry source with ⟨t, tokens, fs, h⟩ | ⟨e, -, -, herror⟩
    · exact ⟨tokens, h.tokenize_eq, h.matched, h.pulled⟩
    · rw [herror] at hprogram
      cases hprogram

end Lookahead.Language
