import Lookahead.Proofs.Language.Spelling

namespace Lookahead

def definitionLines (tokens : List Token) : List Nat :=
  (tokens.filter (·.kind = Terminal.kwDef.name)).map (·.line)

theorem definitionLines_append (ts us : List Token) :
    definitionLines (ts ++ us) = definitionLines ts ++ definitionLines us := by
  rw [definitionLines, List.filter_append, List.map_append]
  rfl

/-- The members of a list that belong to a slice, if the list has one for each instruction. -/
def FunctionSlice.window {α : Type} (slice : FunctionSlice) (l : List α) : List α :=
  (l.drop slice.start).take slice.code.length

namespace Program

/-- The code, each instruction with where it comes from. -/
def located (p : Program) : List (Quad × Provenance) :=
  p.code.toList.zip p.sourceMap.entries.toList

def pieces (p : Program) : List (List (Quad × Provenance)) :=
  p.functions.map (·.window p.located)

theorem located_extend (code : List (Quad × Provenance)) : (empty.extend code).located = code := by
  rw [located, extend_code, extend_entries rfl]
  exact (List.zip_of_prod rfl rfl).symm

end Program

namespace Source

open Lookahead.Derivation (Bears)
open Grammar (language)
open Option (bind_eq_some_iff)
open Lookahead.Tree (Parsed)

section Lines

variable {t : Tree} {ts : List Token}

theorem definitionLines_function (h : Parsed .funcDef t) (hblank : t.Blank)
    (hb : Bears language [t] ts) {f : Function} (hread : readFunction t = some f) :
    (definitionLines ts).map some = [f.line] := by
  obtain ⟨x, y, rest, rfl, hx, -, hrest, hline⟩ := exists_definition h hread hb
  have hnone : (y :: rest).filter (·.kind = Terminal.kwDef.name) = [] := by
    simpa [List.filter_eq_nil_iff] using hrest
  rw [definitionLines, List.filter_cons_of_pos (by simpa using hx), hnone, hline,
    Language.firstLine_of_bears hblank hb]
  rfl

theorem definitionLines_functions (h : Parsed .funcList t) (hblank : t.Blank)
    (hb : Bears language [t] ts) {fs : List Function} (hread : readFunctions t = some fs) :
    (definitionLines ts).map some = fs.map (·.line) := by
  induction t using Tree.induct generalizing fs ts with
  | node info children ih =>
    have hchildren := hb.children (h.isRule (by decide))
    obtain ⟨p, hp, hf⟩ := h.forall₂ (by decide) fun c hc k hk => And.intro hc hk
    fin_cases hp
    · rcases hf with _ | ⟨hdef, _ | ⟨hlist, _ | _⟩⟩
      obtain ⟨f, hf, hread⟩ := bind_eq_some_iff.1 hread
      obtain ⟨rest, hrest, hread⟩ := bind_eq_some_iff.1 hread
      cases hread
      obtain ⟨us, vs, rfl, hus, hvs⟩ := hchildren.exists_append
      rw [definitionLines_append, List.map_append,
        definitionLines_function hdef.2 (hblank.child _ hdef.1) hus hf,
        ih _ hlist.1 hlist.2 (hblank.child _ hlist.1) hvs hrest]
      rfl
    · rcases hf with _ | ⟨hempty, _ | _⟩
      cases hread
      rw [hempty.2.tokens_of_epsilon hchildren]
      rfl

/-- The functions of a program are put down to the lines on which their definitions start. -/
theorem definitionLines_program (h : Parsed .program t) (hblank : t.Blank)
    (hb : Bears language [t] ts) {fs : List Function}
    (hread : readProgram (.rooted t) = some fs) :
    (definitionLines ts).map some = fs.map (·.line) := by
  obtain ⟨info, list, last, us, x, rfl, rfl, hlist, -, hus, hx⟩ := h.exists_list hb
  have hlast : definitionLines [x] = [] := by
    rw [definitionLines, List.filter_cons_of_neg (by rw [hx]; decide)]
    rfl
  rw [definitionLines_append, hlast, List.append_nil]
  exact definitionLines_functions hlist (hblank.child list List.mem_cons_self) hus hread

end Lines

section Pieces

open Machine (quads slices)

variable (entry : String)

def codes (p : Provenance) : List Function → Nat → Nat → List (List (Quad × Provenance))
  | [], _, _ => []
  | f :: fs, n, l =>
    (f.lower entry p n l).code ::
      codes p fs (f.lower entry p n l).temps (f.lower entry p n l).labels

theorem flatten_codes (p : Provenance) (fs : List Function) (n l : Nat) :
    (codes entry p fs n l).flatten = (lowerFunctions entry fs p n l).code := by
  induction fs generalizing n l with
  | nil => rfl
  | cons f fs ih =>
    rw [codes, List.flatten_cons, ih]
    rfl

/-- A slice shows the code of its function. -/
theorem map_window_slices (p : Provenance) (fs : List Function) (before : List (Quad × Provenance))
    (n l : Nat) :
    (slices entry p fs before.length n l).map
      (·.window (before ++ (lowerFunctions entry fs p n l).code)) = codes entry p fs n l := by
  induction fs generalizing before n l with
  | nil => rfl
  | cons f fs ih =>
    have hlength : (quads (f.lower entry) p n l).length = (f.lower entry p n l).code.length :=
      List.length_map _
    have hcode : (lowerFunctions entry (f :: fs) p n l).code = (f.lower entry p n l).code ++
        (lowerFunctions entry fs p (f.lower entry p n l).temps (f.lower entry p n l).labels).code :=
      rfl
    -- For the slices behind the first, its code is part of what comes before them.
    rw [slices, List.map_cons, codes, hlength, hcode, ← List.append_assoc, ← List.length_append,
      ih]
    congr 1
    rw [FunctionSlice.window, hlength, List.append_assoc, List.drop_left, List.take_left]

theorem pieces_codeOf (fs : List Function) :
    (Program.empty.extend (Lowering.codeOf entry fs)).pieces = codes entry ⟨none, none⟩ fs 0 0 := by
  rw [Program.pieces, Program.located_extend, Machine.functions_eq]
  exact map_window_slices entry ⟨none, none⟩ fs [] 0 0

theorem recorded_codes {tokens : List Token} {fs : List Function}
    (h : ∀ f ∈ fs, f.Spelled tokens) (n l : Nat) :
    List.Forall₂ (Recorded tokens entry) fs (codes entry ⟨none, none⟩ fs n l) := by
  induction fs generalizing n l with
  | nil => exact .nil
  | cons f fs ih =>
    obtain ⟨hf, hfs⟩ := List.forall_mem_cons.1 h
    exact .cons (recorded_function hf n l) (ih hfs _ _)

end Pieces

end Source

namespace Language

open Grammar (language)

/-- How a program is put down to the tokens and the functions of its source. There is a record for
each instruction. The code is that of the functions, one after the other, and each of them is
recorded on its own, from the line on which its definition starts. -/
structure Traced (tokens : List Token) (entry : String) (fs : List Source.Function)
    (program : Program) : Prop where
  size_eq : program.sourceMap.size = program.size
  names_eq : program.functions.map (·.name) = fs.map (·.name.text)
  lines_eq : fs.map (·.line) = (definitionLines tokens).map some
  flatten_pieces : program.pieces.flatten = program.located
  recorded : List.Forall₂ (Source.Recorded tokens entry) fs program.pieces

theorem traced_codeOf {tokens : List Token} (entry : String) {fs : List Source.Function}
    (hspelled : ∀ f ∈ fs, f.Spelled tokens)
    (hlines : (definitionLines tokens).map some = fs.map (·.line)) :
    Traced tokens entry fs (Program.empty.extend (Lowering.codeOf entry fs)) := by
  refine ⟨?_, ?_, hlines.symm, ?_, ?_⟩
  · rw [SourceMap.size, Program.size, ← Array.length_toList, ← Array.length_toList,
      Program.extend_code, Program.extend_entries rfl, List.length_append, List.length_append,
      List.length_map, List.length_map]
    rfl
  · rw [Machine.functions_eq, Machine.map_name_slices]
  · rw [Source.pieces_codeOf, Source.flatten_codes, Program.located_extend]
    rfl
  · rw [Source.pieces_codeOf]
    exact Source.recorded_codes entry hspelled 0 0

variable {sets : FirstFollow} {entry source : String} {c : Compiler} {program : Program}

/-- The provenance of a compiled program is right. -/
theorem provenance_traced (hc : (Compiler.build language sets entry).result = .ok c)
    (hp : (c.compile source).result = .ok program) :
    ∃ tokens tree fs, tokenize source = .ok tokens ∧
      (Derivation.parse c.table language.start (.scan source)).result = .ok tree ∧
      Source.readProgram tree = some fs ∧ Traced tokens entry fs program := by
  obtain ⟨table, hbuild, rfl⟩ := exists_table_of_build hc
  obtain ⟨t, tokens, fs, h, rfl⟩ := compiles_of_compile hbuild hp
  have hblank := Derivation.blank_of_parse (by decide) h.parse_result
  refine ⟨tokens, .rooted t, fs, h.tokenize_eq, h.parse_result, h.read, traced_codeOf entry ?_ ?_⟩
  · exact Source.spelled_program h.parsed hblank h.bears h.tokenize_eq h.read
  · exact Source.definitionLines_program h.parsed hblank h.bears h.read

theorem provenance_traced_countLoop : ∃ c program tokens tree fs,
    (Compiler.build language (.compute language) "main").result = .ok c ∧
      (c.compile "def f(int a):\n  while (a < 3): a++\n").result = .ok program ∧
      tokenize "def f(int a):\n  while (a < 3): a++\n" = .ok tokens ∧
      (Derivation.parse c.table language.start
        (.scan "def f(int a):\n  while (a < 3): a++\n")).result = .ok tree ∧
      Source.readProgram tree = some fs ∧ Traced tokens "main" fs program := by
  obtain ⟨c, program, hc, hp⟩ := exists_compiled_countLoop "main"
  obtain ⟨tokens, tree, fs, htraced⟩ := provenance_traced hc hp
  exact ⟨c, program, tokens, tree, fs, hc, hp, htraced⟩

end Language

end Lookahead
