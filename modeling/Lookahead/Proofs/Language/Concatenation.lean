import Lookahead.Proofs.Code.Shift
import Lookahead.Proofs.Language.Functions
import Lookahead.Proofs.Language.Moved

namespace Lookahead

open Grammar (language)
open Lookahead.Derivation (Bears)
open Lookahead.Tree (Parsed)

/-- The tree of a list of functions with the functions of another list behind its own. -/
def Tree.appendFunctions : Tree → Tree → Tree
  | .node info [definition, rest], more => .node info [definition, rest.appendFunctions more]
  | _, more => more

/-- The number of temporaries of a program, each of which is the result of one instruction. -/
def Program.tempCount (program : Program) : Nat :=
  (program.code.toList.filterMap Quad.defined?).length

def Program.labelCount (program : Program) : Nat :=
  (Machine.labelNames program.code.toList).countP fun name => (labelIndex? name).isSome

namespace Language

section Trees

variable {list list' more : Tree}

theorem derivation_appendFunctions (h : Parsed .funcList list) (hmore : Parsed .funcList more) :
    language.IsDerivation (list.appendFunctions more) ∧
      (list.appendFunctions more).label = more.label ∧
      language.yield (list.appendFunctions more) = language.yield list ++ language.yield more := by
  induction list using Tree.induct with
  | node info children ih =>
    have hr : language.isRule info.label = true := h.isRule (by decide)
    have hlabel : info.label = more.label := h.label.trans hmore.label.symm
    obtain ⟨p, hp, hf⟩ := h.forall₂ (Q := fun k c => c ∈ children ∧ Parsed k c) (by decide)
      fun c hc k hk => ⟨hc, hk⟩
    fin_cases hp
    · rcases hf with _ | @⟨_, definition, _, _, hdefinition, _ | @⟨_, rest, _, _, hrest, _ | _⟩⟩
      obtain ⟨hd, hlist, hyield⟩ := ih rest hrest.1 hrest.2
      refine ⟨?_, hlabel, ?_⟩
      · refine h.derivation.replace ?_
          (List.forall_mem_cons.2 ⟨hdefinition.2.derivation, List.forall_mem_singleton.2 hd⟩)
        simp only [List.map_cons, List.map_nil, hlist, hmore.label, hrest.2.label]
      · change language.yield (.node info [definition, rest.appendFunctions more]) = _
        simp only [Grammar.yield_node _ hr, List.flatMap_cons, List.flatMap_nil, List.append_nil,
          hyield, List.append_assoc]
    · rcases hf with _ | @⟨_, nothing, _, _, hnothing, _ | _⟩
      refine ⟨hmore.derivation, rfl, ?_⟩
      have hyield := FirstFollow.Closed.yield_of_epsilon Grammar.isRule_epsilon_language
        hnothing.2.derivation hnothing.2.label
      rw [Grammar.yield_node _ hr, List.flatMap_singleton, hyield]
      rfl

theorem derivation_withFunctions {info : Node} {last : Tree}
    (h : Parsed .program (.node info [list, last])) (hlast : Parsed (.terminal .eof) last)
    (hd : language.IsDerivation list') (hlabel : list'.label = list.label) :
    language.IsDerivation (.node info [list', last]) ∧
      language.yield (.node info [list', last]) = language.yield list' ++ [Terminal.eof.name] := by
  have hr : language.isRule info.label = true := h.isRule (by decide)
  constructor
  · refine h.derivation.replace ?_
      (List.forall_mem_cons.2 ⟨hd, List.forall_mem_singleton.2 hlast.derivation⟩)
    simp only [List.map_cons, List.map_nil, hlabel]
  · have hend : last.label = Terminal.eof.name := hlast.label
    rw [Grammar.yield_node _ hr, List.flatMap_cons, List.flatMap_singleton,
      yield_terminal hlast.derivation hend]

/-- The functions read from the tree of two lists: those of the first where they were, and those of
the second where their tokens are now. -/
theorem readFunctions_append {f : Nat → Nat} {ts₁ ts₂ us₁ us₂ : List Token}
    {fs₁ fs₂ : List Source.Function} (h : Parsed .funcList list)
    (hbare : list'.bare = (list.appendFunctions more).bare)
    (hblank : list.Blank) (hblankMore : more.Blank) (hblank' : list'.Blank)
    (hb : Bears language [list] ts₁) (hbMore : Bears language [more] ts₂)
    (hb' : Bears language [list'] (us₁ ++ us₂))
    (h₁ : List.Forall₂ (Token.Moved id) ts₁ us₁) (h₂ : List.Forall₂ (Token.Moved f) ts₂ us₂)
    (hread₁ : Source.readFunctions list = some fs₁)
    (hread₂ : Source.readFunctions more = some fs₂) :
    Source.readFunctions list' = some (fs₁ ++ fs₂.map (Source.Function.mapLines f)) := by
  induction list using Tree.induct generalizing list' ts₁ us₁ fs₁ with
  | node info children ih =>
    have hr : language.isRule info.label = true := h.isRule (by decide)
    obtain ⟨p, hp, hf⟩ := h.forall₂ (Q := fun k c => c ∈ children ∧ Parsed k c) (by decide)
      fun c hc k hk => ⟨hc, hk⟩
    fin_cases hp
    · rcases hf with _ | @⟨_, definition, _, _, hdefinition, _ | @⟨_, rest, _, _, hrest, _ | _⟩⟩
      obtain ⟨info', children'⟩ := list'
      obtain ⟨-, hbelow⟩ := hblank
      obtain ⟨-, hbelow'⟩ := hblank'
      obtain ⟨hlabel, hchildren⟩ := Tree.bare_eq_bare.1 hbare
      obtain ⟨definition', _, rfl, hbareDefinition, hchildren⟩ := List.map_eq_cons_iff.1 hchildren
      obtain ⟨rest', rfl, hbareRest⟩ := List.map_eq_singleton_iff.1 hchildren
      obtain ⟨g, hg, hread₁⟩ := Option.bind_eq_some_iff.1 hread₁
      obtain ⟨gs, hgs, hread₁⟩ := Option.bind_eq_some_iff.1 hread₁
      cases hread₁
      obtain ⟨as, bs, as', bs', rfl, rfl, ⟨has, has', hmoved⟩, hbs, hbs', hmovedRest⟩ :=
        exists_parts hbareDefinition (hb.children hr) (hb'.children (hlabel ▸ hr)) h₁
      have hdefinition' := Source.readFunction_moved (moved_of_bears hbareDefinition
        (hbelow _ List.mem_cons_self) (hbelow' _ List.mem_cons_self) has has' hmoved) hg
      have hrest' := ih rest hrest.1 hrest.2 hbareRest (hbelow rest hrest.1)
        (hbelow' rest' (by simp)) hbs hbs' hmovedRest hgs
      rw [Source.readFunctions, hdefinition', hrest', g.mapLines_id]
      rfl
    · rcases hf with _ | @⟨_, nothing, _, _, hnothing, _ | _⟩
      obtain rfl : ts₁ = [] := hnothing.2.tokens_of_epsilon (hb.children hr)
      cases h₁
      cases hread₁
      exact Source.readFunctions_moved (moved_of_bears hbare hblankMore hblank' hbMore hb' h₂)
        hread₂

end Trees

section Code

open Source (lowerFunctions)

theorem temps_lowerFunctions (entry : String) (fs : List Source.Function) :
    (lowerFunctions entry fs ⟨none, none⟩ 0 0).temps =
      (Program.empty.extend (Lowering.codeOf entry fs)).tempCount := by
  obtain ⟨m, htemps, hdefined⟩ := (Source.tidy_functions entry fs ⟨none, none⟩ 0 0).exists_defined
  rw [Program.tempCount, Machine.code_codeOf, Machine.quads, hdefined, List.length_range', htemps,
    Nat.zero_add]

theorem labels_lowerFunctions (entry : String) (fs : List Source.Function) :
    (lowerFunctions entry fs ⟨none, none⟩ 0 0).labels =
      (Program.empty.extend (Lowering.codeOf entry fs)).labelCount := by
  obtain ⟨k, hperm, hlabels⟩ := Machine.exists_perm_labelNames entry fs ⟨none, none⟩ 0 0
  rw [Program.labelCount, Machine.code_codeOf, hperm.countP_eq, hlabels]
  simp [List.countP_append, List.countP_map, Function.comp_def, labelIndex?_name,
    labelIndex?_endLabel, labelIndex?_labelText]

theorem codeOf_append (entry : String) (fs gs : List Source.Function) (f : Nat → Nat) :
    Lowering.codeOf entry (fs ++ gs.map (Source.Function.mapLines f)) =
      Lowering.codeOf entry fs ++ (Lowering.codeOf entry gs).map (Prod.map
        (Quad.shift (Program.empty.extend (Lowering.codeOf entry fs)).tempCount
          (Program.empty.extend (Lowering.codeOf entry fs)).labelCount)
        (Provenance.mapLine f)) := by
  have hshift := Source.shifts_functions
    (m := (lowerFunctions entry fs ⟨none, none⟩ 0 0).temps)
    (k := (lowerFunctions entry fs ⟨none, none⟩ 0 0).labels) (f := f) entry gs ⟨none, none⟩ 0 0
  rw [Nat.zero_add, Nat.zero_add] at hshift
  rw [← temps_lowerFunctions, ← labels_lowerFunctions]
  change (lowerFunctions entry (fs ++ _) ⟨none, none⟩ 0 0).code = _
  rw [Source.code_lowerFunctions_append]
  exact congrArg (_ ++ ·) (congrArg Source.Chunk.code hshift)

end Code

section Compile

/-- The program of two sources, the first of which has `count` lines. -/
structure Concatenates (p₁ p₂ : Program) (count : Nat) (program : Program) : Prop where
  code : program.code.toList =
    p₁.code.toList ++ p₂.code.toList.map (Quad.shift p₁.tempCount p₁.labelCount)
  entries : program.sourceMap.entries.toList = p₁.sourceMap.entries.toList ++
    p₂.sourceMap.entries.toList.map (Provenance.mapLine (· + count))

theorem concatenates_extend (entry : String) (fs gs : List Source.Function) (count : Nat) :
    Concatenates (Program.empty.extend (Lowering.codeOf entry fs))
      (Program.empty.extend (Lowering.codeOf entry gs)) count
      (Program.empty.extend
        (Lowering.codeOf entry (fs ++ gs.map (Source.Function.mapLines (· + count))))) := by
  rw [codeOf_append]
  constructor
  · rw [Program.extend_code, Program.extend_code, Program.extend_code, List.map_append,
      List.map_append, List.map_map, List.map_map, List.append_assoc]
    rfl
  · rw [Program.extend_entries rfl, Program.extend_entries rfl, Program.extend_entries rfl,
      List.map_append, List.map_append, List.map_map, List.map_map, List.append_assoc]
    rfl

variable {table : Table}

theorem Compiles.blank_list {entry source : String} {info : Node} {list last : Tree}
    {tokens : List Token} {fs : List Source.Function}
    (h : Compiles table entry source (.node info [list, last]) tokens fs) : list.Blank := by
  have hblank := Derivation.blank_of_parse (by decide) h.parse_result
  exact hblank.child list List.mem_cons_self

variable (hbuild : Table.build language (FirstFollow.compute language) = .ok table)

include hbuild

/-- A source whose tokens are those of two lists of functions has the tree of both. -/
theorem exists_parse_append {f g : Nat → Nat} {source : String} {info : Node}
    {list₁ list₂ last : Tree} {ts₁ ts₂ us vs : List Token}
    (h : Parsed .program (.node info [list₁, last])) (hlast : Parsed (.terminal .eof) last)
    (h₁ : Parsed .funcList list₁) (h₂ : Parsed .funcList list₂)
    (hb₁ : Bears language [list₁] ts₁) (hb₂ : Bears language [list₂] ts₂)
    (hus : List.Forall₂ (Token.Moved f) ts₁ us) (hvs : List.Forall₂ (Token.Moved g) ts₂ vs)
    (hitems : (TokenStream.scan source).items = (us ++ vs).map .ok) :
    ∃ t, (Derivation.parse table language.start (.scan source)).result = .ok (.rooted t) ∧
      t.bare = (Tree.node info [list₁.appendFunctions list₂, last]).bare := by
  obtain ⟨hd, hlabel, hyield⟩ := derivation_appendFunctions h₁ h₂
  obtain ⟨hprogram, hkinds⟩ := derivation_withFunctions h hlast hd
    (hlabel.trans (h₂.label.trans h₁.label.symm))
  have hkinds₁ := hb₁.flatMap_yield
  have hkinds₂ := hb₂.flatMap_yield
  rw [List.flatMap_singleton, ← kinds_of_moved hus] at hkinds₁
  rw [List.flatMap_singleton, ← kinds_of_moved hvs] at hkinds₂
  rw [hyield, hkinds₁, hkinds₂, ← List.map_append] at hkinds
  have hend (line : Nat) : ((us ++ vs) ++ [Token.eof line]).map (·.kind) =
      (us ++ vs).map (·.kind) ++ [Terminal.eof.name] := List.map_append
  exact exists_parse_of_derivation hbuild (tokenize_eq_ok.2 ⟨us ++ vs, hitems, rfl⟩) hprogram
    h.label (hkinds.trans (hend _).symm)

/-- Two sources that compile do so together, with the functions of both. -/
theorem Compiles.append {entry s₁ s₂ : String} {t₁ t₂ : Tree} {tokens₁ tokens₂ : List Token}
    {fs₁ fs₂ : List Source.Function} (h₁ : Compiles table entry s₁ t₁ tokens₁ fs₁)
    (h₂ : Compiles table entry s₂ t₂ tokens₂ fs₂) (hs : Text.EndsLine s₁.toList) :
    ∃ t tokens, Compiles table entry (s₁ ++ s₂) t tokens
      (fs₁ ++ fs₂.map (Source.Function.mapLines (· + (Text.lines s₁.toList).length))) := by
  obtain ⟨info₁, list₁, last₁, ts₁, x₁, rfl, rfl, hlist₁, hlast₁, hb₁, -⟩ :=
    h₁.parsed.exists_list h₁.bears
  obtain ⟨info₂, list₂, last₂, ts₂, x₂, rfl, rfl, hlist₂, -, hb₂, -⟩ :=
    h₂.parsed.exists_list h₂.bears
  obtain ⟨us, vs, hitems, hus, hvs⟩ := Layout.exists_scan_append hs
    (items_of_tokenize h₁.tokenize_eq) (items_of_tokenize h₂.tokenize_eq)
    (head_ne_mark (.inl rfl) hb₂ (by rw [hlist₂.label]; decide))
  obtain ⟨t, hparse, hbare⟩ :=
    exists_parse_append hbuild h₁.parsed hlast₁ hlist₁ hlist₂ hb₁ hb₂ hus hvs hitems
  obtain ⟨t', tokens, fs, h⟩ := compiles_of_parse hbuild entry hparse
  obtain ⟨rfl⟩ : t = t' := by simpa [Tree.rooted] using hparse.symm.trans h.parse_result
  obtain ⟨info, list, last, ts, x, rfl, rfl, -, -, hb, -⟩ := h.parsed.exists_list h.bears
  obtain rfl : ts = us ++ vs :=
    Layout.map_ok_injective ((items_of_tokenize h.tokenize_eq).symm.trans hitems)
  have hbareList : list.bare = (list₁.appendFunctions list₂).bare :=
    (List.cons.inj (Tree.bare_eq_bare.1 hbare).2).1
  have hfs := readFunctions_append hlist₁ hbareList h₁.blank_list h₂.blank_list h.blank_list hb₁ hb₂
    hb hus hvs h₁.read h₂.read
  obtain rfl : fs = _ := Option.some.inj (h.read.symm.trans hfs)
  exact ⟨_, _, h⟩

omit hbuild

variable {entry s₁ s₂ : String} {c : Compiler} {p₁ p₂ : Program}

/-- Where a source ends with a line, another may follow: if both compile, so do the two together,
to the code of the first and then that of the second with its temporaries, generated labels and
lines counted on. -/
theorem compile_append (hc : (Compiler.language entry).result = .ok c)
    (hs : Text.EndsLine s₁.toList) (h₁ : (c.compile s₁).result = .ok p₁)
    (h₂ : (c.compile s₂).result = .ok p₂) :
    ∃ program, (c.compile (s₁ ++ s₂)).result = .ok program ∧
      Concatenates p₁ p₂ (Text.lines s₁.toList).length program := by
  rw [language_result] at hc
  obtain ⟨table, hbuild, rfl⟩ := exists_table_of_build hc
  obtain ⟨t₁, tokens₁, fs₁, hcompiles₁, rfl⟩ := compiles_of_compile hbuild h₁
  obtain ⟨t₂, tokens₂, fs₂, hcompiles₂, rfl⟩ := compiles_of_compile hbuild h₂
  obtain ⟨t, tokens, h⟩ := hcompiles₁.append hbuild hcompiles₂ hs
  exact ⟨_, h.compile_eq, concatenates_extend entry fs₁ fs₂ _⟩

/-- The same function twice: a source may define a name again. -/
theorem compile_append_countLoop : ∃ c p program, (Compiler.language "main").result = .ok c ∧
    (c.compile "def f(int a):\n  while (a < 3): a++\n").result = .ok p ∧
    (c.compile ("def f(int a):\n  while (a < 3): a++\n" ++
      "def f(int a):\n  while (a < 3): a++\n")).result = .ok program ∧
    Concatenates p p 2 program := by
  obtain ⟨c, p, hc, hp⟩ := exists_compiled_countLoop "main"
  rw [← language_result] at hc
  obtain ⟨program, hprogram, hcode⟩ := compile_append hc (.inr (by decide +kernel)) hp hp
  exact ⟨c, p, program, hc, hp, hprogram, hcode⟩

end Compile

end Language

end Lookahead
