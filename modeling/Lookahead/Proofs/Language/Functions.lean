import Lookahead.Proofs.Language.Leaves
import Lookahead.Proofs.Language.Program

namespace Lookahead

/-- The names that some tokens define. A definition starts with its keyword, which stands nowhere
else, and its name comes next. -/
def definedNames : List Token → List String
  | [] => []
  | x :: rest =>
    if x.kind = Terminal.kwDef.name then (rest.head?.bind (·.literal)).toList ++ definedNames rest
    else definedNames rest

theorem definedNames_append {ts : List Token} (h : ∀ x ∈ ts, x.kind ≠ Terminal.kwDef.name)
    (more : List Token) : definedNames (ts ++ more) = definedNames more := by
  induction ts with
  | nil => rfl
  | cons x ts ih =>
    obtain ⟨hx, hts⟩ := List.forall_mem_cons.1 h
    rw [List.cons_append, definedNames, if_neg hx, ih hts]

namespace Source

open Lookahead.Derivation (Bears)
open Grammar (language)
open Option (bind_eq_some_iff)
open Lookahead.Tree (Parsed)

/-- What stands inside definitions: neither a definition nor its keyword. -/
def isInner (s : Symbol) : Bool :=
  s ∉ [NodeKind.program, .funcList, .funcDef, .terminal .kwDef].map NodeKind.label

theorem isInner_of_production : ∀ s, isInner s = true → ∀ p ∈ language.productions s,
    ∀ x ∈ p, isInner x = true :=
  Language.closed_of_rules (by decide +kernel)

theorem ne_kwDef_of_bears {trees : List Tree} {ts : List Token} (h : Bears language trees ts)
    (hinner : ∀ t ∈ trees, isInner t.label = true) : ∀ x ∈ ts, x.kind ≠ Terminal.kwDef.name := by
  intro x hx heq
  have hkind := h.inner_kinds isInner_of_production hinner x hx
  rw [heq] at hkind
  exact absurd hkind (by decide)

/-- The tokens of a definition: its keyword, its name, and no keyword of another. -/
theorem exists_definition {t : Tree} {f : Function} {ts : List Token} (h : Parsed .funcDef t)
    (hread : readFunction t = some f) (hb : Bears language [t] ts) :
    ∃ x y rest, ts = x :: y :: rest ∧ x.kind = Terminal.kwDef.name ∧
      y.literal = some f.name.text ∧ (∀ z ∈ y :: rest, z.kind ≠ Terminal.kwDef.name) ∧
      f.line = t.firstLine := by
  have hr := h.isRule (by decide)
  obtain ⟨info, children⟩ := t
  obtain ⟨p, hp, hf⟩ := h.forall₂ (by decide) fun c _ k hc => hc
  rw [NodeKind.productions, List.mem_singleton] at hp
  subst hp
  rcases hf with _ | ⟨hdef, _ | ⟨hident, _ | ⟨hopen, _ | ⟨hparams, _ | ⟨hclose,
    _ | ⟨hblock, _ | _⟩⟩⟩⟩⟩⟩
  obtain ⟨us, vs, rfl, hus, hvs⟩ := (hb.children hr).exists_append
  obtain ⟨us', vs', rfl, hus', hvs'⟩ := hvs.exists_append
  obtain ⟨x, rfl, hx, -⟩ := hdef.exists_token hus
  obtain ⟨y, rfl, hy, hliteral, -⟩ := hident.exists_token hus'
  obtain ⟨name, hname, hread⟩ := bind_eq_some_iff.1 hread
  obtain ⟨params, -, hread⟩ := bind_eq_some_iff.1 hread
  obtain ⟨body, -, hread⟩ := bind_eq_some_iff.1 hread
  cases hread
  refine ⟨x, y, vs', rfl, hx, hliteral.trans (text_of_name? hname), ?_, rfl⟩
  refine List.forall_mem_cons.2 ⟨?_, ne_kwDef_of_bears hvs' ?_⟩
  · rw [hy]
    decide
  · simp only [List.forall_mem_cons, hopen.label, hparams.label, hclose.label, hblock.label]
    decide

theorem definedNames_function {t : Tree} {f : Function} {ts : List Token} (h : Parsed .funcDef t)
    (hread : readFunction t = some f) (hb : Bears language [t] ts) (more : List Token) :
    definedNames (ts ++ more) = f.name.text :: definedNames more := by
  obtain ⟨x, y, rest, rfl, hx, hliteral, hrest, -⟩ := exists_definition h hread hb
  rw [List.cons_append, definedNames, if_pos hx, definedNames_append hrest, List.cons_append,
    List.head?_cons, Option.bind_some, hliteral]
  rfl

theorem definedNames_functions {t : Tree} {fs : List Function} {ts : List Token}
    (h : Parsed .funcList t) (hread : readFunctions t = some fs) (hb : Bears language [t] ts)
    (more : List Token) :
    definedNames (ts ++ more) = fs.map (·.name.text) ++ definedNames more := by
  induction t using Tree.induct generalizing fs ts with
  | node info children ih =>
    have hchildren := hb.children (h.isRule (by decide))
    obtain ⟨p, hp, hf⟩ := h.forall₂ (by decide) fun c hc k hk => And.intro hc hk
    fin_cases hp
    · rcases hf with _ | ⟨ha, _ | ⟨hlist, _ | _⟩⟩
      obtain ⟨f, hf, hread⟩ := bind_eq_some_iff.1 hread
      obtain ⟨rest, hrest, hread⟩ := bind_eq_some_iff.1 hread
      cases hread
      obtain ⟨us, vs, rfl, hus, hvs⟩ := hchildren.exists_append
      rw [List.append_assoc, definedNames_function ha.2 hf hus, ih _ hlist.1 hlist.2 hrest hvs,
        List.map_cons, List.cons_append]
    · rcases hf with _ | ⟨ha, _ | _⟩
      cases hread
      rw [ha.2.tokens_of_epsilon hchildren]
      rfl

/-- The names that the tokens of a program define are those of its functions. -/
theorem definedNames_program {t : Tree} {fs : List Function} {tokens : List Token}
    (h : Parsed .program t) (hread : readProgram (.rooted t) = some fs)
    (hb : Bears language [t] tokens) : definedNames tokens = fs.map (·.name.text) := by
  obtain ⟨info, list, last, us, x, rfl, rfl, hlist, -, hus, hx⟩ := h.exists_list hb
  have hlast : definedNames ([x] ++ []) = [] :=
    definedNames_append (List.forall_mem_singleton.2 (by rw [hx]; decide)) []
  rw [List.append_nil] at hlast
  rw [definedNames_functions hlist hread hus, hlast, List.append_nil]

end Source

namespace Machine

open Source

variable (entry : String)

theorem map_name_slices (p : Provenance) (fs : List Source.Function) (start n l : Nat) :
    (slices entry p fs start n l).map (·.name) = fs.map (·.name.text) := by
  induction fs generalizing start n l with
  | nil => rfl
  | cons f fs ih => rw [slices, List.map_cons, ih, List.map_cons]

/-- A slice starts behind the code of those before it. -/
theorem start_of_slices {p : Provenance} {fs : List Source.Function} {start n l : Nat}
    {before after : List FunctionSlice} {slice : FunctionSlice}
    (h : slices entry p fs start n l = before ++ slice :: after) :
    slice.start = start + (before.flatMap (·.code)).length := by
  induction fs generalizing start n l before with
  | nil => exact absurd h.symm (List.append_ne_nil_of_right_ne_nil _ (List.cons_ne_nil _ _))
  | cons f fs ih =>
    rw [slices] at h
    cases before with
    | nil =>
      obtain ⟨rfl, -⟩ := List.cons.inj h
      rfl
    | cons first before =>
      obtain ⟨rfl, hrest⟩ := List.cons.inj h
      rw [ih hrest, List.flatMap_cons, List.length_append]
      exact Nat.add_assoc _ _ _

/-- The labels of some functions: their names, their ends and the generated ones. -/
theorem exists_perm_labelNames (fs : List Source.Function) (p : Provenance) (n l : Nat) :
    ∃ k, (labelNames (quads (lowerFunctions entry fs) p n l)).Perm
      (fs.map (·.name.text) ++ (fs.map (Program.endLabel ·.name.text) ++
        (List.range' l k).map labelText)) ∧
      (lowerFunctions entry fs p n l).labels = l + k := by
  induction fs generalizing n l with
  | nil => exact ⟨0, .refl _, rfl⟩
  | cons f fs ih =>
    obtain ⟨between, k, hcode, hlabels, hperm⟩ := exists_between f entry p n l
    obtain ⟨j, hperm', hlabels'⟩ := ih (f.lower entry p n l).temps (l + k)
    refine ⟨k + j, ?_, ?_⟩
    · rw [lowerFunctions, quads_bind, labelNames_append, hcode, labelNames_label, labelNames_append,
        labelNames_label, labelNames_nil, hlabels, ← List.range'_append_1, List.map_append]
      refine List.perm_iff_count.2 fun name => ?_
      simp only [List.count_append, List.count_cons, List.map_cons, hperm.count_eq,
        hperm'.count_eq, List.count_nil]
      omega
    · change (lowerFunctions entry fs p _ (f.lower entry p n l).labels).labels = _
      rw [hlabels, hlabels', Nat.add_assoc]

theorem endLabel_injective : Function.Injective Program.endLabel := by
  intro name name' h
  have hlist := congrArg String.toList h
  simp only [Program.endLabel, String.toList_append, List.append_cancel_left_eq] at hlist
  exact String.toList_inj.1 hlist

/-- The labels of some functions are distinct unless a name is there twice or is the end label of
one of them. -/
theorem nodup_labelNames_iff (fs : List Source.Function) (p : Provenance) (n l : Nat) :
    (labelNames (quads (lowerFunctions entry fs) p n l)).Nodup ↔
      (fs.map (·.name.text)).Nodup ∧
        ∀ name ∈ fs.map (·.name.text), Program.endLabel name ∉ fs.map (·.name.text) := by
  obtain ⟨k, hperm, -⟩ := exists_perm_labelNames entry fs p n l
  have hends : fs.map (Program.endLabel ·.name.text) =
      (fs.map (·.name.text)).map Program.endLabel := by
    rw [List.map_map]
    rfl
  have hgenerated : ((List.range' l k).map labelText).Nodup :=
    List.Nodup.map labelText_injective List.nodup_range'
  rw [hperm.nodup_iff, List.nodup_append, List.nodup_append, hends]
  constructor
  · rintro ⟨hnames, -, hdisjoint⟩
    refine ⟨hnames, fun name hname hend => ?_⟩
    exact hdisjoint _ hend _ (List.mem_append_left _ (List.mem_map_of_mem hname)) rfl
  · rintro ⟨hnames, hend⟩
    refine ⟨hnames, ⟨hnames.map endLabel_injective, hgenerated, ?_⟩, ?_⟩
    · rintro _ ha _ hb rfl
      obtain ⟨name, -, hname⟩ := List.mem_map.1 ha
      obtain ⟨i, -, hi⟩ := List.mem_map.1 hb
      exact labelText_ne_endLabel i name (hi.trans hname.symm)
    · rintro name hname _ hb rfl
      rcases List.mem_append.1 hb with hb | hb
      · obtain ⟨other, hother, rfl⟩ := List.mem_map.1 hb
        exact hend other hother hname
      · obtain ⟨f, -, rfl⟩ := List.mem_map.1 hname
        obtain ⟨i, -, hi⟩ := List.mem_map.1 hb
        exact labelText_ne_name i f.name hi

end Machine

namespace Language

open Grammar (language)
open Machine (labelNames)

section Programs

variable {sets : FirstFollow} {entry source : String} {c : Compiler} {program : Program}

/-- A program is the code of the functions that its source defines. -/
theorem exists_code_of_tokens (hc : (Compiler.build language sets entry).result = .ok c)
    (hp : (c.compile source).result = .ok program) :
    ∃ tokens fs, tokenize source = .ok tokens ∧ definedNames tokens = fs.map (·.name.text) ∧
      program = Program.empty.extend (Lowering.codeOf entry fs) ∧ ∀ f ∈ fs, f.body.Headed := by
  obtain ⟨table, t, tokens, fs, h, rfl⟩ := exists_compiles hc hp
  exact ⟨tokens, fs, h.tokenize_eq, Source.definedNames_program h.parsed h.read h.bears, rfl,
    Source.headed_readProgram h.read⟩

/-- The functions of a program have the names given, in this order. The code of each stands between
its own labels and starts where its slice says, behind the code of those before it; together they
are all the code there is. -/
structure Grouped (program : Program) (names : List String) : Prop where
  names_eq : program.functions.map (·.name) = names
  bracketed : ∀ slice ∈ program.functions, ∃ between,
    slice.code = .label slice.name :: (between ++ [.label (Program.endLabel slice.name)])
  start_eq : ∀ before slice after, program.functions = before ++ slice :: after →
    slice.start = (before.flatMap (·.code)).length
  label_at_start : ∀ slice ∈ program.functions,
    program.code[slice.start]? = some (.label slice.name)
  flatMap_code : program.functions.flatMap (·.code) = program.code.toList

/-- The functions of a compiled program are the definitions of its source. -/
theorem functions_grouped (hc : (Compiler.build language sets entry).result = .ok c)
    (hp : (c.compile source).result = .ok program) :
    ∃ tokens, tokenize source = .ok tokens ∧ Grouped program (definedNames tokens) := by
  obtain ⟨tokens, fs, htokens, hnames, rfl, hheaded⟩ := exists_code_of_tokens hc hp
  have hbracketed (slice : FunctionSlice)
      (hslice : slice ∈ (Program.empty.extend (Lowering.codeOf entry fs)).functions) :
      ∃ between,
        slice.code = .label slice.name :: (between ++ [.label (Program.endLabel slice.name)]) := by
    rw [Machine.functions_eq] at hslice
    obtain ⟨between, hcode, -⟩ := Machine.exists_target_slice entry hheaded hslice
    exact ⟨between, hcode⟩
  have hstart (before : List FunctionSlice) (slice : FunctionSlice) (after : List FunctionSlice)
      (h : (Program.empty.extend (Lowering.codeOf entry fs)).functions = before ++ slice :: after) :
      slice.start = (before.flatMap (·.code)).length := by
    rw [Machine.functions_eq] at h
    rw [Machine.start_of_slices entry h, Nat.zero_add]
  refine ⟨tokens, htokens, ?_, hbracketed, hstart, fun slice hslice => ?_,
    Machine.flatMap_functions entry fs⟩
  · rw [Machine.functions_eq, Machine.map_name_slices, hnames]
  · obtain ⟨before, after, hsplit⟩ := List.append_of_mem hslice
    obtain ⟨between, hcode⟩ := hbracketed slice hslice
    rw [hstart before slice after hsplit, ← Array.getElem?_toList, ← Machine.flatMap_functions,
      hsplit, List.flatMap_append, List.flatMap_cons, hcode,
      List.getElem?_append_right (Nat.le_refl _), Nat.sub_self]
    rfl

section TwoReturns

open Lookahead.Tree (branch emptied leaf)

def twoReturnsTree : Tree :=
  let step := branch "SimpleStmt" [branch "ReturnStmt" [leaf 0 "RETURN", emptied "ReturnValue"]]
  let definition := functionTree (emptied "Params") (branch "BlockBody" [step, leaf 0 "NEWLINE"])
  programTree [definition, definition] (leaf 0 "EOF")

end TwoReturns

/-- One of two functions may have the name of the end label of the other. -/
theorem exists_compiled_endNamed (entry : String) :
    ∃ c program, (Compiler.build language (.compute language) entry).result = .ok c ∧
      (c.compile "def f(): return\ndef end_f(): return\n").result = .ok program :=
  exists_compiled (t := twoReturnsTree) (by decide +kernel) (by decide +kernel)
    (by rw [tokenize_eq_scanLines]; decide +kernel) entry

theorem functions_grouped_endNamed : ∃ c program,
    (Compiler.build language (.compute language) "main").result = .ok c ∧
      (c.compile "def f(): return\ndef end_f(): return\n").result = .ok program ∧
      ∃ tokens, tokenize "def f(): return\ndef end_f(): return\n" = .ok tokens ∧
        Grouped program (definedNames tokens) := by
  obtain ⟨c, program, hc, hp⟩ := exists_compiled_endNamed "main"
  exact ⟨c, program, hc, hp, functions_grouped hc hp⟩

/-- No label of a program stands in it twice. Every jump and every call of a function with one of
the names given has one place to go to. -/
structure DistinctLabels (program : Program) (names : List String) : Prop where
  nodup : (labelNames program.code.toList).Nodup
  jump_once : ∀ q ∈ program.code.toList, q.op.isJump = true →
    ∃ name, q.result = some (.label name) ∧ (labelNames program.code.toList).count name = 1
  call_once : ∀ q ∈ program.code.toList, ∀ name ∈ names, q.op = .call →
    q.arg1 = some (.name name) → (labelNames program.code.toList).count name = 1

/-- The labels of a compiled program are distinct exactly if the names of its functions are and no
function has the name of the end label of another. -/
theorem labels_distinct_iff (hc : (Compiler.build language sets entry).result = .ok c)
    (hp : (c.compile source).result = .ok program) :
    ∃ tokens, tokenize source = .ok tokens ∧
      (DistinctLabels program (definedNames tokens) ↔ (definedNames tokens).Nodup ∧
        ∀ name ∈ definedNames tokens, Program.endLabel name ∉ definedNames tokens) := by
  obtain ⟨tokens, fs, htokens, hnames, rfl, hheaded⟩ := exists_code_of_tokens hc hp
  refine ⟨tokens, htokens, ?_⟩
  obtain ⟨j, haims, hcount⟩ := exists_aims entry hheaded
  rw [Machine.code_codeOf] at haims hcount
  obtain ⟨k, hperm, -⟩ := Machine.exists_perm_labelNames entry fs ⟨none, none⟩ 0 0
  rw [hnames, ← Machine.nodup_labelNames_iff entry fs ⟨none, none⟩ 0 0]
  refine ⟨fun h => Machine.code_codeOf entry fs ▸ h.nodup, fun hnodup => ?_⟩
  refine ⟨?_, ?_, ?_⟩ <;> rw [Machine.code_codeOf]
  · exact hnodup
  · intro q hq hop
    obtain ⟨i, -, hi, hresult⟩ := haims.exists_label hq hop
    refine ⟨_, hresult, ?_⟩
    rw [hcount, List.count_eq_one_of_mem List.nodup_range (List.mem_range.2 hi)]
  · intro q hq name hname hop harg
    exact List.count_eq_one_of_mem hnodup (hperm.mem_iff.2 (List.mem_append_left _ hname))

theorem labels_distinct_iff_countLoop : ∃ c program tokens,
    (Compiler.build language (.compute language) "main").result = .ok c ∧
      (c.compile "def f(int a):\n  while (a < 3): a++\n").result = .ok program ∧
      tokenize "def f(int a):\n  while (a < 3): a++\n" = .ok tokens ∧
      definedNames tokens = ["f"] ∧ DistinctLabels program (definedNames tokens) := by
  obtain ⟨c, program, hc, hp⟩ := exists_compiled_countLoop "main"
  obtain ⟨tokens, htokens, hiff⟩ := labels_distinct_iff hc hp
  have hdefined : (tokenize "def f(int a):\n  while (a < 3): a++\n").map definedNames =
      .ok ["f"] := by
    rw [tokenize_eq_scanLines]
    decide +kernel
  rw [htokens] at hdefined
  have hnames : definedNames tokens = ["f"] := Except.ok.inj hdefined
  refine ⟨c, program, tokens, hc, hp, htokens, hnames, hiff.2 ?_⟩
  rw [hnames]
  decide

/-- Distinct names are not enough: the end label of one function may be the label of another. -/
theorem not_nodup_labelNames_endNamed : ∃ c program tokens,
    (Compiler.build language (.compute language) "main").result = .ok c ∧
      (c.compile "def f(): return\ndef end_f(): return\n").result = .ok program ∧
      tokenize "def f(): return\ndef end_f(): return\n" = .ok tokens ∧
      (definedNames tokens).Nodup ∧ ¬(labelNames program.code.toList).Nodup := by
  obtain ⟨c, program, hc, hp⟩ := exists_compiled_endNamed "main"
  obtain ⟨tokens, fs, htokens, hnames, rfl, -⟩ := exists_code_of_tokens hc hp
  have hdefined : (tokenize "def f(): return\ndef end_f(): return\n").map definedNames =
      .ok ["f", "end_f"] := by
    rw [tokenize_eq_scanLines]
    decide +kernel
  rw [htokens] at hdefined
  have hnames' : definedNames tokens = ["f", "end_f"] := Except.ok.inj hdefined
  refine ⟨c, _, tokens, hc, hp, htokens, ?_, ?_⟩
  · rw [hnames']
    decide
  · rw [Machine.code_codeOf, Machine.nodup_labelNames_iff, ← hnames, hnames']
    rintro ⟨-, hend⟩
    exact hend "f" List.mem_cons_self (by decide)

end Programs

end Language

end Lookahead
