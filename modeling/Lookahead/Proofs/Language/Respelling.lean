import Lookahead.Proofs.Language.Acceptance
import Lookahead.Proofs.Lowering.StmtDemand

namespace Lookahead

open Grammar (language)

namespace Language

open Lookahead.Tree (Spelled)

variable {bare : Symbol → Bool}

/-- The compiler with the productions replaced is made from a table with the same sets. -/
theorem exists_respelled_compiler (bare : Symbol → Bool) (entry : String) :
    ∃ table', Table.build (language.respell bare) (FirstFollow.compute language) = .ok table' ∧
      (Compiler.computeSets (language.respell bare) >>=
        fun sets => Compiler.build (language.respell bare) sets entry).result =
        .ok ⟨language.respell bare, table', entry⟩ := by
  obtain ⟨table', htable'⟩ := FirstFollow.exists_build_compute (language.respell bare)
  refine ⟨table', ?_, build_computed_result htable' entry⟩
  rwa [FirstFollow.compute_respell Grammar.isRule_epsilon_language] at htable'

theorem terminalLeaves_respell (t : Tree) :
    (language.respell bare).terminalLeaves t = language.terminalLeaves t := by
  simp only [Grammar.terminalLeaves, Grammar.isTerminal, Grammar.isRule_respell]

theorem rooted_injective {t t' : Tree} (h : t.rooted = t'.rooted) : t = t' := by
  injection h with _ h
  injection h

/-- What is derived from a source in either spelling has the shapes that lowering knows. -/
theorem spelled_of_parse {sets : FirstFollow} {table' : Table} {source : String} {t : Tree}
    (hbuild' : Table.build (language.respell bare) sets = .ok table')
    (h : (Derivation.parse table' language.start (.scan source)).result = .ok (.rooted t)) :
    Spelled bare .program t := by
  have hparse (o : Derivation.Outcome) (ho : o.result = .ok (.rooted t)) :
      o = ⟨.ok (.rooted t), o.pulled, o.steps⟩ := by rw [← ho]
  obtain ⟨t, ts, ht, hlabel, hshows, -, -, hbears⟩ := Derivation.bears_of_parse hbuild'
    ((Grammar.isRule_respell language bare _).trans Grammar.isRule_epsilon_language)
    ((Grammar.isRule_respell language bare _).trans language.isRule_start) (hparse _ h)
  obtain rfl := rooted_injective ht
  have hget {x : Token} (hx : x ∈ ts) : ∃ i, (TokenStream.scan source).get i = .ok x := by
    obtain ⟨i, hi, rfl⟩ := List.getElem_of_mem hx
    exact ⟨i, hshows i hi⟩
  have hbears := hbears fun x hx => by
    obtain ⟨i, hi⟩ := hget hx
    exact (Grammar.isRule_respell language bare _).trans (isRule_kind_scan hi)
  have hleaves := leaves_of_bears hbears fun x hx => by
    obtain ⟨i, hi⟩ := hget hx
    rcases TokenStream.get_scan hi with ⟨-, kind, hkind, hliteral, -⟩ | ⟨-, rfl⟩
    · exact ⟨kind, hkind, hliteral⟩
    · exact ⟨.eof, rfl, trivial⟩
  rw [terminalLeaves_respell] at hleaves
  exact ⟨hlabel, hbears.1 _ List.mem_cons_self, hleaves⟩

theorem nil_not_mem_productions (s : Symbol) : [] ∉ language.productions s := by
  intro h
  obtain ⟨rule, hrule, -, hp⟩ := Grammar.mem_productions.1 h
  have hall : ∀ rule ∈ language.rules, [] ∉ rule.productions := by decide +kernel
  exact hall rule hrule hp

/-- A node that was expanded with an empty production is taken for empty exactly if that production
is spelled with `EPSILON`. -/
theorem isEmpty_of_isEpsilon {t n : Tree} (h : (language.respell bare).IsDerivation t)
    (hn : n ∈ t.preorder) (hr : language.isRule n.label = true)
    (hp : Production.isEpsilon (n.children.map (·.label)) = true) :
    n.isEmpty = .ok (!bare n.label) := by
  obtain ⟨info, children⟩ := n
  cases children with
  | nil =>
    have hexpands := h _ hn
    rw [Grammar.Expands, if_pos ((Grammar.isRule_respell language bare _).trans hr),
      Grammar.productions_respell] at hexpands
    obtain ⟨p, hmem, hnil⟩ := List.mem_map.1 hexpands
    cases hbare : bare info.label with
    | true => simp only [Tree.label_node, hbare, Bool.not_true]; rfl
    | false =>
      rw [Tree.label_node, hbare, Production.respell, if_neg (by simp)] at hnil
      exact absurd (hnil ▸ hmem) (nil_not_mem_productions _)
  | cons c rest =>
    have hc : c.label = Symbol.epsilon := by
      simp only [Production.isEpsilon, Tree.children, List.map_cons, List.all_cons,
        Bool.and_eq_true, decide_eq_true_eq] at hp
      exact hp.1
    have halone := (h.epsilon_alone ((Grammar.isRule_respell language bare _).trans
      Grammar.isRule_epsilon_language) hn List.mem_cons_self hc).1
    have hbare : bare info.label = false := by
      refine Bool.eq_false_iff.2 fun hbare => Derivation.kept_of_isDerivation h _ hn hbare ?_
      rw [halone, List.map_singleton, hc]
    have hkind : c.kind = .ok .epsilon := by
      rw [Tree.kind, hc]
      rfl
    rw [Tree.isEmpty_node hkind, Tree.label_node, hbare]
    rfl

section Compared

variable {table table' : Table}
  (hbuild : Table.build language (FirstFollow.compute language) = .ok table)
  (hbuild' : Table.build (language.respell bare) (FirstFollow.compute language) = .ok table')

include hbuild hbuild'

theorem parse_respelled_error {stream : TokenStream} {e : ParseError}
    (h : (Derivation.parse table language.start stream).result = .error e) :
    (Derivation.parse table' language.start stream).result = .error e := by
  rcases Derivation.respells_parse hbuild hbuild' language.start stream with
    ⟨e', he, he'⟩ | ⟨t, t', ht, -, -⟩
  · rw [he', Except.error.inj (he.symm.trans h)]
  · rw [ht] at h
    cases h

/-- A source with a tree has one in the other spelling too. The trees are the same if no production
that was replaced is expanded, and only then all rules of the second have children. -/
theorem parse_respelled {source : String} {t : Tree}
    (h : (Derivation.parse table language.start (.scan source)).result = .ok (.rooted t)) :
    ∃ t', (Derivation.parse table' language.start (.scan source)).result = .ok (.rooted t') ∧
      Spelled bare .program t' ∧ (t.Kept bare → t' = t) ∧ (t'.Whole language → t.Kept bare) := by
  rcases Derivation.respells_parse hbuild hbuild' language.start (.scan source) with
    ⟨e, he, -⟩ | ⟨t₁, t', ht, ht', hplain⟩
  · rw [he] at h
    cases h
  · obtain rfl := rooted_injective (Except.ok.inj (ht.symm.trans h))
    have hspelled := spelled_of_parse hbuild' ht'
    refine ⟨t', ht', hspelled, fun hkept => hplain (.inl hkept), fun hwhole => ?_⟩
    rw [← hplain (.inr hwhole)]
    exact Derivation.kept_of_isDerivation hspelled.derivation

end Compared

/-- A tree with a node that has no children in place of `EPSILON` is not lowered. -/
theorem compile_of_not_whole {table' : Table} {source : String} {t' : Tree} (entry : String)
    (hspelled : Spelled bare .program t') (hwhole : ¬t'.Whole language)
    (hparse : (Derivation.parse table' language.start (.scan source)).result = .ok (.rooted t')) :
    ∃ context index, (Compiler.compile ⟨language.respell bare, table', entry⟩ source).result =
      .error (.lowering (.missingChild context index)) := by
  have hverdict := Lowering.verdict_lower entry hspelled
  rw [compile_result, Grammar.start_respell, hparse]
  change ∃ context index, (Lowering.lower entry (.rooted t')).1.mapError CompileError.lowering = _
  rcases hlower : (Lowering.lower entry (.rooted t')).1 with e | program
  · rw [hlower] at hverdict
    obtain ⟨context, index, rfl⟩ := hverdict
    exact ⟨context, index, rfl⟩
  · rw [hlower] at hverdict
    exact absurd hverdict hwhole

/-- The grammar stays one when empty productions are spelled with no symbol, and the compilers of
both grammars are made. They end in the same error, or both derive the source. Then a node expanded
with an empty production is taken for empty exactly if its rule keeps `EPSILON`. So the programs are
the same if none of the others is expanded so, and if there is one, a child is found missing. -/
theorem compile_respelled (bare : Symbol → Bool) (entry : String) :
    Grammar.ofRules (language.rules.map (Rule.respell bare)) = .ok (language.respell bare) ∧
    ∃ c c', (Compiler.language entry).result = .ok c ∧
      (Compiler.computeSets (language.respell bare) >>=
        fun sets => Compiler.build (language.respell bare) sets entry).result = .ok c' ∧
      ∀ source,
        (∀ e, (c.compile source).result = .error e → (c'.compile source).result = .error e) ∧
        ∀ program, (c.compile source).result = .ok program →
          ∃ t t', (Derivation.parse c.table c.grammar.start (.scan source)).result =
              .ok (.rooted t) ∧
            (Derivation.parse c'.table c'.grammar.start (.scan source)).result =
              .ok (.rooted t') ∧
            (∀ n ∈ t'.preorder, language.isRule n.label = true →
              Production.isEpsilon (n.children.map (·.label)) = true →
              n.isEmpty = .ok (!bare n.label)) ∧
            (t.Kept bare → (c'.compile source).result = .ok program) ∧
            (¬t.Kept bare → ∃ context index,
              (c'.compile source).result = .error (.lowering (.missingChild context index))) := by
  obtain ⟨table, hbuild, hc⟩ := exists_compiler entry
  obtain ⟨table', hbuild', hc'⟩ := exists_respelled_compiler bare entry
  refine ⟨Grammar.ofRules_rules (language.respell bare), _, _, hc, hc', fun source => ?_⟩
  dsimp only
  rw [Grammar.start_respell]
  rcases compiles_or_error hbuild entry source with ⟨t, tokens, fs, h⟩ | ⟨e, -, he, herror⟩
  · obtain ⟨t', ht', hspelled, heq, hkept⟩ := parse_respelled hbuild hbuild' h.parse_result
    constructor
    · intro e he
      rw [h.compile_eq] at he
      cases he
    · intro program hprogram
      refine ⟨t, t', h.parse_result, ht',
        fun n hn => isEmpty_of_isEpsilon hspelled.derivation hn, fun hk => ?_, fun hk => ?_⟩
      · rw [heq hk] at ht'
        rw [← hprogram, compile_result, compile_result, Grammar.start_respell, ht', h.parse_result]
      · exact compile_of_not_whole entry hspelled (fun hwhole => hk (hkept hwhole)) ht'
  · have herror' : (Compiler.compile ⟨language.respell bare, table', entry⟩ source).result =
        .error (.parse e) := by
      rw [compile_result, Grammar.start_respell, parse_respelled_error hbuild hbuild' he]
      rfl
    rw [herror, herror']
    exact ⟨fun _ h => h, fun _ h => by cases h⟩

def noFunctions : Tree :=
  .node ⟨1, "Program", none, none⟩
    [.node ⟨2, "FuncList", none, none⟩ [.leaf 4 Symbol.epsilon], .leaf 3 Symbol.eof]

/-- The empty source compiles, but not when the list of functions may be spelled with nothing. -/
theorem compile_ne_bareFuncList :
    ∃ c c' program context index, (Compiler.language "main").result = .ok c ∧
      (Compiler.computeSets (language.respell (· = "FuncList")) >>= fun sets =>
        Compiler.build (language.respell (· = "FuncList")) sets "main").result = .ok c' ∧
      (c.compile "").result = .ok program ∧
      (c'.compile "").result = .error (.lowering (.missingChild context index)) := by
  obtain ⟨table, hbuild, hc⟩ := exists_compiler "main"
  obtain ⟨table', hbuild', hc'⟩ := exists_respelled_compiler (· = "FuncList") "main"
  have htokens : tokenize "" = .ok [.eof 1] := by
    rw [tokenize_eq_scanLines]
    decide +kernel
  have hderivation : language.IsDerivation noFunctions := by decide +kernel
  have hyield : language.yield noFunctions = [Symbol.eof] := by decide +kernel
  obtain ⟨t, ht, hbare⟩ := exists_parse_of_derivation hbuild htokens hderivation rfl hyield
  obtain ⟨t₁, tokens, fs, h⟩ := compiles_of_parse hbuild "main" ht
  obtain ⟨t', ht', hspelled, -, hkept⟩ := parse_respelled hbuild hbuild' ht
  have hnot : ¬t.Kept (· = "FuncList") := by
    rw [← Tree.kept_bare, hbare, Tree.kept_bare]
    decide +kernel
  obtain ⟨context, index, herror⟩ :=
    compile_of_not_whole "main" hspelled (fun hwhole => hnot (hkept hwhole)) ht'
  exact ⟨_, _, _, context, index, hc, hc', h.compile_eq, herror⟩

end Language

end Lookahead
