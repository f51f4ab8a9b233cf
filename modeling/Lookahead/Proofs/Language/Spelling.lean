import Lookahead.Proofs.Language.Functions
import Lookahead.Proofs.Language.OneLine

namespace Lookahead

namespace Source

open Lookahead.Derivation (Bears)
open Grammar (language)
open Option (bind_eq_some_iff map_eq_some_iff)
open Lookahead.Tree (Parsed ParsedFrom)

section Simple

variable {P : Operand → Prop} {t : Tree}

theorem spelled_readInit (h : t.Spells P) {init : Option Expr} (hread : readInit t = some init) :
    ∀ o ∈ (init.map Expr.literals).getD [], P o := by
  unfold readInit at hread
  split at hread
  · cases hread
    exact List.forall_mem_nil _
  · obtain ⟨e, he, rfl⟩ := map_eq_some_iff.1 hread
    exact (readsSpelled (h.child (by simp))).expr e he
  · cases hread

theorem spelled_readDecl (hp : Parsed .decl t) (h : t.Spells P) {d : Decl}
    (hread : readDecl t = some d) : ∀ o ∈ d.literals, P o := by
  obtain ⟨info, children⟩ := t
  obtain ⟨p, hmem, hf⟩ := hp.forall₂ (by decide) fun c _ k hc => hc
  fin_cases hmem
  rcases hf with _ | ⟨-, _ | ⟨hident, _ | ⟨-, _ | _⟩⟩⟩
  obtain ⟨x, hx, hread⟩ := bind_eq_some_iff.1 hread
  obtain ⟨init, hinit, hread⟩ := bind_eq_some_iff.1 hread
  cases hread
  refine List.forall_mem_cons.2 ⟨?_, spelled_readInit (h.child (by simp)) hinit⟩
  exact (h.child (by simp)).name hident.kind?_eq hx

theorem spelled_readUpdate (h : t.Spells P) {x : Name} (hx : P (.name x.text)) {u : Update}
    (hread : readUpdate x t = some u) : ∀ o ∈ u.literals, P o := by
  unfold readUpdate at hread
  split at hread
  · split at hread
    · cases hread
      exact List.forall_mem_singleton.2 hx
    · cases hread
      exact List.forall_mem_singleton.2 hx
    · cases hread
  · obtain ⟨e, he, rfl⟩ := map_eq_some_iff.1 hread
    exact List.forall_mem_cons.2 ⟨hx, (readsSpelled (h.child (by simp))).expr e he⟩
  · cases hread

theorem spelled_readStep (hp : Parsed .forStep t) (h : t.Spells P) {u : Update}
    (hread : readStep t = some u) : ∀ o ∈ u.literals, P o := by
  obtain ⟨info, children⟩ := t
  obtain ⟨p, hmem, hf⟩ := hp.forall₂ (by decide) fun c _ k hc => hc
  fin_cases hmem
  rcases hf with _ | ⟨hident, _ | ⟨-, _ | _⟩⟩
  obtain ⟨x, hx, hread⟩ := bind_eq_some_iff.1 hread
  exact spelled_readUpdate (h.child (by simp)) ((h.child (by simp)).name hident.kind?_eq hx) hread

theorem spelled_readReturn (h : t.Spells P) {value : Option Expr}
    (hread : readReturn t = some value) : ∀ o ∈ (value.map Expr.literals).getD [], P o := by
  unfold readReturn at hread
  split at hread
  · split at hread
    · cases hread
      exact List.forall_mem_nil _
    · obtain ⟨e, he, rfl⟩ := map_eq_some_iff.1 hread
      have hvalue := h.child (List.mem_cons_of_mem _ List.mem_cons_self)
      exact (readsSpelled (hvalue.child List.mem_cons_self)).expr e he
  · cases hread

theorem spelled_readSuffix (h : t.Spells P) {x : Name} (hx : P (.name x.text)) {s : Simple}
    (hread : readSuffix x t = some s) : ∀ o ∈ s.literals, P o := by
  unfold readSuffix at hread
  split at hread
  · obtain ⟨u, hu, rfl⟩ := map_eq_some_iff.1 hread
    exact spelled_readUpdate (h.child (by simp)) hx hu
  · obtain ⟨args, hargs, rfl⟩ := map_eq_some_iff.1 hread
    exact List.forall_mem_cons.2 ⟨hx, (readsSpelled (h.child (by simp))).args args hargs⟩
  · cases hread

theorem spelled_readSimple (hp : Parsed .simpleStmt t) (h : t.Spells P) {s : Simple}
    (hread : readSimple t = some s) : ∀ o ∈ s.literals, P o := by
  obtain ⟨info, children⟩ := t
  obtain ⟨p, hmem, hf⟩ := hp.forall₂ (by decide) fun c _ k hc => hc
  fin_cases hmem
  · rcases hf with _ | ⟨hdecl, _ | _⟩
    rw [readSimple, hdecl.kind?_eq] at hread
    obtain ⟨d, hd, rfl⟩ := map_eq_some_iff.1 hread
    exact spelled_readDecl hdecl (h.child List.mem_cons_self) hd
  · rcases hf with _ | ⟨hident, _ | ⟨-, _ | _⟩⟩
    obtain ⟨x, hx, hread⟩ := bind_eq_some_iff.1 hread
    have hname := (h.child List.mem_cons_self).name hident.kind?_eq hx
    exact spelled_readSuffix (h.child (by simp)) hname hread
  · rcases hf with _ | ⟨hret, _ | _⟩
    rw [readSimple, hret.kind?_eq] at hread
    obtain ⟨value, hvalue, rfl⟩ := map_eq_some_iff.1 hread
    exact spelled_readReturn (h.child List.mem_cons_self) hvalue

theorem spelled_readParam (hp : Parsed .param t) (h : t.Spells P) {x : Name}
    (hread : readParam t = some x) : P (.name x.text) := by
  obtain ⟨info, children⟩ := t
  obtain ⟨p, hmem, hf⟩ := hp.forall₂ (by decide) fun c _ k hc => hc
  fin_cases hmem
  rcases hf with _ | ⟨-, _ | ⟨hident, _ | _⟩⟩
  exact (h.child (by simp)).name hident.kind?_eq hread

theorem spelled_readMoreParams (hp : Parsed .paramTail t) (h : t.Spells P) {params : List Name}
    (hread : readMoreParams t = some params) : ∀ x ∈ params, P (.name x.text) := by
  induction t using Tree.induct generalizing params with
  | node info children ih =>
    obtain ⟨p, hmem, hf⟩ := hp.forall₂ (by decide) fun c hc k hk => And.intro hc hk
    fin_cases hmem
    · rcases hf with _ | ⟨-, _ | ⟨hparam, _ | ⟨htail, _ | _⟩⟩⟩
      obtain ⟨x, hx, hread⟩ := bind_eq_some_iff.1 hread
      obtain ⟨rest, hrest, hread⟩ := bind_eq_some_iff.1 hread
      cases hread
      exact List.forall_mem_cons.2 ⟨spelled_readParam hparam.2 (h.child hparam.1) hx,
        ih _ htail.1 htail.2 (h.child htail.1) hrest⟩
    · rcases hf with _ | ⟨-, _ | _⟩
      cases hread
      exact List.forall_mem_nil _

theorem spelled_readParams (hp : Parsed .params t) (h : t.Spells P) {params : List Name}
    (hread : readParams t = some params) : ∀ x ∈ params, P (.name x.text) := by
  obtain ⟨info, children⟩ := t
  obtain ⟨p, hmem, hf⟩ := hp.forall₂ (by decide) fun c hc k hk => And.intro hc hk
  fin_cases hmem
  · rcases hf with _ | ⟨hparam, _ | ⟨htail, _ | _⟩⟩
    obtain ⟨x, hx, hread⟩ := bind_eq_some_iff.1 hread
    obtain ⟨rest, hrest, hread⟩ := bind_eq_some_iff.1 hread
    cases hread
    exact List.forall_mem_cons.2 ⟨spelled_readParam hparam.2 (h.child hparam.1) hx,
      spelled_readMoreParams htail.2 (h.child htail.1) hrest⟩
  · rcases hf with _ | ⟨-, _ | _⟩
    cases hread
    exact List.forall_mem_nil _

end Simple

section Statements

variable {tokens : List Token}

/-- What is read from a node that is part of a statement is spelled. A statement is spelled from the
first line of its node on. -/
def StmtSpelled (tokens : List Token) : NodeKind → Tree → Prop
  | .block, t => ∀ b, readBlock t = some b → b.Spelled tokens
  | .blockBody, t => ∀ b, readBody t = some b → b.Spelled tokens
  | .stmtList, t => ∀ b, readStmts t = some b → b.Spelled tokens
  | .stmt, t => ∀ s, readStmt t = some s → ∃ m, t.firstLine = some m ∧ s.Spelled tokens m
  | .ifStmt, t => ∀ s, readIf t = some s → ∃ m, t.firstLine = some m ∧ s.Spelled tokens m
  | .elifList, t => ∀ last a, last.Spelled tokens → readElifs last t = some a → a.Spelled tokens
  | .elseOpt, t => ∀ a, readElse t = some a → a.Spelled tokens
  | .whileStmt, t => ∀ s, readWhile t = some s → ∃ m, t.firstLine = some m ∧ s.Spelled tokens m
  | .forStmt, t => ∀ s, readFor t = some s → ∃ m, t.firstLine = some m ∧ s.Spelled tokens m
  | .doStmt, t => ∀ s, readDo t = some s → ∃ m, t.firstLine = some m ∧ s.Spelled tokens m
  | _, _ => True

structure SpelledNode (tokens : List Token) (kind : NodeKind) (t : Tree) : Prop where
  parsedFrom : ParsedFrom tokens kind t
  spelled : StmtSpelled tokens kind t

/-- A condition is spelled on the line that it begins on. -/
theorem spelled_test {t : Tree} (h : ParsedFrom tokens .expr t) {e : Expr}
    (hread : readExpr t = some e) :
    ∃ m, t.firstLine = some m ∧ ∀ o ∈ e.literals, o.SpelledOn tokens m := by
  obtain ⟨m, hm, hspells⟩ := h.spells (by decide) (by decide)
  exact ⟨m, hm, (readsSpelled hspells).expr e hread⟩

theorem spelled_simple {t : Tree} (h : ParsedFrom tokens .simpleStmt t) {s : Simple}
    (hread : readSimple t = some s) :
    ∃ m, t.firstLine = some m ∧ (Stmt.simple s).Spelled tokens m := by
  obtain ⟨m, hm, hspells⟩ := h.spells (by decide) (by decide)
  exact ⟨m, hm, spelled_readSimple h.parsed hspells hread⟩

variable {info : Node} {children : List Tree}
  (hnodes : ∀ c ∈ children, ∀ k, ParsedFrom tokens k c → SpelledNode tokens k c)

include hnodes

theorem stmtSpelled_block (h : ParsedFrom tokens .block (.node info children)) :
    StmtSpelled tokens .block (.node info children) := by
  obtain ⟨p, hp, hf⟩ := h.forall₂ (by decide) hnodes
  fin_cases hp
  rcases hf with _ | ⟨-, _ | ⟨hbody, _ | _⟩⟩
  exact hbody.spelled

theorem stmtSpelled_blockBody (h : ParsedFrom tokens .blockBody (.node info children)) :
    StmtSpelled tokens .blockBody (.node info children) := by
  obtain ⟨p, hp, hf⟩ := h.forall₂ (by decide) hnodes
  fin_cases hp
  · rcases hf with _ | ⟨-, _ | ⟨-, _ | ⟨hlist, _ | ⟨-, _ | _⟩⟩⟩⟩
    exact hlist.spelled
  · rcases hf with _ | ⟨hsimple, _ | ⟨-, _ | _⟩⟩
    intro b hread
    obtain ⟨s, hs, hread⟩ := bind_eq_some_iff.1 hread
    cases hread
    exact ⟨spelled_simple hsimple.parsedFrom hs, trivial⟩

theorem stmtSpelled_stmtList (h : ParsedFrom tokens .stmtList (.node info children)) :
    StmtSpelled tokens .stmtList (.node info children) := by
  obtain ⟨p, hp, hf⟩ := h.forall₂ (by decide) hnodes
  fin_cases hp
  · rcases hf with _ | ⟨hstmt, _ | ⟨hlist, _ | _⟩⟩
    intro b hread
    obtain ⟨s, hs, hread⟩ := bind_eq_some_iff.1 hread
    obtain ⟨rest, hrest, hread⟩ := bind_eq_some_iff.1 hread
    cases hread
    exact ⟨hstmt.spelled s hs, hlist.spelled rest hrest⟩
  · rcases hf with _ | ⟨-, _ | _⟩
    rintro b ⟨⟩
    trivial

theorem stmtSpelled_stmt (h : ParsedFrom tokens .stmt (.node info children)) :
    StmtSpelled tokens .stmt (.node info children) := by
  obtain ⟨p, hp, hf⟩ := h.forall₂ (by decide) hnodes
  fin_cases hp
  · obtain ⟨m, hm, hspells⟩ := h.header (by decide) (hf.imp fun _ _ hc => hc.parsedFrom.parsed) 1
      (by decide) (by decide)
    rcases hf with _ | ⟨hsimple, _ | ⟨-, _ | _⟩⟩
    intro s hread
    obtain ⟨s, hs, rfl⟩ := map_eq_some_iff.1 hread
    have hsimple := hsimple.parsedFrom.parsed
    exact ⟨m, hm, spelled_readSimple hsimple (hspells _ List.mem_cons_self) hs⟩
  -- A compound statement begins where its only child does.
  all_goals
    rcases hf with _ | ⟨hinner, _ | _⟩
    intro s hread
    rw [readStmt, hinner.parsedFrom.parsed.kind?_eq] at hread
    rw [h.firstLine_only (by decide)]
    exact hinner.spelled s hread

theorem stmtSpelled_if (h : ParsedFrom tokens .ifStmt (.node info children)) :
    StmtSpelled tokens .ifStmt (.node info children) := by
  obtain ⟨p, hp, hf⟩ := h.forall₂ (by decide) hnodes
  fin_cases hp
  obtain ⟨m, hm, -⟩ := h.header (by decide) (hf.imp fun _ _ hc => hc.parsedFrom.parsed) 1
    (by decide) (by decide)
  rcases hf with
    _ | ⟨-, _ | ⟨-, _ | ⟨htest, _ | ⟨-, _ | ⟨hblock, _ | ⟨helifs, _ | ⟨helse, _ | _⟩⟩⟩⟩⟩⟩⟩
  intro s hread
  obtain ⟨test, ht, hread⟩ := bind_eq_some_iff.1 hread
  obtain ⟨body, hbody, hread⟩ := bind_eq_some_iff.1 hread
  obtain ⟨last, hlast, hread⟩ := bind_eq_some_iff.1 hread
  obtain ⟨rest, hrest, hread⟩ := bind_eq_some_iff.1 hread
  cases hread
  exact ⟨m, hm, spelled_test htest.parsedFrom ht, hblock.spelled body hbody,
    helifs.spelled last rest (helse.spelled last hlast) hrest⟩

theorem stmtSpelled_elifList (h : ParsedFrom tokens .elifList (.node info children)) :
    StmtSpelled tokens .elifList (.node info children) := by
  obtain ⟨p, hp, hf⟩ := h.forall₂ (by decide) hnodes
  fin_cases hp
  · rcases hf with
      _ | ⟨-, _ | ⟨-, _ | ⟨htest, _ | ⟨-, _ | ⟨hblock, _ | ⟨helifs, _ | _⟩⟩⟩⟩⟩⟩
    intro last a hlast hread
    obtain ⟨test, ht, hread⟩ := bind_eq_some_iff.1 hread
    obtain ⟨body, hbody, hread⟩ := bind_eq_some_iff.1 hread
    obtain ⟨rest, hrest, hread⟩ := bind_eq_some_iff.1 hread
    cases hread
    exact ⟨spelled_test htest.parsedFrom ht, hblock.spelled body hbody,
      helifs.spelled last rest hlast hrest⟩
  · rcases hf with _ | ⟨-, _ | _⟩
    rintro last a hlast ⟨⟩
    exact hlast

theorem stmtSpelled_elseOpt (h : ParsedFrom tokens .elseOpt (.node info children)) :
    StmtSpelled tokens .elseOpt (.node info children) := by
  obtain ⟨p, hp, hf⟩ := h.forall₂ (by decide) hnodes
  fin_cases hp
  · rcases hf with _ | ⟨-, _ | ⟨hblock, _ | _⟩⟩
    intro a hread
    obtain ⟨body, hbody, rfl⟩ := map_eq_some_iff.1 hread
    exact hblock.spelled body hbody
  · rcases hf with _ | ⟨-, _ | _⟩
    rintro a ⟨⟩
    trivial

theorem stmtSpelled_while (h : ParsedFrom tokens .whileStmt (.node info children)) :
    StmtSpelled tokens .whileStmt (.node info children) := by
  obtain ⟨p, hp, hf⟩ := h.forall₂ (by decide) hnodes
  fin_cases hp
  obtain ⟨m, hm, hspells⟩ := h.header (by decide) (hf.imp fun _ _ hc => hc.parsedFrom.parsed) 4
    (by decide) (by decide)
  rcases hf with _ | ⟨-, _ | ⟨-, _ | ⟨-, _ | ⟨-, _ | ⟨hblock, _ | _⟩⟩⟩⟩⟩
  intro s hread
  obtain ⟨test, htest, hread⟩ := bind_eq_some_iff.1 hread
  obtain ⟨body, hbody, hread⟩ := bind_eq_some_iff.1 hread
  cases hread
  exact ⟨m, hm, (readsSpelled (hspells _ (by simp))).expr test htest, hblock.spelled body hbody⟩

theorem stmtSpelled_for (h : ParsedFrom tokens .forStmt (.node info children)) :
    StmtSpelled tokens .forStmt (.node info children) := by
  obtain ⟨p, hp, hf⟩ := h.forall₂ (by decide) hnodes
  fin_cases hp
  obtain ⟨m, hm, hspells⟩ := h.header (by decide) (hf.imp fun _ _ hc => hc.parsedFrom.parsed) 8
    (by decide) (by decide)
  rcases hf with _ | ⟨-, _ | ⟨-, _ | ⟨hdecl, _ | ⟨-, _ | ⟨-, _ | ⟨-, _ | ⟨hstep, _ | ⟨-, _ |
    ⟨hblock, _ | _⟩⟩⟩⟩⟩⟩⟩⟩⟩
  intro s hread
  obtain ⟨init, hinit, hread⟩ := bind_eq_some_iff.1 hread
  obtain ⟨test, htest, hread⟩ := bind_eq_some_iff.1 hread
  obtain ⟨step, hlast, hread⟩ := bind_eq_some_iff.1 hread
  obtain ⟨body, hbody, hread⟩ := bind_eq_some_iff.1 hread
  cases hread
  refine ⟨m, hm, ?_, hblock.spelled body hbody⟩
  -- All three parts of the head stand on the line of the loop.
  refine List.forall_mem_append.2 ⟨?_, List.forall_mem_append.2 ⟨?_, ?_⟩⟩
  · exact spelled_readDecl hdecl.parsedFrom.parsed (hspells _ (by simp)) hinit
  · exact (readsSpelled (hspells _ (by simp))).expr test htest
  · exact spelled_readStep hstep.parsedFrom.parsed (hspells _ (by simp)) hlast

theorem stmtSpelled_do (h : ParsedFrom tokens .doStmt (.node info children)) :
    StmtSpelled tokens .doStmt (.node info children) := by
  obtain ⟨p, hp, hf⟩ := h.forall₂ (by decide) hnodes
  fin_cases hp
  obtain ⟨m, hm, -⟩ := h.header (by decide) (hf.imp fun _ _ hc => hc.parsedFrom.parsed) 1
    (by decide) (by decide)
  rcases hf with
    _ | ⟨-, _ | ⟨hblock, _ | ⟨-, _ | ⟨-, _ | ⟨htest, _ | ⟨-, _ | ⟨-, _ | _⟩⟩⟩⟩⟩⟩⟩
  intro s hread
  obtain ⟨body, hbody, hread⟩ := bind_eq_some_iff.1 hread
  obtain ⟨test, ht, hread⟩ := bind_eq_some_iff.1 hread
  cases hread
  exact ⟨m, hm, hblock.spelled body hbody, spelled_test htest.parsedFrom ht⟩

omit hnodes

/-- Every node of a statement is spelled. -/
theorem stmtSpelled (t : Tree) : ∀ kind, ParsedFrom tokens kind t → StmtSpelled tokens kind t := by
  induction t using Tree.induct with
  | node info children ih =>
    intro kind h
    have hnodes : ∀ c ∈ children, ∀ k, ParsedFrom tokens k c → SpelledNode tokens k c :=
      fun c hc k hp => ⟨hp, ih c hc k hp⟩
    cases kind with
    | block => exact stmtSpelled_block hnodes h
    | blockBody => exact stmtSpelled_blockBody hnodes h
    | stmtList => exact stmtSpelled_stmtList hnodes h
    | stmt => exact stmtSpelled_stmt hnodes h
    | ifStmt => exact stmtSpelled_if hnodes h
    | elifList => exact stmtSpelled_elifList hnodes h
    | elseOpt => exact stmtSpelled_elseOpt hnodes h
    | whileStmt => exact stmtSpelled_while hnodes h
    | forStmt => exact stmtSpelled_for hnodes h
    | doStmt => exact stmtSpelled_do hnodes h
    | _ => trivial

end Statements

section Functions

variable {tokens : List Token} {t : Tree}

theorem spelled_function (h : ParsedFrom tokens .funcDef t) {f : Function}
    (hread : readFunction t = some f) : f.Spelled tokens := by
  obtain ⟨info, children⟩ := t
  obtain ⟨p, hp, hf⟩ := h.forall₂ (by decide) fun _ _ _ hc => hc
  fin_cases hp
  obtain ⟨m, hm, hspells⟩ := h.header (by decide) (hf.imp fun _ _ hc => hc.parsed) 5
    (by decide) (by decide)
  rcases hf with _ | ⟨-, _ | ⟨hident, _ | ⟨-, _ | ⟨hparams, _ | ⟨-, _ | ⟨hblock, _ | _⟩⟩⟩⟩⟩⟩
  obtain ⟨name, hname, hread⟩ := bind_eq_some_iff.1 hread
  obtain ⟨params, hp, hread⟩ := bind_eq_some_iff.1 hread
  obtain ⟨body, hbody, hread⟩ := bind_eq_some_iff.1 hread
  cases hread
  refine ⟨⟨m, hm, (hspells _ (by simp)).name hident.parsed.kind?_eq hname, ?_⟩,
    stmtSpelled _ .block hblock body hbody⟩
  exact spelled_readParams hparams.parsed (hspells _ (by simp)) hp

theorem spelled_functions (h : ParsedFrom tokens .funcList t) {fs : List Function}
    (hread : readFunctions t = some fs) : ∀ f ∈ fs, f.Spelled tokens := by
  induction t using Tree.induct generalizing fs with
  | node info children ih =>
    obtain ⟨p, hp, hf⟩ := h.forall₂ (by decide) fun c hc k hk => And.intro hc hk
    fin_cases hp
    · rcases hf with _ | ⟨hdef, _ | ⟨hlist, _ | _⟩⟩
      obtain ⟨f, hf, hread⟩ := bind_eq_some_iff.1 hread
      obtain ⟨rest, hrest, hread⟩ := bind_eq_some_iff.1 hread
      cases hread
      exact List.forall_mem_cons.2 ⟨spelled_function hdef.2 hf, ih _ hlist.1 hlist.2 hrest⟩
    · rcases hf with _ | ⟨-, _ | _⟩
      cases hread
      exact List.forall_mem_nil _

/-- Every function of a program is spelled by the tokens of its source. -/
theorem spelled_program {source : String} (hparsed : Parsed .program t)
    (hblank : t.Blank) (hb : Bears language [t] tokens) (htokens : tokenize source = .ok tokens)
    {fs : List Function} (hread : readProgram (.rooted t) = some fs) :
    ∀ f ∈ fs, f.Spelled tokens := by
  obtain ⟨info, list, last, us, x, rfl, rfl, hlist, -, hus, -⟩ := hparsed.exists_list hb
  refine spelled_functions ⟨hlist, hblank.child list List.mem_cons_self, us, hus, ?_, ?_⟩ hread
  · exact Layout.isChain_of_tokenize htokens
  · exact List.subset_append_left us [x]

end Functions

end Source

end Lookahead
