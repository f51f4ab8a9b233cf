import Lookahead.Proofs.Code.Returns
import Lookahead.Proofs.Language.Functions
import Lookahead.Proofs.Language.Moved

namespace Lookahead

def returnsAhead (tokens : List Token) : Nat :=
  (tokens.takeWhile (·.kind ≠ Terminal.kwDef.name)).countP (·.kind = Terminal.kwReturn.name)

/-- The definitions among some tokens: the name of each, and the number of returns from there up to
the next one. -/
def definitions : List Token → List (String × Nat)
  | [] => []
  | x :: rest =>
    if x.kind = Terminal.kwDef.name then
      (rest.head?.bind (·.literal)).toList.map (·, returnsAhead rest) ++ definitions rest
    else definitions rest

section Tokens

variable {ts : List Token}

theorem definitions_append (h : ∀ x ∈ ts, x.kind ≠ Terminal.kwDef.name) (more : List Token) :
    definitions (ts ++ more) = definitions more := by
  induction ts with
  | nil => rfl
  | cons x ts ih =>
    obtain ⟨hx, hts⟩ := List.forall_mem_cons.1 h
    rw [List.cons_append, definitions, if_neg hx, ih hts]

theorem returnsAhead_append (h : ∀ x ∈ ts, x.kind ≠ Terminal.kwDef.name) (more : List Token) :
    returnsAhead (ts ++ more) =
      ts.countP (·.kind = Terminal.kwReturn.name) + returnsAhead more := by
  rw [returnsAhead, List.takeWhile_append_of_pos (by simpa using h), List.countP_append]
  rfl

theorem returnsAhead_def {x : Token} (h : x.kind = Terminal.kwDef.name) :
    returnsAhead (x :: ts) = 0 := by
  rw [returnsAhead, List.takeWhile_cons_of_neg (by simpa using h)]
  rfl

end Tokens

namespace Source

open Lookahead.Derivation (Bears)
open Grammar (language)
open Option (bind_eq_some_iff map_eq_some_iff)
open Lookahead.Tree (Parsed)

def isReturnFree (s : Symbol) : Bool :=
  s ∉ [NodeKind.program, .funcList, .funcDef, .block, .blockBody, .stmtList, .stmt, .simpleStmt,
    .returnStmt, .ifStmt, .elifList, .elseOpt, .whileStmt, .forStmt, .doStmt,
    .terminal .kwReturn].map NodeKind.label

theorem isReturnFree_of_production : ∀ s, isReturnFree s = true → ∀ p ∈ language.productions s,
    ∀ x ∈ p, isReturnFree x = true :=
  Language.closed_of_rules (by decide +kernel)

def writtenReturns (t : Tree) : Nat := (language.yield t).count Terminal.kwReturn.name

section Counts

variable {kind : NodeKind} {t : Tree} {info : Node} {children : List Tree}

theorem writtenReturns_node (h : Parsed kind (.node info children)) (hk : kind.productions ≠ []) :
    writtenReturns (.node info children) = (children.map writtenReturns).sum := by
  have hr : language.isRule info.label = true := h.isRule hk
  rw [writtenReturns, Grammar.yield_node _ hr, List.count_flatMap]
  rfl

theorem writtenReturns_eq_zero (h : Parsed kind t) (hfree : isReturnFree kind.label = true) :
    writtenReturns t = 0 := by
  apply List.count_eq_zero.2
  intro hmem
  have hinner : ∀ s ∈ language.yield t, isReturnFree s = true :=
    h.derivation.inner_of_mem_yield isReturnFree_of_production (h.label ▸ hfree)
  exact absurd (hinner _ hmem) (by decide)

theorem writtenReturns_returnStmt (h : Parsed .returnStmt t) : writtenReturns t = 1 := by
  obtain ⟨info, children⟩ := t
  obtain ⟨p, hp, hf⟩ := h.forall₂ (by decide) fun c _ k hc => hc
  rw [NodeKind.productions, List.mem_singleton] at hp
  subst hp
  rcases hf with _ | ⟨ha, _ | ⟨hb, _ | _⟩⟩
  rw [writtenReturns_node h (by decide)]
  simp only [List.map_cons, List.map_nil, List.sum_cons, List.sum_nil,
    writtenReturns_eq_zero hb (by decide)]
  have hlabel : _ = Terminal.kwReturn.name := ha.label
  rw [writtenReturns, Language.yield_terminal ha.derivation hlabel]
  rfl

end Counts

def returnsAmong (stretches : List Stretch) : Nat := stretches.countP Stretch.returns

/-- The returns in what is read from a node are those that the node bears. -/
def ReadsReturns : NodeKind → Tree → Prop
  | .block, t => ∀ b, readBlock t = some b → writtenReturns t = returnsAmong b.stretches
  | .blockBody, t => ∀ b, readBody t = some b → writtenReturns t = returnsAmong b.stretches
  | .stmtList, t => ∀ b, readStmts t = some b → writtenReturns t = returnsAmong b.stretches
  | .stmt, t => ∀ s, readStmt t = some s → writtenReturns t = returnsAmong s.stretches
  | .simpleStmt, t => ∀ s, readSimple t = some s → writtenReturns t = returnsAmong [.simple s]
  | .ifStmt, t => ∀ s, readIf t = some s → writtenReturns t = returnsAmong s.stretches
  | .elifList, t => ∀ last a, readElifs last t = some a →
      writtenReturns t + returnsAmong last.stretches = returnsAmong a.stretches
  | .elseOpt, t => ∀ a, readElse t = some a → writtenReturns t = returnsAmong a.stretches
  | .whileStmt, t => ∀ s, readWhile t = some s → writtenReturns t = returnsAmong s.stretches
  | .forStmt, t => ∀ s, readFor t = some s → writtenReturns t = returnsAmong s.stretches
  | .doStmt, t => ∀ s, readDo t = some s → writtenReturns t = returnsAmong s.stretches
  | _, _ => True

section Nodes

abbrev ReturnsNode (kind : NodeKind) (t : Tree) : Prop := t.Parsed kind ∧ ReadsReturns kind t

variable {info : Node} {kind : NodeKind} {a b c d e f g h i : Tree}

theorem returnsAmong_append (stretches more : List Stretch) :
    returnsAmong (stretches ++ more) = returnsAmong stretches + returnsAmong more :=
  List.countP_append

theorem returnsAmong_test (e : Expr) (stretches : List Stretch) :
    returnsAmong (.test e :: stretches) = returnsAmong stretches :=
  List.countP_cons_of_neg (by simp [Stretch.returns])

theorem not_returns_of_readSuffix {x : Name} {t : Tree} {s : Simple}
    (h : readSuffix x t = some s) : s.returns = false := by
  unfold readSuffix at h
  split at h
  · obtain ⟨u, -, rfl⟩ := map_eq_some_iff.1 h
    rfl
  · obtain ⟨args, -, rfl⟩ := map_eq_some_iff.1 h
    rfl
  · cases h

theorem ReturnsNode.none (ha : ReturnsNode kind a) (hfree : isReturnFree kind.label = true) :
    writtenReturns a = 0 := writtenReturns_eq_zero ha.1 hfree

theorem readsReturns_reference (ht : Parsed .simpleStmt (.node info [a, b]))
    (ha : ReturnsNode (.terminal .ident) a) (hb : ReturnsNode .idSuffix b) :
    ReadsReturns .simpleStmt (.node info [a, b]) := by
  intro s hread
  obtain ⟨x, -, hsuffix⟩ := bind_eq_some_iff.1 hread
  have hnone : returnsAmong [.simple s] = 0 :=
    List.countP_cons_of_neg (Bool.eq_false_iff.1 (not_returns_of_readSuffix hsuffix))
  rw [writtenReturns_node ht (by decide), hnone]
  simp only [List.map_cons, List.map_nil, List.sum_cons, List.sum_nil, ha.none (by decide),
    hb.none (by decide), Nat.add_zero]

theorem readsReturns_line (ht : Parsed .blockBody (.node info [a, b]))
    (ha : ReturnsNode .simpleStmt a) (hb : ReturnsNode (.terminal .newline) b) :
    ReadsReturns .blockBody (.node info [a, b]) := by
  intro block hread
  obtain ⟨s, hs, hread⟩ := bind_eq_some_iff.1 hread
  cases hread
  rw [writtenReturns_node ht (by decide)]
  simp only [List.map_cons, List.map_nil, List.sum_cons, List.sum_nil, ha.2 s hs,
    hb.none (by decide)]
  rfl

theorem readsReturns_stmts (ht : Parsed .stmtList (.node info [a, b])) (ha : ReturnsNode .stmt a)
    (hb : ReturnsNode .stmtList b) : ReadsReturns .stmtList (.node info [a, b]) := by
  intro block hread
  obtain ⟨s, hs, hread⟩ := bind_eq_some_iff.1 hread
  obtain ⟨rest, hrest, hread⟩ := bind_eq_some_iff.1 hread
  cases hread
  rw [writtenReturns_node ht (by decide), Block.stretches, returnsAmong_append]
  simp only [List.map_cons, List.map_nil, List.sum_cons, List.sum_nil, ha.2 s hs, hb.2 rest hrest]
  omega

theorem readsReturns_if (ht : Parsed .ifStmt (.node info [a, b, c, d, e, f, g]))
    (ha : ReturnsNode (.terminal .kwIf) a) (hb : ReturnsNode (.terminal .lparen) b)
    (hc : ReturnsNode .expr c) (hd : ReturnsNode (.terminal .rparen) d)
    (he : ReturnsNode .block e) (hf : ReturnsNode .elifList f) (hg : ReturnsNode .elseOpt g) :
    ReadsReturns .ifStmt (.node info [a, b, c, d, e, f, g]) := by
  intro s hread
  obtain ⟨test, -, hread⟩ := bind_eq_some_iff.1 hread
  obtain ⟨body, hbody, hread⟩ := bind_eq_some_iff.1 hread
  obtain ⟨last, hlast, hread⟩ := bind_eq_some_iff.1 hread
  obtain ⟨rest, hrest, hread⟩ := bind_eq_some_iff.1 hread
  cases hread
  have hrest := hf.2 last rest hrest
  rw [writtenReturns_node ht (by decide), Stmt.stretches, Arms.stretches, returnsAmong_test,
    returnsAmong_append]
  simp only [List.map_cons, List.map_nil, List.sum_cons, List.sum_nil, ha.none (by decide),
    hb.none (by decide), hc.none (by decide), hd.none (by decide), he.2 body hbody,
    hg.2 last hlast]
  omega

theorem readsReturns_elif (ht : Parsed .elifList (.node info [a, b, c, d, e, f]))
    (ha : ReturnsNode (.terminal .kwElif) a) (hb : ReturnsNode (.terminal .lparen) b)
    (hc : ReturnsNode .expr c) (hd : ReturnsNode (.terminal .rparen) d)
    (he : ReturnsNode .block e) (hf : ReturnsNode .elifList f) :
    ReadsReturns .elifList (.node info [a, b, c, d, e, f]) := by
  intro last arms hread
  obtain ⟨test, -, hread⟩ := bind_eq_some_iff.1 hread
  obtain ⟨body, hbody, hread⟩ := bind_eq_some_iff.1 hread
  obtain ⟨rest, hrest, hread⟩ := bind_eq_some_iff.1 hread
  cases hread
  have hrest := hf.2 last rest hrest
  rw [writtenReturns_node ht (by decide), Arms.stretches, returnsAmong_test, returnsAmong_append]
  simp only [List.map_cons, List.map_nil, List.sum_cons, List.sum_nil, ha.none (by decide),
    hb.none (by decide), hc.none (by decide), hd.none (by decide), he.2 body hbody]
  omega

theorem readsReturns_while (ht : Parsed .whileStmt (.node info [a, b, c, d, e]))
    (ha : ReturnsNode (.terminal .kwWhile) a) (hb : ReturnsNode (.terminal .lparen) b)
    (hc : ReturnsNode .expr c) (hd : ReturnsNode (.terminal .rparen) d)
    (he : ReturnsNode .block e) : ReadsReturns .whileStmt (.node info [a, b, c, d, e]) := by
  intro s hread
  obtain ⟨test, -, hread⟩ := bind_eq_some_iff.1 hread
  obtain ⟨body, hbody, hread⟩ := bind_eq_some_iff.1 hread
  cases hread
  rw [writtenReturns_node ht (by decide), Stmt.stretches, returnsAmong_test]
  simp only [List.map_cons, List.map_nil, List.sum_cons, List.sum_nil, ha.none (by decide),
    hb.none (by decide), hc.none (by decide), hd.none (by decide), he.2 body hbody]
  omega

theorem readsReturns_for (ht : Parsed .forStmt (.node info [a, b, c, d, e, f, g, h, i]))
    (ha : ReturnsNode (.terminal .kwFor) a) (hb : ReturnsNode (.terminal .lparen) b)
    (hc : ReturnsNode .decl c) (hd : ReturnsNode (.terminal .semi) d) (he : ReturnsNode .expr e)
    (hf : ReturnsNode (.terminal .semi) f) (hg : ReturnsNode .forStep g)
    (hh : ReturnsNode (.terminal .rparen) h) (hi : ReturnsNode .block i) :
    ReadsReturns .forStmt (.node info [a, b, c, d, e, f, g, h, i]) := by
  intro s hread
  obtain ⟨init, -, hread⟩ := bind_eq_some_iff.1 hread
  obtain ⟨test, -, hread⟩ := bind_eq_some_iff.1 hread
  obtain ⟨step, -, hread⟩ := bind_eq_some_iff.1 hread
  obtain ⟨body, hbody, hread⟩ := bind_eq_some_iff.1 hread
  cases hread
  have hstretches : returnsAmong (Stmt.forLoop init test step body).stretches =
      returnsAmong body.stretches := by
    rw [Stmt.stretches, ← List.singleton_append, returnsAmong_append, returnsAmong_test,
      returnsAmong_append]
    exact Nat.zero_add _
  rw [writtenReturns_node ht (by decide), hstretches]
  simp only [List.map_cons, List.map_nil, List.sum_cons, List.sum_nil, ha.none (by decide),
    hb.none (by decide), hc.none (by decide), hd.none (by decide), he.none (by decide),
    hf.none (by decide), hg.none (by decide), hh.none (by decide), hi.2 body hbody]
  omega

theorem readsReturns_do (ht : Parsed .doStmt (.node info [a, b, c, d, e, f, g]))
    (ha : ReturnsNode (.terminal .kwDo) a) (hb : ReturnsNode .block b)
    (hc : ReturnsNode (.terminal .kwUntil) c) (hd : ReturnsNode (.terminal .lparen) d)
    (he : ReturnsNode .expr e) (hf : ReturnsNode (.terminal .rparen) f)
    (hg : ReturnsNode (.terminal .newline) g) :
    ReadsReturns .doStmt (.node info [a, b, c, d, e, f, g]) := by
  intro s hread
  obtain ⟨body, hbody, hread⟩ := bind_eq_some_iff.1 hread
  obtain ⟨test, -, hread⟩ := bind_eq_some_iff.1 hread
  cases hread
  rw [writtenReturns_node ht (by decide), Stmt.stretches, returnsAmong_append, returnsAmong_test]
  simp only [List.map_cons, List.map_nil, List.sum_cons, List.sum_nil, ha.none (by decide),
    hb.2 body hbody, hc.none (by decide), hd.none (by decide), he.none (by decide),
    hf.none (by decide), hg.none (by decide), Nat.zero_add, Nat.add_zero]
  rfl

end Nodes

/-- Returns are read as they are written, at every node. -/
theorem readsReturns (t : Tree) : ∀ kind, Parsed kind t → ReadsReturns kind t := by
  -- Of the children of a node only blocks, statements and arms count; the others bear no return.
  induction t using Tree.induct with
  | node info children ih =>
    intro kind h
    have hnodes : ∀ c ∈ children, ∀ k, Parsed k c → ReturnsNode k c :=
      fun c hc k hp => ⟨hp, ih c hc k hp⟩
    cases kind with
    | block =>
      obtain ⟨p, hp, hf⟩ := h.forall₂ (List.cons_ne_nil _ _) hnodes
      fin_cases hp
      rcases hf with _ | ⟨ha, _ | ⟨hb, _ | _⟩⟩
      intro block hread
      rw [writtenReturns_node h (by decide)]
      simp only [List.map_cons, List.map_nil, List.sum_cons, List.sum_nil, ha.none (by decide),
        hb.2 block hread, Nat.zero_add, Nat.add_zero]
    | blockBody =>
      obtain ⟨p, hp, hf⟩ := h.forall₂ (List.cons_ne_nil _ _) hnodes
      fin_cases hp
      · rcases hf with _ | ⟨ha, _ | ⟨hb, _ | ⟨hc, _ | ⟨hd, _ | _⟩⟩⟩⟩
        intro block hread
        rw [writtenReturns_node h (by decide)]
        simp only [List.map_cons, List.map_nil, List.sum_cons, List.sum_nil, ha.none (by decide),
          hb.none (by decide), hc.2 block hread, hd.none (by decide), Nat.zero_add, Nat.add_zero]
      · rcases hf with _ | ⟨ha, _ | ⟨hb, _ | _⟩⟩
        exact readsReturns_line h ha hb
    | stmtList =>
      obtain ⟨p, hp, hf⟩ := h.forall₂ (List.cons_ne_nil _ _) hnodes
      fin_cases hp
      · rcases hf with _ | ⟨ha, _ | ⟨hb, _ | _⟩⟩
        exact readsReturns_stmts h ha hb
      · rcases hf with _ | ⟨ha, _ | _⟩
        intro block hread
        cases hread
        rw [writtenReturns_node h (by decide), List.map_singleton, List.sum_singleton,
          ha.none (by decide)]
        rfl
    | stmt =>
      obtain ⟨p, hp, hf⟩ := h.forall₂ (List.cons_ne_nil _ _) hnodes
      fin_cases hp
      · rcases hf with _ | ⟨ha, _ | ⟨hb, _ | _⟩⟩
        intro s hread
        obtain ⟨s, hs, rfl⟩ := map_eq_some_iff.1 hread
        rw [writtenReturns_node h (by decide)]
        simp only [List.map_cons, List.map_nil, List.sum_cons, List.sum_nil, ha.2 s hs,
          hb.none (by decide), Nat.add_zero]
        rfl
      all_goals
        rcases hf with _ | ⟨ha, _ | _⟩
        intro s hread
        rw [readStmt, ha.1.kind?_eq] at hread
        rw [writtenReturns_node h (by decide), List.map_singleton, List.sum_singleton]
        exact ha.2 s hread
    | simpleStmt =>
      obtain ⟨p, hp, hf⟩ := h.forall₂ (List.cons_ne_nil _ _) hnodes
      fin_cases hp
      · rcases hf with _ | ⟨ha, _ | _⟩
        intro s hread
        rw [readSimple, ha.1.kind?_eq] at hread
        obtain ⟨d, -, rfl⟩ := map_eq_some_iff.1 hread
        rw [writtenReturns_node h (by decide), List.map_singleton, List.sum_singleton]
        exact ha.none (by decide)
      · rcases hf with _ | ⟨ha, _ | ⟨hb, _ | _⟩⟩
        exact readsReturns_reference h ha hb
      · rcases hf with _ | ⟨ha, _ | _⟩
        intro s hread
        rw [readSimple, ha.1.kind?_eq] at hread
        obtain ⟨value, -, rfl⟩ := map_eq_some_iff.1 hread
        rw [writtenReturns_node h (by decide), List.map_singleton, List.sum_singleton]
        exact writtenReturns_returnStmt ha.1
    | ifStmt =>
      obtain ⟨p, hp, hf⟩ := h.forall₂ (List.cons_ne_nil _ _) hnodes
      fin_cases hp
      rcases hf with _ | ⟨ha, _ | ⟨hb, _ | ⟨hc, _ | ⟨hd, _ | ⟨he, _ | ⟨hf, _ | ⟨hg, _ | _⟩⟩⟩⟩⟩⟩⟩
      exact readsReturns_if h ha hb hc hd he hf hg
    | elifList =>
      obtain ⟨p, hp, hf⟩ := h.forall₂ (List.cons_ne_nil _ _) hnodes
      fin_cases hp
      · rcases hf with _ | ⟨ha, _ | ⟨hb, _ | ⟨hc, _ | ⟨hd, _ | ⟨he, _ | ⟨hf, _ | _⟩⟩⟩⟩⟩⟩
        exact readsReturns_elif h ha hb hc hd he hf
      · rcases hf with _ | ⟨ha, _ | _⟩
        intro last arms hread
        cases hread
        rw [writtenReturns_node h (by decide), List.map_singleton, List.sum_singleton,
          ha.none (by decide), Nat.zero_add]
    | elseOpt =>
      obtain ⟨p, hp, hf⟩ := h.forall₂ (List.cons_ne_nil _ _) hnodes
      fin_cases hp
      · rcases hf with _ | ⟨ha, _ | ⟨hb, _ | _⟩⟩
        intro arms hread
        obtain ⟨block, hblock, rfl⟩ := map_eq_some_iff.1 hread
        rw [writtenReturns_node h (by decide)]
        simp only [List.map_cons, List.map_nil, List.sum_cons, List.sum_nil, ha.none (by decide),
          hb.2 block hblock, Nat.zero_add, Nat.add_zero, Arms.stretches]
      · rcases hf with _ | ⟨ha, _ | _⟩
        intro arms hread
        cases hread
        rw [writtenReturns_node h (by decide), List.map_singleton, List.sum_singleton,
          ha.none (by decide)]
        rfl
    | whileStmt =>
      obtain ⟨p, hp, hf⟩ := h.forall₂ (List.cons_ne_nil _ _) hnodes
      fin_cases hp
      rcases hf with _ | ⟨ha, _ | ⟨hb, _ | ⟨hc, _ | ⟨hd, _ | ⟨he, _ | _⟩⟩⟩⟩⟩
      exact readsReturns_while h ha hb hc hd he
    | forStmt =>
      obtain ⟨p, hp, hf⟩ := h.forall₂ (List.cons_ne_nil _ _) hnodes
      fin_cases hp
      rcases hf with _ | ⟨ha, _ | ⟨hb, _ | ⟨hc, _ | ⟨hd, _ | ⟨he, _ | ⟨hf, _ | ⟨hg, _ | ⟨hh,
        _ | ⟨hi, _ | _⟩⟩⟩⟩⟩⟩⟩⟩⟩
      exact readsReturns_for h ha hb hc hd he hf hg hh hi
    | doStmt =>
      obtain ⟨p, hp, hf⟩ := h.forall₂ (List.cons_ne_nil _ _) hnodes
      fin_cases hp
      rcases hf with _ | ⟨ha, _ | ⟨hb, _ | ⟨hc, _ | ⟨hd, _ | ⟨he, _ | ⟨hf, _ | ⟨hg, _ | _⟩⟩⟩⟩⟩⟩⟩
      exact readsReturns_do h ha hb hc hd he hf hg
    | _ => trivial

section Definitions

theorem countP_of_bears {t : Tree} {ts : List Token} (hb : Bears language [t] ts) :
    ts.countP (·.kind = Terminal.kwReturn.name) = writtenReturns t := by
  have hkinds := hb.flatMap_yield
  rw [List.flatMap_singleton] at hkinds
  rw [writtenReturns, hkinds, List.count_eq_countP, List.countP_map]
  rfl

theorem writtenReturns_function {t : Tree} {f : Function} (h : Parsed .funcDef t)
    (hread : readFunction t = some f) : writtenReturns t = returnsAmong f.body.stretches := by
  obtain ⟨info, children⟩ := t
  obtain ⟨p, hp, hf⟩ := h.forall₂ (by decide) fun c _ k hc => And.intro hc (readsReturns c k hc)
  rw [NodeKind.productions, List.mem_singleton] at hp
  subst hp
  rcases hf with _ | ⟨ha, _ | ⟨hb, _ | ⟨hc, _ | ⟨hd, _ | ⟨he, _ | ⟨hf, _ | _⟩⟩⟩⟩⟩⟩
  obtain ⟨name, -, hread⟩ := bind_eq_some_iff.1 hread
  obtain ⟨params, -, hread⟩ := bind_eq_some_iff.1 hread
  obtain ⟨body, hbody, hread⟩ := bind_eq_some_iff.1 hread
  cases hread
  rw [writtenReturns_node h (by decide)]
  simp only [List.map_cons, List.map_nil, List.sum_cons, List.sum_nil,
    writtenReturns_eq_zero ha.1 (by decide), writtenReturns_eq_zero hb.1 (by decide),
    writtenReturns_eq_zero hc.1 (by decide), writtenReturns_eq_zero hd.1 (by decide),
    writtenReturns_eq_zero he.1 (by decide), hf.2 body hbody, Nat.zero_add, Nat.add_zero]

theorem definitions_function {t : Tree} {f : Function} {ts : List Token} (h : Parsed .funcDef t)
    (hread : readFunction t = some f) (hb : Bears language [t] ts) {more : List Token}
    (hmore : returnsAhead more = 0) :
    definitions (ts ++ more) =
      (f.name.text, returnsAmong f.body.stretches) :: definitions more ∧
      returnsAhead (ts ++ more) = 0 := by
  have hcount := (countP_of_bears hb).trans (writtenReturns_function h hread)
  obtain ⟨x, y, rest, rfl, hx, hliteral, hrest, -⟩ := exists_definition h hread hb
  have hne : x.kind ≠ Terminal.kwReturn.name := by
    rw [hx]
    decide
  rw [List.countP_cons_of_neg (by simpa using hne)] at hcount
  refine ⟨?_, returnsAhead_def hx⟩
  rw [List.cons_append, definitions, if_pos hx, definitions_append hrest,
    returnsAhead_append hrest, hcount, hmore, List.cons_append, List.head?_cons,
    Option.bind_some, hliteral]
  rfl

theorem definitions_functions {t : Tree} {fs : List Function} {ts : List Token}
    (h : Parsed .funcList t) (hread : readFunctions t = some fs) (hb : Bears language [t] ts)
    {more : List Token} (hmore : returnsAhead more = 0) :
    definitions (ts ++ more) =
      fs.map (fun f => (f.name.text, returnsAmong f.body.stretches)) ++ definitions more ∧
      returnsAhead (ts ++ more) = 0 := by
  induction t using Tree.induct generalizing fs ts with
  | node info children ih =>
    have hchildren := hb.children (h.isRule (by decide))
    obtain ⟨p, hp, hf⟩ := h.forall₂ (by decide) fun c hc k hk => And.intro hc hk
    fin_cases hp
    · rcases hf with _ | ⟨ha, _ | ⟨hlist, _ | _⟩⟩
      -- What follows a definition starts with another one or ends, so no return is ahead there.
      obtain ⟨f, hf, hread⟩ := bind_eq_some_iff.1 hread
      obtain ⟨rest, hrest, hread⟩ := bind_eq_some_iff.1 hread
      cases hread
      obtain ⟨us, vs, rfl, hus, hvs⟩ := hchildren.exists_append
      obtain ⟨hdefinitions, hahead⟩ := ih _ hlist.1 hlist.2 hrest hvs
      rw [List.append_assoc, List.map_cons, List.cons_append, ← hdefinitions]
      exact definitions_function ha.2 hf hus hahead
    · rcases hf with _ | ⟨ha, _ | _⟩
      cases hread
      rw [ha.2.tokens_of_epsilon hchildren]
      exact ⟨rfl, hmore⟩

theorem definitions_program {t : Tree} {fs : List Function} {tokens : List Token}
    (h : Parsed .program t) (hread : readProgram (.rooted t) = some fs)
    (hb : Bears language [t] tokens) :
    definitions tokens = fs.map fun f => (f.name.text, returnsAmong f.body.stretches) := by
  obtain ⟨info, list, last, us, x, rfl, rfl, hlist, -, hus, hx⟩ := h.exists_list hb
  have hdef : x.kind ≠ Terminal.kwDef.name := by
    rw [hx]
    decide
  have hret : x.kind ≠ Terminal.kwReturn.name := by
    rw [hx]
    decide
  have hlast : returnsAhead [x] = 0 := by
    simp [returnsAhead, hdef, hret]
  rw [(definitions_functions hlist hread hus hlast).1, definitions, if_neg hdef, definitions,
    List.append_nil]

end Definitions

end Source

namespace Language

open Grammar (language)

section Programs

variable {sets : FirstFollow} {entry source : String} {c : Compiler} {program : Program}

/-- The code of a function has the returns of its source. Where there are none and the function is
not the entry, it has one, in front of its end label, of what is assigned last. -/
theorem functions_return (hc : (Compiler.build language sets entry).result = .ok c)
    (hp : (c.compile source).result = .ok program) :
    ∃ tokens, tokenize source = .ok tokens ∧
      List.Forall₂ (fun definition slice => slice.name = definition.1 ∧
        ReturnsAs entry definition.1 definition.2 slice.code)
        (definitions tokens) program.functions := by
  obtain ⟨table, t, tokens, fs, h, rfl⟩ := exists_compiles hc hp
  refine ⟨tokens, h.tokenize_eq, ?_⟩
  rw [Source.definitions_program h.parsed h.read h.bears, List.forall₂_map_left_iff]
  refine (Machine.functions_code entry fs).imp ?_
  rintro f slice ⟨hname, p, n, l, hcode⟩
  rw [hcode]
  exact ⟨hname, returnsAs_function f entry p n l⟩

/-- A function without a return that is not the entry. -/
theorem functions_return_countLoop : ∃ c program slice before,
    (Compiler.build language (.compute language) "main").result = .ok c ∧
      (c.compile "def f(int a):\n  while (a < 3): a++\n").result = .ok program ∧
      program.functions = [slice] ∧ returnCount slice.code = 1 ∧
      slice.code = before ++ [.ret (some (lastAssigned slice.code)), .label "end_f"] := by
  obtain ⟨c, program, hc, hp⟩ := exists_compiled_countLoop "main"
  obtain ⟨tokens, htokens, hreturns⟩ := functions_return hc hp
  have hdefinitions : (tokenize "def f(int a):\n  while (a < 3): a++\n").map definitions =
      .ok [("f", 0)] := by
    rw [tokenize_eq_scanLines]
    decide +kernel
  rw [htokens] at hdefinitions
  rw [Except.ok.inj hdefinitions] at hreturns
  cases hfunctions : program.functions with
  | nil =>
    rw [hfunctions] at hreturns
    cases hreturns
  | cons slice rest =>
    rw [hfunctions, List.forall₂_cons, List.forall₂_nil_left_iff] at hreturns
    obtain ⟨⟨-, hreturns⟩, rfl⟩ := hreturns
    obtain ⟨hcount, before, hcode⟩ := hreturns.defaulted rfl (by decide)
    exact ⟨c, program, slice, before, hc, hp, hfunctions, hcount, hcode⟩

end Programs

end Language

end Lookahead
