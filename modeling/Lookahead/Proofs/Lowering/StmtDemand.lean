import Lookahead.Proofs.Lowering.ExprDemand

namespace Lookahead.Lowering

open Grammar (language)
open Lookahead.Tree (Spelled)
open Failing (lift_ok)

section Simple

variable {bare : Symbol → Bool} {t : Tree}

theorem exprDemands_of_spelled (h : Spelled bare .expr t) :
    Demands (fun _ => t.Whole language) (lowerExpr t) :=
  exprDemands t .expr h

theorem argsDemands_of_spelled (h : Spelled bare .args t) :
    Demands (fun _ => t.Whole language) (lowerArgs t) :=
  exprDemands t .args h

theorem whole_type (h : Spelled bare .type t) : t.Whole language := by
  obtain ⟨info, children⟩ := t
  obtain ⟨p, hp, hf⟩ := h.production (List.cons_ne_nil _ _) (by decide) fun c _ k hc => hc
  fin_cases hp <;> rcases hf with _ | ⟨ha, _ | _⟩ <;> simp [Tree.whole_cons, ha.whole_terminal]

theorem demands_init (h : Spelled bare .declInit t) (name : String) :
    Demands (fun _ => t.Whole language) (lowerInit name t) := by
  obtain ⟨info, children⟩ := t
  obtain ⟨p, hp, hf⟩ | ⟨-, rfl⟩ := h.forall₂ (List.cons_ne_nil _ _) fun c _ k hc => hc
  · fin_cases hp
    · rcases hf with _ | ⟨ha, _ | ⟨hb, _ | _⟩⟩
      rw [lowerInit, Tree.isEmpty_node ha.kind_eq]
      refine demands_expect rfl hb.kind_eq fun _ => ?_
      refine (exprDemands_of_spelled hb).bind fun place hb => ?_
      exact Demands.of_true (fun _ => trivial) (by simp [Tree.whole_cons, ha.whole_terminal, hb])
    · rcases hf with _ | ⟨ha, _ | _⟩
      rw [lowerInit, Tree.isEmpty_node ha.kind_eq]
      exact Demands.of_true (fun _ => trivial) (by simp [Tree.whole_cons, ha.whole_epsilon])
  · exact fun _ => ⟨"initializer", 1, rfl⟩

theorem demands_decl (h : Spelled bare .decl t) :
    Demands (fun _ => t.Whole language) (lowerDecl t) := by
  obtain ⟨info, children⟩ := t
  obtain ⟨p, hp, hf⟩ := h.production (List.cons_ne_nil _ _) (by decide) fun c _ k hc => hc
  fin_cases hp
  rcases hf with _ | ⟨ha, _ | ⟨hb, _ | ⟨hc, _ | _⟩⟩⟩
  obtain ⟨x, -, hliteral⟩ := hb.parsed_terminal.ident
  rw [lowerDecl, Tree.ident_bind rfl hb.kind_eq hliteral]
  refine demands_expect rfl hc.kind_eq fun _ => (demands_init hc x.text).imp fun _ hc => ?_
  simp [Tree.whole_cons, whole_type ha, hb.whole_terminal, hc]

theorem demands_assignOp (h : Spelled bare .assignOp t) (target : String) :
    Demands (fun _ => t.Whole language) (lowerAssignOp target t) := by
  obtain ⟨info, children⟩ := t
  obtain ⟨p, hp, hf⟩ := h.production (List.cons_ne_nil _ _) (by decide) fun c _ k hc => hc
  fin_cases hp
  · rcases hf with _ | ⟨ha, _ | ⟨hb, _ | _⟩⟩
    rw [lowerAssignOp]
    refine demands_child rfl fun _ => ?_
    rw [Tree.kind_bind ha.kind_eq]
    refine demands_expect rfl hb.kind_eq fun _ => ?_
    refine (exprDemands_of_spelled hb).bind fun place hb => ?_
    exact Demands.of_true (fun _ => trivial) (by simp [Tree.whole_cons, ha.whole_terminal, hb])
  all_goals
    rcases hf with _ | ⟨ha, _ | _⟩
    rw [lowerAssignOp]
    refine demands_child rfl fun _ => ?_
    rw [Tree.kind_bind ha.kind_eq]
    exact Demands.of_true (fun _ => trivial) (by simp [Tree.whole_cons, ha.whole_terminal])

def lowerValue (value : Tree) : Lowering Unit := do
  if ← value.isEmpty then
    emit (.ret none)
  else
    let expr ← value.expect 0 .expr "return"
    let place ← lowerExpr expr.tree
    emit (.ret (some place))
  markReturn

theorem demands_value (h : Spelled bare .returnValue t) :
    Demands (fun _ => t.Whole language) (lowerValue t) := by
  obtain ⟨info, children⟩ := t
  obtain ⟨p, hp, hf⟩ | ⟨-, rfl⟩ := h.forall₂ (List.cons_ne_nil _ _) fun c _ k hc => hc
  · fin_cases hp
    · rcases hf with _ | ⟨ha, _ | _⟩
      rw [lowerValue, Tree.isEmpty_node ha.kind_eq]
      refine demands_expect rfl ha.kind_eq fun _ => ?_
      refine (exprDemands_of_spelled ha).bind fun place ha => ?_
      exact Demands.of_true (fun _ => trivial) (by simp [Tree.whole_cons, ha])
    · rcases hf with _ | ⟨ha, _ | _⟩
      rw [lowerValue, Tree.isEmpty_node ha.kind_eq]
      exact Demands.of_true (fun _ => trivial) (by simp [Tree.whole_cons, ha.whole_epsilon])
  · exact fun _ => ⟨"return", 0, rfl⟩

theorem demands_return (h : Spelled bare .returnStmt t) :
    Demands (fun _ => t.Whole language) (lowerReturn t) := by
  obtain ⟨info, children⟩ := t
  obtain ⟨p, hp, hf⟩ := h.production (List.cons_ne_nil _ _) (by decide) fun c _ k hc => hc
  fin_cases hp
  rcases hf with _ | ⟨ha, _ | ⟨hb, _ | _⟩⟩
  rw [lowerReturn]
  refine demands_expect rfl hb.kind_eq fun _ => (demands_value hb).imp fun _ hb => ?_
  simp [Tree.whole_cons, ha.whole_terminal, hb]

theorem demands_suffix (h : Spelled bare .idSuffix t) (name : String) :
    Demands (fun _ => t.Whole language) (lowerSuffix name t) := by
  obtain ⟨info, children⟩ := t
  obtain ⟨p, hp, hf⟩ := h.production (List.cons_ne_nil _ _) (by decide) fun c _ k hc => hc
  fin_cases hp
  · rcases hf with _ | ⟨ha, _ | _⟩
    rw [lowerSuffix]
    refine demands_child rfl fun _ => ?_
    rw [Tree.kind_bind ha.kind_eq]
    refine (demands_assignOp ha name).imp fun _ ha => ?_
    simp [Tree.whole_cons, ha]
  · rcases hf with _ | ⟨ha, _ | ⟨hb, _ | ⟨hc, _ | _⟩⟩⟩
    rw [lowerSuffix]
    refine demands_child rfl fun _ => ?_
    rw [Tree.kind_bind ha.kind_eq]
    refine demands_expect rfl hb.kind_eq fun _ => ?_
    refine (argsDemands_of_spelled hb).bind fun places hb => demands_emitParams.skip fun _ => ?_
    exact Demands.of_true (fun _ => trivial)
      (by simp [Tree.whole_cons, ha.whole_terminal, hc.whole_terminal, hb])

theorem demands_simple (h : Spelled bare .simpleStmt t) :
    Demands (fun _ => t.Whole language) (lowerSimpleStmt t) := by
  obtain ⟨info, children⟩ := t
  obtain ⟨p, hp, hf⟩ := h.production (List.cons_ne_nil _ _) (by decide) fun c _ k hc => hc
  fin_cases hp
  · rcases hf with _ | ⟨ha, _ | _⟩
    rw [lowerSimpleStmt]
    refine demands_child rfl fun _ => ?_
    rw [Tree.kind_bind ha.kind_eq]
    refine (demands_decl ha).imp fun _ ha => ?_
    simp [Tree.whole_cons, ha]
  · rcases hf with _ | ⟨ha, _ | ⟨hb, _ | _⟩⟩
    obtain ⟨x, -, hliteral⟩ := ha.parsed_terminal.ident
    rw [lowerSimpleStmt]
    refine demands_child rfl fun _ => ?_
    rw [Tree.kind_bind ha.kind_eq, hliteral, lift_ok, pure_bind]
    refine demands_expect rfl hb.kind_eq fun _ => (demands_suffix hb x.text).imp fun _ hb => ?_
    simp [Tree.whole_cons, ha.whole_terminal, hb]
  · rcases hf with _ | ⟨ha, _ | _⟩
    rw [lowerSimpleStmt]
    refine demands_child rfl fun _ => ?_
    rw [Tree.kind_bind ha.kind_eq]
    refine (demands_return ha).imp fun _ ha => ?_
    simp [Tree.whole_cons, ha]

end Simple

section Arms

theorem demands_test {condition : Tree}
    (h : Demands (fun _ => condition.Whole language) (lowerExpr condition)) (target : String) :
    Demands (fun _ => condition.Whole language) (lowerTest condition target) := by
  rw [lowerTest]
  refine Demands.withComponent (h.bind fun place hwhole => ?_) .condition
  exact Demands.of_true (fun _ => trivial) hwhole

/-- What lowering asks of a node with a condition and a block where an arm has them. -/
structure ArmDemands (K : Prop) (n : Tree) : Prop where
  condition : ∀ c, n.children[2]? = some c →
    c.kind = .ok .expr ∧ Demands (fun _ => c.Whole language) (lowerExpr c)
  block : ∀ b, n.children[4]? = some b →
    b.kind = .ok .block ∧ Demands (fun _ => b.Whole language) (lowerBlock b)
  whole : ∀ c b, n.children[2]? = some c → n.children[4]? = some b → c.Whole language →
    b.Whole language → K

structure ArmFound (K : Prop) (condition block : Tree) : Prop where
  test : Demands (fun _ => condition.Whole language) (lowerExpr condition)
  body : Demands (fun _ => block.Whole language) (lowerBlock block)
  whole : condition.Whole language → block.Whole language → K

theorem verdict_armAt {s t : Tree} (hlt : sizeOf s < sizeOf t) {link : s.Within} {K : Prop}
    (h : ArmDemands K link.tree) :
    Verdict (fun arm => ArmFound K arm.1.tree arm.2.tree) (armAt hlt link) := by
  -- The node may be the childless one that ends the list, so neither child need be there.
  rw [armAt]
  refine (verdict_expect fun c hc => (h.condition c hc).1).bind fun c hc => ?_
  refine (verdict_expect fun b hb => (h.block b hb).1).bind fun b hb => ?_
  exact ⟨(h.condition _ hc).2, (h.block _ hb).2, h.whole _ _ hc hb⟩

structure ArmsFound (K : Prop) (arms : List (Tree × Tree)) : Prop where
  test : ∀ arm ∈ arms, Demands (fun _ => arm.1.Whole language) (lowerExpr arm.1)
  body : ∀ arm ∈ arms, Demands (fun _ => arm.2.Whole language) (lowerBlock arm.2)
  whole : (∀ arm ∈ arms, arm.1.Whole language ∧ arm.2.Whole language) → K

theorem ArmFound.cons {K K' : Prop} {arm : Tree × Tree} {arms : List (Tree × Tree)}
    (h : ArmFound K arm.1 arm.2) (h' : ArmsFound K' arms) : ArmsFound (K ∧ K') (arm :: arms) where
  test := List.forall_mem_cons.2 ⟨h.test, h'.test⟩
  body := List.forall_mem_cons.2 ⟨h.body, h'.body⟩
  whole hall := by
    obtain ⟨harm, hall⟩ := List.forall_mem_cons.1 hall
    exact ⟨h.whole harm.1 harm.2, h'.whole hall⟩

theorem ArmsFound.imp {K K' : Prop} {arms : List (Tree × Tree)} (h : ArmsFound K arms)
    (himp : K → K') : ArmsFound K' arms :=
  { h with whole := fun hall => himp (h.whole hall) }

theorem armsFound_of_forall₂ {s t : Tree} {links : List s.Within} {more : List (t.Below × t.Below)}
    (h : List.Forall₂ (fun link arm => ArmFound link.tree.WholeFront arm.1.tree arm.2.tree)
      links more) :
    ArmsFound (∀ n ∈ links.map (·.tree), n.WholeFront)
      (more.map fun arm => (arm.1.tree, arm.2.tree)) := by
  induction h with
  | nil =>
    exact ⟨fun _ h => absurd h List.not_mem_nil, fun _ h => absurd h List.not_mem_nil,
      fun _ _ h => absurd h List.not_mem_nil⟩
  | cons hlink _ ih =>
    rw [List.map_cons, List.map_cons]
    exact (hlink.cons ih).imp List.forall_mem_cons.2

theorem verdict_arms {bare : Symbol → Bool} {info : Node} {a b c d e f g : Tree}
    (hc : Spelled bare .expr c) (he : Spelled bare .block e)
    (hblock : Demands (fun _ => e.Whole language) (lowerBlock e)) (hf : Spelled bare .elifList f)
    (htail : TailDemands ArmDemands f) :
    Verdict (fun found => ArmsFound ((c.Whole language ∧ e.Whole language) ∧ f.Whole language)
        (found.map fun arm => (arm.1.tree, arm.2.tree)))
      (arms (.node info [a, b, c, d, e, f, g])) := by
  obtain ⟨nodes, ⟨links, hlinks, rfl⟩, hasked, hwhole⟩ := htail
  rw [arms]
  refine verdict_expect_bind rfl hc.kind_eq fun _ => ?_
  refine verdict_expect_bind rfl he.kind_eq fun _ => ?_
  refine verdict_expect_bind rfl hf.kind_eq fun hlt => ?_
  rw [hlinks]
  have hmore : Verdict _ (links.mapM (armAt hlt)) :=
    verdict_mapM fun link hlink => verdict_armAt hlt (hasked _ (List.mem_map_of_mem hlink))
  refine hmore.bind fun more hmore => ?_
  exact (ArmFound.cons ⟨exprDemands_of_spelled hc, hblock, .intro⟩
    (armsFound_of_forall₂ hmore)).imp (And.imp_right hwhole)

/-- What lowering asks of a node over the block without a condition, or over nothing. -/
structure ElseDemands (t : Tree) : Prop where
  isEmpty : ∃ empty, t.isEmpty = .ok empty ∧ (empty = true → t.Whole language)
  block : ∀ b, t.children[1]? = some b →
    b.kind = .ok .block ∧ Demands (fun _ => t.Whole language) (lowerBlock b)

def ElseFound (K : Prop) : Option Tree → Prop
  | none => K
  | some block => Demands (fun _ => K) (lowerBlock block)

theorem verdict_elseBlock {bare : Symbol → Bool} {info : Node} {a b c d e f g : Tree}
    (hg : Spelled bare .elseOpt g) (h : ElseDemands g) :
    Verdict (fun found => ElseFound (g.Whole language) (found.map (·.tree)))
      (elseBlock? (.node info [a, b, c, d, e, f, g])) := by
  obtain ⟨empty, hempty, hwhole⟩ := h.isEmpty
  rw [elseBlock?]
  refine verdict_expect_bind rfl hg.kind_eq fun hlt => ?_
  rw [hempty]
  cases empty with
  | true => exact hwhole rfl
  | false =>
    refine (verdict_expect fun b hb => (h.block b hb).1).bind fun b hb => ?_
    exact (h.block _ hb).2

theorem demands_emitArm {condition : Tree} {body : Lowering Unit} {K : Prop}
    (htest : Demands (fun _ => condition.Whole language) (lowerExpr condition))
    (hbody : Demands (fun _ => K) body) (isLast : Bool) (finish : String) :
    Demands (fun _ => condition.Whole language ∧ K) (emitArm isLast finish condition body) := by
  cases isLast
  all_goals
    refine Demands.skip (fun _ => trivial) fun next => ?_
    refine Demands.bind ((demands_test htest next).withLine condition) fun _ hcondition => ?_
    refine Demands.bind (hbody.withComponent .thenBranch) fun _ hK => ?_
    exact Demands.of_true (fun _ => trivial) ⟨hcondition, hK⟩

/-- All arms in order. -/
theorem demands_arms {t : Tree} {found : List (t.Below × t.Below)} {K : Prop}
    (h : ArmsFound K (found.map fun arm => (arm.1.tree, arm.2.tree)))
    (isLast : (t.Below × t.Below) × Nat → Bool) (finish : String) :
    Demands (fun _ => K) (found.zipIdx.forM fun arm =>
      emitArm (isLast arm) finish arm.1.1.tree (lowerBlock arm.1.2.tree)) := by
  have hmem {arm : (t.Below × t.Below) × Nat} (harm : arm ∈ found.zipIdx) :
      (arm.1.1.tree, arm.1.2.tree) ∈ found.map fun arm => (arm.1.tree, arm.2.tree) :=
    List.mem_map_of_mem (f := fun arm => (arm.1.tree, arm.2.tree)) (List.fst_mem_of_mem_zipIdx harm)
  refine (demands_forM fun arm harm => demands_emitArm (h.test _ (hmem harm))
    (h.body _ (hmem harm)) (isLast arm) finish).imp fun _ hwhole => h.whole ?_
  intro pair hpair
  obtain ⟨arm, harm, rfl⟩ := List.mem_map.1 hpair
  rw [← List.zipIdx_map_fst 0 found] at harm
  obtain ⟨entry, hentry, rfl⟩ := List.mem_map.1 harm
  exact hwhole entry hentry

end Arms

def StmtDemands : NodeKind → Tree → Prop
  | .block, t => Demands (fun _ => t.Whole language) (lowerBlock t)
  | .blockBody, t => Demands (fun _ => t.Whole language) (lowerBody t)
  | .stmtList, t => TailDemands (fun K n => Demands (fun _ => K) (lowerItem n)) t
  | .stmt, t => Demands (fun _ => t.Whole language) (lowerStmt t)
  | .ifStmt, t => Demands (fun _ => t.Whole language) (lowerIf t)
  | .elifList, t => TailDemands ArmDemands t
  | .elseOpt, t => ElseDemands t
  | .whileStmt, t => Demands (fun _ => t.Whole language) (lowerWhile t)
  | .forStmt, t => Demands (fun _ => t.Whole language) (lowerFor t)
  | .doStmt, t => Demands (fun _ => t.Whole language) (lowerDo t)
  | _, _ => True

section Statements

variable {bare : Symbol → Bool} {info : Node} {a b c d e f g h i : Tree}

abbrev StmtNodeDemands (bare : Symbol → Bool) (kind : NodeKind) (t : Tree) : Prop :=
  t.Spelled bare kind ∧ StmtDemands kind t

theorem stmtDemands_block (ha : Spelled bare (.terminal .colon) a)
    (hb : StmtNodeDemands bare .blockBody b) : StmtDemands .block (.node info [a, b]) := by
  change Demands _ (lowerBlock _)
  rw [lowerBlock]
  refine demands_expect rfl hb.1.kind_eq fun _ => Demands.imp hb.2 fun _ hb => ?_
  simp [Tree.whole_cons, ha.whole_terminal, hb]

theorem stmtDemands_body_list (ha : Spelled bare (.terminal .newline) a)
    (hb : Spelled bare (.terminal .blockBegin) b) (hc : StmtNodeDemands bare .stmtList c)
    (hd : Spelled bare (.terminal .blockEnd) d) :
    StmtDemands .blockBody (.node info [a, b, c, d]) := by
  change Demands _ (lowerBody _)
  rw [lowerBody]
  refine demands_child rfl fun _ => ?_
  rw [Tree.kind_bind ha.kind_eq]
  refine demands_expect rfl hc.1.kind_eq fun _ => (TailDemands.forM hc.2).imp fun _ hc => ?_
  simp [Tree.whole_cons, ha.whole_terminal, hb.whole_terminal, hd.whole_terminal, hc]

theorem stmtDemands_body_simple (ha : Spelled bare .simpleStmt a)
    (hb : Spelled bare (.terminal .newline) b) : StmtDemands .blockBody (.node info [a, b]) := by
  change Demands _ (lowerBody _)
  rw [lowerBody]
  refine demands_child rfl fun _ => ?_
  rw [Tree.kind_bind ha.kind_eq]
  refine ((demands_simple ha).withLine a).imp fun _ ha => ?_
  simp [Tree.whole_cons, hb.whole_terminal, ha]

theorem stmtDemands_list_cons (hp : Spelled bare .stmtList (.node info [a, b]))
    (ha : StmtNodeDemands bare .stmt a) (hb : StmtNodeDemands bare .stmtList b) :
    StmtDemands .stmtList (.node info [a, b]) := by
  refine tailDemands_cons hp ha.1 (fun h => by cases h) hb.1 hb.2 rfl ?_
  refine demands_expect rfl ha.1.kind_eq fun _ => (Demands.withLine ha.2 a).imp fun _ ha => ?_
  exact ⟨List.cons_ne_nil _ _, by simp [Tree.children, ha]⟩

theorem stmtDemands_simple (ha : Spelled bare .simpleStmt a)
    (hb : Spelled bare (.terminal .newline) b) : StmtDemands .stmt (.node info [a, b]) := by
  change Demands _ (lowerStmt _)
  rw [lowerStmt]
  refine demands_child rfl fun _ => ?_
  rw [Tree.kind_bind ha.kind_eq]
  refine (demands_simple ha).imp fun _ ha => ?_
  simp [Tree.whole_cons, hb.whole_terminal, ha]

theorem stmtDemands_if (ha : Spelled bare (.terminal .kwIf) a)
    (hb : Spelled bare (.terminal .lparen) b) (hc : Spelled bare .expr c)
    (hd : Spelled bare (.terminal .rparen) d) (he : StmtNodeDemands bare .block e)
    (hf : StmtNodeDemands bare .elifList f) (hg : StmtNodeDemands bare .elseOpt g) :
    StmtDemands .ifStmt (.node info [a, b, c, d, e, f, g]) := by
  change Demands _ (lowerIf _)
  rw [lowerIf]
  refine Demands.skip (fun _ => trivial) fun finish => ?_
  -- All arms and the last block are looked up before any code is emitted for them.
  refine (verdict_arms hc he.1 he.2 hf.1 hf.2).demands.bind fun found hfound => ?_
  refine (verdict_elseBlock hg.1 hg.2).demands.bind fun otherwise hotherwise => ?_
  refine (demands_arms hfound _ finish).bind fun _ harms => ?_
  have hwhole (hg : g.Whole language) : Tree.Whole language (.node info [a, b, c, d, e, f, g]) := by
    simp [Tree.whole_cons, ha.whole_terminal, hb.whole_terminal, hd.whole_terminal, harms, hg]
  cases otherwise with
  | none => exact Demands.of_true (fun _ => trivial) (hwhole hotherwise)
  | some block =>
    refine Demands.bind (Demands.withComponent hotherwise .elseBranch) fun _ hg => ?_
    exact Demands.of_true (fun _ => trivial) (hwhole hg)

theorem stmtDemands_elif_cons (hp : Spelled bare .elifList (.node info [a, b, c, d, e, f]))
    (ha : Spelled bare (.terminal .kwElif) a) (hb : Spelled bare (.terminal .lparen) b)
    (hc : Spelled bare .expr c) (hd : Spelled bare (.terminal .rparen) d)
    (he : StmtNodeDemands bare .block e) (hf : StmtNodeDemands bare .elifList f) :
    StmtDemands .elifList (.node info [a, b, c, d, e, f]) := by
  refine tailDemands_cons hp ha (fun h => by cases h) hf.1 hf.2 rfl ⟨?_, ?_, ?_⟩
  · rintro _ ⟨⟩
    exact ⟨hc.kind_eq, exprDemands_of_spelled hc⟩
  · rintro _ ⟨⟩
    exact ⟨he.1.kind_eq, he.2⟩
  · rintro _ _ ⟨⟩ ⟨⟩ hc he
    exact ⟨List.cons_ne_nil _ _, by
      simp [Tree.children, ha.whole_terminal, hb.whole_terminal, hd.whole_terminal, hc, he]⟩

theorem stmtDemands_else_nil (ha : Spelled bare .epsilon a) :
    StmtDemands .elseOpt (.node info [a]) := by
  refine ⟨⟨true, Tree.isEmpty_node ha.kind_eq, fun _ => ?_⟩, fun b hb => by cases hb⟩
  simp [Tree.whole_cons, ha.whole_epsilon]

theorem stmtDemands_else (ha : Spelled bare (.terminal .kwElse) a)
    (hb : StmtNodeDemands bare .block b) : StmtDemands .elseOpt (.node info [a, b]) := by
  refine ⟨⟨false, Tree.isEmpty_node ha.kind_eq, fun h => by cases h⟩, ?_⟩
  rintro _ ⟨⟩
  refine ⟨hb.1.kind_eq, Demands.imp hb.2 fun _ hb => ?_⟩
  simp [Tree.whole_cons, ha.whole_terminal, hb]

theorem stmtDemands_else_childless : StmtDemands .elseOpt (.node info []) :=
  ⟨⟨false, rfl, fun h => by cases h⟩, fun b hb => by cases hb⟩

theorem stmtDemands_while (ha : Spelled bare (.terminal .kwWhile) a)
    (hb : Spelled bare (.terminal .lparen) b) (hc : Spelled bare .expr c)
    (hd : Spelled bare (.terminal .rparen) d) (he : StmtNodeDemands bare .block e) :
    StmtDemands .whileStmt (.node info [a, b, c, d, e]) := by
  change Demands _ (lowerWhile _)
  rw [lowerWhile]
  refine demands_expect rfl hc.kind_eq fun _ => demands_expect rfl he.1.kind_eq fun _ => ?_
  refine Demands.skip (fun _ => trivial) fun start => ?_
  refine Demands.skip (fun _ => trivial) fun finish => ?_
  refine Demands.skip (fun _ => trivial) fun _ => ?_
  refine (demands_test (exprDemands_of_spelled hc) finish).bind fun _ hc => ?_
  refine Demands.bind (Demands.withComponent he.2 .loopBody) fun _ he => ?_
  exact Demands.of_true (fun _ => trivial) (by
    simp [Tree.whole_cons, ha.whole_terminal, hb.whole_terminal, hd.whole_terminal, hc, he])

theorem stmtDemands_do (ha : Spelled bare (.terminal .kwDo) a)
    (hb : StmtNodeDemands bare .block b) (hc : Spelled bare (.terminal .kwUntil) c)
    (hd : Spelled bare (.terminal .lparen) d) (he : Spelled bare .expr e)
    (hf : Spelled bare (.terminal .rparen) f) (hg : Spelled bare (.terminal .newline) g) :
    StmtDemands .doStmt (.node info [a, b, c, d, e, f, g]) := by
  change Demands _ (lowerDo _)
  rw [lowerDo]
  refine demands_expect rfl hb.1.kind_eq fun _ => demands_expect rfl he.kind_eq fun _ => ?_
  refine Demands.skip (fun _ => trivial) fun start => ?_
  refine Demands.skip (fun _ => trivial) fun _ => ?_
  refine Demands.bind (Demands.withComponent hb.2 .loopBody) fun _ hb => ?_
  refine ((demands_test (exprDemands_of_spelled he) start).withLine e).imp fun _ he => ?_
  simp [Tree.whole_cons, ha.whole_terminal, hc.whole_terminal, hd.whole_terminal,
    hf.whole_terminal, hg.whole_terminal, hb, he]

def lowerStep (step : Tree) : Lowering Unit := do
  let target ← step.ident 0 "for step"
  let suffix ← step.expect 1 .assignOp "for step"
  lowerAssignOp target suffix.tree

theorem demands_step {t : Tree} (ht : Spelled bare .forStep t) :
    Demands (fun _ => t.Whole language) (lowerStep t) := by
  obtain ⟨info, children⟩ := t
  obtain ⟨p, hp, hf⟩ := ht.production (List.cons_ne_nil _ _) (by decide) fun c _ k hc => hc
  fin_cases hp
  rcases hf with _ | ⟨ha, _ | ⟨hb, _ | _⟩⟩
  obtain ⟨x, -, hliteral⟩ := ha.parsed_terminal.ident
  rw [lowerStep, Tree.ident_bind rfl ha.kind_eq hliteral]
  refine demands_expect rfl hb.kind_eq fun _ => (demands_assignOp hb x.text).imp fun _ hb => ?_
  simp [Tree.whole_cons, ha.whole_terminal, hb]

theorem stmtDemands_for (ha : Spelled bare (.terminal .kwFor) a)
    (hb : Spelled bare (.terminal .lparen) b) (hc : Spelled bare .decl c)
    (hd : Spelled bare (.terminal .semi) d) (he : Spelled bare .expr e)
    (hf : Spelled bare (.terminal .semi) f) (hg : Spelled bare .forStep g)
    (hh : Spelled bare (.terminal .rparen) h) (hi : StmtNodeDemands bare .block i) :
    StmtDemands .forStmt (.node info [a, b, c, d, e, f, g, h, i]) := by
  change Demands _ (lowerFor _)
  rw [lowerFor]
  refine demands_expect rfl hc.kind_eq fun _ => demands_expect rfl he.kind_eq fun _ => ?_
  refine demands_expect rfl hg.kind_eq fun _ => demands_expect rfl hi.1.kind_eq fun _ => ?_
  refine (demands_decl hc).bind fun _ hc => ?_
  refine Demands.skip (fun _ => trivial) fun start => ?_
  refine Demands.skip (fun _ => trivial) fun finish => ?_
  refine Demands.skip (fun _ => trivial) fun _ => ?_
  refine (demands_test (exprDemands_of_spelled he) finish).bind fun _ he => ?_
  have hbody : Demands (fun _ => i.Whole language ∧ g.Whole language)
      (lowerBlock i >>= fun _ => lowerStep g) :=
    Demands.bind hi.2 fun _ hi => (demands_step hg).imp fun _ hg => ⟨hi, hg⟩
  refine Demands.bind (hbody.withComponent .loopBody) fun _ hbody => ?_
  exact Demands.of_true (fun _ => trivial) (by
    simp [Tree.whole_cons, ha.whole_terminal, hb.whole_terminal, hd.whole_terminal,
      hf.whole_terminal, hh.whole_terminal, hc, he, hbody])

end Statements

/-- Every node of a statement is whole if it is lowered, and lacks a child if it is not. -/
theorem stmtDemands {bare : Symbol → Bool} (t : Tree) :
    ∀ kind, Spelled bare kind t → StmtDemands kind t := by
  induction t using Tree.induct with
  | node info children ih =>
    intro kind h
    have hnodes : ∀ c ∈ children, ∀ k, Spelled bare k c → StmtNodeDemands bare k c :=
      fun c hc k hp => ⟨hp, ih c hc k hp⟩
    cases kind with
    | block =>
      obtain ⟨p, hp, hf⟩ := h.production (List.cons_ne_nil _ _) (by decide) hnodes
      fin_cases hp
      rcases hf with _ | ⟨ha, _ | ⟨hb, _ | _⟩⟩
      exact stmtDemands_block ha.1 hb
    | blockBody =>
      obtain ⟨p, hp, hf⟩ := h.production (List.cons_ne_nil _ _) (by decide) hnodes
      fin_cases hp
      · rcases hf with _ | ⟨ha, _ | ⟨hb, _ | ⟨hc, _ | ⟨hd, _ | _⟩⟩⟩⟩
        exact stmtDemands_body_list ha.1 hb.1 hc hd.1
      · rcases hf with _ | ⟨ha, _ | ⟨hb, _ | _⟩⟩
        exact stmtDemands_body_simple ha.1 hb.1
    | stmtList =>
      obtain ⟨p, hp, hf⟩ | ⟨-, rfl⟩ := h.forall₂ (List.cons_ne_nil _ _) hnodes
      · fin_cases hp
        · rcases hf with _ | ⟨ha, _ | ⟨hb, _ | _⟩⟩
          exact stmtDemands_list_cons h ha hb
        · rcases hf with _ | ⟨ha, _ | _⟩
          exact tailDemands_nil h ha.1
      · exact tailDemands_childless h fun _ => demands_expect_nil
    | stmt =>
      obtain ⟨p, hp, hf⟩ := h.production (List.cons_ne_nil _ _) (by decide) hnodes
      fin_cases hp
      · rcases hf with _ | ⟨ha, _ | ⟨hb, _ | _⟩⟩
        exact stmtDemands_simple ha.1 hb.1
      all_goals
        rcases hf with _ | ⟨ha, _ | _⟩
        change Demands _ (lowerStmt _)
        rw [lowerStmt]
        refine demands_child rfl fun _ => ?_
        rw [Tree.kind_bind ha.1.kind_eq]
        refine Demands.imp ha.2 fun _ ha => ?_
        simp [Tree.whole_cons, ha]
    | ifStmt =>
      obtain ⟨p, hp, hf⟩ := h.production (List.cons_ne_nil _ _) (by decide) hnodes
      fin_cases hp
      rcases hf with
        _ | ⟨ha, _ | ⟨hb, _ | ⟨hc, _ | ⟨hd, _ | ⟨he, _ | ⟨hf, _ | ⟨hg, _ | _⟩⟩⟩⟩⟩⟩⟩
      exact stmtDemands_if ha.1 hb.1 hc.1 hd.1 he hf hg
    | elifList =>
      obtain ⟨p, hp, hf⟩ | ⟨-, rfl⟩ := h.forall₂ (List.cons_ne_nil _ _) hnodes
      · fin_cases hp
        · rcases hf with
            _ | ⟨ha, _ | ⟨hb, _ | ⟨hc, _ | ⟨hd, _ | ⟨he, _ | ⟨hf, _ | _⟩⟩⟩⟩⟩⟩
          exact stmtDemands_elif_cons h ha.1 hb.1 hc.1 hd.1 he hf
        · rcases hf with _ | ⟨ha, _ | _⟩
          exact tailDemands_nil h ha.1
      · exact tailDemands_childless h fun _ =>
          ⟨fun _ hc => (by cases hc), fun _ hb => (by cases hb), fun _ _ hc => (by cases hc)⟩
    | elseOpt =>
      obtain ⟨p, hp, hf⟩ | ⟨-, rfl⟩ := h.forall₂ (List.cons_ne_nil _ _) hnodes
      · fin_cases hp
        · rcases hf with _ | ⟨ha, _ | ⟨hb, _ | _⟩⟩
          exact stmtDemands_else ha.1 hb
        · rcases hf with _ | ⟨ha, _ | _⟩
          exact stmtDemands_else_nil ha.1
      · exact stmtDemands_else_childless
    | whileStmt =>
      obtain ⟨p, hp, hf⟩ := h.production (List.cons_ne_nil _ _) (by decide) hnodes
      fin_cases hp
      rcases hf with _ | ⟨ha, _ | ⟨hb, _ | ⟨hc, _ | ⟨hd, _ | ⟨he, _ | _⟩⟩⟩⟩⟩
      exact stmtDemands_while ha.1 hb.1 hc.1 hd.1 he
    | forStmt =>
      obtain ⟨p, hp, hf⟩ := h.production (List.cons_ne_nil _ _) (by decide) hnodes
      fin_cases hp
      rcases hf with _ | ⟨ha, _ | ⟨hb, _ | ⟨hc, _ | ⟨hd, _ | ⟨he, _ | ⟨hf, _ | ⟨hg, _ |
        ⟨hh, _ | ⟨hi, _ | _⟩⟩⟩⟩⟩⟩⟩⟩⟩
      exact stmtDemands_for ha.1 hb.1 hc.1 hd.1 he.1 hf.1 hg.1 hh.1 hi
    | doStmt =>
      obtain ⟨p, hp, hf⟩ := h.production (List.cons_ne_nil _ _) (by decide) hnodes
      fin_cases hp
      rcases hf with
        _ | ⟨ha, _ | ⟨hb, _ | ⟨hc, _ | ⟨hd, _ | ⟨he, _ | ⟨hf, _ | ⟨hg, _ | _⟩⟩⟩⟩⟩⟩⟩
      exact stmtDemands_do ha.1 hb hc.1 hd.1 he.1 hf.1 hg.1
    | _ => trivial

section Functions

variable {bare : Symbol → Bool} {t : Tree}

theorem whole_param (h : Spelled bare .param t) : t.Whole language := by
  obtain ⟨info, children⟩ := t
  obtain ⟨p, hp, hf⟩ := h.production (List.cons_ne_nil _ _) (by decide) fun c _ k hc => hc
  fin_cases hp
  rcases hf with _ | ⟨ha, _ | ⟨hb, _ | _⟩⟩
  simp [Tree.whole_cons, whole_type ha, hb.whole_terminal]

theorem tailDemands_params (t : Tree) (h : Spelled bare .paramTail t) :
    TailDemands (fun K n => Verdict (fun _ => K) (paramAt n)) t := by
  induction t using Tree.induct with
  | node info children ih =>
    obtain ⟨p, hp, hf⟩ | ⟨-, rfl⟩ :=
      h.forall₂ (List.cons_ne_nil _ _) fun c hc k hk => And.intro hc hk
    · fin_cases hp
      · rcases hf with _ | ⟨ha, _ | ⟨hb, _ | ⟨hc, _ | _⟩⟩⟩
        obtain ⟨x, -, hx⟩ := paramLowered (hb.2.parsed (whole_param hb.2)) "parameter"
        refine tailDemands_cons h ha.2 (fun h => by cases h) hc.2 (ih _ hc.1 hc.2) rfl ?_
        refine verdict_expect_bind rfl hb.2.kind_eq fun _ => ?_
        dsimp only
        rw [hx]
        exact ⟨List.cons_ne_nil _ _, by
          simp [Tree.children, ha.2.whole_terminal, whole_param hb.2]⟩
      · rcases hf with _ | ⟨ha, _ | _⟩
        exact tailDemands_nil h ha.2
    · exact tailDemands_childless h fun _ => ⟨"parameter list", 1, rfl⟩

theorem verdict_params (h : Spelled bare .params t) :
    Verdict (fun _ => t.Whole language) (paramNames t) := by
  obtain ⟨info, children⟩ := t
  obtain ⟨p, hp, hf⟩ | ⟨-, rfl⟩ := h.forall₂ (List.cons_ne_nil _ _) fun c _ k hc => hc
  · fin_cases hp
    · rcases hf with _ | ⟨ha, _ | ⟨hb, _ | _⟩⟩
      obtain ⟨x, -, hx⟩ := paramLowered (ha.parsed (whole_param ha)) "parameter"
      obtain ⟨nodes, ⟨links, hlinks, rfl⟩, hasked, hwhole⟩ := tailDemands_params _ hb
      rw [paramNames, Tree.isEmpty_node ha.kind_eq]
      refine verdict_expect_bind rfl ha.kind_eq fun _ => ?_
      dsimp only
      rw [hx]
      refine verdict_expect_bind rfl hb.kind_eq fun _ => ?_
      dsimp only
      rw [hlinks]
      have hrest : Verdict _ (links.mapM fun link => paramAt link.tree) :=
        verdict_mapM fun link hlink => hasked _ (List.mem_map_of_mem hlink)
      refine hrest.bind fun rest hrest => ?_
      have hfronts := ((List.forall₂_and_left (R := fun _ _ => True) _ _).1
        (hrest.imp fun _ _ h => ⟨h, trivial⟩)).1
      exact Tree.whole_cons.2 (by simp [whole_param ha, hwhole (List.forall_mem_map.2 hfronts)])
    · rcases hf with _ | ⟨ha, _ | _⟩
      rw [paramNames, Tree.isEmpty_node ha.kind_eq]
      exact Tree.whole_cons.2 (by simp [ha.whole_epsilon])
  · exact ⟨"parameter list", 0, rfl⟩

theorem demands_function (entry : String) (h : Spelled bare .funcDef t) :
    Demands (fun _ => t.Whole language) (lowerFunction entry t) := by
  obtain ⟨info, children⟩ := t
  obtain ⟨p, hp, hf⟩ := h.production (List.cons_ne_nil _ _) (by decide) fun c _ k hc => hc
  fin_cases hp
  rcases hf with _ | ⟨ha, _ | ⟨hb, _ | ⟨hc, _ | ⟨hd, _ | ⟨he, _ | ⟨hf, _ | _⟩⟩⟩⟩⟩⟩
  obtain ⟨x, -, hliteral⟩ := hb.parsed_terminal.ident
  rw [lowerFunction, Tree.ident_bind rfl hb.kind_eq hliteral]
  refine Demands.skip (fun _ => trivial) fun _ => ?_
  refine Demands.skip (fun _ => trivial) fun s => ?_
  refine Demands.skip (fun _ => trivial) fun _ => ?_
  refine Demands.skip (fun _ => trivial) fun _ => ?_
  refine demands_expect rfl hd.kind_eq fun _ => ?_
  refine (verdict_params hd).demands.bind fun names hd => ?_
  refine Demands.skip (demands_forM_true fun _ _ => trivial) fun _ => ?_
  refine demands_expect rfl hf.kind_eq fun _ => ?_
  refine Demands.bind (stmtDemands _ .block hf) fun _ hf => ?_
  refine Demands.of_true ?_ (by simp [Tree.whole_cons, ha.whole_terminal, hb.whole_terminal,
    hc.whole_terminal, he.whole_terminal, hd, hf])
  refine Demands.skip (fun _ => trivial) fun s => ?_
  refine Demands.skip (fun _ => trivial) fun _ => ?_
  split <;> exact fun _ => trivial

theorem tailDemands_functions (entry : String) (t : Tree) (h : Spelled bare .funcList t) :
    TailDemands (fun K n => Demands (fun _ => K) (lowerDefinition entry n)) t := by
  induction t using Tree.induct with
  | node info children ih =>
    obtain ⟨p, hp, hf⟩ | ⟨-, rfl⟩ :=
      h.forall₂ (List.cons_ne_nil _ _) fun c hc k hk => And.intro hc hk
    · fin_cases hp
      · rcases hf with _ | ⟨ha, _ | ⟨hb, _ | _⟩⟩
        refine tailDemands_cons h ha.2 (fun h => by cases h) hb.2 (ih _ hb.1 hb.2) rfl ?_
        refine demands_expect rfl ha.2.kind_eq fun _ => ?_
        refine ((demands_function entry ha.2).withLine _).imp fun _ ha => ?_
        exact ⟨List.cons_ne_nil _ _, by simp [Tree.children, ha]⟩
      · rcases hf with _ | ⟨ha, _ | _⟩
        exact tailDemands_nil h ha.2
    · exact tailDemands_childless h fun _ => demands_expect_nil

theorem demands_program (entry : String) (h : Spelled bare .program t) :
    Demands (fun _ => t.Whole language) (lowerProgram entry (.rooted t)) := by
  obtain ⟨info, children⟩ := t
  obtain ⟨p, hp, hf⟩ := h.production (List.cons_ne_nil _ _) (by decide) fun c _ k hc => hc
  fin_cases hp
  rcases hf with _ | ⟨ha, _ | ⟨hb, _ | _⟩⟩
  rw [lowerProgram, Tree.rooted]
  refine demands_expect rfl h.kind_eq fun _ => demands_expect rfl ha.kind_eq fun _ => ?_
  refine Demands.imp (TailDemands.forM (tailDemands_functions entry _ ha)) fun _ ha => ?_
  simp [Tree.whole_cons, ha, hb.whole_terminal]

/-- A tree of either spelling is lowered only if all its rules have children; otherwise a child is
missing. -/
theorem verdict_lower (entry : String) (h : Spelled bare .program t) :
    Verdict (fun _ => t.Whole language) (lower entry (.rooted t)).1 := by
  have hprogram := demands_program entry h .initial
  rw [lower]
  rcases hrun : lowerProgram entry (.rooted t) .initial with ⟨_ | _, s⟩
  · rw [hrun] at hprogram
    exact hprogram
  · rw [hrun] at hprogram
    exact hprogram

end Functions

end Lookahead.Lowering
