import Lookahead.Proofs.Lowering.Expr

namespace Lookahead.Lowering

open Source
open Lookahead.Tree (Parsed Unrolls)
open Failing (lift_ok)

section Simple

open Source.Emit (run_pure run_bind run_emit run_apply run_params)

variable {t : Tree}

theorem exprLowered_of_parsed (h : Parsed .expr t) :
    ∃ e, readExpr t = some e ∧ lowerExpr t = e.lower.run :=
  exprLowered t .expr h

theorem argsLowered_of_parsed (h : Parsed .args t) :
    ∃ args, readArgs t = some args ∧ lowerArgs t = args.lower.run :=
  exprLowered t .args h

def lowerInit (name : String) (init : Tree) : Lowering Unit := do
  if ← init.isEmpty then
    return
  let expr ← init.expect 1 .expr "initializer"
  let place ← lowerExpr expr.tree
  emit (.assign (.name name) place)

theorem initLowered (h : Parsed .declInit t) (x : Name) :
    ∃ init, readInit t = some init ∧ lowerInit x.text t = (Decl.mk x init).lower.run := by
  obtain ⟨info, children⟩ := t
  obtain ⟨p, hp, hf⟩ := h.forall₂ (List.cons_ne_nil _ _) fun c _ k hc => hc
  fin_cases hp
  · rcases hf with _ | ⟨ha, _ | ⟨hb, _ | _⟩⟩
    obtain ⟨e, hread, hlower⟩ := exprLowered_of_parsed hb
    refine ⟨some e, ?_, ?_⟩
    · rw [readInit, hread]
      rfl
    · rw [lowerInit, Tree.isEmpty_node ha.kind_eq, lift_ok, pure_bind]
      refine Tree.expect_bind rfl hb.kind_eq fun _ => ?_
      simp only [Decl.lower, run_bind, run_emit, hlower]
  · rcases hf with _ | ⟨ha, _ | _⟩
    refine ⟨none, rfl, ?_⟩
    rw [lowerInit, Tree.isEmpty_node ha.kind_eq, lift_ok, pure_bind]
    exact (run_pure ()).symm

theorem declLowered (h : Parsed .decl t) :
    ∃ d, readDecl t = some d ∧ lowerDecl t = d.lower.run := by
  obtain ⟨info, children⟩ := t
  obtain ⟨p, hp, hf⟩ := h.forall₂ (List.cons_ne_nil _ _) fun c _ k hc => hc
  fin_cases hp
  rcases hf with _ | ⟨-, _ | ⟨hx, _ | ⟨hinit, _ | _⟩⟩⟩
  obtain ⟨x, hname, hliteral⟩ := hx.ident
  obtain ⟨init, hread, hlower⟩ := initLowered hinit x
  refine ⟨⟨x, init⟩, ?_, ?_⟩
  · rw [readDecl, hname, hread]
    rfl
  · rw [lowerDecl, Tree.ident_bind rfl hx.kind_eq hliteral, ← hlower]
    exact Tree.expect_bind rfl hinit.kind_eq fun _ => rfl

theorem updateLowered (h : Parsed .assignOp t) (x : Name) :
    ∃ u, readUpdate x t = some u ∧ lowerAssignOp x.text t = u.lower.run := by
  obtain ⟨info, children⟩ := t
  obtain ⟨p, hp, hf⟩ := h.forall₂ (List.cons_ne_nil _ _) fun c _ k hc => hc
  fin_cases hp
  · rcases hf with _ | ⟨ha, _ | ⟨hb, _ | _⟩⟩
    obtain ⟨e, hread, hlower⟩ := exprLowered_of_parsed hb
    refine ⟨.assign x e, ?_, ?_⟩
    · rw [readUpdate, hread]
      rfl
    · rw [lowerAssignOp]
      refine Tree.child_bind rfl fun _ => ?_
      rw [Tree.kind_bind ha.kind_eq]
      refine Tree.expect_bind rfl hb.kind_eq fun _ => ?_
      simp only [Update.lower, run_bind, run_emit, hlower]
  · rcases hf with _ | ⟨ha, _ | _⟩
    refine ⟨.step x ⟨.add, rfl⟩, ?_, ?_⟩
    · rw [readUpdate, ha.kind?_eq]
    · rw [lowerAssignOp]
      refine Tree.child_bind rfl fun _ => ?_
      rw [Tree.kind_bind ha.kind_eq]
      simp only [Update.lower, emitStep, run_bind, run_apply, run_emit]
  · rcases hf with _ | ⟨ha, _ | _⟩
    refine ⟨.step x ⟨.sub, rfl⟩, ?_, ?_⟩
    · rw [readUpdate, ha.kind?_eq]
    · rw [lowerAssignOp]
      refine Tree.child_bind rfl fun _ => ?_
      rw [Tree.kind_bind ha.kind_eq]
      simp only [Update.lower, emitStep, run_bind, run_apply, run_emit]

/-- A statement other than a return leaves no mark. -/
theorem run_simple {s : Simple} (h : s.returns = false) :
    (Stmt.simple s).lower.run = s.lower.run := by
  rw [Stmt.lower, Emission.run_bind, h]
  simp only [Emission.run_markReturn_false]
  exact bind_pure_unit

theorem returnLowered (h : Parsed .returnStmt t) :
    ∃ value, readReturn t = some value ∧ lowerReturn t = (Stmt.simple (.ret value)).lower.run := by
  obtain ⟨info, children⟩ := t
  obtain ⟨p, hp, hf⟩ := h.forall₂ (List.cons_ne_nil _ _) fun c _ k hc => hc
  fin_cases hp
  rcases hf with _ | ⟨-, _ | ⟨hb, _ | _⟩⟩
  rename_i a b
  obtain ⟨binfo, bchildren⟩ := b
  obtain ⟨p, hp, hf⟩ := hb.forall₂ (List.cons_ne_nil _ _) fun c _ k hc => hc
  fin_cases hp
  · rcases hf with _ | ⟨hvalue, _ | _⟩
    obtain ⟨e, hread, hlower⟩ := exprLowered_of_parsed hvalue
    refine ⟨some e, ?_, ?_⟩
    · rw [readReturn, if_neg (by rw [hvalue.kind?_eq]; nofun), hread]
      rfl
    · rw [lowerReturn]
      refine Tree.expect_bind rfl hb.kind_eq fun _ => ?_
      rw [Tree.isEmpty_node hvalue.kind_eq, lift_ok, pure_bind, if_neg nofun]
      refine Tree.expect_bind rfl hvalue.kind_eq fun _ => ?_
      simp only [Stmt.lower, Simple.lower, Simple.returns, Emission.run_bind,
        Emission.run_straight, Emission.run_markReturn_true, run_bind, run_emit, bind_assoc, hlower]
  · rcases hf with _ | ⟨ha, _ | _⟩
    refine ⟨none, ?_, ?_⟩
    · rw [readReturn, if_pos ha.kind?_eq]
    · rw [lowerReturn]
      refine Tree.expect_bind rfl hb.kind_eq fun _ => ?_
      rw [Tree.isEmpty_node ha.kind_eq, lift_ok, pure_bind, if_pos (decide_eq_true rfl)]
      simp only [Stmt.lower, Simple.lower, Simple.returns, Emission.run_bind,
        Emission.run_straight, Emission.run_markReturn_true, run_emit]

def lowerSuffix (name : String) (suffix : Tree) : Lowering Unit := do
  let inner ← suffix.child 0 "identifier suffix"
  match ← inner.tree.kind with
  | .assignOp => lowerAssignOp name inner.tree
  | .terminal .lparen =>
    let args ← suffix.expect 1 .args "call"
    lowerCallStmt name args.tree
  | _ => inner.tree.unexpected "identifier suffix"

theorem suffixLowered (h : Parsed .idSuffix t) (x : Name) :
    ∃ s, readSuffix x t = some s ∧ lowerSuffix x.text t = (Stmt.simple s).lower.run := by
  obtain ⟨info, children⟩ := t
  obtain ⟨p, hp, hf⟩ := h.forall₂ (List.cons_ne_nil _ _) fun c _ k hc => hc
  fin_cases hp
  · rcases hf with _ | ⟨ha, _ | _⟩
    obtain ⟨u, hread, hlower⟩ := updateLowered ha x
    refine ⟨.update u, ?_, ?_⟩
    · rw [readSuffix, hread]
      rfl
    · rw [run_simple rfl, Simple.lower, ← hlower, lowerSuffix]
      refine Tree.child_bind rfl fun _ => ?_
      rw [Tree.kind_bind ha.kind_eq]
  · rcases hf with _ | ⟨ha, _ | ⟨hb, _ | ⟨-, _ | _⟩⟩⟩
    obtain ⟨args, hread, hlower⟩ := argsLowered_of_parsed hb
    refine ⟨.call x args, ?_, ?_⟩
    · rw [readSuffix, hread]
      rfl
    · rw [run_simple rfl, lowerSuffix]
      refine Tree.child_bind rfl fun _ => ?_
      rw [Tree.kind_bind ha.kind_eq]
      refine Tree.expect_bind rfl hb.kind_eq fun _ => ?_
      simp only [Simple.lower, lowerCallStmt, run_bind, run_params, run_emit, hlower]

theorem simpleLowered (h : Parsed .simpleStmt t) :
    ∃ s, readSimple t = some s ∧ lowerSimpleStmt t = (Stmt.simple s).lower.run := by
  obtain ⟨info, children⟩ := t
  obtain ⟨p, hp, hf⟩ := h.forall₂ (List.cons_ne_nil _ _) fun c _ k hc => hc
  fin_cases hp
  · rcases hf with _ | ⟨ha, _ | _⟩
    obtain ⟨d, hread, hlower⟩ := declLowered ha
    refine ⟨.declare d, ?_, ?_⟩
    · rw [readSimple, ha.kind?_eq, hread]
      rfl
    · rw [run_simple rfl, Simple.lower, ← hlower, lowerSimpleStmt]
      refine Tree.child_bind rfl fun _ => ?_
      rw [Tree.kind_bind ha.kind_eq]
  · rcases hf with _ | ⟨ha, _ | ⟨hb, _ | _⟩⟩
    obtain ⟨x, hname, hliteral⟩ := ha.ident
    obtain ⟨s, hread, hlower⟩ := suffixLowered hb x
    refine ⟨s, ?_, ?_⟩
    · rw [readSimple, hname]
      exact hread
    · rw [← hlower, lowerSimpleStmt]
      refine Tree.child_bind rfl fun _ => ?_
      rw [Tree.kind_bind ha.kind_eq, hliteral, lift_ok, pure_bind]
      exact Tree.expect_bind rfl hb.kind_eq fun _ => rfl
  · rcases hf with _ | ⟨ha, _ | _⟩
    obtain ⟨value, hread, hlower⟩ := returnLowered ha
    refine ⟨.ret value, ?_, ?_⟩
    · rw [readSimple, ha.kind?_eq, hread]
      rfl
    · rw [← hlower, lowerSimpleStmt]
      refine Tree.child_bind rfl fun _ => ?_
      rw [Tree.kind_bind ha.kind_eq]

end Simple

section Arms

/-- A node with a condition and a block where an arm has them. -/
structure IsArm (node : Tree) (arm : Tree × Tree) : Prop where
  condition : node.children[2]? = some arm.1
  condition_kind : arm.1.kind = .ok .expr
  block : node.children[4]? = some arm.2
  block_kind : arm.2.kind = .ok .block

def lowerArms (otherwise : Option Tree) (finish : String) : List (Tree × Tree) → Lowering Unit
  | [] =>
    match otherwise with
    | some block => withComponent .elseBranch (lowerBlock block)
    | none => pure ()
  | (condition, block) :: rest => do
    emitArm (rest.isEmpty && otherwise.isNone) finish condition (lowerBlock block)
    lowerArms otherwise finish rest

theorem forM_arms {α : Type} {t : Tree} (arms : List (t.Below × t.Below)) (otherwise : Option Tree)
    (finish : String) (k : Lowering α) (n : Nat) :
    ((arms.zipIdx n).forM (fun arm =>
        emitArm (arm.2 + 1 = n + arms.length && otherwise.isNone) finish arm.1.1.tree
          (lowerBlock arm.1.2.tree)) >>= fun _ =>
      lowerArms otherwise finish [] >>= fun _ => k) =
    lowerArms otherwise finish (arms.map fun arm => (arm.1.tree, arm.2.tree)) >>= fun _ => k := by
  induction arms generalizing n with
  | nil => exact pure_bind _ _
  | cons arm rest ih =>
    rw [List.zipIdx_cons, List.forM, List.map_cons, lowerArms, bind_assoc, bind_assoc]
    have hlast : decide (n + 1 = n + (arm :: rest).length) =
        (rest.map fun arm => (arm.1.tree, arm.2.tree)).isEmpty := by
      cases rest <;> simp
    rw [hlast]
    refine bind_congr fun _ => ?_
    rw [← ih (n + 1)]
    simp only [List.length_cons, Nat.add_assoc, Nat.add_comm 1]

def armAt {s t : Tree} (hlt : sizeOf s < sizeOf t) (link : s.Within) :
    Except LoweringError (t.Below × t.Below) := do
  let link := link.trans hlt
  let condition ← link.tree.expect 2 .expr "elif"
  let block ← link.tree.expect 4 .block "elif"
  return (condition.trans link.le, block.trans link.le)

theorem exists_armAt {s t : Tree} (hlt : sizeOf s < sizeOf t) {link : s.Within} {arm : Tree × Tree}
    (h : IsArm link.tree arm) :
    ∃ found, armAt hlt link = .ok found ∧ (found.1.tree, found.2.tree) = arm := by
  obtain ⟨condition, h₂, hcondition⟩ := Tree.exists_expect h.condition h.condition_kind "elif"
  obtain ⟨block, h₄, hblock⟩ := Tree.exists_expect h.block h.block_kind "elif"
  have hle : sizeOf link.tree ≤ sizeOf t := (link.trans hlt).le
  refine ⟨(condition.trans hle, block.trans hle), ?_, Prod.ext hcondition hblock⟩
  change (link.tree.expect 2 .expr "elif" >>= fun condition =>
    link.tree.expect 4 .block "elif" >>= fun block =>
      pure (condition.trans hle, block.trans hle)) = _
  rw [h₂, h₄]
  rfl

theorem exists_mapM_armAt {s t : Tree} (hlt : sizeOf s < sizeOf t) (links : List s.Within)
    {arms : List (Tree × Tree)} (h : List.Forall₂ IsArm (links.map (·.tree)) arms) :
    ∃ found, links.mapM (armAt hlt) = .ok found ∧
      found.map (fun arm => (arm.1.tree, arm.2.tree)) = arms := by
  induction links generalizing arms with
  | nil =>
    cases h
    exact ⟨[], rfl, rfl⟩
  | cons link links ih =>
    rw [List.map_cons] at h
    rcases h with _ | ⟨hlink, hrest⟩
    obtain ⟨arm, harm, rfl⟩ := exists_armAt hlt hlink
    obtain ⟨found, hfound, rfl⟩ := ih hrest
    refine ⟨arm :: found, ?_, rfl⟩
    rw [List.mapM_cons, harm, hfound]
    rfl

theorem exists_arms (info : Node) (a b d g : Tree) {c e f : Tree} {nodes : List Tree}
    {more : List (Tree × Tree)} (hc : Parsed .expr c) (he : Parsed .block e)
    (hf : Parsed .elifList f) (hnodes : f.Unrolls nodes) (hmore : List.Forall₂ IsArm nodes more) :
    ∃ found, arms (.node info [a, b, c, d, e, f, g]) = .ok found ∧
      found.map (fun arm => (arm.1.tree, arm.2.tree)) = (c, e) :: more := by
  obtain ⟨links, hlinks, rfl⟩ := hnodes
  obtain ⟨condition, h₂, hcondition⟩ :=
    Tree.exists_expect (t := .node info [a, b, c, d, e, f, g]) (i := 2) rfl hc.kind_eq "if"
  obtain ⟨block, h₄, hblock⟩ :=
    Tree.exists_expect (t := .node info [a, b, c, d, e, f, g]) (i := 4) rfl he.kind_eq "if"
  obtain ⟨⟨elifs, hlt⟩, h₅, helifs⟩ :=
    Tree.exists_expect (t := .node info [a, b, c, d, e, f, g]) (i := 5) rfl hf.kind_eq "if"
  change elifs = f at helifs
  subst helifs
  obtain ⟨found, hfound, rfl⟩ := exists_mapM_armAt hlt links hmore
  refine ⟨(condition, block) :: found, ?_, ?_⟩
  · rw [arms, h₂, h₄, h₅]
    change (elifs.unroll >>= fun links => links.mapM (armAt hlt) >>= fun more => _) = _
    rw [hlinks]
    change (links.mapM (armAt hlt) >>= fun more => _) = _
    rw [hfound]
    rfl
  · rw [List.map_cons, hcondition, hblock]

/-- A node over the block without a condition, or over nothing. -/
structure IsElse (node : Tree) (otherwise : Option Tree) : Prop where
  isEmpty : node.isEmpty = .ok otherwise.isNone
  block : ∀ block ∈ otherwise, node.children[1]? = some block ∧ block.kind = .ok .block

theorem exists_elseBlock (info : Node) (a b c d e f : Tree) {g : Tree} {otherwise : Option Tree}
    (hg : Parsed .elseOpt g) (h : IsElse g otherwise) :
    ∃ found, elseBlock? (.node info [a, b, c, d, e, f, g]) = .ok found ∧
      found.map (·.tree) = otherwise := by
  obtain ⟨⟨last, hlt⟩, h₆, hlast⟩ :=
    Tree.exists_expect (t := .node info [a, b, c, d, e, f, g]) (i := 6) rfl hg.kind_eq "if"
  change last = g at hlast
  subst hlast
  rw [elseBlock?, h₆]
  change ∃ found, (last.isEmpty >>= fun empty => _) = _ ∧ _
  rw [h.isEmpty]
  cases otherwise with
  | none => exact ⟨none, rfl, rfl⟩
  | some block =>
    obtain ⟨hblock, hkind⟩ := h.block block rfl
    obtain ⟨found, h₁, rfl⟩ := Tree.exists_expect hblock hkind "else"
    refine ⟨some (found.trans (Nat.le_of_lt hlt)), ?_, rfl⟩
    change (last.expect 1 .block "else" >>= fun block => _) = _
    rw [h₁]
    rfl

theorem lowerIf_eq {t : Tree} {found : List (t.Below × t.Below)} {final : Option t.Below}
    (harms : arms t = .ok found) (helse : elseBlock? t = .ok final) :
    lowerIf t = newLabel >>= fun finish =>
      lowerArms (final.map (·.tree)) finish (found.map fun arm => (arm.1.tree, arm.2.tree)) >>=
        fun _ => emitGlue (.label finish) := by
  rw [lowerIf, harms, helse]
  refine bind_congr fun finish => ?_
  rw [lift_ok, pure_bind, lift_ok, pure_bind, ← forM_arms found _ finish _ 0]
  cases final <;> simp only [lowerArms, Option.map_none, Option.map_some, Option.isNone_none,
    Option.isNone_some, Nat.zero_add, pure_bind]

/-- The last arm, as it was read and as lowering finds it. -/
inductive ElseLowered : Arms → Option Tree → Prop
  | done : ElseLowered .done none
  | otherwise {t : Tree} {body : Block} (h : lowerBlock t = body.lower.run) :
      ElseLowered (.otherwise body) (some t)

end Arms

section Nodes

def lowerItem (node : Tree) : Lowering Unit := do
  let stmt ← node.expect 0 .stmt "statement list"
  withLine stmt.tree (lowerStmt stmt.tree)

def lowerBody (body : Tree) : Lowering Unit := do
  let first ← body.child 0 "block body"
  match ← first.tree.kind with
  | .terminal .newline =>
    let list ← body.expect 2 .stmtList "block body"
    let links ← list.tree.unroll
    links.forM fun link => lowerItem link.tree
  | .simpleStmt => withLine first.tree (lowerSimpleStmt first.tree)
  | _ => first.tree.unexpected "block body"

def StmtLowered : NodeKind → Tree → Prop
  | .block, t => ∃ body, readBlock t = some body ∧ lowerBlock t = body.lower.run
  | .blockBody, t => ∃ body, readBody t = some body ∧ lowerBody t = body.lower.run
  | .stmtList, t => ∃ nodes body, t.Unrolls nodes ∧ readStmts t = some body ∧
      nodes.forM lowerItem = body.lower.run
  | .stmt, t => ∃ s, readStmt t = some s ∧ lowerStmt t = s.lower.run
  | .ifStmt, t => ∃ s, readIf t = some s ∧ lowerIf t = s.lower.run
  | .elifList, t => ∃ nodes found, t.Unrolls nodes ∧ List.Forall₂ IsArm nodes found ∧
      ∀ last otherwise, ElseLowered last otherwise → ∃ arms, readElifs last t = some arms ∧
        arms.isDone = (found.isEmpty && otherwise.isNone) ∧
        ∀ finish, lowerArms otherwise finish found = (arms.lower finish).run
  | .elseOpt, t => ∃ last otherwise, readElse t = some last ∧ IsElse t otherwise ∧
      ElseLowered last otherwise
  | .whileStmt, t => ∃ s, readWhile t = some s ∧ lowerWhile t = s.lower.run
  | .forStmt, t => ∃ s, readFor t = some s ∧ lowerFor t = s.lower.run
  | .doStmt, t => ∃ s, readDo t = some s ∧ lowerDo t = s.lower.run
  | _, _ => True

/-- A node of a kind, in a tree that was derived from a source, that is lowered as it is read. -/
abbrev StmtNode (kind : NodeKind) (t : Tree) : Prop := t.Parsed kind ∧ StmtLowered kind t

variable {info : Node} {a b c d e f g h i : Tree}

open Emission

theorem stmtLowered_block (hb : StmtNode .blockBody b) :
    StmtLowered .block (.node info [a, b]) := by
  obtain ⟨body, hread, hlower⟩ := hb.2
  refine ⟨body, hread, ?_⟩
  rw [lowerBlock, ← hlower]
  exact Tree.expect_bind rfl hb.1.kind_eq fun _ => rfl

theorem stmtLowered_body_list (ha : Parsed (.terminal .newline) a) (hc : StmtNode .stmtList c) :
    StmtLowered .blockBody (.node info [a, b, c, d]) := by
  obtain ⟨nodes, body, hnodes, hread, hlower⟩ := hc.2
  refine ⟨body, hread, ?_⟩
  rw [lowerBody, ← hlower]
  refine Tree.child_bind rfl fun _ => ?_
  rw [Tree.kind_bind ha.kind_eq]
  refine Tree.expect_bind rfl hc.1.kind_eq fun _ => ?_
  exact hnodes.bind (k := fun nodes => nodes.forM lowerItem) fun links => List.forM_map.symm

theorem stmtLowered_body_simple (ha : Parsed .simpleStmt a) :
    StmtLowered .blockBody (.node info [a, b]) := by
  obtain ⟨s, hread, hlower⟩ := simpleLowered ha
  refine ⟨.cons a.firstLine (.simple s) .nil, ?_, ?_⟩
  · rw [readBody, hread]
    rfl
  · rw [lowerBody]
    refine Tree.child_bind rfl fun _ => ?_
    rw [Tree.kind_bind ha.kind_eq]
    simp only [Block.lower, run_bind, run_withLine, run_pure, hlower, bind_pure_unit]

theorem stmtLowered_list_cons (hp : Parsed .stmtList (.node info [a, b]))
    (ha : StmtNode .stmt a) (hb : StmtNode .stmtList b) :
    StmtLowered .stmtList (.node info [a, b]) := by
  obtain ⟨s, hs, hlower⟩ := ha.2
  obtain ⟨nodes, body, hnodes, hread, hrest⟩ := hb.2
  refine ⟨_, .cons a.firstLine s body,
    Tree.unrolls_cons hp.kind_eq ha.1.kind_eq nofun rfl hb.1.kind_eq hnodes, ?_, ?_⟩
  · rw [readStmts, hs, hread]
    rfl
  · have hitem : lowerItem (.node info [a, b]) = withLine a s.lower.run :=
      Tree.expect_bind rfl ha.1.kind_eq fun _ => by rw [hlower]
    rw [List.forM, hitem, hrest, Block.lower, run_bind, run_withLine]

theorem stmtLowered_simple (ha : Parsed .simpleStmt a) :
    StmtLowered .stmt (.node info [a, b]) := by
  obtain ⟨s, hread, hlower⟩ := simpleLowered ha
  refine ⟨.simple s, ?_, ?_⟩
  · rw [readStmt, hread]
    rfl
  · rw [lowerStmt, ← hlower]
    refine Tree.child_bind rfl fun _ => ?_
    rw [Tree.kind_bind ha.kind_eq]

theorem stmtLowered_if (hc : Parsed .expr c) (he : StmtNode .block e) (hf : StmtNode .elifList f)
    (hg : StmtNode .elseOpt g) : StmtLowered .ifStmt (.node info [a, b, c, d, e, f, g]) := by
  obtain ⟨condition, hcondition, htest⟩ := exprLowered_of_parsed hc
  obtain ⟨body, hbody, hblock⟩ := he.2
  obtain ⟨nodes, more, hnodes, hmore, helifs⟩ := hf.2
  obtain ⟨last, otherwise, helse, hotherwise, hlast⟩ := hg.2
  obtain ⟨rest, hrest, hdone, hlower⟩ := helifs last otherwise hlast
  obtain ⟨found, hfound, hpairs⟩ := exists_arms info a b d g hc he.1 hf.1 hnodes hmore
  obtain ⟨final, hfinal, rfl⟩ := exists_elseBlock info a b c d e f hg.1 hotherwise
  refine ⟨.cond (.arm c.firstLine condition body rest), ?_, ?_⟩
  · rw [readIf, hcondition, hbody, helse]
    change (readElifs last f >>= fun rest => _) = _
    rw [hrest]
    rfl
  · rw [lowerIf_eq hfound hfinal, hpairs]
    simp only [lowerArms, Stmt.lower, Arms.lower, run_bind, run_newLabel, run_arm htest, run_glue,
      hlower, hblock, hdone]

theorem stmtLowered_elif_nil (hp : Parsed .elifList (.node info [a])) (ha : Parsed .epsilon a) :
    StmtLowered .elifList (.node info [a]) := by
  refine ⟨[], [], Tree.unrolls_nil hp.kind_eq ha.kind_eq, .nil, fun last otherwise hlast => ?_⟩
  refine ⟨last, rfl, ?_, fun finish => ?_⟩
  · cases hlast <;> rfl
  · cases hlast with
    | done => exact (run_pure ()).symm
    | otherwise hblock => rw [lowerArms, Arms.lower, run_withComponent, hblock]

theorem stmtLowered_elif_cons (hp : Parsed .elifList (.node info [a, b, c, d, e, f]))
    (ha : Parsed (.terminal .kwElif) a) (hc : Parsed .expr c) (he : StmtNode .block e)
    (hf : StmtNode .elifList f) : StmtLowered .elifList (.node info [a, b, c, d, e, f]) := by
  obtain ⟨condition, hcondition, htest⟩ := exprLowered_of_parsed hc
  obtain ⟨body, hbody, hblock⟩ := he.2
  obtain ⟨nodes, more, hnodes, hmore, helifs⟩ := hf.2
  refine ⟨_, (c, e) :: more,
    Tree.unrolls_cons hp.kind_eq ha.kind_eq nofun rfl hf.1.kind_eq hnodes,
    .cons ⟨rfl, hc.kind_eq, rfl, he.1.kind_eq⟩ hmore, fun last otherwise hlast => ?_⟩
  obtain ⟨rest, hrest, hdone, hlower⟩ := helifs last otherwise hlast
  refine ⟨.arm c.firstLine condition body rest, ?_, rfl, fun finish => ?_⟩
  · rw [readElifs, hcondition, hbody, hrest]
    rfl
  · rw [lowerArms, Arms.lower, run_bind, run_arm htest, hlower, hblock, hdone]

theorem stmtLowered_else_nil (ha : Parsed .epsilon a) :
    StmtLowered .elseOpt (.node info [a]) :=
  ⟨.done, none, rfl, ⟨Tree.isEmpty_node ha.kind_eq, nofun⟩, .done⟩

theorem stmtLowered_else (ha : Parsed (.terminal .kwElse) a) (hb : StmtNode .block b) :
    StmtLowered .elseOpt (.node info [a, b]) := by
  obtain ⟨body, hbody, hblock⟩ := hb.2
  refine ⟨.otherwise body, some b, ?_, ⟨Tree.isEmpty_node ha.kind_eq, ?_⟩, .otherwise hblock⟩
  · rw [readElse, hbody]
    rfl
  · intro block h
    cases h
    exact ⟨rfl, hb.1.kind_eq⟩

theorem stmtLowered_while (hc : Parsed .expr c) (he : StmtNode .block e) :
    StmtLowered .whileStmt (.node info [a, b, c, d, e]) := by
  obtain ⟨condition, hcondition, htest⟩ := exprLowered_of_parsed hc
  obtain ⟨body, hbody, hblock⟩ := he.2
  refine ⟨.whileLoop condition body, ?_, ?_⟩
  · rw [readWhile, hcondition, hbody]
    rfl
  · rw [lowerWhile]
    refine Tree.expect_bind rfl hc.kind_eq fun _ => ?_
    refine Tree.expect_bind rfl he.1.kind_eq fun _ => ?_
    simp only [Stmt.lower, loop, run_bind, run_newLabel, run_glue, run_test htest,
      run_withComponent, hblock]

theorem stmtLowered_do (hb : StmtNode .block b) (he : Parsed .expr e) :
    StmtLowered .doStmt (.node info [a, b, c, d, e, f, g]) := by
  obtain ⟨condition, hcondition, htest⟩ := exprLowered_of_parsed he
  obtain ⟨body, hbody, hblock⟩ := hb.2
  refine ⟨.doUntil body e.firstLine condition, ?_, ?_⟩
  · rw [readDo, hcondition, hbody]
    rfl
  · rw [lowerDo]
    refine Tree.expect_bind rfl hb.1.kind_eq fun _ => ?_
    refine Tree.expect_bind rfl he.kind_eq fun _ => ?_
    simp only [Stmt.lower, run_bind, run_newLabel, run_glue, run_withLine, run_test htest,
      run_withComponent, hblock]

theorem exists_step {t : Tree} (ht : Parsed .forStep t) :
    ∃ info x suffix, t = .node info [x, suffix] ∧ Parsed (.terminal .ident) x ∧
      Parsed .assignOp suffix := by
  obtain ⟨info, children⟩ := t
  obtain ⟨p, hp, hf⟩ := ht.forall₂ (List.cons_ne_nil _ _) fun c _ k hc => hc
  fin_cases hp
  rcases hf with _ | ⟨hx, _ | ⟨hsuffix, _ | _⟩⟩
  exact ⟨info, _, _, rfl, hx, hsuffix⟩

theorem stmtLowered_for (hc : Parsed .decl c) (he : Parsed .expr e) (hg : Parsed .forStep g)
    (hi : StmtNode .block i) : StmtLowered .forStmt (.node info [a, b, c, d, e, f, g, h, i]) := by
  obtain ⟨init, hinit, hdecl⟩ := declLowered hc
  obtain ⟨condition, hcondition, htest⟩ := exprLowered_of_parsed he
  obtain ⟨stepInfo, x, suffix, rfl, hx, hsuffix⟩ := exists_step hg
  obtain ⟨name, hname, hliteral⟩ := hx.ident
  obtain ⟨step, hstep, hupdate⟩ := updateLowered hsuffix name
  obtain ⟨body, hbody, hblock⟩ := hi.2
  refine ⟨.forLoop init condition step body, ?_, ?_⟩
  · rw [readFor, hinit, hcondition, readStep, hname, hbody]
    change (readUpdate name suffix >>= fun step => _) = _
    rw [hstep]
    rfl
  · have hlast : (do
        let target ← (Tree.node stepInfo [x, suffix]).ident 0 "for step"
        let suffix ← (Tree.node stepInfo [x, suffix]).expect 1 .assignOp "for step"
        lowerAssignOp target suffix.tree : Lowering Unit) = step.lower.run := by
      rw [Tree.ident_bind rfl hx.kind_eq hliteral, ← hupdate]
      exact Tree.expect_bind rfl hsuffix.kind_eq fun _ => rfl
    rw [lowerFor]
    refine Tree.expect_bind rfl hc.kind_eq fun _ => ?_
    refine Tree.expect_bind rfl he.kind_eq fun _ => ?_
    refine Tree.expect_bind rfl hg.kind_eq fun _ => ?_
    refine Tree.expect_bind rfl hi.1.kind_eq fun _ => ?_
    simp only [Stmt.lower, loop, run_bind, run_newLabel, run_glue, run_test htest,
      run_withComponent, run_straight, hblock, hdecl, hlast]

end Nodes

/-- Every node of a statement is lowered as it is read. -/
theorem stmtLowered (t : Tree) : ∀ kind, Parsed kind t → StmtLowered kind t := by
  induction t using Tree.induct with
  | node info children ih =>
    intro kind h
    have hnodes : ∀ c ∈ children, ∀ k, Parsed k c → StmtNode k c :=
      fun c hc k hp => ⟨hp, ih c hc k hp⟩
    cases kind with
    | block =>
      obtain ⟨p, hp, hf⟩ := h.forall₂ (List.cons_ne_nil _ _) hnodes
      fin_cases hp
      rcases hf with _ | ⟨-, _ | ⟨hb, _ | _⟩⟩
      exact stmtLowered_block hb
    | blockBody =>
      obtain ⟨p, hp, hf⟩ := h.forall₂ (List.cons_ne_nil _ _) hnodes
      fin_cases hp
      · rcases hf with _ | ⟨ha, _ | ⟨-, _ | ⟨hc, _ | ⟨-, _ | _⟩⟩⟩⟩
        exact stmtLowered_body_list ha.1 hc
      · rcases hf with _ | ⟨ha, _ | ⟨-, _ | _⟩⟩
        exact stmtLowered_body_simple ha.1
    | stmtList =>
      obtain ⟨p, hp, hf⟩ := h.forall₂ (List.cons_ne_nil _ _) hnodes
      fin_cases hp
      · rcases hf with _ | ⟨ha, _ | ⟨hb, _ | _⟩⟩
        exact stmtLowered_list_cons h ha hb
      · rcases hf with _ | ⟨ha, _ | _⟩
        exact ⟨[], .nil, Tree.unrolls_nil h.kind_eq ha.1.kind_eq, rfl,
          (Emission.run_pure ()).symm⟩
    | stmt =>
      obtain ⟨p, hp, hf⟩ := h.forall₂ (List.cons_ne_nil _ _) hnodes
      fin_cases hp
      · rcases hf with _ | ⟨ha, _ | ⟨-, _ | _⟩⟩
        exact stmtLowered_simple ha.1
      all_goals
        rcases hf with _ | ⟨ha, _ | _⟩
        obtain ⟨s, hread, hlower⟩ := ha.2
        refine ⟨s, ?_, ?_⟩
        · rw [readStmt, ha.1.kind?_eq]
          exact hread
        · rw [lowerStmt, ← hlower]
          refine Tree.child_bind rfl fun _ => ?_
          rw [Tree.kind_bind ha.1.kind_eq]
    | ifStmt =>
      obtain ⟨p, hp, hf⟩ := h.forall₂ (List.cons_ne_nil _ _) hnodes
      fin_cases hp
      rcases hf with
        _ | ⟨-, _ | ⟨-, _ | ⟨hc, _ | ⟨-, _ | ⟨he, _ | ⟨hf, _ | ⟨hg, _ | _⟩⟩⟩⟩⟩⟩⟩
      exact stmtLowered_if hc.1 he hf hg
    | elifList =>
      obtain ⟨p, hp, hf⟩ := h.forall₂ (List.cons_ne_nil _ _) hnodes
      fin_cases hp
      · rcases hf with _ | ⟨ha, _ | ⟨-, _ | ⟨hc, _ | ⟨-, _ | ⟨he, _ | ⟨hf, _ | _⟩⟩⟩⟩⟩⟩
        exact stmtLowered_elif_cons h ha.1 hc.1 he hf
      · rcases hf with _ | ⟨ha, _ | _⟩
        exact stmtLowered_elif_nil h ha.1
    | elseOpt =>
      obtain ⟨p, hp, hf⟩ := h.forall₂ (List.cons_ne_nil _ _) hnodes
      fin_cases hp
      · rcases hf with _ | ⟨ha, _ | ⟨hb, _ | _⟩⟩
        exact stmtLowered_else ha.1 hb
      · rcases hf with _ | ⟨ha, _ | _⟩
        exact stmtLowered_else_nil ha.1
    | whileStmt =>
      obtain ⟨p, hp, hf⟩ := h.forall₂ (List.cons_ne_nil _ _) hnodes
      fin_cases hp
      rcases hf with _ | ⟨-, _ | ⟨-, _ | ⟨hc, _ | ⟨-, _ | ⟨he, _ | _⟩⟩⟩⟩⟩
      exact stmtLowered_while hc.1 he
    | forStmt =>
      obtain ⟨p, hp, hf⟩ := h.forall₂ (List.cons_ne_nil _ _) hnodes
      fin_cases hp
      rcases hf with _ | ⟨-, _ | ⟨-, _ | ⟨hc, _ | ⟨-, _ | ⟨he, _ | ⟨-, _ | ⟨hg, _ | ⟨-, _ |
        ⟨hi, _ | _⟩⟩⟩⟩⟩⟩⟩⟩⟩
      exact stmtLowered_for hc.1 he.1 hg.1 hi
    | doStmt =>
      obtain ⟨p, hp, hf⟩ := h.forall₂ (List.cons_ne_nil _ _) hnodes
      fin_cases hp
      rcases hf with
        _ | ⟨-, _ | ⟨hb, _ | ⟨-, _ | ⟨-, _ | ⟨he, _ | ⟨-, _ | ⟨-, _ | _⟩⟩⟩⟩⟩⟩⟩
      exact stmtLowered_do hb he.1
    | _ => trivial

end Lookahead.Lowering
