import Lookahead.Proofs.Grammar.Tree
import Lookahead.Proofs.Lowering.Shape
import Mathlib.Tactic.FinCases

namespace Lookahead.Lowering

open Source
open Lookahead.Tree (Parsed Unrolls)
open Failing (lift_ok)
open Source.Emit (run_pure run_bind run_newTemp run_emit run_apply run_params)

section Links

def lowerAddLink (lhs : Operand) (link : Tree) : Lowering Operand := do
  let add ← link.expect 0 .addOp "additive chain"
  let op ← add.tree.operator "additive operator"
  let term ← link.expect 1 .term "additive chain"
  combine op lhs (← lowerTerm term.tree)

def lowerMulLink (lhs : Operand) (link : Tree) : Lowering Operand := do
  let mul ← link.expect 0 .mulOp "multiplicative chain"
  let op ← mul.tree.operator "multiplicative operator"
  let factor ← link.expect 1 .factor "multiplicative chain"
  combine op lhs (← lowerFactor factor.tree)

def lowerArgLink (link : Tree) : Lowering Operand := do
  let expr ← link.expect 1 .expr "argument list"
  lowerExpr expr.tree

def lowerReference (name : String) (tail : Tree) : Lowering Operand := do
  if ← tail.isEmpty then
    return .name name
  let args ← tail.expect 1 .args "call"
  emitValueCall name (← lowerArgs args.tree)

end Links

/-- What lowering makes of the rest of a sum or a product, whatever comes before it. -/
def TailLowered (read : Expr → Tree → Option Expr) (lowerLink : Operand → Tree → Lowering Operand)
    (t : Tree) : Prop :=
  ∃ nodes, t.Unrolls nodes ∧ ∀ lhs, ∃ e, read lhs t = some e ∧
    lhs.lower.run >>= (nodes.foldlM lowerLink ·) = e.lower.run

def ExprLowered : NodeKind → Tree → Prop
  | .expr, t => ∃ e, readExpr t = some e ∧ lowerExpr t = e.lower.run
  | .exprTail, t => ∃ nodes links, t.Unrolls nodes ∧ readLinks t = some links ∧
      nodes.mapM lowerLink =
        links.lower.run >>= fun links => pure (links.map fun link => (link.1.1, link.2))
  | .arithExpr, t => ∃ e, readArith t = some e ∧ lowerArith t = e.lower.run
  | .arithTail, t => TailLowered readSum lowerAddLink t
  | .term, t => ∃ e, readTerm t = some e ∧ lowerTerm t = e.lower.run
  | .termTail, t => TailLowered readProduct lowerMulLink t
  | .factor, t => ∃ e, readFactor t = some e ∧ lowerFactor t = e.lower.run
  | .factorTail, t => ∀ x : Name, ∃ e, readReference x t = some e ∧
      lowerReference x.text t = e.lower.run
  | .args, t => ∃ args, readArgs t = some args ∧ lowerArgs t = args.lower.run
  | .argTail, t => ∃ nodes args, t.Unrolls nodes ∧ readMoreArgs t = some args ∧
      nodes.mapM lowerArgLink = args.lower.run
  | .relOp, t => ∃ op, chainOp? t = some op ∧ ∀ context, t.operator context = .ok op.1
  | .addOp, t | .mulOp, t =>
      ∃ op, arithOp? t = some op ∧ ∀ context, t.operator context = .ok op.1
  | _, _ => True

/-- A node of a kind, in a tree that was derived from a source, that is lowered as it is read. -/
abbrev ExprNode (kind : NodeKind) (t : Tree) : Prop := t.Parsed kind ∧ ExprLowered kind t

section Nodes

variable {info : Node} {a b c : Tree}

theorem exprLowered_expr (ha : ExprNode .arithExpr a) (hb : ExprNode .exprTail b) :
    ExprLowered .expr (.node info [a, b]) := by
  obtain ⟨e, hread, hlower⟩ := ha.2
  obtain ⟨nodes, links, hnodes, hlinks, hmap⟩ := hb.2
  refine ⟨.chain e links, ?_, ?_⟩
  · rw [readExpr, hread, hlinks]
    rfl
  · rw [lowerExpr_eq, Expr.lower, run_bind]
    refine Tree.expect_bind rfl ha.1.kind_eq fun _ => ?_
    refine Tree.expect_bind rfl hb.1.kind_eq fun _ => ?_
    rw [hlower]
    refine bind_congr fun first => ?_
    refine (hnodes.bind (k := fun nodes => nodes.mapM lowerLink >>= reduceLinks [] first)
      fun links => by rw [List.mapM_map]; rfl).trans ?_
    rw [hmap, bind_assoc, run_bind]
    refine bind_congr fun links => ?_
    rw [pure_bind]
    exact reduceLinks_eq none (fun _ h => absurd h (Option.not_mem_none _)) first links

theorem exprLowered_exprTail_cons (h : Parsed .exprTail (.node info [a, b, c]))
    (ha : ExprNode .relOp a) (hb : ExprNode .arithExpr b) (hc : ExprNode .exprTail c) :
    ExprLowered .exprTail (.node info [a, b, c]) := by
  obtain ⟨op, hop, hoperator⟩ := ha.2
  obtain ⟨e, hread, hlower⟩ := hb.2
  obtain ⟨nodes, links, hnodes, hlinks, hmap⟩ := hc.2
  refine ⟨_, .cons op e links,
    Tree.unrolls_cons h.kind_eq ha.1.kind_eq nofun rfl hc.1.kind_eq hnodes, ?_, ?_⟩
  · rw [readLinks, hop, hread, hlinks]
    rfl
  · have hlink : lowerLink (.node info [a, b, c]) =
        e.lower.run >>= fun place => pure (op.1, place) := by
      refine Tree.expect_bind rfl ha.1.kind_eq fun _ => ?_
      rw [hoperator, lift_ok, pure_bind]
      refine Tree.expect_bind rfl hb.1.kind_eq fun _ => ?_
      rw [hlower]
    rw [List.mapM_cons, hlink, hmap, Links.lower]
    simp only [run_bind, run_pure, bind_assoc, pure_bind, List.map_cons]

theorem tailLowered_nil {kind : NodeKind} {read : Expr → Tree → Option Expr}
    {lowerLink : Operand → Tree → Lowering Operand} (h : Parsed kind (.node info [a]))
    (ha : Parsed .epsilon a) (hread : ∀ lhs, read lhs (.node info [a]) = some lhs) :
    TailLowered read lowerLink (.node info [a]) := by
  refine ⟨[], Tree.unrolls_nil h.kind_eq ha.kind_eq, fun lhs => ⟨lhs, hread lhs, ?_⟩⟩
  exact bind_pure _

/-- One more operand is applied to what comes before it. -/
theorem tailLowered_cons {kind first : NodeKind} {read : Expr → Tree → Option Expr}
    {lowerLink : Operand → Tree → Lowering Operand} (op : ArithOp) (e : Expr)
    (h : Parsed kind (.node info [a, b, c])) (ha : Parsed first a) (hfirst : first ≠ .epsilon)
    (hc : Parsed kind c) (htail : TailLowered read lowerLink c)
    (hread : ∀ lhs, read lhs (.node info [a, b, c]) = read (.binary op lhs e) c)
    (hlink : ∀ lhs, lowerLink lhs (.node info [a, b, c]) = e.lower.run >>= combine op.1 lhs) :
    TailLowered read lowerLink (.node info [a, b, c]) := by
  obtain ⟨nodes, hnodes, htail⟩ := htail
  refine ⟨_, Tree.unrolls_cons h.kind_eq ha.kind_eq hfirst rfl hc.kind_eq hnodes, fun lhs => ?_⟩
  obtain ⟨whole, hwhole, hfold⟩ := htail (.binary op lhs e)
  refine ⟨whole, (hread lhs).trans hwhole, ?_⟩
  rw [← hfold, Expr.lower]
  simp only [run_bind, run_apply, List.foldlM_cons, hlink, bind_assoc]

theorem exprLowered_arithExpr (ha : ExprNode .term a) (hb : ExprNode .arithTail b) :
    ExprLowered .arithExpr (.node info [a, b]) := by
  obtain ⟨e, hread, hlower⟩ := ha.2
  obtain ⟨nodes, hnodes, htail⟩ := hb.2
  obtain ⟨whole, hwhole, hfold⟩ := htail e
  refine ⟨whole, ?_, ?_⟩
  · rw [readArith, hread]
    exact hwhole
  · rw [lowerArith, ← hfold]
    refine Tree.expect_bind rfl ha.1.kind_eq fun _ => ?_
    refine Tree.expect_bind rfl hb.1.kind_eq fun _ => ?_
    rw [hlower]
    exact bind_congr fun first => hnodes.bind (k := fun nodes => nodes.foldlM lowerAddLink first)
      fun links => by rw [List.foldlM_map]; rfl

theorem exprLowered_arithTail_cons (h : Parsed .arithTail (.node info [a, b, c]))
    (ha : ExprNode .addOp a) (hb : ExprNode .term b) (hc : ExprNode .arithTail c) :
    ExprLowered .arithTail (.node info [a, b, c]) := by
  obtain ⟨op, hop, hoperator⟩ := ha.2
  obtain ⟨e, hread, hlower⟩ := hb.2
  refine tailLowered_cons op e h ha.1 nofun hc.1 hc.2 (fun lhs => ?_) fun lhs => ?_
  · rw [readSum, hop, hread]
    rfl
  · refine Tree.expect_bind rfl ha.1.kind_eq fun _ => ?_
    rw [hoperator, lift_ok, pure_bind]
    refine Tree.expect_bind rfl hb.1.kind_eq fun _ => ?_
    rw [hlower]

theorem exprLowered_term (ha : ExprNode .factor a) (hb : ExprNode .termTail b) :
    ExprLowered .term (.node info [a, b]) := by
  obtain ⟨e, hread, hlower⟩ := ha.2
  obtain ⟨nodes, hnodes, htail⟩ := hb.2
  obtain ⟨whole, hwhole, hfold⟩ := htail e
  refine ⟨whole, ?_, ?_⟩
  · rw [readTerm, hread]
    exact hwhole
  · rw [lowerTerm, ← hfold]
    refine Tree.expect_bind rfl ha.1.kind_eq fun _ => ?_
    refine Tree.expect_bind rfl hb.1.kind_eq fun _ => ?_
    rw [hlower]
    exact bind_congr fun first => hnodes.bind (k := fun nodes => nodes.foldlM lowerMulLink first)
      fun links => by rw [List.foldlM_map]; rfl

theorem exprLowered_termTail_cons (h : Parsed .termTail (.node info [a, b, c]))
    (ha : ExprNode .mulOp a) (hb : ExprNode .factor b) (hc : ExprNode .termTail c) :
    ExprLowered .termTail (.node info [a, b, c]) := by
  obtain ⟨op, hop, hoperator⟩ := ha.2
  obtain ⟨e, hread, hlower⟩ := hb.2
  refine tailLowered_cons op e h ha.1 nofun hc.1 hc.2 (fun lhs => ?_) fun lhs => ?_
  · rw [readProduct, hop, hread]
    rfl
  · refine Tree.expect_bind rfl ha.1.kind_eq fun _ => ?_
    rw [hoperator, lift_ok, pure_bind]
    refine Tree.expect_bind rfl hb.1.kind_eq fun _ => ?_
    rw [hlower]

theorem exprLowered_reference (ha : ExprNode (.terminal .ident) a)
    (hb : ExprNode .factorTail b) : ExprLowered .factor (.node info [a, b]) := by
  obtain ⟨x, hname, hliteral⟩ := ha.1.ident
  obtain ⟨e, hread, hlower⟩ := hb.2 x
  refine ⟨e, ?_, ?_⟩
  · rw [readFactor, ha.1.kind?_eq, hname]
    exact hread
  · rw [lowerFactor, ← hlower]
    refine Tree.child_bind rfl fun _ => ?_
    rw [Tree.kind_bind ha.1.kind_eq, hliteral, lift_ok, pure_bind]
    exact Tree.expect_bind rfl hb.1.kind_eq fun _ => rfl

theorem exprLowered_number (ha : ExprNode (.terminal .number) a) :
    ExprLowered .factor (.node info [a]) := by
  obtain ⟨digits, hinfo, hliteral⟩ := ha.1.number
  refine ⟨.num digits, ?_, ?_⟩
  · rw [readFactor, ha.1.kind?_eq, hinfo]
    rfl
  · rw [lowerFactor, Expr.lower, run_pure]
    refine Tree.child_bind rfl fun _ => ?_
    simp only [Tree.kind_bind ha.1.kind_eq, hliteral, lift_ok, pure_bind]

theorem exprLowered_charLit (ha : ExprNode (.terminal .charLit) a) :
    ExprLowered .factor (.node info [a]) := by
  obtain ⟨text, c, hinfo, hliteral, hchar, hoperand⟩ := ha.1.charLit
  refine ⟨.char c, ?_, ?_⟩
  · rw [readFactor, ha.1.kind?_eq, hinfo, Option.bind_some, hchar]
    rfl
  · rw [lowerFactor, Expr.lower, run_pure]
    refine Tree.child_bind rfl fun _ => ?_
    simp only [Tree.kind_bind ha.1.kind_eq, hliteral, lift_ok, pure_bind, hoperand]

theorem exprLowered_parentheses (ha : ExprNode (.terminal .lparen) a) (hb : ExprNode .expr b) :
    ExprLowered .factor (.node info [a, b, c]) := by
  obtain ⟨e, hread, hlower⟩ := hb.2
  refine ⟨e, hread, ?_⟩
  rw [lowerFactor, ← hlower]
  refine Tree.child_bind rfl fun _ => ?_
  rw [Tree.kind_bind ha.1.kind_eq]
  exact Tree.expect_bind rfl hb.1.kind_eq fun _ => rfl

theorem exprLowered_not (ha : ExprNode (.terminal .not) a) (hb : ExprNode .factor b) :
    ExprLowered .factor (.node info [a, b]) := by
  obtain ⟨e, hread, hlower⟩ := hb.2
  refine ⟨.not e, ?_, ?_⟩
  · rw [readFactor, ha.1.kind?_eq, hread]
    rfl
  · rw [lowerFactor]
    refine Tree.child_bind rfl fun _ => ?_
    rw [Tree.kind_bind ha.1.kind_eq]
    refine Tree.expect_bind rfl hb.1.kind_eq fun _ => ?_
    simp only [Expr.lower, run_bind, run_newTemp, run_emit, run_pure, hlower]

theorem exprLowered_name (ha : ExprNode .epsilon a) :
    ExprLowered .factorTail (.node info [a]) := by
  intro x
  refine ⟨.name x, rfl, ?_⟩
  rw [lowerReference, Tree.isEmpty_node ha.1.kind_eq, lift_ok, pure_bind, Expr.lower, run_pure]
  rfl

theorem exprLowered_call (ha : ExprNode (.terminal .lparen) a) (hb : ExprNode .args b) :
    ExprLowered .factorTail (.node info [a, b, c]) := by
  obtain ⟨args, hread, hlower⟩ := hb.2
  refine fun x => ⟨.call x args, ?_, ?_⟩
  · rw [readReference, hread]
    rfl
  · rw [lowerReference, Tree.isEmpty_node ha.1.kind_eq, lift_ok, pure_bind]
    refine Tree.expect_bind rfl hb.1.kind_eq fun _ => ?_
    simp only [Expr.lower, emitValueCall, run_bind, run_params, run_newTemp, run_emit, run_pure,
      hlower]

theorem exprLowered_args (ha : ExprNode .expr a) (hb : ExprNode .argTail b) :
    ExprLowered .args (.node info [a, b]) := by
  obtain ⟨e, hread, hlower⟩ := ha.2
  obtain ⟨nodes, args, hnodes, hargs, hmap⟩ := hb.2
  refine ⟨.cons e args, ?_, ?_⟩
  · rw [readArgs, hread, hargs]
    rfl
  · rw [lowerArgs, Tree.isEmpty_node ha.1.kind_eq, lift_ok, pure_bind, Args.lower, run_bind]
    refine Tree.expect_bind rfl ha.1.kind_eq fun _ => ?_
    rw [hlower]
    refine bind_congr fun first => ?_
    refine Tree.expect_bind rfl hb.1.kind_eq fun _ => ?_
    simp only [run_bind, run_pure, ← hmap]
    exact hnodes.bind
      (k := fun nodes => nodes.mapM lowerArgLink >>= fun rest => pure (first :: rest))
      fun links => by rw [List.mapM_map]; rfl

theorem exprLowered_argTail_cons (h : Parsed .argTail (.node info [a, b, c]))
    (ha : ExprNode (.terminal .comma) a) (hb : ExprNode .expr b) (hc : ExprNode .argTail c) :
    ExprLowered .argTail (.node info [a, b, c]) := by
  obtain ⟨e, hread, hlower⟩ := hb.2
  obtain ⟨nodes, args, hnodes, hargs, hmap⟩ := hc.2
  refine ⟨_, .cons e args,
    Tree.unrolls_cons h.kind_eq ha.1.kind_eq nofun rfl hc.1.kind_eq hnodes, ?_, ?_⟩
  · rw [readMoreArgs, hread, hargs]
    rfl
  · have hlink : lowerArgLink (.node info [a, b, c]) = e.lower.run :=
      Tree.expect_bind rfl hb.1.kind_eq fun _ => hlower
    rw [List.mapM_cons, hlink, hmap, Args.lower]
    simp only [run_bind, run_pure]

theorem exprLowered_relOp {kind : Terminal} (op : ChainOp) (ha : ExprNode (.terminal kind) a)
    (hop : kind.binaryOp? = some op.1) : ExprLowered .relOp (.node info [a]) := by
  obtain ⟨hread, hoperator⟩ := ha.1.operator hop info
  refine ⟨op, ?_, hoperator⟩
  rw [chainOp?, hread]
  exact dif_pos op.2

theorem arithOp_lowered {kind : Terminal} (op : ArithOp) (ha : ExprNode (.terminal kind) a)
    (hop : kind.binaryOp? = some op.1) :
    ∃ op, arithOp? (.node info [a]) = some op ∧
      ∀ context, (Tree.node info [a]).operator context = .ok op.1 := by
  obtain ⟨hread, hoperator⟩ := ha.1.operator hop info
  refine ⟨op, ?_, hoperator⟩
  rw [arithOp?, hread]
  exact dif_pos op.2

end Nodes

/-- Every node of an expression is lowered as it is read. -/
theorem exprLowered (t : Tree) : ∀ kind, Parsed kind t → ExprLowered kind t := by
  induction t using Tree.induct with
  | node info children ih =>
    intro kind h
    have hnodes : ∀ c ∈ children, ∀ k, Parsed k c → ExprNode k c :=
      fun c hc k hp => ⟨hp, ih c hc k hp⟩
    cases kind with
    | expr =>
      obtain ⟨p, hp, hf⟩ := h.forall₂ (List.cons_ne_nil _ _) hnodes
      fin_cases hp
      rcases hf with _ | ⟨ha, _ | ⟨hb, _ | _⟩⟩
      exact exprLowered_expr ha hb
    | exprTail =>
      obtain ⟨p, hp, hf⟩ := h.forall₂ (List.cons_ne_nil _ _) hnodes
      fin_cases hp
      · rcases hf with _ | ⟨ha, _ | ⟨hb, _ | ⟨hc, _ | _⟩⟩⟩
        exact exprLowered_exprTail_cons h ha hb hc
      · rcases hf with _ | ⟨ha, _ | _⟩
        exact ⟨[], .nil, Tree.unrolls_nil h.kind_eq ha.1.kind_eq, rfl, by
          rw [Links.lower, run_pure, pure_bind]; rfl⟩
    | arithExpr =>
      obtain ⟨p, hp, hf⟩ := h.forall₂ (List.cons_ne_nil _ _) hnodes
      fin_cases hp
      rcases hf with _ | ⟨ha, _ | ⟨hb, _ | _⟩⟩
      exact exprLowered_arithExpr ha hb
    | arithTail =>
      obtain ⟨p, hp, hf⟩ := h.forall₂ (List.cons_ne_nil _ _) hnodes
      fin_cases hp
      · rcases hf with _ | ⟨ha, _ | ⟨hb, _ | ⟨hc, _ | _⟩⟩⟩
        exact exprLowered_arithTail_cons h ha hb hc
      · rcases hf with _ | ⟨ha, _ | _⟩
        exact tailLowered_nil h ha.1 fun _ => rfl
    | term =>
      obtain ⟨p, hp, hf⟩ := h.forall₂ (List.cons_ne_nil _ _) hnodes
      fin_cases hp
      rcases hf with _ | ⟨ha, _ | ⟨hb, _ | _⟩⟩
      exact exprLowered_term ha hb
    | termTail =>
      obtain ⟨p, hp, hf⟩ := h.forall₂ (List.cons_ne_nil _ _) hnodes
      fin_cases hp
      · rcases hf with _ | ⟨ha, _ | ⟨hb, _ | ⟨hc, _ | _⟩⟩⟩
        exact exprLowered_termTail_cons h ha hb hc
      · rcases hf with _ | ⟨ha, _ | _⟩
        exact tailLowered_nil h ha.1 fun _ => rfl
    | factor =>
      obtain ⟨p, hp, hf⟩ := h.forall₂ (List.cons_ne_nil _ _) hnodes
      fin_cases hp
      · rcases hf with _ | ⟨ha, _ | ⟨hb, _ | _⟩⟩
        exact exprLowered_reference ha hb
      · rcases hf with _ | ⟨ha, _ | _⟩
        exact exprLowered_number ha
      · rcases hf with _ | ⟨ha, _ | _⟩
        exact exprLowered_charLit ha
      · rcases hf with _ | ⟨ha, _ | ⟨hb, _ | ⟨-, _ | _⟩⟩⟩
        exact exprLowered_parentheses ha hb
      · rcases hf with _ | ⟨ha, _ | ⟨hb, _ | _⟩⟩
        exact exprLowered_not ha hb
    | factorTail =>
      obtain ⟨p, hp, hf⟩ := h.forall₂ (List.cons_ne_nil _ _) hnodes
      fin_cases hp
      · rcases hf with _ | ⟨ha, _ | ⟨hb, _ | ⟨-, _ | _⟩⟩⟩
        exact exprLowered_call ha hb
      · rcases hf with _ | ⟨ha, _ | _⟩
        exact exprLowered_name ha
    | args =>
      obtain ⟨p, hp, hf⟩ := h.forall₂ (List.cons_ne_nil _ _) hnodes
      fin_cases hp
      · rcases hf with _ | ⟨ha, _ | ⟨hb, _ | _⟩⟩
        exact exprLowered_args ha hb
      · rcases hf with _ | ⟨ha, _ | _⟩
        refine ⟨.nil, rfl, ?_⟩
        rw [lowerArgs, Tree.isEmpty_node ha.1.kind_eq, lift_ok, pure_bind, Args.lower, run_pure]
        rfl
    | argTail =>
      obtain ⟨p, hp, hf⟩ := h.forall₂ (List.cons_ne_nil _ _) hnodes
      fin_cases hp
      · rcases hf with _ | ⟨ha, _ | ⟨hb, _ | ⟨hc, _ | _⟩⟩⟩
        exact exprLowered_argTail_cons h ha hb hc
      · rcases hf with _ | ⟨ha, _ | _⟩
        exact ⟨[], .nil, Tree.unrolls_nil h.kind_eq ha.1.kind_eq, rfl, run_pure [] |>.symm⟩
    | relOp =>
      obtain ⟨p, hp, hf⟩ := h.forall₂ (List.cons_ne_nil _ _) hnodes
      fin_cases hp <;> rcases hf with _ | ⟨ha, _ | _⟩
      · exact exprLowered_relOp ⟨.lt, rfl⟩ ha rfl
      · exact exprLowered_relOp ⟨.le, rfl⟩ ha rfl
      · exact exprLowered_relOp ⟨.gt, rfl⟩ ha rfl
      · exact exprLowered_relOp ⟨.ge, rfl⟩ ha rfl
      · exact exprLowered_relOp ⟨.eq, rfl⟩ ha rfl
      · exact exprLowered_relOp ⟨.ne, rfl⟩ ha rfl
      · exact exprLowered_relOp ⟨.and, rfl⟩ ha rfl
      · exact exprLowered_relOp ⟨.or, rfl⟩ ha rfl
    | addOp =>
      obtain ⟨p, hp, hf⟩ := h.forall₂ (List.cons_ne_nil _ _) hnodes
      fin_cases hp <;> rcases hf with _ | ⟨ha, _ | _⟩
      · exact arithOp_lowered ⟨.add, rfl⟩ ha rfl
      · exact arithOp_lowered ⟨.sub, rfl⟩ ha rfl
    | mulOp =>
      obtain ⟨p, hp, hf⟩ := h.forall₂ (List.cons_ne_nil _ _) hnodes
      fin_cases hp <;> rcases hf with _ | ⟨ha, _ | _⟩
      · exact arithOp_lowered ⟨.mul, rfl⟩ ha rfl
      · exact arithOp_lowered ⟨.div, rfl⟩ ha rfl
      · exact arithOp_lowered ⟨.mod, rfl⟩ ha rfl
    | _ => trivial

end Lookahead.Lowering
