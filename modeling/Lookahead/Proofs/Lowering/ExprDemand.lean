import Lookahead.Proofs.Lowering.Demand

namespace Lookahead.Lowering

open Grammar (language)
open Lookahead.Tree (Spelled)
open Failing (lift_ok)

def ExprDemands : NodeKind → Tree → Prop
  | .expr, t => Demands (fun _ => t.Whole language) (lowerExpr t)
  | .exprTail, t => TailDemands (fun K n => Demands (fun _ => K) (lowerLink n)) t
  | .arithExpr, t => Demands (fun _ => t.Whole language) (lowerArith t)
  | .arithTail, t => TailDemands (fun K n => ∀ lhs, Demands (fun _ => K) (lowerAddLink lhs n)) t
  | .term, t => Demands (fun _ => t.Whole language) (lowerTerm t)
  | .termTail, t => TailDemands (fun K n => ∀ lhs, Demands (fun _ => K) (lowerMulLink lhs n)) t
  | .factor, t => Demands (fun _ => t.Whole language) (lowerFactor t)
  | .factorTail, t => ∀ name, Demands (fun _ => t.Whole language) (lowerReference name t)
  | .args, t => Demands (fun _ => t.Whole language) (lowerArgs t)
  | .argTail, t => TailDemands (fun K n => Demands (fun _ => K) (lowerArgLink n)) t
  | .relOp, t | .addOp, t | .mulOp, t =>
    t.Whole language ∧ ∃ op, ∀ context, t.operator context = .ok op
  | _, _ => True

section Nodes

variable {bare : Symbol → Bool} {info : Node} {a b c : Tree}

abbrev ExprNodeDemands (bare : Symbol → Bool) (kind : NodeKind) (t : Tree) : Prop :=
  t.Spelled bare kind ∧ ExprDemands kind t

theorem demands_reduceWaiting {K : Prop} (h : K) (limit : Nat) (waiting : List (Operand × Op))
    (value : Operand) : Demands (fun _ => K) (reduceWaiting limit waiting value) := by
  induction waiting generalizing value with
  | nil => exact fun _ => h
  | cons entry waiting ih =>
    rw [reduceWaiting]
    split
    · exact fun _ => h
    · exact Demands.skip (fun _ => trivial) ih

theorem demands_reduceLinks {K : Prop} (h : K) (waiting : List (Operand × Op)) (value : Operand)
    (rest : List (Op × Operand)) : Demands (fun _ => K) (reduceLinks waiting value rest) := by
  induction rest generalizing waiting value with
  | nil => exact (demands_reduceWaiting trivial _ _ _).skip fun _ _ => h
  | cons entry rest ih => exact (demands_reduceWaiting trivial _ _ _).skip fun _ => ih _ _

theorem demands_emitParams {places : List Operand} :
    Demands (fun _ => True) (emitParams places) := by
  rw [emitParams]
  exact demands_forM_true fun _ _ => trivial

/-- An operator and its right operand, in a list of such. -/
theorem demands_link {α : Type} {opKind kind : NodeKind} {lowerOperand : Tree → Lowering Operand}
    {k : Op → Operand → Lowering α} (ha : Spelled bare opKind a) (hwhole : a.Whole language)
    {op : Op} (hop : ∀ context, a.operator context = .ok op) (hb : Spelled bare kind b)
    (hlower : Demands (fun _ => b.Whole language) (lowerOperand b))
    (hk : ∀ place, Demands (fun _ => True) (k op place)) (name context : String) :
    Demands (fun _ => Tree.WholeFront (.node info [a, b, c])) (do
      let first ← (Tree.node info [a, b, c]).expect 0 opKind context
      let op ← first.tree.operator name
      let rhs ← (Tree.node info [a, b, c]).expect 1 kind context
      k op (← lowerOperand rhs.tree)) := by
  refine demands_expect rfl ha.kind_eq fun _ => ?_
  rw [hop, lift_ok, pure_bind]
  refine demands_expect rfl hb.kind_eq fun _ => hlower.bind fun place hb => ?_
  refine (hk place).imp fun _ _ => ⟨List.cons_ne_nil _ _, ?_⟩
  simp [Tree.children, hwhole, hb]

/-- The first operand and then the others, each applied to what comes before it. -/
theorem demands_operands {head tail : NodeKind} {lowerHead : Tree → Lowering Operand}
    {lowerNext : Operand → Tree → Lowering Operand} (ha : Spelled bare head a)
    (hhead : Demands (fun _ => a.Whole language) (lowerHead a)) (hb : Spelled bare tail b)
    (htail : TailDemands (fun K n => ∀ lhs, Demands (fun _ => K) (lowerNext lhs n)) b)
    (context : String) :
    Demands (fun _ => Tree.Whole language (.node info [a, b])) (do
      let head ← (Tree.node info [a, b]).expect 0 head context
      let tail ← (Tree.node info [a, b]).expect 1 tail context
      let first ← lowerHead head.tree
      let links ← tail.tree.unroll
      links.foldlM (fun lhs link => lowerNext lhs link.tree) first) := by
  refine demands_expect rfl ha.kind_eq fun _ => demands_expect rfl hb.kind_eq fun _ => ?_
  refine hhead.bind fun first hfirst => (htail.foldlM first).imp fun _ hrest => ?_
  simp [Tree.whole_cons, hfirst, hrest]

theorem exprDemands_expr (ha : ExprNodeDemands bare .arithExpr a)
    (hb : ExprNodeDemands bare .exprTail b) : ExprDemands .expr (.node info [a, b]) := by
  change Demands _ (lowerExpr _)
  rw [lowerExpr_eq]
  refine demands_expect rfl ha.1.kind_eq fun _ => demands_expect rfl hb.1.kind_eq fun _ => ?_
  refine Demands.bind ha.2 fun first hfirst => ?_
  refine TailDemands.mapM hb.2 fun rest hrest => demands_reduceLinks ?_ _ _ _
  simp [Tree.whole_cons, hfirst, hrest]

theorem exprDemands_exprTail_cons (h : Spelled bare .exprTail (.node info [a, b, c]))
    (ha : ExprNodeDemands bare .relOp a) (hb : ExprNodeDemands bare .arithExpr b)
    (hc : ExprNodeDemands bare .exprTail c) : ExprDemands .exprTail (.node info [a, b, c]) := by
  obtain ⟨hwhole, op, hop⟩ := ha.2
  refine tailDemands_cons h ha.1 (fun h => by cases h) hc.1 hc.2 rfl ?_
  exact demands_link (k := fun op place => pure (op, place)) ha.1 hwhole hop hb.1 hb.2
    (fun _ _ => trivial) _ _

theorem exprDemands_arithExpr (ha : ExprNodeDemands bare .term a)
    (hb : ExprNodeDemands bare .arithTail b) : ExprDemands .arithExpr (.node info [a, b]) := by
  change Demands _ (lowerArith _)
  rw [lowerArith]
  exact demands_operands ha.1 ha.2 hb.1 hb.2 _

theorem exprDemands_arithTail_cons (h : Spelled bare .arithTail (.node info [a, b, c]))
    (ha : ExprNodeDemands bare .addOp a) (hb : ExprNodeDemands bare .term b)
    (hc : ExprNodeDemands bare .arithTail c) : ExprDemands .arithTail (.node info [a, b, c]) := by
  obtain ⟨hwhole, op, hop⟩ := ha.2
  refine tailDemands_cons h ha.1 (fun h => by cases h) hc.1 hc.2 rfl fun lhs => ?_
  exact demands_link (k := fun op => combine op lhs) ha.1 hwhole hop hb.1 hb.2
    (fun _ _ => trivial) _ _

theorem exprDemands_term (ha : ExprNodeDemands bare .factor a)
    (hb : ExprNodeDemands bare .termTail b) : ExprDemands .term (.node info [a, b]) := by
  change Demands _ (lowerTerm _)
  rw [lowerTerm]
  exact demands_operands ha.1 ha.2 hb.1 hb.2 _

theorem exprDemands_termTail_cons (h : Spelled bare .termTail (.node info [a, b, c]))
    (ha : ExprNodeDemands bare .mulOp a) (hb : ExprNodeDemands bare .factor b)
    (hc : ExprNodeDemands bare .termTail c) : ExprDemands .termTail (.node info [a, b, c]) := by
  obtain ⟨hwhole, op, hop⟩ := ha.2
  refine tailDemands_cons h ha.1 (fun h => by cases h) hc.1 hc.2 rfl fun lhs => ?_
  exact demands_link (k := fun op => combine op lhs) ha.1 hwhole hop hb.1 hb.2
    (fun _ _ => trivial) _ _

theorem exprDemands_reference (ha : Spelled bare (.terminal .ident) a)
    (hb : ExprNodeDemands bare .factorTail b) : ExprDemands .factor (.node info [a, b]) := by
  obtain ⟨x, -, hliteral⟩ := ha.parsed_terminal.ident
  change Demands _ (lowerFactor _)
  rw [lowerFactor]
  refine demands_child rfl fun _ => ?_
  rw [Tree.kind_bind ha.kind_eq, hliteral, lift_ok, pure_bind]
  refine demands_expect rfl hb.1.kind_eq fun _ => Demands.imp (hb.2 x.text) fun _ hwhole => ?_
  simp [Tree.whole_cons, ha.whole_terminal, hwhole]

theorem exprDemands_number (ha : Spelled bare (.terminal .number) a) :
    ExprDemands .factor (.node info [a]) := by
  obtain ⟨digits, -, hliteral⟩ := ha.parsed_terminal.number
  change Demands _ (lowerFactor _)
  rw [lowerFactor]
  refine demands_child rfl fun _ => ?_
  rw [Tree.kind_bind ha.kind_eq, hliteral]
  exact Demands.of_true (fun _ => trivial) (by simp [Tree.whole_cons, ha.whole_terminal])

theorem exprDemands_charLit (ha : Spelled bare (.terminal .charLit) a) :
    ExprDemands .factor (.node info [a]) := by
  obtain ⟨text, c, -, hliteral, -, hoperand⟩ := ha.parsed_terminal.charLit
  change Demands _ (lowerFactor _)
  rw [lowerFactor]
  refine demands_child rfl fun _ => ?_
  rw [Tree.kind_bind ha.kind_eq, hliteral]
  change Demands _ (liftM (charOperand text) : Lowering Operand)
  rw [hoperand]
  exact Demands.of_true (fun _ => trivial) (by simp [Tree.whole_cons, ha.whole_terminal])

theorem exprDemands_parentheses (ha : Spelled bare (.terminal .lparen) a)
    (hb : ExprNodeDemands bare .expr b) (hc : Spelled bare (.terminal .rparen) c) :
    ExprDemands .factor (.node info [a, b, c]) := by
  change Demands _ (lowerFactor _)
  rw [lowerFactor]
  refine demands_child rfl fun _ => ?_
  rw [Tree.kind_bind ha.kind_eq]
  refine demands_expect rfl hb.1.kind_eq fun _ => Demands.imp hb.2 fun _ hwhole => ?_
  simp [Tree.whole_cons, ha.whole_terminal, hc.whole_terminal, hwhole]

theorem exprDemands_not (ha : Spelled bare (.terminal .not) a)
    (hb : ExprNodeDemands bare .factor b) : ExprDemands .factor (.node info [a, b]) := by
  change Demands _ (lowerFactor _)
  rw [lowerFactor]
  refine demands_child rfl fun _ => ?_
  rw [Tree.kind_bind ha.kind_eq]
  refine demands_expect rfl hb.1.kind_eq fun _ => Demands.bind hb.2 fun _ hb => ?_
  exact Demands.of_true (fun _ => trivial) (by simp [Tree.whole_cons, ha.whole_terminal, hb])

theorem exprDemands_name (ha : Spelled bare .epsilon a) :
    ExprDemands .factorTail (.node info [a]) := by
  intro name
  rw [lowerReference, Tree.isEmpty_node ha.kind_eq]
  exact Demands.of_true (fun _ => trivial) (by simp [Tree.whole_cons, ha.whole_epsilon])

theorem exprDemands_call (ha : Spelled bare (.terminal .lparen) a)
    (hb : ExprNodeDemands bare .args b) (hc : Spelled bare (.terminal .rparen) c) :
    ExprDemands .factorTail (.node info [a, b, c]) := by
  intro name
  rw [lowerReference, Tree.isEmpty_node ha.kind_eq]
  refine demands_expect rfl hb.1.kind_eq fun _ => Demands.bind hb.2 fun places hb => ?_
  refine demands_emitParams.skip fun _ => ?_
  exact Demands.of_true (fun _ => trivial)
    (by simp [Tree.whole_cons, ha.whole_terminal, hc.whole_terminal, hb])

theorem exprDemands_args (ha : ExprNodeDemands bare .expr a)
    (hb : ExprNodeDemands bare .argTail b) : ExprDemands .args (.node info [a, b]) := by
  change Demands _ (lowerArgs _)
  rw [lowerArgs, Tree.isEmpty_node ha.1.kind_eq]
  refine demands_expect rfl ha.1.kind_eq fun _ => Demands.bind ha.2 fun first hfirst => ?_
  refine demands_expect rfl hb.1.kind_eq fun _ => ?_
  refine TailDemands.mapM hb.2 fun rest hrest => ?_
  exact Demands.of_true (fun _ => trivial) (by simp [Tree.whole_cons, hfirst, hrest])

theorem exprDemands_args_nil (ha : Spelled bare .epsilon a) :
    ExprDemands .args (.node info [a]) := by
  change Demands _ (lowerArgs _)
  rw [lowerArgs, Tree.isEmpty_node ha.kind_eq]
  exact Demands.of_true (fun _ => trivial) (by simp [Tree.whole_cons, ha.whole_epsilon])

theorem exprDemands_argTail_cons (h : Spelled bare .argTail (.node info [a, b, c]))
    (ha : Spelled bare (.terminal .comma) a) (hb : ExprNodeDemands bare .expr b)
    (hc : ExprNodeDemands bare .argTail c) : ExprDemands .argTail (.node info [a, b, c]) := by
  refine tailDemands_cons h ha (fun h => by cases h) hc.1 hc.2 rfl ?_
  refine demands_expect rfl hb.1.kind_eq fun _ => Demands.imp hb.2 fun _ hb => ?_
  exact ⟨List.cons_ne_nil _ _, by simp [Tree.children, ha.whole_terminal, hb]⟩

theorem demands_operator {kind : Terminal} {op : Op} (ha : Spelled bare (.terminal kind) a)
    (hop : kind.binaryOp? = some op) :
    Tree.Whole language (.node info [a]) ∧
      ∃ op, ∀ context, (Tree.node info [a]).operator context = .ok op :=
  ⟨by simp [Tree.whole_cons, ha.whole_terminal], op, (ha.parsed_terminal.operator hop info).2⟩

end Nodes

/-- Every node of an expression is whole if it is lowered, and lacks a child if it is not. -/
theorem exprDemands {bare : Symbol → Bool} (t : Tree) :
    ∀ kind, Spelled bare kind t → ExprDemands kind t := by
  induction t using Tree.induct with
  | node info children ih =>
    intro kind h
    -- One case for each kind: its productions, and for a kind that may be empty no children at all.
    have hnodes : ∀ c ∈ children, ∀ k, Spelled bare k c → ExprNodeDemands bare k c :=
      fun c hc k hp => ⟨hp, ih c hc k hp⟩
    cases kind with
    | expr =>
      obtain ⟨p, hp, hf⟩ := h.production (List.cons_ne_nil _ _) (by decide) hnodes
      fin_cases hp
      rcases hf with _ | ⟨ha, _ | ⟨hb, _ | _⟩⟩
      exact exprDemands_expr ha hb
    | exprTail =>
      obtain ⟨p, hp, hf⟩ | ⟨-, rfl⟩ := h.forall₂ (List.cons_ne_nil _ _) hnodes
      · fin_cases hp
        · rcases hf with _ | ⟨ha, _ | ⟨hb, _ | ⟨hc, _ | _⟩⟩⟩
          exact exprDemands_exprTail_cons h ha hb hc
        · rcases hf with _ | ⟨ha, _ | _⟩
          exact tailDemands_nil h ha.1
      · exact tailDemands_childless h fun _ => demands_expect_nil
    | arithExpr =>
      obtain ⟨p, hp, hf⟩ := h.production (List.cons_ne_nil _ _) (by decide) hnodes
      fin_cases hp
      rcases hf with _ | ⟨ha, _ | ⟨hb, _ | _⟩⟩
      exact exprDemands_arithExpr ha hb
    | arithTail =>
      obtain ⟨p, hp, hf⟩ | ⟨-, rfl⟩ := h.forall₂ (List.cons_ne_nil _ _) hnodes
      · fin_cases hp
        · rcases hf with _ | ⟨ha, _ | ⟨hb, _ | ⟨hc, _ | _⟩⟩⟩
          exact exprDemands_arithTail_cons h ha hb hc
        · rcases hf with _ | ⟨ha, _ | _⟩
          exact tailDemands_nil h ha.1
      · exact tailDemands_childless h fun _ _ => demands_expect_nil
    | term =>
      obtain ⟨p, hp, hf⟩ := h.production (List.cons_ne_nil _ _) (by decide) hnodes
      fin_cases hp
      rcases hf with _ | ⟨ha, _ | ⟨hb, _ | _⟩⟩
      exact exprDemands_term ha hb
    | termTail =>
      obtain ⟨p, hp, hf⟩ | ⟨-, rfl⟩ := h.forall₂ (List.cons_ne_nil _ _) hnodes
      · fin_cases hp
        · rcases hf with _ | ⟨ha, _ | ⟨hb, _ | ⟨hc, _ | _⟩⟩⟩
          exact exprDemands_termTail_cons h ha hb hc
        · rcases hf with _ | ⟨ha, _ | _⟩
          exact tailDemands_nil h ha.1
      · exact tailDemands_childless h fun _ _ => demands_expect_nil
    | factor =>
      obtain ⟨p, hp, hf⟩ := h.production (List.cons_ne_nil _ _) (by decide) hnodes
      fin_cases hp
      · rcases hf with _ | ⟨ha, _ | ⟨hb, _ | _⟩⟩
        exact exprDemands_reference ha.1 hb
      · rcases hf with _ | ⟨ha, _ | _⟩
        exact exprDemands_number ha.1
      · rcases hf with _ | ⟨ha, _ | _⟩
        exact exprDemands_charLit ha.1
      · rcases hf with _ | ⟨ha, _ | ⟨hb, _ | ⟨hc, _ | _⟩⟩⟩
        exact exprDemands_parentheses ha.1 hb hc.1
      · rcases hf with _ | ⟨ha, _ | ⟨hb, _ | _⟩⟩
        exact exprDemands_not ha.1 hb
    | factorTail =>
      obtain ⟨p, hp, hf⟩ | ⟨-, rfl⟩ := h.forall₂ (List.cons_ne_nil _ _) hnodes
      · fin_cases hp
        · rcases hf with _ | ⟨ha, _ | ⟨hb, _ | ⟨hc, _ | _⟩⟩⟩
          exact exprDemands_call ha.1 hb hc.1
        · rcases hf with _ | ⟨ha, _ | _⟩
          exact exprDemands_name ha.1
      · exact fun _ _ => ⟨"call", 1, rfl⟩
    | args =>
      obtain ⟨p, hp, hf⟩ | ⟨-, rfl⟩ := h.forall₂ (List.cons_ne_nil _ _) hnodes
      · fin_cases hp
        · rcases hf with _ | ⟨ha, _ | ⟨hb, _ | _⟩⟩
          exact exprDemands_args ha hb
        · rcases hf with _ | ⟨ha, _ | _⟩
          exact exprDemands_args_nil ha.1
      · change Demands _ (lowerArgs _)
        rw [lowerArgs]
        exact fun _ => ⟨"argument list", 0, rfl⟩
    | argTail =>
      obtain ⟨p, hp, hf⟩ | ⟨-, rfl⟩ := h.forall₂ (List.cons_ne_nil _ _) hnodes
      · fin_cases hp
        · rcases hf with _ | ⟨ha, _ | ⟨hb, _ | ⟨hc, _ | _⟩⟩⟩
          exact exprDemands_argTail_cons h ha.1 hb hc
        · rcases hf with _ | ⟨ha, _ | _⟩
          exact tailDemands_nil h ha.1
      · exact tailDemands_childless h fun _ => demands_expect_nil
    | relOp | addOp | mulOp =>
      obtain ⟨p, hp, hf⟩ := h.production (List.cons_ne_nil _ _) (by decide) hnodes
      fin_cases hp <;> rcases hf with _ | ⟨ha, _ | _⟩ <;> exact demands_operator ha.1 rfl
    | _ => trivial

end Lookahead.Lowering
