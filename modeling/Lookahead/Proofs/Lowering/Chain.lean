import Lookahead.Proofs.Lowering.Expr
import Lookahead.Proofs.Lowering.Trace
import Lookahead.Proofs.Source.Grouping

namespace Lookahead

open Grammar (language)

def Tree.chainLinks : Tree → Option (List (Source.ChainOp × Tree))
  | .node _ [_] => some []
  | .node _ [rel, operand, tail] => do
    return (← Source.chainOp? rel, operand) :: (← tail.chainLinks)
  | _ => none

def Tree.chain? : Tree → Option (Tree × List (Source.ChainOp × Tree))
  | .node _ [first, tail] => do return (first, ← tail.chainLinks)
  | _ => none

theorem Tree.preorder_subset {t n : Tree} (h : n ∈ t.preorder) : n.preorder ⊆ t.preorder := by
  induction n using Tree.induct with
  | node info children ih =>
    intro m hm
    rw [preorder_node, List.mem_cons, List.mem_flatMap] at hm
    rcases hm with rfl | ⟨c, hc, hm⟩
    · exact h
    · exact ih c hc (mem_preorder_of_child h hc) hm

/-- A node of the given kind in a tree of the source language, whatever literals its leaves have. -/
def Tree.Derived (kind : NodeKind) (t : Tree) : Prop :=
  t.label = kind.label ∧ language.IsDerivation t

namespace Tree.Derived

variable {kind : NodeKind} {t : Tree} {info : Node} {children : List Tree}

theorem kind_eq (h : Derived kind t) : t.kind = .ok kind := by
  rw [Tree.kind, h.1, NodeKind.ofLabel?_label]

theorem forall₂ (h : Derived kind (.node info children)) (hk : kind.productions ≠ []) :
    ∃ p ∈ kind.productions, List.Forall₂ Derived p children := by
  have hlabel : info.label = kind.label := h.1
  have hr : language.isRule info.label = true := hlabel ▸ NodeKind.isRule_label hk
  have hp := h.2.production hr
  rw [Tree.label_node, hlabel, NodeKind.productions_label] at hp
  obtain ⟨p, hmem, hp⟩ := List.mem_map.1 hp
  refine ⟨p, hmem, NodeKind.forall₂_of_labels hp fun c hc k hlabel => ?_⟩
  exact ⟨hlabel, h.2.child hc⟩

/-- The operator of a link is a comparison or a logical operator. -/
theorem relOp (h : Derived .relOp t) :
    ∃ op, Source.chainOp? t = some op ∧ ∀ context, t.operator context = .ok op.1 := by
  obtain ⟨info, children⟩ := t
  obtain ⟨p, hp, hf⟩ := h.forall₂ (List.cons_ne_nil _ _)
  obtain ⟨kind, op, rfl, hop⟩ : ∃ (kind : Terminal) (op : Source.ChainOp),
      p = [.terminal kind] ∧ kind.binaryOp? = some op.1 := by
    fin_cases hp <;> refine ⟨_, ⟨_, ?_⟩, rfl, rfl⟩ <;> rfl
  rcases hf with _ | ⟨hc, _ | _⟩
  next c =>
  refine ⟨op, ?_, fun context => ?_⟩
  · rw [Source.chainOp?, Source.op?, show c.label = kind.name from hc.1, Terminal.ofName?_name,
      Option.bind_some, hop]
    exact dif_pos op.2
  · rw [Tree.operator]
    change (c.kind >>= fun kind => _) = _
    rw [hc.kind_eq]
    simp only [Bind.bind, Except.bind, hop]
    rfl

end Tree.Derived

namespace Lowering

open Source (ChainOp)
open Lookahead.Tree (Derived)

def lowerLinks (links : List (ChainOp × Tree)) : Lowering (List (ChainOp × Operand)) :=
  links.mapM fun link => return (link.1, ← lowerArith link.2)

def lowerOperands (first : Tree) (links : List (ChainOp × Tree)) :
    Lowering (Operand × List (ChainOp × Operand)) := do
  let place ← lowerArith first
  let rest ← lowerLinks links
  return (place, rest)

section Shape

theorem exists_chainLinks (t : Tree) (h : Derived .exprTail t) :
    ∃ nodes links, t.Unrolls nodes ∧ t.chainLinks = some links ∧
      nodes.mapM lowerLink =
        lowerLinks links >>= fun rest => pure (rest.map fun link => (link.1.1, link.2)) := by
  induction t using Tree.induct with
  | node info children ih =>
    obtain ⟨p, hp, hf⟩ := h.forall₂ (List.cons_ne_nil _ _)
    fin_cases hp
    · rcases hf with _ | ⟨ha, _ | ⟨hb, _ | ⟨hc, _ | _⟩⟩⟩
      next a b c =>
      obtain ⟨op, hop, hoperator⟩ := ha.relOp
      obtain ⟨nodes, links, hnodes, hlinks, hmap⟩ := ih c (by simp) hc
      refine ⟨_, (op, b) :: links,
        Tree.unrolls_cons h.kind_eq ha.kind_eq nofun rfl hc.kind_eq hnodes, ?_, ?_⟩
      · rw [Tree.chainLinks, hop, hlinks]
        rfl
      · have hlink : lowerLink (.node info [a, b, c]) =
            lowerArith b >>= fun place => pure (op.1, place) := by
          refine Tree.expect_bind rfl ha.kind_eq fun _ => ?_
          rw [hoperator, Failing.lift_ok, pure_bind]
          exact Tree.expect_bind rfl hb.kind_eq fun _ => rfl
        rw [lowerLinks] at hmap
        rw [List.mapM_cons, lowerLinks, List.mapM_cons, hlink, hmap]
        simp only [bind_assoc, pure_bind, List.map_cons]
    · rcases hf with _ | ⟨ha, _ | _⟩
      refine ⟨[], [], Tree.unrolls_nil h.kind_eq ha.kind_eq, rfl, ?_⟩
      rw [List.mapM_nil, lowerLinks, List.mapM_nil, pure_bind]
      rfl

/-- Every expression is a chain, and its operands are lowered before its operators. -/
theorem exists_chain {t : Tree} (h : Derived .expr t) :
    ∃ first links, t.chain? = some (first, links) ∧
      lowerExpr t = lowerOperands first links >>= fun places =>
        (Source.Emit.chain none places.1 places.2).run := by
  obtain ⟨info, children⟩ := t
  obtain ⟨p, hp, hf⟩ := h.forall₂ (List.cons_ne_nil _ _)
  fin_cases hp
  rcases hf with _ | ⟨ha, _ | ⟨hb, _ | _⟩⟩
  next a b =>
  obtain ⟨nodes, links, hnodes, hlinks, hmap⟩ := exists_chainLinks b hb
  refine ⟨a, links, ?_, ?_⟩
  · rw [Tree.chain?, hlinks]
    rfl
  · rw [lowerExpr_eq, lowerOperands, bind_assoc]
    refine Tree.expect_bind rfl ha.kind_eq fun _ => ?_
    refine Tree.expect_bind rfl hb.kind_eq fun _ => ?_
    refine bind_congr fun first => ?_
    refine (hnodes.bind (k := fun nodes => nodes.mapM lowerLink >>= reduceLinks [] first)
      fun links => by rw [List.mapM_map]; rfl).trans ?_
    rw [hmap, bind_assoc, bind_assoc]
    refine bind_congr fun rest => ?_
    rw [pure_bind, pure_bind]
    exact reduceLinks_eq none (fun _ h => absurd h (Option.not_mem_none _)) first rest

end Shape

section Bounds

variable {α β : Type} {x : Lowering α} {s : State}

/-- A place that is no temporary from number `n` on. -/
def HandedOut (n : Nat) (place : Operand) : Prop := ∀ i, place = .temp i → i < n

theorem HandedOut.mono {n m : Nat} {place : Operand} (h : HandedOut n place) (hle : n ≤ m) :
    HandedOut m place := fun i hi => Nat.lt_of_lt_of_le (h i hi) hle

/-- If it succeeds from `s`, the state and the result are as `P` says. -/
def Yields (s : State) (x : Lowering α) (P : State → α → Prop) : Prop :=
  ∀ a s', x s = (.ok a, s') → P s' a

theorem yields_bind {f : α → Lowering β} {P : State → β → Prop}
    (h : ∀ a s', x s = (.ok a, s') → Yields s' (f a) P) : Yields s (x >>= f) P := by
  intro b s' hrun
  rw [Failing.bind_apply] at hrun
  rcases hx : x s with ⟨e | a, t⟩
  · rw [hx] at hrun
    cases hrun
  · rw [hx] at hrun
    exact h a t hx b s' hrun

theorem yields_pure {a : α} {P : State → α → Prop} (h : P s a) : Yields s (pure a) P := by
  rintro _ _ ⟨⟩
  exact h

/-- Lowering that comes, from `s`, to a place that has been handed out by then. -/
abbrev EndsAt (s : State) (x : Lowering Operand) : Prop :=
  Yields s x fun s' place => HandedOut s'.temps place

def Ends (x : Lowering Operand) : Prop := ∀ s, EndsAt s x

theorem ends_bind {f : α → Lowering Operand} (h : ∀ a, Ends (f a)) : Ends (x >>= f) :=
  fun _ => yields_bind fun a s' _ => h a s'

theorem ends_pure {place : Operand} (h : ∀ i, place ≠ .temp i) : Ends (pure place) :=
  fun _ => yields_pure fun i hi => absurd hi (h i)

theorem ends_lift {r : Except LoweringError Operand} (h : ∀ i, r ≠ .ok (.temp i)) :
    Ends (liftM r) := by
  intro s
  cases r with
  | error e => exact fun _ _ h => by cases h
  | ok place => exact ends_pure (fun i hi => h i (congrArg _ hi)) s

/-- What is computed into a fresh temporary. -/
theorem ends_fresh (q : Operand → Quad) :
    Ends (do let t ← newTemp; emit (q t); return t) := by
  rintro s _ _ ⟨⟩ i hi
  cases hi
  exact Nat.lt_succ_self _

theorem ends_combine (op : Op) (lhs rhs : Operand) : Ends (combine op lhs rhs) :=
  ends_fresh fun t => .binary op lhs rhs t

theorem endsAt_reduceWaiting {value : Operand} (h : HandedOut s.temps value)
    (waiting : List (Operand × Op)) :
    EndsAt s (reduceWaiting 0 waiting value >>= fun r => pure r.2) := by
  induction waiting generalizing s value with
  | nil =>
    rw [reduceWaiting, pure_bind]
    exact yields_pure h
  | cons entry waiting ih =>
    rw [reduceWaiting_of_le (Nat.zero_le _), bind_assoc]
    exact yields_bind fun t s' ht => ih (ends_combine _ _ _ s t s' ht)

/-- An operator that waits is applied in the end. -/
theorem ends_reduceLinks (entry : Operand × Op) (waiting : List (Operand × Op)) (value : Operand)
    (links : List (Op × Operand)) : Ends (reduceLinks (entry :: waiting) value links) := by
  induction links generalizing entry waiting value with
  | nil =>
    intro s
    rw [reduceLinks, reduceWaiting_of_le (Nat.zero_le _), bind_assoc]
    exact yields_bind fun t s' ht => endsAt_reduceWaiting (ends_combine _ _ _ s t s' ht) waiting
  | cons link rest ih => exact ends_bind fun r => ih _ _ _

theorem endsAt_foldlM {f : Operand → β → Lowering Operand} (hf : ∀ b a, Ends (f b a))
    (l : List β) {place : Operand} (h : HandedOut s.temps place) :
    EndsAt s (l.foldlM f place) := by
  induction l generalizing s place with
  | nil => exact yields_pure h
  | cons a l ih =>
    rw [List.foldlM_cons]
    exact yields_bind fun b s' hb => ih (hf place a s b s' hb)

/-- A place stays handed out. -/
theorem Traced.handedOut {place : Operand} (hx : Traced x) (h : HandedOut s.temps place) {a : α}
    {s' : State} (hrun : x s = (.ok a, s')) : HandedOut s'.temps place := by
  obtain ⟨es, hes⟩ := hx.exists_trace s
  rw [hrun] at hes
  exact h.mono hes.effect.temps_le

theorem traced_lowerLink (link : Tree) : Traced (lowerLink link) := by
  rw [lowerLink]
  refine (traced_lift _).bind fun rel => (traced_lift _).bind fun op => ?_
  exact (traced_lift _).bind fun rhs => (traced_lowerArith rhs.tree).bind fun _ => traced_pure _

mutual

theorem ends_lowerExpr (expr : Tree) : Ends (lowerExpr expr) := by
  rw [lowerExpr_eq]
  refine ends_bind fun head => ends_bind fun tail s => ?_
  refine yields_bind fun first s₁ hfirst => yields_bind fun links s₂ hlinks => ?_
  refine yields_bind fun rest s₃ hrest => ?_
  have hplace : HandedOut s₃.temps first := by
    have hplace := ends_lowerArith head.tree s first s₁ hfirst
    have hplace := (traced_lift _).handedOut hplace hlinks
    refine (traced_mapM (fun link => ?_) links).handedOut hplace hrest
    exact traced_lowerLink link.tree
  cases rest with
  | nil => exact endsAt_reduceWaiting hplace []
  | cons link rest => exact ends_bind (fun r => ends_reduceLinks _ _ _ _) s₃
termination_by sizeOf expr
decreasing_by exact head.lt

theorem ends_lowerArith (arith : Tree) : Ends (lowerArith arith) := by
  rw [lowerArith]
  refine ends_bind fun head => ends_bind fun tail s => ?_
  refine yields_bind fun first s₁ hfirst => yields_bind fun links s₂ hlinks => ?_
  have hplace := ends_lowerTerm head.tree s first s₁ hfirst
  refine endsAt_foldlM (fun lhs link => ?_) links ((traced_lift _).handedOut hplace hlinks)
  refine ends_bind fun add => ends_bind fun op => ends_bind fun term => ends_bind fun rhs => ?_
  exact ends_combine op lhs rhs
termination_by sizeOf arith
decreasing_by exact head.lt

theorem ends_lowerTerm (term : Tree) : Ends (lowerTerm term) := by
  rw [lowerTerm]
  refine ends_bind fun head => ends_bind fun tail s => ?_
  refine yields_bind fun first s₁ hfirst => yields_bind fun links s₂ hlinks => ?_
  have hplace := ends_lowerFactor head.tree s first s₁ hfirst
  refine endsAt_foldlM (fun lhs link => ?_) links ((traced_lift _).handedOut hplace hlinks)
  refine ends_bind fun mul => ends_bind fun op => ends_bind fun factor => ends_bind fun rhs => ?_
  exact ends_combine op lhs rhs
termination_by sizeOf term
decreasing_by exact head.lt

theorem ends_lowerFactor (factor : Tree) : Ends (lowerFactor factor) := by
  rw [lowerFactor]
  refine ends_bind fun first => ends_bind fun kind => ?_
  split
  · refine ends_bind fun name => ends_bind fun tail => ends_bind fun empty => ?_
    split
    · exact ends_pure nofun
    · refine ends_bind fun args => ends_bind fun places => ends_bind fun _ => ?_
      exact ends_fresh fun t => .call name places.length (some t)
  · exact ends_bind fun digits => ends_pure nofun
  · refine ends_bind fun text => ends_lift fun i => ?_
    rw [charOperand]
    split <;> nofun
  · exact ends_bind fun inner => ends_lowerExpr inner.tree
  · exact ends_bind fun operand => ends_bind fun place => ends_fresh fun t => .not place t
  · exact ends_lift nofun
termination_by sizeOf factor
decreasing_by exact inner.lt

end

theorem traced_lowerLinks (links : List (ChainOp × Tree)) : Traced (lowerLinks links) := by
  refine traced_mapM (fun link => ?_) links
  exact (traced_lowerArith link.2).bind fun _ => traced_pure _

theorem yields_lowerLinks (links : List (ChainOp × Tree)) (s : State) :
    Yields s (lowerLinks links) fun s' rest => rest.map Prod.fst = links.map Prod.fst ∧
      ∀ link ∈ rest, HandedOut s'.temps link.2 := by
  induction links generalizing s with
  | nil => exact yields_pure ⟨rfl, List.forall_mem_nil _⟩
  | cons link links ih =>
    rw [lowerLinks, List.mapM_cons, bind_assoc]
    refine yields_bind fun place s₁ hplace => ?_
    rw [pure_bind]
    refine yields_bind fun rest s₂ hrest => ?_
    obtain ⟨hops, hplaces⟩ := ih s₁ rest s₂ hrest
    refine yields_pure ⟨congrArg (link.1 :: ·) hops, List.forall_mem_cons.2 ⟨?_, hplaces⟩⟩
    exact (traced_lowerLinks links).handedOut (ends_lowerArith _ _ _ _ hplace) hrest

/-- No operand of a chain is in a temporary that is still to be handed out. -/
theorem yields_lowerOperands (first : Tree) (links : List (ChainOp × Tree)) (s : State) :
    Yields s (lowerOperands first links) fun s' places =>
      places.2.map Prod.fst = links.map Prod.fst ∧
        ∀ place ∈ places.1 :: places.2.map Prod.snd, HandedOut s'.temps place := by
  refine yields_bind fun place s₁ hplace => yields_bind fun rest s₂ hrest => ?_
  obtain ⟨hops, hplaces⟩ := yields_lowerLinks links s₁ rest s₂ hrest
  refine yields_pure ⟨hops, List.forall_mem_cons.2 ⟨?_, List.forall_mem_map.2 hplaces⟩⟩
  exact (traced_lowerLinks links).handedOut (ends_lowerArith _ _ _ _ hplace) hrest

end Bounds

/-- The operands of a chain are lowered from left to right; if that fails, so does the whole. Then
comes the code of the tree into which the operators group, and its result is that of the tree. The
code has one instruction for each operator and writes temporaries not handed out before. -/
def LowersGrouped (t first : Tree) (links : List (ChainOp × Tree)) : Prop :=
  ∀ s : State,
    match lowerOperands first links s with
    | (.error e, s₁) => lowerExpr t s = (.error e, s₁)
    | (.ok (place, rest), s₁) =>
      rest.map Prod.fst = links.map Prod.fst ∧
      (∀ p ∈ place :: rest.map Prod.snd, HandedOut s₁.temps p) ∧
      ∃ code root,
        Realizes (group place (rest.map fun link => (link.1.1, link.2))) s₁.temps code root ∧
        code.length = links.length ∧
        lowerExpr t s = (.ok root, { s₁ with
          program := s₁.program.extend (code.map fun q => (q, ⟨s₁.line, s₁.component⟩))
          temps := s₁.temps + links.length })

theorem lowersGrouped {t first : Tree} {links : List (ChainOp × Tree)}
    (h : lowerExpr t = lowerOperands first links >>= fun places =>
      (Source.Emit.chain none places.1 places.2).run) : LowersGrouped t first links := by
  intro s
  have hplaces := yields_lowerOperands first links s
  rw [h, Failing.bind_apply]
  rcases hrun : lowerOperands first links s with ⟨e | ⟨place, rest⟩, s₁⟩
  · rfl
  · obtain ⟨hops, hbelow⟩ := hplaces (place, rest) s₁ hrun
    obtain ⟨hcode, htemps⟩ := Source.realizes_emit
      (group place (rest.map fun link => (link.1.1, link.2))) s₁.temps
    have hlength : rest.length = links.length := by
      simpa only [List.length_map] using congrArg List.length hops
    rw [size_group, List.length_map, hlength] at htemps
    refine ⟨hops, hbelow, _, _, hcode, ?_, ?_⟩
    · rw [hcode.length, size_group, List.length_map, hlength]
    · show (Source.Emit.chain none place rest).run s₁ = _
      rw [Source.chain_eq, Source.Emit.run, Source.Emission.run, Source.Emission.straight,
        State.marked_false, htemps]

/-- Every expression in a tree of the source language is a chain, and lowered by its grouping. If
the leaves have the literals that a source gives them, the operands can be lowered. -/
theorem lowerExpr_groups {tree t : Tree} (htree : language.IsDerivation tree)
    (ht : t ∈ tree.preorder) (hlabel : t.label = NodeKind.expr.label) :
    (∃ first links, t.chain? = some (first, links) ∧ LowersGrouped t first links ∧
      (t.Parsed .expr → ∀ s, ∃ places s₁, lowerOperands first links s = (.ok places, s₁))) ∧
    ∀ s operands ops, (lowerExpr t s).1 ≠ .error (.malformedChain operands ops) := by
  have ht' : Derived .expr t :=
    ⟨hlabel, fun n hn => htree n (Tree.preorder_subset ht hn)⟩
  obtain ⟨first, links, hchain, hlower⟩ := exists_chain ht'
  refine ⟨⟨first, links, hchain, lowersGrouped hlower, fun hparsed s => ?_⟩,
    fun s operands ops => (traced_lowerExpr t).ne_malformedChain s operands ops⟩
  obtain ⟨e, -, hrun⟩ := exprLowered t .expr hparsed
  rcases hoperands : lowerOperands first links s with ⟨error | places, s₁⟩
  · have hfail := hlower.symm.trans hrun
    have hfail := congrFun hfail s
    rw [Failing.bind_apply, hoperands] at hfail
    cases hfail
  · exact ⟨places, s₁, rfl⟩

section Conjunction

open Lookahead.Tree (branch emptied)

/-- The expression `a < b && c`. -/
def conjunctionTree : Tree :=
  let operand (name : String) := Language.arithTree
    (branch "Factor" [.node ⟨0, "ID", some name, some 1⟩ [], emptied "FactorTail"])
  let link (op : Symbol) (name : String) (tail : Tree) :=
    branch "ExprTail" [branch "RelOp" [.node ⟨0, op, none, some 1⟩ []], operand name, tail]
  branch "Expr" [operand "a", link "LT" "b" (link "AND" "c" (emptied "ExprTail"))]

end Conjunction

theorem parsed_conjunctionTree : conjunctionTree.Parsed .expr where
  label := rfl
  derivation := by decide +kernel
  leaves := by
    rw [show language.terminalLeaves conjunctionTree = [⟨0, "ID", some "a", some 1⟩,
      ⟨0, "LT", none, some 1⟩, ⟨0, "ID", some "b", some 1⟩, ⟨0, "AND", none, some 1⟩,
      ⟨0, "ID", some "c", some 1⟩] by decide +kernel]
    simp only [List.forall_mem_cons]
    exact ⟨⟨.ident, rfl, ⟨_, rfl, by decide⟩, rfl⟩, ⟨.lt, rfl, trivial, rfl⟩,
      ⟨.ident, rfl, ⟨_, rfl, by decide⟩, rfl⟩, ⟨.and, rfl, trivial, rfl⟩,
      ⟨.ident, rfl, ⟨_, rfl, by decide⟩, rfl⟩, List.forall_mem_nil _⟩

theorem lowerExpr_groups_conjunction :
    (∃ first links,
      conjunctionTree.chain? = some (first, links) ∧ LowersGrouped conjunctionTree first links ∧
        ∀ s, ∃ places s₁, lowerOperands first links s = (.ok places, s₁)) ∧
    ∀ s operands ops, (lowerExpr conjunctionTree s).1 ≠ .error (.malformedChain operands ops) := by
  obtain ⟨⟨first, links, hchain, hgroups, hoperands⟩, hmalformed⟩ :=
    lowerExpr_groups parsed_conjunctionTree.derivation (Tree.mem_preorder_self _)
      parsed_conjunctionTree.label
  exact ⟨⟨first, links, hchain, hgroups, hoperands parsed_conjunctionTree⟩, hmalformed⟩

end Lowering

end Lookahead
