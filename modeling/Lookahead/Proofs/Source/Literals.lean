import Lookahead.Proofs.Grammar.Tree
import Lookahead.Proofs.Source.Code

namespace Lookahead

/-- Whether the operand is spelled in the source, and not made up by lowering. -/
def Operand.isLiteral : Operand → Bool
  | name _ | num _ | char _ => true
  | temp _ | param _ | imm _ | label _ => false

def Operand.isLabel : Operand → Bool
  | label _ => true
  | _ => false

/-- An operand with the property that is no label. -/
def Operand.IsValue (P : Operand → Prop) (o : Operand) : Prop := o.isLabel = false ∧ P o

namespace Quad

def operands (q : Quad) : List Operand := q.arg1.toList ++ q.arg2.toList ++ q.result.toList

/-- The instructions of straight-line code, over values with the property. -/
inductive Straight (P : Operand → Prop) : Quad → Prop
  | assign {x : String} {a : Operand} (hx : P (.name x)) (ha : a.IsValue P) :
      Straight P (.assign (.name x) a)
  | binary {op : Op} {a b : Operand} (hop : op.isArithmetic = true ∨ op.precedence?.isSome = true)
      (ha : a.IsValue P) (hb : b.IsValue P) (i : Nat) : Straight P (.binary op a b (.temp i))
  | not {a : Operand} (ha : a.IsValue P) (i : Nat) : Straight P (.not a (.temp i))
  | param {a : Operand} (ha : a.IsValue P) : Straight P (.param a)
  | call {callee : String} (h : P (.name callee)) (count : Nat) :
      Straight P (.call callee count none)
  | callInto {callee : String} (h : P (.name callee)) (count i : Nat) :
      Straight P (.call callee count (some (.temp i)))
  | ret : Straight P (.ret none)
  | retValue {a : Operand} (ha : a.IsValue P) : Straight P (.ret (some a))

theorem Straight.operands {P : Operand → Prop} {q : Quad} (h : q.Straight P)
    (hP : ∀ o, o.isLiteral = false → P o) : ∀ o ∈ q.operands, P o := by
  cases h with
  | assign hx ha => simpa [Quad.operands, Quad.assign] using ⟨ha.2, hx⟩
  | binary _ ha hb i => simpa [Quad.operands, Quad.binary] using ⟨ha.2, hb.2, hP (.temp i) rfl⟩
  | not ha i => simpa [Quad.operands, Quad.not] using ⟨ha.2, hP (.temp i) rfl⟩
  | param ha => simpa [Quad.operands, Quad.param] using ha.2
  | call h count => simpa [Quad.operands, Quad.call] using ⟨h, hP (.imm _) rfl⟩
  | callInto h count i =>
    simpa [Quad.operands, Quad.call] using ⟨h, hP (.imm _) rfl, hP (.temp i) rfl⟩
  | ret => exact List.forall_mem_nil _
  | retValue ha => simpa [Quad.operands, Quad.ret] using ha.2

end Quad

namespace Source

mutual

def Expr.literals : Expr → List Operand
  | .name x => [.name x.text]
  | .num digits => [.num digits]
  | .char c => [.char c]
  | .call callee args => .name callee.text :: args.literals
  | .not e => e.literals
  | .binary _ lhs rhs => lhs.literals ++ rhs.literals
  | .chain first rest => first.literals ++ rest.literals

def Args.literals : Args → List Operand
  | .nil => []
  | .cons e rest => e.literals ++ rest.literals

def Links.literals : Links → List Operand
  | .nil => []
  | .cons _ e rest => e.literals ++ rest.literals

end

def Decl.literals (d : Decl) : List Operand :=
  .name d.target.text :: (d.init.map Expr.literals).getD []

def Update.literals : Update → List Operand
  | .assign target e => .name target.text :: e.literals
  | .step target _ => [.name target.text]

def Simple.literals : Simple → List Operand
  | .declare d => d.literals
  | .update u => u.literals
  | .call callee args => .name callee.text :: args.literals
  | .ret value => (value.map Expr.literals).getD []

section Code

open Emit

variable {α β : Type} {P : Operand → Prop} {Q : α → Prop} {R : β → Prop}

/-- The code is straight over values with the property `P`, and what it comes to has the property
`Q`. -/
def Emit.Uses (P : Operand → Prop) (Q : α → Prop) (x : Emit α) : Prop :=
  ∀ n, (∀ q ∈ (x n).code, q.Straight P) ∧ Q (x n).result

theorem uses_pure {a : α} (h : Q a) : Uses P Q (pure a : Emit α) :=
  fun _ => ⟨List.forall_mem_nil _, h⟩

theorem Emit.Uses.bind {x : Emit α} {f : α → Emit β} (hx : Uses P Q x)
    (hf : ∀ a, Q a → Uses P R (f a)) : Uses P R (x >>= f) := by
  intro n
  obtain ⟨hcode, hresult⟩ := hx n
  obtain ⟨hmore, hlast⟩ := hf _ hresult (x n).temps
  exact ⟨List.forall_mem_append.2 ⟨hcode, hmore⟩, hlast⟩

theorem uses_emit {q : Quad} (h : q.Straight P) : Uses P (fun _ => True) (emit q) :=
  fun _ => ⟨List.forall_mem_singleton.2 h, trivial⟩

variable (hP : ∀ o, o.isLiteral = false → P o)

include hP

/-- An instruction whose result is a fresh temporary. -/
theorem uses_define {q : Operand → Quad} (h : ∀ i, (q (.temp i)).Straight P) :
    Uses P (Operand.IsValue P) (do let t ← newTemp; emit (q t); return t) :=
  fun n => ⟨List.forall_mem_singleton.2 (h n), rfl, hP (.temp n) rfl⟩

theorem uses_apply {op : Op} (hop : op.isArithmetic = true ∨ op.precedence?.isSome = true)
    {lhs rhs : Operand} (hl : lhs.IsValue P) (hr : rhs.IsValue P) :
    Uses P (Operand.IsValue P) (apply op lhs rhs) :=
  uses_define hP (q := fun t => .binary op lhs rhs t) fun i => .binary hop hl hr i

omit hP in
theorem uses_params {places : List Operand} (h : ∀ o ∈ places, o.IsValue P) :
    Uses P (fun _ => True) (params places) := by
  induction places with
  | nil => exact uses_pure trivial
  | cons place rest ih =>
    obtain ⟨hplace, hrest⟩ := List.forall_mem_cons.1 h
    exact (uses_emit (.param hplace)).bind fun _ _ => ih hrest

theorem uses_close {left : Option (Operand × ChainOp)} {value : Operand}
    (hleft : ∀ l ∈ left, l.1.IsValue P) (hvalue : value.IsValue P) :
    Uses P (Operand.IsValue P) (close left value) := by
  cases left with
  | none => exact uses_pure hvalue
  | some waiting => exact uses_apply hP (.inr waiting.2.2) (hleft waiting rfl) hvalue

theorem uses_chain {links : List (ChainOp × Operand)} (hlinks : ∀ link ∈ links, link.2.IsValue P)
    {left : Option (Operand × ChainOp)} {value : Operand} (hleft : ∀ l ∈ left, l.1.IsValue P)
    (hvalue : value.IsValue P) : Uses P (Operand.IsValue P) (chain left value links) := by
  induction links generalizing left value with
  | nil => exact uses_close hP hleft hvalue
  | cons link rest ih =>
    obtain ⟨hlink, hrest⟩ := List.forall_mem_cons.1 hlinks
    rw [chain]
    split
    · exact (uses_apply hP (.inr link.1.2) hvalue hlink).bind fun place hplace =>
        ih hrest hleft hplace
    · refine (uses_close hP hleft hvalue).bind fun place hplace => ih hrest ?_ hlink
      rintro _ ⟨⟩
      exact hplace

omit hP

mutual

theorem uses_expr (hP : ∀ o, o.isLiteral = false → P o) : ∀ e : Expr, (∀ o ∈ e.literals, P o) →
    Uses P (Operand.IsValue P) e.lower
  | .name _, h | .num _, h | .char _, h => uses_pure ⟨rfl, List.forall_mem_singleton.1 h⟩
  | .call callee args, h => by
    obtain ⟨hcallee, hargs⟩ := List.forall_mem_cons.1 h
    refine (uses_args hP args hargs).bind fun places hplaces =>
      (uses_params hplaces).bind fun _ _ =>
        uses_define hP (q := fun t => .call callee.text places.length (some t)) fun i => ?_
    exact .callInto hcallee places.length i
  | .not e, h =>
    (uses_expr hP e h).bind fun place hplace =>
      uses_define hP (q := fun t => .not place t) fun i => .not hplace i
  | .binary op lhs rhs, h => by
    obtain ⟨hl, hr⟩ := List.forall_mem_append.1 h
    exact (uses_expr hP lhs hl).bind fun _ hleft => (uses_expr hP rhs hr).bind fun _ hright =>
      uses_apply hP (.inl op.2) hleft hright
  | .chain first rest, h => by
    obtain ⟨hfirst, hrest⟩ := List.forall_mem_append.1 h
    exact (uses_expr hP first hfirst).bind fun _ hplace =>
      (uses_links hP rest hrest).bind fun _ hlinks =>
        uses_chain hP hlinks (fun _ h => absurd h (Option.not_mem_none _)) hplace

theorem uses_args (hP : ∀ o, o.isLiteral = false → P o) : ∀ args : Args,
    (∀ o ∈ args.literals, P o) →
      Uses P (fun places => ∀ o ∈ places, Operand.IsValue P o) args.lower
  | .nil, _ => uses_pure (List.forall_mem_nil _)
  | .cons e rest, h => by
    obtain ⟨he, hrest⟩ := List.forall_mem_append.1 h
    exact (uses_expr hP e he).bind fun _ hplace => (uses_args hP rest hrest).bind fun _ hplaces =>
      uses_pure (List.forall_mem_cons.2 ⟨hplace, hplaces⟩)

theorem uses_links (hP : ∀ o, o.isLiteral = false → P o) : ∀ links : Links,
    (∀ o ∈ links.literals, P o) →
      Uses P (fun links => ∀ link ∈ links, Operand.IsValue P link.2) links.lower
  | .nil, _ => uses_pure (List.forall_mem_nil _)
  | .cons op e rest, h => by
    obtain ⟨he, hrest⟩ := List.forall_mem_append.1 h
    exact (uses_expr hP e he).bind fun _ hplace => (uses_links hP rest hrest).bind fun _ hlinks =>
      uses_pure (List.forall_mem_cons.2 ⟨hplace, hlinks⟩)

end

theorem uses_assign {target : Name} {x : Emit Operand} (htarget : P (.name target.text))
    (hx : Uses P (Operand.IsValue P) x) :
    Uses P (fun _ => True) (x >>= fun place => emit (.assign (.name target.text) place)) :=
  hx.bind fun _ hplace => uses_emit (.assign htarget hplace)

include hP

theorem uses_decl {d : Decl} (h : ∀ o ∈ d.literals, P o) : Uses P (fun _ => True) d.lower := by
  obtain ⟨target, _ | e⟩ := d
  · exact uses_pure trivial
  · obtain ⟨htarget, he⟩ := List.forall_mem_cons.1 h
    exact uses_assign htarget (uses_expr hP e he)

theorem uses_update {u : Update} (h : ∀ o ∈ u.literals, P o) :
    Uses P (fun _ => True) u.lower := by
  cases u with
  | assign target e =>
    obtain ⟨htarget, he⟩ := List.forall_mem_cons.1 h
    exact uses_assign htarget (uses_expr hP e he)
  | step target op =>
    have htarget := List.forall_mem_singleton.1 h
    exact uses_assign htarget
      (uses_apply hP (.inl op.2) ⟨rfl, htarget⟩ ⟨rfl, hP (.imm 1) rfl⟩)

theorem uses_simple {s : Simple} (h : ∀ o ∈ s.literals, P o) :
    Uses P (fun _ => True) s.lower := by
  cases s with
  | declare d => exact uses_decl hP h
  | update u => exact uses_update hP h
  | call callee args =>
    obtain ⟨hcallee, hargs⟩ := List.forall_mem_cons.1 h
    exact (uses_args hP args hargs).bind fun places hplaces => (uses_params hplaces).bind fun _ _ =>
      uses_emit (.call hcallee places.length)
  | ret value =>
    cases value with
    | none => exact uses_emit .ret
    | some e => exact (uses_expr hP e h).bind fun _ hplace => uses_emit (.retValue hplace)

theorem uses_moves {params : List Name} (h : ∀ x ∈ params, P (.name x.text)) (n : Nat) :
    Uses P (fun _ => True) (moves n params) := by
  induction params generalizing n with
  | nil => exact uses_pure trivial
  | cons x rest ih =>
    obtain ⟨hx, hrest⟩ := List.forall_mem_cons.1 h
    exact (uses_emit (.assign hx ⟨rfl, hP (.param (n + 1)) rfl⟩)).bind fun _ _ => ih hrest (n + 1)

end Code

end Source

section Nodes

open Source

/-- The operand that a token of this kind stands for, with the literal given. -/
def Terminal.operand? : Terminal → String → Option Operand
  | ident, text => some (.name text)
  | number, digits => some (.num digits)
  | charLit, text => (char? text).map .char
  | _, _ => none

namespace Tree

def operand? (t : Tree) : Option Operand :=
  match kind? t with
  | some (.terminal kind) => t.info.literal.bind kind.operand?
  | _ => none

/-- All operands that the nodes of a tree stand for have the property. -/
def Spells (P : Operand → Prop) (t : Tree) : Prop := ∀ s ∈ t.preorder, ∀ o ∈ s.operand?, P o

variable {P : Operand → Prop} {t c : Tree} {info : Node} {children : List Tree}

theorem Spells.child (h : (node info children).Spells P) (hc : c ∈ children) : c.Spells P := by
  intro s hs
  apply h
  rw [preorder_node]
  exact List.mem_cons_of_mem _ (List.mem_flatMap.2 ⟨c, hc, hs⟩)

theorem Spells.here (h : t.Spells P) {kind : Terminal} (hk : kind? t = some (.terminal kind))
    {text : String} (hliteral : t.info.literal = some text) : ∀ o ∈ kind.operand? text, P o := by
  intro o ho
  apply h t (mem_preorder_self t)
  simp only [operand?, hk, hliteral, Option.bind_some]
  exact ho

theorem Spells.name (h : t.Spells P) (hk : kind? t = some (.terminal .ident)) {x : Name}
    (hx : name? t = some x) : P (.name x.text) :=
  h.here hk (text_of_name? hx) _ rfl

end Tree

end Nodes

namespace Source

/-- What is read from a node, as whatever part of an expression it is read, has only operands with
the property. -/
structure ReadsSpelled (P : Operand → Prop) (t : Tree) : Prop where
  expr : ∀ e, readExpr t = some e → ∀ o ∈ e.literals, P o
  links : ∀ links, readLinks t = some links → ∀ o ∈ links.literals, P o
  arith : ∀ e, readArith t = some e → ∀ o ∈ e.literals, P o
  sum : ∀ lhs e, (∀ o ∈ lhs.literals, P o) → readSum lhs t = some e → ∀ o ∈ e.literals, P o
  term : ∀ e, readTerm t = some e → ∀ o ∈ e.literals, P o
  product : ∀ lhs e, (∀ o ∈ lhs.literals, P o) → readProduct lhs t = some e →
    ∀ o ∈ e.literals, P o
  factor : ∀ e, readFactor t = some e → ∀ o ∈ e.literals, P o
  reference : ∀ x e, P (.name x.text) → readReference x t = some e → ∀ o ∈ e.literals, P o
  args : ∀ args, readArgs t = some args → ∀ o ∈ args.literals, P o
  moreArgs : ∀ args, readMoreArgs t = some args → ∀ o ∈ args.literals, P o

section Reading

open Option (bind_eq_some_iff map_eq_some_iff)

variable {P : Operand → Prop} {info : Node} {children : List Tree}
  (ih : ∀ c ∈ children, c.Spells P ∧ ReadsSpelled P c)

include ih

theorem spelled_readExpr {e : Expr} (h : readExpr (.node info children) = some e) :
    ∀ o ∈ e.literals, P o := by
  unfold readExpr at h
  split at h
  · next heq =>
    cases heq
    obtain ⟨first, hfirst, h⟩ := bind_eq_some_iff.1 h
    obtain ⟨links, hlinks, h⟩ := bind_eq_some_iff.1 h
    cases h
    exact List.forall_mem_append.2
      ⟨(ih _ (by simp)).2.arith first hfirst, (ih _ (by simp)).2.links links hlinks⟩
  · cases h

theorem spelled_readLinks {links : Links} (h : readLinks (.node info children) = some links) :
    ∀ o ∈ links.literals, P o := by
  unfold readLinks at h
  split at h
  · cases h
    exact List.forall_mem_nil _
  · next heq =>
    cases heq
    obtain ⟨op, -, h⟩ := bind_eq_some_iff.1 h
    obtain ⟨e, he, h⟩ := bind_eq_some_iff.1 h
    obtain ⟨rest, hrest, h⟩ := bind_eq_some_iff.1 h
    cases h
    exact List.forall_mem_append.2
      ⟨(ih _ (by simp)).2.arith e he, (ih _ (by simp)).2.links rest hrest⟩
  · cases h

theorem spelled_readArith {e : Expr} (h : readArith (.node info children) = some e) :
    ∀ o ∈ e.literals, P o := by
  unfold readArith at h
  split at h
  · next heq =>
    cases heq
    obtain ⟨first, hfirst, h⟩ := bind_eq_some_iff.1 h
    exact (ih _ (by simp)).2.sum first e ((ih _ (by simp)).2.term first hfirst) h
  · cases h

theorem spelled_readSum {lhs e : Expr} (hlhs : ∀ o ∈ lhs.literals, P o)
    (h : readSum lhs (.node info children) = some e) : ∀ o ∈ e.literals, P o := by
  unfold readSum at h
  split at h
  · cases h
    exact hlhs
  · next heq =>
    cases heq
    obtain ⟨op, -, h⟩ := bind_eq_some_iff.1 h
    obtain ⟨rhs, hrhs, h⟩ := bind_eq_some_iff.1 h
    have hboth : ∀ o ∈ (Expr.binary op lhs rhs).literals, P o :=
      List.forall_mem_append.2 ⟨hlhs, (ih _ (by simp)).2.term rhs hrhs⟩
    exact (ih _ (by simp)).2.sum _ e hboth h
  · cases h

theorem spelled_readTerm {e : Expr} (h : readTerm (.node info children) = some e) :
    ∀ o ∈ e.literals, P o := by
  unfold readTerm at h
  split at h
  · next heq =>
    cases heq
    obtain ⟨first, hfirst, h⟩ := bind_eq_some_iff.1 h
    exact (ih _ (by simp)).2.product first e ((ih _ (by simp)).2.factor first hfirst) h
  · cases h

theorem spelled_readProduct {lhs e : Expr} (hlhs : ∀ o ∈ lhs.literals, P o)
    (h : readProduct lhs (.node info children) = some e) : ∀ o ∈ e.literals, P o := by
  unfold readProduct at h
  split at h
  · cases h
    exact hlhs
  · next heq =>
    cases heq
    obtain ⟨op, -, h⟩ := bind_eq_some_iff.1 h
    obtain ⟨rhs, hrhs, h⟩ := bind_eq_some_iff.1 h
    have hboth : ∀ o ∈ (Expr.binary op lhs rhs).literals, P o :=
      List.forall_mem_append.2 ⟨hlhs, (ih _ (by simp)).2.factor rhs hrhs⟩
    exact (ih _ (by simp)).2.product _ e hboth h
  · cases h

theorem spelled_readFactor {e : Expr} (h : readFactor (.node info children) = some e) :
    ∀ o ∈ e.literals, P o := by
  unfold readFactor at h
  split at h
  · next leaf heq =>
    cases heq
    have hleaf := (ih leaf List.mem_cons_self).1
    split at h
    · next hk =>
      obtain ⟨digits, hliteral, rfl⟩ := map_eq_some_iff.1 h
      exact List.forall_mem_singleton.2 (hleaf.here hk hliteral _ rfl)
    · next hk =>
      obtain ⟨c, hc, rfl⟩ := map_eq_some_iff.1 h
      obtain ⟨text, hliteral, hchar⟩ := bind_eq_some_iff.1 hc
      refine List.forall_mem_singleton.2 (hleaf.here hk hliteral _ ?_)
      exact map_eq_some_iff.2 ⟨c, hchar, rfl⟩
    · cases h
  · next first second heq =>
    cases heq
    split at h
    · next hk =>
      obtain ⟨x, hx, h⟩ := bind_eq_some_iff.1 h
      exact (ih second (by simp)).2.reference x e ((ih first (by simp)).1.name hk hx) h
    · obtain ⟨e, he, rfl⟩ := map_eq_some_iff.1 h
      exact (ih second (by simp)).2.factor e he
    · cases h
  · next heq =>
    cases heq
    exact (ih _ (by simp)).2.expr e h
  · cases h

theorem spelled_readReference {x : Name} {e : Expr} (hx : P (.name x.text))
    (h : readReference x (.node info children) = some e) : ∀ o ∈ e.literals, P o := by
  unfold readReference at h
  split at h
  · cases h
    exact List.forall_mem_singleton.2 hx
  · next heq =>
    cases heq
    obtain ⟨args, hargs, rfl⟩ := map_eq_some_iff.1 h
    exact List.forall_mem_cons.2 ⟨hx, (ih _ (by simp)).2.args args hargs⟩
  · cases h

theorem spelled_readArgs {args : Args} (h : readArgs (.node info children) = some args) :
    ∀ o ∈ args.literals, P o := by
  unfold readArgs at h
  split at h
  · cases h
    exact List.forall_mem_nil _
  · next heq =>
    cases heq
    obtain ⟨e, he, h⟩ := bind_eq_some_iff.1 h
    obtain ⟨rest, hrest, h⟩ := bind_eq_some_iff.1 h
    cases h
    exact List.forall_mem_append.2
      ⟨(ih _ (by simp)).2.expr e he, (ih _ (by simp)).2.moreArgs rest hrest⟩
  · cases h

theorem spelled_readMoreArgs {args : Args} (h : readMoreArgs (.node info children) = some args) :
    ∀ o ∈ args.literals, P o := by
  unfold readMoreArgs at h
  split at h
  · cases h
    exact List.forall_mem_nil _
  · next heq =>
    cases heq
    obtain ⟨e, he, h⟩ := bind_eq_some_iff.1 h
    obtain ⟨rest, hrest, h⟩ := bind_eq_some_iff.1 h
    cases h
    exact List.forall_mem_append.2
      ⟨(ih _ (by simp)).2.expr e he, (ih _ (by simp)).2.moreArgs rest hrest⟩
  · cases h

omit ih

theorem readsSpelled {t : Tree} (h : t.Spells P) : ReadsSpelled P t := by
  induction t using Tree.induct with
  | node info children ih =>
    have ih : ∀ c ∈ children, c.Spells P ∧ ReadsSpelled P c :=
      fun c hc => ⟨h.child hc, ih c hc (h.child hc)⟩
    exact {
      expr := fun _ => spelled_readExpr ih
      links := fun _ => spelled_readLinks ih
      arith := fun _ => spelled_readArith ih
      sum := fun _ _ => spelled_readSum ih
      term := fun _ => spelled_readTerm ih
      product := fun _ _ => spelled_readProduct ih
      factor := fun _ => spelled_readFactor ih
      reference := fun _ _ => spelled_readReference ih
      args := fun _ => spelled_readArgs ih
      moreArgs := fun _ => spelled_readMoreArgs ih }

end Reading

end Source

end Lookahead
