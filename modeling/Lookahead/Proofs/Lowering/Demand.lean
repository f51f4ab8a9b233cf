import Lookahead.Proofs.Derivation.Respelling
import Lookahead.Proofs.Lowering.Function

namespace Lookahead

open Grammar (language)

namespace Lowering

section Rules

variable {α β : Type} {K : α → Prop} {K' : β → Prop}

/-- The result, if there is one, meets `K`; otherwise a child is missing. -/
def Verdict (K : α → Prop) : Except LoweringError α → Prop
  | .ok a => K a
  | .error e => ∃ context index, e = .missingChild context index

/-- From every state, the verdict on the result is as said. -/
def Demands (K : α → Prop) (act : Lowering α) : Prop := ∀ s, Verdict K (act s).1

theorem Verdict.bind {x : Except LoweringError α} {f : α → Except LoweringError β}
    (hx : Verdict K x) (hf : ∀ a, K a → Verdict K' (f a)) : Verdict K' (x >>= f) := by
  cases x with
  | error e => exact hx
  | ok a => exact hf a hx

theorem Verdict.demands {x : Except LoweringError α} (hx : Verdict K x) :
    Demands K (liftM x : Lowering α) := fun _ => hx

theorem Demands.bind {act : Lowering α} {f : α → Lowering β} (hact : Demands K act)
    (hf : ∀ a, K a → Demands K' (f a)) : Demands K' (act >>= f) := by
  intro s
  have h := hact s
  rw [Failing.bind_apply]
  rcases hrun : act s with ⟨e | a, s'⟩
  · rw [hrun] at h
    exact h
  · rw [hrun] at h
    exact hf a h s'

/-- Nothing is known of the results of the first action. -/
theorem Demands.skip {act : Lowering α} {f : α → Lowering β} (hact : Demands (fun _ => True) act)
    (hf : ∀ a, Demands K' (f a)) : Demands K' (act >>= f) :=
  hact.bind fun a _ => hf a

theorem Demands.imp {K' : α → Prop} {act : Lowering α} (h : Demands K act)
    (himp : ∀ a, K a → K' a) : Demands K' act := by
  intro s
  have h := h s
  rcases hrun : (act s).1 with e | a
  · rw [hrun] at h
    exact h
  · rw [hrun] at h
    exact himp a h

/-- The action asks for nothing that is not known already. -/
theorem Demands.of_true {act : Lowering α} {K : Prop} (h : Demands (fun _ => True) act) (hK : K) :
    Demands (fun _ => K) act :=
  h.imp fun _ _ => hK

theorem Demands.withLine {act : Lowering α} (h : Demands K act) (t : Tree) :
    Demands K (withLine t act) := fun _ => h _

theorem Demands.withComponent {act : Lowering α} (h : Demands K act) (component : Component) :
    Demands K (withComponent component act) := fun _ => h _

theorem verdict_mapM {P : α → β → Prop} {f : α → Except LoweringError β} {xs : List α}
    (h : ∀ x ∈ xs, Verdict (P x) (f x)) : Verdict (List.Forall₂ P xs) (xs.mapM f) := by
  induction xs with
  | nil => exact .nil
  | cons x xs ih =>
    rw [List.mapM_cons]
    refine (h x List.mem_cons_self).bind fun y hy => ?_
    refine (ih fun x' hx' => h x' (List.mem_cons_of_mem x hx')).bind fun ys hys => ?_
    exact .cons hy hys

theorem demands_mapM {P : α → Prop} {f : α → Lowering β} {xs : List α}
    (h : ∀ x ∈ xs, Demands (fun _ => P x) (f x)) :
    Demands (fun _ => ∀ x ∈ xs, P x) (xs.mapM f) := by
  induction xs with
  | nil => exact fun _ _ hx => absurd hx List.not_mem_nil
  | cons x xs ih =>
    rw [List.mapM_cons]
    refine (h x List.mem_cons_self).bind fun y hy => ?_
    refine (ih fun x' hx' => h x' (List.mem_cons_of_mem x hx')).bind fun ys hys => ?_
    exact fun _ => List.forall_mem_cons.2 ⟨hy, hys⟩

theorem demands_forM {P : α → Prop} {f : α → Lowering PUnit} {xs : List α}
    (h : ∀ x ∈ xs, Demands (fun _ => P x) (f x)) :
    Demands (fun _ => ∀ x ∈ xs, P x) (xs.forM f) := by
  induction xs with
  | nil => exact fun _ _ hx => absurd hx List.not_mem_nil
  | cons x xs ih =>
    refine (h x List.mem_cons_self).bind fun _ hy => ?_
    refine (ih fun x' hx' => h x' (List.mem_cons_of_mem x hx')).imp fun _ hys => ?_
    exact List.forall_mem_cons.2 ⟨hy, hys⟩

theorem demands_forM_true {f : α → Lowering PUnit} {xs : List α}
    (h : ∀ x, Demands (fun _ => True) (f x)) : Demands (fun _ => True) (xs.forM f) :=
  (demands_forM fun x _ => h x).imp fun _ _ => trivial

theorem demands_foldlM {P : α → Prop} {f : β → α → Lowering β} {xs : List α}
    (h : ∀ x ∈ xs, ∀ b, Demands (fun _ => P x) (f b x)) (b : β) :
    Demands (fun _ => ∀ x ∈ xs, P x) (xs.foldlM f b) := by
  induction xs generalizing b with
  | nil => exact fun _ _ hx => absurd hx List.not_mem_nil
  | cons x xs ih =>
    rw [List.foldlM_cons]
    refine (h x List.mem_cons_self b).bind fun b' hy => ?_
    refine (ih (fun x' hx' => h x' (List.mem_cons_of_mem x hx')) b').imp fun _ hys => ?_
    exact List.forall_mem_cons.2 ⟨hy, hys⟩

end Rules

section Children

variable {α : Type} {K : α → Prop} {info : Node} {children : List Tree} {c : Tree}
  {kind : NodeKind} {i : Nat} {context : String}

/-- A child that is there has to be of the kind asked for. -/
theorem verdict_expect {t : Tree} (h : ∀ c, t.children[i]? = some c → c.kind = .ok kind) :
    Verdict (fun found => t.children[i]? = some found.tree) (t.expect i kind context) := by
  by_cases hi : i < t.children.length
  · rw [Tree.expect_of_kind hi (h _ (List.getElem?_eq_getElem hi))]
    exact List.getElem?_eq_getElem hi
  · rw [Tree.expect, Tree.child, dif_neg hi]
    exact ⟨context, i, rfl⟩

theorem verdict_expect_bind (hi : children[i]? = some c) (hk : c.kind = .ok kind)
    {act : (Tree.node info children).Below → Except LoweringError α}
    (h : ∀ hlt, Verdict K (act ⟨c, hlt⟩)) :
    Verdict K ((Tree.node info children).expect i kind context >>= act) := by
  obtain ⟨hbound, rfl⟩ := List.getElem?_eq_some_iff.1 hi
  rw [Tree.expect_of_kind (t := .node info children) hbound hk]
  exact h _

theorem demands_expect (hi : children[i]? = some c) (hk : c.kind = .ok kind)
    {act : (Tree.node info children).Below → Lowering α} (h : ∀ hlt, Demands K (act ⟨c, hlt⟩)) :
    Demands K (liftM ((Tree.node info children).expect i kind context) >>= act) := by
  obtain ⟨hbound, rfl⟩ := List.getElem?_eq_some_iff.1 hi
  rw [Tree.expect_of_kind (t := .node info children) hbound hk, Failing.lift_ok, pure_bind]
  exact h _

theorem demands_child (hi : children[i]? = some c)
    {act : (Tree.node info children).Below → Lowering α} (h : ∀ hlt, Demands K (act ⟨c, hlt⟩)) :
    Demands K (liftM ((Tree.node info children).child i context) >>= act) := by
  obtain ⟨hbound, rfl⟩ := List.getElem?_eq_some_iff.1 hi
  rw [Tree.child_of_lt (t := .node info children) hbound, Failing.lift_ok, pure_bind]
  exact h _

/-- A node without children has none to expect. -/
theorem demands_expect_nil {act : (Tree.node info []).Below → Lowering α} :
    Demands K (liftM ((Tree.node info []).expect i kind context) >>= act) :=
  fun _ => ⟨context, i, rfl⟩

end Children

end Lowering

/-- A node of the given kind in a tree that was derived from a source, with the empty productions
that `bare` chooses spelled with no symbol. -/
structure Tree.Spelled (bare : Symbol → Bool) (kind : NodeKind) (t : Tree) : Prop where
  label : t.label = kind.label
  derivation : (language.respell bare).IsDerivation t
  leaves : ∀ n ∈ language.terminalLeaves t, ∃ kind : Terminal, n.label = kind.name ∧
    Lexeme.HasLiteral kind n.literal ∧ n.line.isSome = true

namespace Tree.Spelled

variable {bare : Symbol → Bool} {kind : NodeKind} {t : Tree} {info : Node} {children : List Tree}

theorem kind_eq (h : Spelled bare kind t) : t.kind = .ok kind := by
  rw [Tree.kind, h.label, NodeKind.ofLabel?_label]

/-- The children are of the kinds of a production, or there are none in place of `EPSILON`. -/
theorem forall₂ (h : Spelled bare kind (.node info children)) (hk : kind.productions ≠ [])
    {Q : NodeKind → Tree → Prop} (hQ : ∀ c ∈ children, ∀ k, Spelled bare k c → Q k c) :
    (∃ p ∈ kind.productions, List.Forall₂ Q p children) ∨
      [.epsilon] ∈ kind.productions ∧ children = [] := by
  have hlabel : info.label = kind.label := h.label
  have hr : language.isRule info.label = true := hlabel ▸ NodeKind.isRule_label hk
  have hp := h.derivation.production ((Grammar.isRule_respell language bare _).trans hr)
  rw [Tree.label_node, Grammar.productions_respell, hlabel, NodeKind.productions_label] at hp
  obtain ⟨q, hq, hp⟩ := List.mem_map.1 hp
  obtain ⟨p, hmem, rfl⟩ := List.mem_map.1 hq
  rcases Production.respell_cases (bare kind.label) (p.map NodeKind.label) with heq | ⟨hε, heq⟩
  · rw [heq] at hp
    refine .inl ⟨p, hmem, NodeKind.forall₂_of_labels hp fun c hc k hk => ?_⟩
    refine hQ c hc k ⟨hk, h.derivation.child hc, fun n hn => h.leaves n ?_⟩
    rw [Grammar.terminalLeaves_node children hr]
    exact List.mem_flatMap.2 ⟨c, hc, hn⟩
  · rw [heq] at hp
    obtain ⟨k, rfl, hk⟩ := List.map_eq_singleton_iff.1 hε
    obtain rfl : .epsilon = k := Option.some.inj (by
      rw [← NodeKind.ofLabel?_label k, hk]
      exact NodeKind.ofLabel?_label .epsilon)
    exact .inr ⟨hmem, List.map_eq_nil_iff.1 hp.symm⟩

theorem production (h : Spelled bare kind (.node info children)) (hk : kind.productions ≠ [])
    (hε : [.epsilon] ∉ kind.productions) {Q : NodeKind → Tree → Prop}
    (hQ : ∀ c ∈ children, ∀ k, Spelled bare k c → Q k c) :
    ∃ p ∈ kind.productions, List.Forall₂ Q p children :=
  (h.forall₂ hk hQ).resolve_right fun hnil => hε hnil.1

/-- A tree without a node that lacks its children is one of the source language. -/
theorem parsed (h : Spelled bare kind t) (hwhole : t.Whole language) : Parsed kind t := by
  refine ⟨h.label, fun n hn => ?_, h.leaves⟩
  have hexpands := h.derivation n hn
  rw [Grammar.Expands, Grammar.isRule_respell, Grammar.productions_respell] at hexpands
  rw [Grammar.Expands]
  split
  · next hr =>
    rw [if_pos hr] at hexpands
    obtain ⟨p, hp, hlabels⟩ := List.mem_map.1 hexpands
    rcases Production.respell_cases (bare n.label) p with heq | ⟨-, heq⟩
    · rwa [← hlabels, heq]
    · rw [heq] at hlabels
      exact absurd (List.map_eq_nil_iff.1 hlabels.symm) (hwhole n hn hr)
  · next hr => rwa [if_neg hr] at hexpands

theorem whole_of_isRule (h : Spelled bare kind t) (hr : language.isRule kind.label = false) :
    t.Whole language := by
  obtain ⟨info, children⟩ := t
  have hlabel : info.label = kind.label := h.label
  obtain rfl : children = [] := h.derivation.children_eq_nil (by
    rw [Grammar.isRule_respell, Tree.label_node, hlabel, hr])
  refine Tree.whole_node.2 ⟨fun hrule => ?_, fun c hc => absurd hc List.not_mem_nil⟩
  rw [hlabel, hr] at hrule
  cases hrule

theorem whole_terminal {kind : Terminal} (h : Spelled bare (.terminal kind) t) :
    t.Whole language :=
  h.whole_of_isRule (Language.isRule_name kind)

theorem whole_epsilon (h : Spelled bare .epsilon t) : t.Whole language :=
  h.whole_of_isRule Grammar.isRule_epsilon_language

theorem parsed_terminal {kind : Terminal} (h : Spelled bare (.terminal kind) t) :
    Parsed (.terminal kind) t :=
  h.parsed h.whole_terminal

end Tree.Spelled

namespace Tree

/-- There are children, and all but the last are whole. -/
def WholeFront (t : Tree) : Prop :=
  t.children ≠ [] ∧ ∀ c ∈ t.children.dropLast, c.Whole language

theorem whole_cons {info : Node} {c : Tree} {rest : List Tree} :
    (node info (c :: rest)).Whole language ↔ ∀ x ∈ c :: rest, x.Whole language := by
  rw [whole_node]
  exact ⟨fun h => h.2, fun h => ⟨fun _ => List.cons_ne_nil c rest, h⟩⟩

theorem WholeFront.whole {t last : Tree} (h : t.WholeFront)
    (hlast : t.children.getLast? = some last) (hwhole : last.Whole language) :
    t.Whole language := by
  obtain ⟨info, children⟩ := t
  refine whole_node.2 ⟨fun _ => h.1, fun c hc => ?_⟩
  change c ∈ (node info children).children at hc
  rw [← List.dropLast_append_getLast? last hlast, List.mem_append, List.mem_singleton] at hc
  rcases hc with hc | rfl
  · exact h.2 c hc
  · exact hwhole

theorem unrolls_childless {info : Node} {kind : NodeKind} (h : (node info []).kind = .ok kind) :
    (node info []).Unrolls [node info []] := by
  refine ⟨[⟨_, Nat.le_refl _⟩], ?_, rfl⟩
  rw [unroll, h]
  change unrollAs kind _ = _
  rw [unrollAs]
  rfl

end Tree

namespace Lowering

open Lookahead.Tree (Spelled)
open Failing (lift_ok)

/-- The list `t` is whole if each of its nodes meets what is asked of it. -/
inductive TailDemands (asks : Prop → Tree → Prop) (t : Tree) : Prop
  | intro (nodes : List Tree) (unrolls : t.Unrolls nodes)
      (asked : ∀ n ∈ nodes, asks n.WholeFront n)
      (whole : (∀ n ∈ nodes, n.WholeFront) → t.Whole language)

section Tails

variable {asks : Prop → Tree → Prop} {bare : Symbol → Bool} {kind first : NodeKind} {info : Node}
  {a last : Tree} {rest : List Tree}

theorem tailDemands_nil (h : Spelled bare kind (.node info [a])) (ha : Spelled bare .epsilon a) :
    TailDemands asks (.node info [a]) := by
  refine ⟨[], Tree.unrolls_nil h.kind_eq ha.kind_eq, fun n hn => absurd hn List.not_mem_nil, ?_⟩
  intro _
  rw [Tree.whole_cons, List.forall_mem_singleton]
  exact ha.whole_epsilon

/-- Where the list ends in a node without children, that node counts as one more item of it. -/
theorem tailDemands_childless (h : Spelled bare kind (.node info []))
    (hasks : ∀ K, asks K (.node info [])) : TailDemands asks (.node info []) := by
  refine ⟨_, Tree.unrolls_childless h.kind_eq, ?_, fun hn => ?_⟩
  · rw [List.forall_mem_singleton]
    exact hasks _
  · exact absurd rfl (hn _ List.mem_cons_self).1

theorem tailDemands_cons (h : Spelled bare kind (.node info (a :: rest)))
    (ha : Spelled bare first a) (hfirst : first ≠ .epsilon)
    (hkind : Spelled bare kind last) (htail : TailDemands asks last)
    (hlast : (a :: rest).getLast? = some last)
    (hasks : asks (Tree.WholeFront (.node info (a :: rest))) (.node info (a :: rest))) :
    TailDemands asks (.node info (a :: rest)) := by
  obtain ⟨nodes, hnodes, hmore, hwhole⟩ := htail
  refine ⟨_, Tree.unrolls_cons h.kind_eq ha.kind_eq hfirst hlast hkind.kind_eq hnodes, ?_, ?_⟩
  · exact List.forall_mem_cons.2 ⟨hasks, hmore⟩
  · intro hn
    obtain ⟨hfront, hn⟩ := List.forall_mem_cons.1 hn
    exact hfront.whole hlast (hwhole hn)

variable {α β : Type} {t : Tree}

theorem TailDemands.mapM {f : Tree → Lowering α} {K : β → Prop}
    (h : TailDemands (fun K n => Demands (fun _ => K) (f n)) t) {act : List α → Lowering β}
    (hact : ∀ rest, t.Whole language → Demands K (act rest)) :
    Demands K (liftM t.unroll >>= fun links => links.mapM (fun link => f link.tree) >>= act) := by
  obtain ⟨nodes, hnodes, hasked, hwhole⟩ := h
  rw [hnodes.bind (k := fun nodes => nodes.mapM f >>= act) fun links => by rw [List.mapM_map]; rfl]
  exact (demands_mapM hasked).bind fun rest hrest => hact rest (hwhole hrest)

theorem TailDemands.foldlM {f : α → Tree → Lowering α}
    (h : TailDemands (fun K n => ∀ a, Demands (fun _ => K) (f a n)) t) (a : α) :
    Demands (fun _ => t.Whole language)
      (liftM t.unroll >>= fun links => links.foldlM (fun a link => f a link.tree) a) := by
  obtain ⟨nodes, hnodes, hasked, hwhole⟩ := h
  rw [hnodes.bind (k := fun nodes => nodes.foldlM f a) fun links => by rw [List.foldlM_map]]
  exact (demands_foldlM hasked a).imp fun _ => hwhole

theorem TailDemands.forM {f : Tree → Lowering PUnit}
    (h : TailDemands (fun K n => Demands (fun _ => K) (f n)) t) :
    Demands (fun _ => t.Whole language)
      (liftM t.unroll >>= fun links => links.forM fun link => f link.tree) := by
  obtain ⟨nodes, hnodes, hasked, hwhole⟩ := h
  have hforM : (liftM t.unroll >>= fun links => links.forM fun link => f link.tree) =
      nodes.forM f :=
    hnodes.bind (k := fun nodes => nodes.forM f) fun links => List.forM_map.symm
  rw [hforM]
  exact (demands_forM hasked).imp fun _ => hwhole

end Tails

end Lowering

end Lookahead
