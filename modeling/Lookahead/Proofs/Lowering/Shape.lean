import Lookahead.Proofs.Language.Shape
import Lookahead.Proofs.Lowering.Run

namespace Lookahead

namespace Tree

variable {t c : Tree} {info : Node} {kind : NodeKind}

theorem child_of_lt {i : Nat} (hi : i < t.children.length) (context : String) :
    t.child i context = .ok ⟨t.children[i], sizeOf_lt_of_mem_children (List.getElem_mem hi)⟩ :=
  dif_pos hi

theorem expect_of_kind {i : Nat} (hi : i < t.children.length)
    (hk : t.children[i].kind = .ok kind) (context : String) :
    t.expect i kind context =
      .ok ⟨t.children[i], sizeOf_lt_of_mem_children (List.getElem_mem hi)⟩ := by
  rw [expect, child_of_lt hi]
  change (t.children[i].kind >>= fun k => if k = kind then _ else _) = _
  rw [hk]
  exact if_pos rfl

/-- A child that is of the kind asked for is found. -/
theorem exists_expect {i : Nat} (hi : t.children[i]? = some c) (hk : c.kind = .ok kind)
    (context : String) : ∃ found, t.expect i kind context = .ok found ∧ found.tree = c := by
  obtain ⟨hbound, rfl⟩ := List.getElem?_eq_some_iff.1 hi
  exact ⟨_, expect_of_kind hbound hk context, rfl⟩

theorem expect_bind {α : Type} {children : List Tree} {i : Nat} (hi : children[i]? = some c)
    (hk : c.kind = .ok kind) {context : String}
    {act : (node info children).Below → Lowering α} {x : Lowering α} (h : ∀ hlt, act ⟨c, hlt⟩ = x) :
    (liftM ((node info children).expect i kind context) >>= act : Lowering α) = x := by
  obtain ⟨hbound, rfl⟩ := List.getElem?_eq_some_iff.1 hi
  rw [expect_of_kind (t := node info children) hbound hk, Failing.lift_ok, pure_bind]
  exact h _

theorem child_bind {α : Type} {children : List Tree} {i : Nat} (hi : children[i]? = some c)
    {context : String} {act : (node info children).Below → Lowering α} {x : Lowering α}
    (h : ∀ hlt, act ⟨c, hlt⟩ = x) :
    (liftM ((node info children).child i context) >>= act : Lowering α) = x := by
  obtain ⟨hbound, rfl⟩ := List.getElem?_eq_some_iff.1 hi
  rw [child_of_lt (t := node info children) hbound, Failing.lift_ok, pure_bind]
  exact h _

theorem ident_bind {α : Type} {children : List Tree} {i : Nat} {text context : String}
    (hi : children[i]? = some c) (hk : c.kind = .ok (.terminal .ident))
    (hliteral : c.literal = .ok text) {act : String → Lowering α} :
    (liftM ((node info children).ident i context) >>= act : Lowering α) = act text := by
  obtain ⟨hbound, rfl⟩ := List.getElem?_eq_some_iff.1 hi
  rw [ident, expect_of_kind (t := node info children) hbound hk]
  change (liftM (children[i].literal) >>= act : Lowering α) = act text
  rw [hliteral, Failing.lift_ok, pure_bind]

theorem kind_bind {α : Type} (h : t.kind = .ok kind) {act : NodeKind → Lowering α} :
    (liftM t.kind >>= act : Lowering α) = act kind := by
  rw [h, Failing.lift_ok, pure_bind]

theorem isEmpty_node {rest : List Tree} (h : c.kind = .ok kind) :
    (node info (c :: rest)).isEmpty = .ok (kind = .epsilon) := by
  rw [isEmpty]
  change (c.kind >>= fun k => _) = _
  rw [h]
  rfl

/-- The nodes of a list whose last child is the rest of the list. -/
def Unrolls (t : Tree) (nodes : List Tree) : Prop :=
  ∃ links, t.unroll = .ok links ∧ links.map (·.tree) = nodes

theorem unrolls_nil {rest : List Tree} (ht : (node info (c :: rest)).kind = .ok kind)
    (hc : c.kind = .ok .epsilon) : (node info (c :: rest)).Unrolls [] := by
  refine ⟨[], ?_, rfl⟩
  rw [unroll, ht]
  change unrollAs kind _ = _
  rw [unrollAs, isEmpty_node hc]
  rfl

theorem unrolls_cons {rest : List Tree} {first : NodeKind} {nodes : List Tree} {last : Tree}
    (ht : (node info (c :: rest)).kind = .ok kind) (hc : c.kind = .ok first)
    (hfirst : first ≠ .epsilon) (hlast : (c :: rest).getLast? = some last)
    (hkind : last.kind = .ok kind) (h : last.Unrolls nodes) :
    (node info (c :: rest)).Unrolls (node info (c :: rest) :: nodes) := by
  obtain ⟨links, hlinks, rfl⟩ := h
  rw [unroll, hkind] at hlinks
  change unrollAs kind last = _ at hlinks
  have hlt : sizeOf last < sizeOf (node info (c :: rest)) :=
    sizeOf_lt_of_mem_children (List.mem_of_getLast? hlast)
  refine ⟨⟨_, Nat.le_refl _⟩ :: links.map (·.trans hlt), ?_, ?_⟩
  · rw [unroll, ht]
    change unrollAs kind _ = _
    rw [unrollAs, isEmpty_node hc]
    simp only [hfirst, decide_false, bind, Except.bind, Bool.false_eq_true, if_false]
    have hlast : (node info (c :: rest)).children.getLast? = some last := hlast
    split
    · next h =>
      rw [hlast] at h
      cases h
    · next last' h =>
      rw [hlast] at h
      cases h
      simp only [hkind, if_true, hlinks]
      rfl
  · rw [List.map_cons, List.map_map]
    rfl

theorem Unrolls.bind {α : Type} {nodes : List Tree} (h : t.Unrolls nodes)
    {act : List t.Within → Lowering α} {k : List Tree → Lowering α}
    (hact : ∀ links, act links = k (links.map (·.tree))) :
    (liftM t.unroll >>= act : Lowering α) = k nodes := by
  obtain ⟨links, hlinks, rfl⟩ := h
  rw [hlinks, Failing.lift_ok, pure_bind, hact]

end Tree

namespace Tree.Parsed

open Source

variable {t : Tree}

theorem kind?_eq {kind : NodeKind} (h : Parsed kind t) : kind? t = some kind := by
  rw [kind?, h.label, NodeKind.ofLabel?_label]

theorem ident (h : Parsed (.terminal .ident) t) :
    ∃ x : Name, name? t = some x ∧ t.literal = .ok x.text := by
  obtain ⟨info, rfl, text, hliteral, hname⟩ := h.leaf
  refine ⟨⟨text, hname⟩, ?_, ?_⟩
  · simp only [name?, Tree.info, hliteral, Option.bind_some, hname, dif_pos]
  · simp only [Tree.literal, Tree.info, hliteral]

theorem number (h : Parsed (.terminal .number) t) :
    ∃ digits, t.info.literal = some digits ∧ t.literal = .ok digits := by
  obtain ⟨info, rfl, digits, hliteral⟩ := h.leaf
  refine ⟨digits, hliteral, ?_⟩
  simp only [Tree.literal, Tree.info, hliteral]

theorem charLit (h : Parsed (.terminal .charLit) t) :
    ∃ text c, t.info.literal = some text ∧ t.literal = .ok text ∧ char? text = some c ∧
      Lowering.charOperand text = .ok (.char c) := by
  obtain ⟨info, rfl, c, hliteral⟩ := h.leaf
  refine ⟨String.singleton c, c, hliteral, ?_, ?_, ?_⟩
  · simp only [Tree.literal, Tree.info, hliteral]
  · simp only [char?, String.toList_singleton]
  · simp only [Lowering.charOperand, String.toList_singleton]

theorem operator {kind : Terminal} {op : Op} (h : Parsed (.terminal kind) t)
    (hop : kind.binaryOp? = some op) (info : Node) :
    op? (.node info [t]) = some op ∧
      ∀ context, (node info [t]).operator context = .ok op := by
  constructor
  · rw [op?, show t.label = kind.name from h.label, Terminal.ofName?_name]
    exact hop
  · intro context
    rw [Tree.operator]
    change (t.kind >>= fun kind => _) = _
    rw [h.kind_eq]
    simp only [Bind.bind, Except.bind, hop]
    rfl

end Tree.Parsed

end Lookahead
