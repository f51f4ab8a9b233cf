import Lookahead.Proofs.Language.Leaves
import Lookahead.Proofs.Layout.Append
import Lookahead.Proofs.Source.Moved

namespace Lookahead

open Grammar (language)

/-- Only leaves that were matched with a token have a literal or a line. -/
inductive Tree.Blank : Tree → Prop
  | node {info : Node} {children : List Tree}
      (here : children = [] ∧ info.label ≠ Symbol.epsilon ∨
        info.literal = none ∧ info.line = none)
      (below : ∀ c ∈ children, Blank c) : Blank (.node info children)

theorem Tree.Blank.child {info : Node} {children : List Tree} (h : Blank (.node info children)) :
    ∀ c ∈ children, c.Blank := by
  obtain ⟨-, hbelow⟩ := h
  exact hbelow

namespace Derivation

theorem blank_derive {table : Table} {depth id : Nat} {s : Symbol} {c c' : Cursor} {t : Tree}
    (hs : s ≠ Symbol.epsilon) (h : derive table depth s id c = (.ok t, c')) : t.Blank := by
  have hblank : ∀ t' ∈ [t], t'.Blank := by
    refine derive_induct (R := fun _ _ trees _ => ∀ t ∈ trees, t.Blank)
      (fun _ => List.forall_mem_nil _) ?_ ?_ ?_ ?_ hs h
    · intro _ _
      exact List.forall_mem_singleton.2 ⟨.inr ⟨rfl, rfl⟩, List.forall_mem_nil _⟩
    · intro _ _ trees _ _ trees' _ htrees htrees'
      exact List.forall_mem_append.2 ⟨htrees, htrees'⟩
    · intro _ _ _ hkind _
      exact List.forall_mem_singleton.2 ⟨.inl ⟨rfl, hkind⟩, List.forall_mem_nil _⟩
    · intro _ _ _ _ _ children _ hchildren
      exact List.forall_mem_singleton.2 ⟨.inr ⟨rfl, rfl⟩, hchildren⟩
  exact hblank t List.mem_cons_self

theorem blank_of_parse {table : Table} {start : Symbol} {stream : TokenStream} {t : Tree}
    (hstart : start ≠ Symbol.epsilon) (h : (parse table start stream).result = .ok (.rooted t)) :
    t.Blank := by
  have hparse (o : Outcome) (ho : o.result = .ok (.rooted t)) :
      o = ⟨.ok (.rooted t), o.pulled, o.steps⟩ := by rw [← ho]
  obtain ⟨token, rest, t', c, -, hderive, hrooted, -⟩ := parse_ok (hparse _ h)
  cases hrooted
  exact blank_derive hstart hderive

end Derivation

namespace Language

open Lookahead.Derivation (Bears)

variable {t t' : Tree} {trees : List Tree} {ts us : List Token}

theorem production_ne_nil {s : Symbol} {p : Production} (h : p ∈ language.productions s) :
    p ≠ [] := by
  have hall : ∀ r ∈ language.rules, ∀ p ∈ r.productions, p ≠ [] := by decide +kernel
  obtain ⟨r, hr, -, hp⟩ := Grammar.mem_productions.1 h
  exact hall r hr p hp

/-- Where the marker of a block stands in a production, the end of a line stands first. -/
theorem head_of_mark {kind : Terminal} (hkind : kind = .blockBegin ∨ kind = .blockEnd) {s : Symbol}
    {p : Production} (h : p ∈ language.productions s) (hmem : kind.name ∈ p) :
    p.head? = some Terminal.newline.name := by
  have hall : ∀ r ∈ language.rules, ∀ p ∈ r.productions,
      Terminal.blockBegin.name ∈ p ∨ Terminal.blockEnd.name ∈ p →
        p.head? = some Terminal.newline.name := by decide +kernel
  obtain ⟨r, hr, -, hp⟩ := Grammar.mem_productions.1 h
  rcases hkind with rfl | rfl
  · exact hall r hr p hp (.inl hmem)
  · exact hall r hr p hp (.inr hmem)

theorem yield_terminal {kind : Terminal} (hd : language.IsDerivation t)
    (hlabel : t.label = kind.name) : language.yield t = [kind.name] := by
  have hr : language.isRule t.label = false := hlabel ▸ isRule_name kind
  obtain ⟨info, children⟩ := t
  obtain rfl : children = [] := hd.children_eq_nil hr
  rw [Grammar.yield_leaf, show info.label = kind.name from hlabel, if_pos (isTerminal_name kind)]

/-- Nothing but the marker of a block itself begins with one. -/
theorem head_yield_ne_mark {kind : Terminal} (hkind : kind = .blockBegin ∨ kind = .blockEnd)
    (hd : language.IsDerivation t) (hlabel : t.label ≠ kind.name) :
    (language.yield t).head? ≠ some kind.name := by
  induction t using Tree.induct with
  | node info children ih =>
    cases hr : language.isRule info.label with
    | true =>
      rw [Grammar.yield_node _ hr]
      by_cases hmem : kind.name ∈ children.map (·.label)
      · have hhead := head_of_mark hkind (hd.production hr) hmem
        cases children with
        | nil => cases hhead
        | cons c rest =>
          have hc : c.label = Terminal.newline.name := Option.some.inj hhead
          rw [List.flatMap_cons, yield_terminal (hd.child List.mem_cons_self) hc]
          change some Terminal.newline.name ≠ _
          rcases hkind with rfl | rfl <;> decide
      · rw [List.head?_flatMap]
        intro hhead
        obtain ⟨c, hc, hfirst⟩ := List.exists_of_findSome?_eq_some hhead
        refine ih c hc (hd.child hc) (fun hlabel => ?_) hfirst
        exact hmem (List.mem_map.2 ⟨c, hc, hlabel⟩)
    | false =>
      obtain rfl : children = [] := hd.children_eq_nil hr
      rw [Grammar.yield_leaf]
      split
      · simpa using hlabel
      · exact fun h => by cases h

theorem head_ne_mark {kind : Terminal} (hkind : kind = .blockBegin ∨ kind = .blockEnd)
    (hb : Bears language [t] ts) (hlabel : t.label ≠ kind.name) :
    ∀ x ∈ ts.head?, x.kind ≠ kind.name := by
  intro x hx heq
  refine head_yield_ne_mark hkind (hb.1 t List.mem_cons_self) hlabel ?_
  have hkinds := hb.flatMap_yield
  rw [List.flatMap_singleton] at hkinds
  rw [hkinds, List.head?_map, Option.mem_def.1 hx, ← heq]
  rfl

/-- What a node is and bears: a rule has no token of its own, and its children bear the tokens; a
leaf has the literal and the line of its token if there is one. -/
theorem bears_cases {info : Node} {children : List Tree}
    (hb : Bears language [.node info children] ts) (hblank : (Tree.node info children).Blank) :
    (language.isRule info.label = true ∧ children ≠ [] ∧ info.literal = none ∧ info.line = none ∧
        Bears language children ts) ∨
      (children = [] ∧ info.literal = ts.head?.bind (·.literal) ∧
        info.line = ts.head?.map (·.line)) := by
  have hd := hb.1 _ List.mem_cons_self
  obtain ⟨hhere, -⟩ := hblank
  cases hr : language.isRule info.label with
  | true =>
    have hchildren : children ≠ [] := by
      rintro rfl
      exact production_ne_nil (hd.production hr) rfl
    refine .inl ⟨rfl, hchildren, ?_⟩
    rcases hhere with ⟨hnil, -⟩ | ⟨hliteral, hline⟩
    · exact absurd hnil hchildren
    · exact ⟨hliteral, hline, hb.children hr⟩
  | false =>
    obtain rfl : children = [] := hd.children_eq_nil hr
    refine .inr ⟨rfl, ?_⟩
    have hleaves := hb.2
    rw [List.flatMap_singleton, Grammar.terminalLeaves_leaf] at hleaves
    by_cases hε : info.label = Symbol.epsilon
    · rw [if_neg (by simp [Grammar.isTerminal, hε])] at hleaves
      rw [List.map_eq_nil_iff.1 hleaves.symm]
      rcases hhere with ⟨-, hne⟩ | hnone
      · exact absurd hε hne
      · exact hnone
    · rw [if_pos (Grammar.isTerminal_iff.2 ⟨hr, hε⟩)] at hleaves
      obtain ⟨x, rfl, hx⟩ := List.map_eq_singleton_iff.1 hleaves.symm
      obtain ⟨line, hline, rfl⟩ := Option.map_eq_some_iff.1 hx.symm
      exact ⟨rfl, hline⟩

theorem firstLineAmong_of_bears (ih : ∀ c ∈ trees, ∀ {us}, Bears language [c] us →
    c.firstLine = us.head?.map (·.line)) (hb : Bears language trees ts) :
    Tree.firstLineAmong trees = ts.head?.map (·.line) := by
  induction trees generalizing ts with
  | nil =>
    obtain rfl : ts = [] := List.map_eq_nil_iff.1 hb.2.symm
    rfl
  | cons c trees ihs =>
    obtain ⟨us, vs, rfl, hus, hvs⟩ := hb.exists_append
    obtain ⟨hc, htrees⟩ := List.forall_mem_cons.1 ih
    rw [Tree.firstLineAmong, hc hus, ihs htrees hvs]
    cases us <;> rfl

/-- The first line of a node is that of its first token. -/
theorem firstLine_of_bears (hblank : t.Blank) (hb : Bears language [t] ts) :
    t.firstLine = ts.head?.map (·.line) := by
  induction t using Tree.induct generalizing ts with
  | node info children ih =>
    rw [Tree.firstLine]
    rcases bears_cases hb hblank with ⟨-, -, -, hline, hchildren⟩ | ⟨rfl, -, hline⟩
    · obtain ⟨-, hbelow⟩ := hblank
      rw [hline, firstLineAmong_of_bears (fun c hc us => ih c hc (hbelow c hc)) hchildren]
      rfl
    · rw [hline]
      cases ts <;> rfl

/-- Two lists of related members whose parts are equally long have related parts. -/
theorem forall₂_append_inv {α β : Type} {R : α → β → Prop} {as bs : List α} {as' bs' : List β}
    (h : List.Forall₂ R (as ++ bs) (as' ++ bs')) (hlength : as.length = as'.length) :
    List.Forall₂ R as as' ∧ List.Forall₂ R bs bs' := by
  have htake := List.forall₂_take_append _ _ _ h
  have hdrop := List.forall₂_drop_append _ _ _ h
  rw [← hlength, List.take_left] at htake
  rw [← hlength, List.drop_left] at hdrop
  exact ⟨htake, hdrop⟩

variable {f : Nat → Nat}

theorem line_of_moved (h : List.Forall₂ (Token.Moved f) ts us)
    (hfirst : ∀ x ∈ ts.head?, x.kind ≠ Terminal.blockEnd.name) :
    us.head?.map (·.line) = (ts.head?.map (·.line)).map f := by
  cases h with
  | nil => rfl
  | cons hx hrest =>
    rcases hx.line with hkind | hline
    · exact absurd hkind (hfirst _ rfl)
    · exact congrArg some hline

theorem kinds_of_moved (h : List.Forall₂ (Token.Moved f) ts us) :
    us.map (·.kind) = ts.map (·.kind) := by
  induction h with
  | nil => rfl
  | cons hx _ ih => rw [List.map_cons, List.map_cons, hx.kind, ih]

theorem length_of_bare (hb : Bears language [t] ts) (hb' : Bears language [t'] us)
    (hbare : t'.bare = t.bare) : ts.length = us.length := by
  have hkinds := hb.flatMap_yield
  have hkinds' := hb'.flatMap_yield
  rw [List.flatMap_singleton] at hkinds hkinds'
  rw [(hb.1 t List.mem_cons_self).yield_eq_of_bare hbare, hkinds] at hkinds'
  simpa using congrArg List.length hkinds'

/-- The tokens of the first of several trees come first, and so do those of a tree of its shape in
a list that may go on behind the moved tokens. -/
theorem exists_parts {trees' : List Tree} {vs : List Token} (hbare : t'.bare = t.bare)
    (hb : Bears language (t :: trees) ts) (hb' : Bears language (t' :: trees') (us ++ vs))
    (h : List.Forall₂ (Token.Moved f) ts us) :
    ∃ ts₁ ts₂ us₁ us₂, ts = ts₁ ++ ts₂ ∧ us = us₁ ++ us₂ ∧
      (Bears language [t] ts₁ ∧ Bears language [t'] us₁ ∧ List.Forall₂ (Token.Moved f) ts₁ us₁) ∧
      (Bears language trees ts₂ ∧ Bears language trees' (us₂ ++ vs) ∧
        List.Forall₂ (Token.Moved f) ts₂ us₂) := by
  obtain ⟨ts₁, ts₂, rfl, hts₁, hts₂⟩ := hb.exists_append
  obtain ⟨us₁, ws, hsplit, hus₁, hws⟩ := hb'.exists_append
  have hlength := length_of_bare hts₁ hus₁ hbare
  have hle : us₁.length ≤ us.length := by
    rw [← h.length_eq, List.length_append]
    omega
  obtain ⟨us₂, rfl⟩ := List.prefix_of_prefix_length_le ⟨ws, hsplit.symm⟩ ⟨vs, rfl⟩ hle
  rw [List.append_assoc] at hsplit
  obtain rfl : us₂ ++ vs = ws := List.append_cancel_left hsplit
  obtain ⟨h₁, h₂⟩ := forall₂_append_inv h hlength
  exact ⟨ts₁, ts₂, us₁, us₂, rfl, rfl, ⟨hts₁, hus₁, h₁⟩, hts₂, hws, h₂⟩

theorem forall₂_moved {children children' : List Tree}
    (ih : ∀ c ∈ children, ∀ {c' ts us}, c'.bare = c.bare → c.Blank → c'.Blank →
      Bears language [c] ts → Bears language [c'] us → List.Forall₂ (Token.Moved f) ts us →
      Tree.Moved f c c')
    (hbare : children'.map Tree.bare = children.map Tree.bare)
    (hblank : ∀ c ∈ children, c.Blank) (hblank' : ∀ c ∈ children', c.Blank)
    (hb : Bears language children ts) (hb' : Bears language children' us)
    (h : List.Forall₂ (Token.Moved f) ts us) :
    List.Forall₂ (Tree.Moved f) children children' := by
  induction children generalizing children' ts us with
  | nil =>
    rw [List.map_eq_nil_iff.1 hbare]
    exact .nil
  | cons c children ihs =>
    obtain ⟨c', children', rfl, hc, hrest⟩ := List.map_eq_cons_iff.1 hbare
    rw [← List.append_nil us] at hb'
    obtain ⟨ts₁, ts₂, us₁, us₂, rfl, rfl, ⟨hts₁, hus₁, h₁⟩, hts₂, hus₂, h₂⟩ :=
      exists_parts hc hb hb' h
    rw [List.append_nil] at hus₂
    obtain ⟨ihc, ihrest⟩ := List.forall_mem_cons.1 ih
    obtain ⟨hblankc, hblankrest⟩ := List.forall_mem_cons.1 hblank
    obtain ⟨hblankc', hblankrest'⟩ := List.forall_mem_cons.1 hblank'
    exact .cons (ihc hc hblankc hblankc' hts₁ hus₁ h₁)
      (ihs ihrest hrest hblankrest hblankrest' hts₂ hus₂ h₂)

/-- Trees of one shape differ only in their lines if their tokens do. -/
theorem moved_of_bears (hbare : t'.bare = t.bare) (hblank : t.Blank) (hblank' : t'.Blank)
    (hb : Bears language [t] ts) (hb' : Bears language [t'] us)
    (h : List.Forall₂ (Token.Moved f) ts us) : Tree.Moved f t t' := by
  induction t using Tree.induct generalizing t' ts us with
  | node info children ih =>
    have hline := firstLine_of_bears hblank hb
    have hline' := firstLine_of_bears hblank' hb'
    obtain ⟨info', children'⟩ := t'
    obtain ⟨hlabel, hchildren⟩ := Tree.bare_eq_bare.1 hbare
    have hnil : children' = [] ↔ children = [] := by
      rw [← List.map_eq_nil_iff, hchildren, List.map_eq_nil_iff]
    rcases bears_cases hb hblank with ⟨hr, hne, hliteral, -, hbelow⟩ | ⟨rfl, hliteral, -⟩ <;>
      rcases bears_cases hb' hblank' with ⟨-, hne', hliteral', -, hbelow'⟩ | ⟨hempty, hliteral', -⟩
    · obtain ⟨-, hbelowBlank⟩ := hblank
      obtain ⟨-, hbelowBlank'⟩ := hblank'
      refine .node hlabel (hliteral'.trans hliteral.symm) (fun _ => ?_)
        (forall₂_moved ih hchildren hbelowBlank hbelowBlank' hbelow hbelow' h)
      rw [hline, hline']
      refine line_of_moved h (head_ne_mark (.inr rfl) hb fun hend => ?_)
      rw [show info.label = Terminal.blockEnd.name from hend, isRule_name] at hr
      cases hr
    · exact absurd (hnil.1 hempty) hne
    · exact absurd (hnil.2 rfl) hne'
    · subst hempty
      refine .node hlabel ?_ (fun hne => absurd rfl hne) .nil
      rw [hliteral, hliteral']
      cases h with
      | nil => rfl
      | cons hx hrest => exact hx.literal

end Language

end Lookahead
