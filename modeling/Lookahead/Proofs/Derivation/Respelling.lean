import Lookahead.Proofs.Derivation.Run
import Lookahead.Proofs.Grammar.Respelling

namespace Lookahead

namespace Tree

theorem forall_mem_preorder_node {P : Tree → Prop} {info : Node} {children : List Tree} :
    (∀ n ∈ (node info children).preorder, P n) ↔
      P (node info children) ∧ ∀ c ∈ children, ∀ n ∈ c.preorder, P n := by
  simp only [preorder_node, List.forall_mem_cons, List.mem_flatMap]
  exact ⟨fun ⟨h, h'⟩ => ⟨h, fun c hc n hn => h' n ⟨c, hc, hn⟩⟩,
    fun ⟨h, h'⟩ => ⟨h, fun n ⟨c, hc, hn⟩ => h' c hc n hn⟩⟩

/-- No node is expanded with a production that `bare` spells anew. -/
def Kept (bare : Symbol → Bool) (t : Tree) : Prop :=
  ∀ n ∈ t.preorder, bare n.label = true → n.children.map (·.label) ≠ [Symbol.epsilon]

instance (bare : Symbol → Bool) (t : Tree) : Decidable (t.Kept bare) :=
  inferInstanceAs (Decidable (∀ n ∈ t.preorder, bare n.label = true →
    n.children.map (·.label) ≠ [Symbol.epsilon]))

theorem kept_node {bare : Symbol → Bool} {info : Node} {children : List Tree} :
    (node info children).Kept bare ↔
      (bare info.label = true → children.map (·.label) ≠ [Symbol.epsilon]) ∧
        ∀ c ∈ children, c.Kept bare :=
  forall_mem_preorder_node

/-- Only labels count. -/
theorem kept_bare {choice : Symbol → Bool} (t : Tree) : t.bare.Kept choice ↔ t.Kept choice := by
  induction t using induct with
  | node info children ih =>
    have hlabels : (children.map bare).map (·.label) = children.map (·.label) := by
      rw [List.map_map]
      exact List.map_congr_left fun c _ => by cases c; rw [Function.comp_apply, bare_node]; rfl
    rw [bare_node, kept_node, kept_node, hlabels, List.forall_mem_map]
    exact and_congr_right fun _ => forall₂_congr ih

/-- Every node of a rule has children. -/
def Whole (g : Grammar) (t : Tree) : Prop :=
  ∀ n ∈ t.preorder, g.isRule n.label = true → n.children ≠ []

theorem whole_node {g : Grammar} {info : Node} {children : List Tree} :
    (node info children).Whole g ↔
      (g.isRule info.label = true → children ≠ []) ∧ ∀ c ∈ children, c.Whole g :=
  forall_mem_preorder_node

end Tree

namespace Derivation

open Lookahead.Tree (Kept Whole)

/-- The cursors stand at the same place, whatever was done before. -/
structure Cursor.Level (c c' : Cursor) : Prop where
  lookahead : c'.lookahead = c.lookahead
  stream : c'.stream = c.stream
  pulled : c'.pulled = c.pulled

/-- The runs end in the same error or both have results. From the same beginning, the results are
the same as long as no empty production is expanded that the spellings differ in. -/
def Respells {α : Type} (plain : α → α → Prop) (same : Prop)
    (r r' : Except ParseError α × Cursor) : Prop :=
  (∃ e k k', r = (.error e, k) ∧ r' = (.error e, k')) ∨
    ∃ a a' k k', r = (.ok a, k) ∧ r' = (.ok a', k') ∧ k.Level k' ∧
      (same → plain a a' → a' = a ∧ k' = k)

/-- Seen from either side, the spellings do not differ. -/
def Plain (g : Grammar) (bare : Symbol → Bool) (t t' : Tree) : Prop := t.Kept bare ∨ t'.Whole g

def AllPlain (g : Grammar) (bare : Symbol → Bool) (ts ts' : List Tree) : Prop :=
  (∀ t ∈ ts, t.Kept bare) ∨ ∀ t' ∈ ts', t'.Whole g

variable {g : Grammar} {bare : Symbol → Bool}

theorem allPlain_cons {t t' : Tree} {ts ts' : List Tree}
    (h : AllPlain g bare (t :: ts) (t' :: ts')) : Plain g bare t t' ∧ AllPlain g bare ts ts' := by
  rcases h with h | h
  · exact ⟨.inl (h t List.mem_cons_self), .inl fun u hu => h u (List.mem_cons_of_mem t hu)⟩
  · exact ⟨.inr (h t' List.mem_cons_self), .inr fun u hu => h u (List.mem_cons_of_mem t' hu)⟩

theorem Plain.children {info info' : Node} {ts ts' : List Tree}
    (h : Plain g bare (.node info ts) (.node info' ts')) : AllPlain g bare ts ts' :=
  h.imp (fun h => (Tree.kept_node.1 h).2) fun h => (Tree.whole_node.1 h).2

theorem Respells.attach {t t' : Tree} {same same' : Prop}
    {r r' : Except ParseError (List Tree) × Cursor}
    (hsame : same' → Plain g bare t t' → t' = t ∧ same)
    (h : Respells (AllPlain g bare) same r r') :
    Respells (AllPlain g bare) same' (attach t r) (attach t' r') := by
  rcases h with ⟨e, k, k', rfl, rfl⟩ | ⟨ts, ts', k, k', rfl, rfl, hlevel, hplain⟩
  · exact .inl ⟨e, k, k', rfl, rfl⟩
  · refine .inr ⟨t :: ts, t' :: ts', k, k', rfl, rfl, hlevel, fun hs h => ?_⟩
    obtain ⟨ht, hts⟩ := allPlain_cons h
    obtain ⟨rfl, hs⟩ := hsame hs ht
    obtain ⟨rfl, hk⟩ := hplain hs hts
    exact ⟨rfl, hk⟩

theorem respells_deriveAll {f f' : Symbol → Nat → Derivation Tree}
    (hf : ∀ s id id' c c', c.Level c' →
      Respells (Plain g bare) (id' = id ∧ c' = c) (f s id c) (f' s id' c'))
    (p : List Symbol) {id id' : Nat} {c c' : Cursor} (h : c.Level c') :
    Respells (AllPlain g bare) (id' = id ∧ c' = c)
      (deriveAll f p id c) (deriveAll f' p id' c') := by
  induction p generalizing id id' c c' with
  | nil => exact .inr ⟨[], [], c, c', rfl, rfl, h, fun hsame _ => ⟨rfl, hsame.2⟩⟩
  | cons s rest ih =>
    by_cases hs : s = Symbol.epsilon
    · subst hs
      rw [deriveAll_epsilon, deriveAll_epsilon]
      refine (ih h).attach ?_
      rintro ⟨rfl, rfl⟩ -
      exact ⟨rfl, rfl, rfl⟩
    · rw [deriveAll_cons hs, deriveAll_cons hs]
      rcases hf s id id' c c' h with ⟨e, k, k', he, he'⟩ | ⟨t, t', k, k', he, he', hlevel, hplain⟩
      · rw [he, he']
        exact .inl ⟨e, k, k', rfl, rfl⟩
      · rw [he, he']
        refine (ih hlevel).attach ?_
        rintro ⟨rfl, rfl⟩ ht
        obtain ⟨htree, hcursor⟩ := hplain ⟨rfl, rfl⟩ ht
        exact ⟨htree, rfl, hcursor⟩

/-- The step for a rule that both tables have a production for. -/
theorem respells_expand {f f' : Symbol → Nat → Derivation Tree} {s : Symbol}
    (hr : g.isRule s = true)
    (hf : ∀ s id id' c c', c.Level c' →
      Respells (Plain g bare) (id' = id ∧ c' = c) (f s id c) (f' s id' c'))
    (p : Production) (id id' : Nat) {c c' : Cursor} (h : c.Level c') :
    Respells (Plain g bare) (id' = id ∧ c' = c)
      (close id s (deriveAll f p c.size (c.opened s p)))
      (close id' s (deriveAll f' (p.respell (bare s)) c'.size
        (c'.opened s (p.respell (bare s))))) := by
  have hlevel (p p' : Production) : (c.opened s p).Level (c'.opened s p') :=
    ⟨h.lookahead, h.stream, h.pulled⟩
  by_cases hp : bare s = true ∧ p = [Symbol.epsilon]
  · -- only here the trees part: the first has a leaf, the second has nothing
    obtain ⟨hbare, rfl⟩ := hp
    rw [Production.respell, if_pos ⟨hbare, rfl⟩, deriveAll_epsilon]
    refine .inr ⟨_, _, _, _, rfl, rfl, hlevel _ _, fun _ hplain => ?_⟩
    rcases hplain with hkept | hwhole
    · exact absurd rfl ((Tree.kept_node.1 hkept).1 hbare)
    · exact absurd rfl ((Tree.whole_node.1 hwhole).1 hr)
  · rw [Production.respell, if_neg hp]
    rcases respells_deriveAll hf p (hlevel p p) with ⟨e, k, k', he, he'⟩ |
      ⟨ts, ts', k, k', he, he', hk, hplain⟩
    · rw [he, he']
      exact .inl ⟨e, k, k', rfl, rfl⟩
    · rw [he, he']
      refine .inr ⟨_, _, k, k', rfl, rfl, hk, ?_⟩
      rintro ⟨rfl, rfl⟩ hnode
      obtain ⟨rfl, hcursor⟩ := hplain ⟨rfl, rfl⟩ hnode.children
      exact ⟨rfl, hcursor⟩

section

variable {sets : FirstFollow} {table table' : Table} (hbuild : Table.build g sets = .ok table)
  (hbuild' : Table.build (g.respell bare) sets = .ok table')

include hbuild hbuild'

theorem respells_derive (depth : Nat) (s : Symbol) (id id' : Nat) (c c' : Cursor)
    (h : c.Level c') :
    Respells (Plain g bare) (id' = id ∧ c' = c) (derive table depth s id c)
      (derive table' depth s id' c') := by
  induction depth generalizing s id id' c c' with
  | zero => exact .inl ⟨.endless, c, c', rfl, rfl⟩
  | succ depth ih =>
    have hisRule : table'.isRule s = table.isRule s := by
      rw [Table.isRule, Table.isRule, Table.rules_respell hbuild hbuild']
    have hlookup := Table.lookup_respell hbuild hbuild' s c.lookahead.kind
    by_cases hs : s = c.lookahead.kind
    · have hget : c'.get 1 = c.get 1 := congrArg (·.get 0) h.stream
      rw [derive_matched hs, derive_matched (h.lookahead ▸ hs), hget, h.lookahead]
      cases c.get 1 with
      | error e => exact .inl ⟨.lexical e, _, _, rfl, rfl⟩
      | ok token =>
        refine .inr ⟨_, _, _, _, rfl, rfl, ⟨rfl, ?_, ?_⟩, ?_⟩
        · simp only [Cursor.asked, h.stream]
        · simp only [Cursor.asked, h.pulled]
        · rintro ⟨rfl, rfl⟩ -
          exact ⟨rfl, rfl⟩
    · have hs' : s ≠ c'.lookahead.kind := h.lookahead ▸ hs
      cases hr : table.isRule s with
      | false =>
        rw [derive_mismatch hs hr, derive_mismatch hs' (hisRule.trans hr), h.lookahead]
        exact .inl ⟨_, c, c', rfl, rfl⟩
      | true =>
        rw [hr] at hisRule
        cases hl : table.lookup s c.lookahead.kind with
        | none =>
          rw [hl] at hlookup
          rw [derive_noProduction hs hr hl, derive_noProduction hs' hisRule (h.lookahead ▸ hlookup),
            h.lookahead]
          exact .inl ⟨_, c, c', rfl, rfl⟩
        | some p =>
          rw [hl] at hlookup
          rw [derive_expand hs hr hl, derive_expand hs' hisRule (h.lookahead ▸ hlookup)]
          exact respells_expand ((Table.isRule_of_build hbuild s).symm.trans hr) ih p id id' h

/-- The derivations end in the same error, or in trees that are the same unless an empty production
is expanded that the spellings differ in. -/
theorem respells_parse (start : Symbol) (stream : TokenStream) :
    (∃ e, (parse table start stream).result = .error e ∧
      (parse table' start stream).result = .error e) ∨
    ∃ t t', (parse table start stream).result = .ok (.rooted t) ∧
      (parse table' start stream).result = .ok (.rooted t') ∧ (Plain g bare t t' → t' = t) := by
  have hdepth : depthBound table' stream = depthBound table stream := by
    rw [depthBound, depthBound, Table.rules_respell hbuild hbuild']
  rcases hn : stream.next with ⟨e | token, rest⟩
  · rw [parse_of_error hn, parse_of_error hn]
    exact .inl ⟨_, rfl, rfl⟩
  · rw [parse_eq hn, parse_eq hn, hdepth]
    rcases respells_derive hbuild hbuild' (depthBound table stream) start 1 1 (.first token rest)
        (.first token rest) ⟨rfl, rfl, rfl⟩ with ⟨e, k, k', he, he'⟩ |
      ⟨t, t', k, k', he, he', -, hplain⟩
    · rw [he, he']
      exact .inl ⟨e, rfl, rfl⟩
    · rw [he, he']
      exact .inr ⟨t, t', rfl, rfl, fun h => (hplain ⟨rfl, rfl⟩ h).1⟩

end

/-- Where a rule is spelled anew, `EPSILON` is no production of it. -/
theorem kept_of_isDerivation {t : Tree} (h : (g.respell bare).IsDerivation t) : t.Kept bare := by
  intro n hn hbare hlabels
  have hexpands := h n hn
  rw [Grammar.Expands, hlabels] at hexpands
  split at hexpands
  · rw [Grammar.productions_respell, hbare] at hexpands
    obtain ⟨p, -, hp⟩ := List.mem_map.1 hexpands
    rw [Production.respell] at hp
    split at hp
    · cases hp
    · next hne => exact hne ⟨rfl, hp⟩
  · rw [hexpands] at hlabels
    cases hlabels

end Derivation

end Lookahead
