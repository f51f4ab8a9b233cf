import Lookahead.Grammar.Basic
import Lookahead.Tree
import Mathlib.Data.List.Nodup

namespace Lookahead

namespace Tree

theorem induct {motive : Tree → Prop}
    (node : ∀ info children, (∀ c ∈ children, motive c) → motive (.node info children))
    (t : Tree) : motive t := by
  refine Tree.rec (motive_1 := motive) (motive_2 := fun l => ∀ c ∈ l, motive c) ?_ ?_ ?_ t
  · exact fun info children ih => node info children ih
  · exact fun c hc => absurd hc List.not_mem_nil
  · exact fun t l ht hl => List.forall_mem_cons.2 ⟨ht, hl⟩

theorem preorderAll_eq (l : List Tree) : preorderAll l = l.flatMap preorder := by
  induction l with
  | nil => rfl
  | cons t l ih => rw [preorderAll, ih, List.flatMap_cons]

theorem preorder_node (info : Node) (children : List Tree) :
    (node info children).preorder = node info children :: children.flatMap preorder := by
  rw [preorder, preorderAll_eq]

theorem mem_preorder_self (t : Tree) : t ∈ t.preorder := by
  cases t with
  | node info children => rw [preorder_node]; exact List.mem_cons_self

theorem mem_preorder_of_child {t n c : Tree} (hn : n ∈ t.preorder) (hc : c ∈ n.children) :
    c ∈ t.preorder := by
  induction t using induct with
  | node info children ih =>
    rw [preorder_node, List.mem_cons, List.mem_flatMap] at hn ⊢
    rcases hn with rfl | ⟨t, ht, hn⟩
    · exact .inr ⟨c, hc, mem_preorder_self c⟩
    · exact .inr ⟨t, ht, ih t ht hn⟩

theorem leaves_leaf (info : Node) : (node info []).leaves = [info] := rfl

theorem leaves_node {children : List Tree} (info : Node) (h : children ≠ []) :
    (node info children).leaves = children.flatMap leaves := by
  have hc : (node info children).children.isEmpty = false := by simpa [Tree.children] using h
  rw [leaves, preorder_node, List.filter_cons, if_neg (by simp [hc]), List.filter_flatMap,
    List.map_flatMap]
  rfl

mutual

/-- The tree without identifiers, literals and lines. -/
def bare : Tree → Tree
  | node info children => node ⟨0, info.label, none, none⟩ (bareAll children)

def bareAll : List Tree → List Tree
  | [] => []
  | t :: rest => bare t :: bareAll rest

end

theorem bareAll_eq (l : List Tree) : bareAll l = l.map bare := by
  induction l with
  | nil => rfl
  | cons t l ih => rw [bareAll, ih, List.map_cons]

theorem bare_node (info : Node) (children : List Tree) :
    (node info children).bare = node ⟨0, info.label, none, none⟩ (children.map bare) := by
  rw [bare, bareAll_eq]

theorem bare_eq_bare {info info' : Node} {children children' : List Tree} :
    (node info' children').bare = (node info children).bare ↔
      info'.label = info.label ∧ children'.map bare = children.map bare := by
  simp [bare_node]

@[simp] theorem label_node (info : Node) (children : List Tree) :
    (node info children).label = info.label := rfl

def branch (label : Symbol) (children : List Tree) : Tree := node ⟨0, label, none, none⟩ children

/-- A rule that was rewritten to nothing. -/
def emptied (label : Symbol) : Tree := branch label [leaf 0 Symbol.epsilon]

mutual

def height : Tree → Nat
  | node _ children => heightAll children + 1

def heightAll : List Tree → Nat
  | [] => 0
  | t :: rest => max (height t) (heightAll rest)

end

end Tree

namespace Grammar

variable {g : Grammar}

theorem productions_of_mem {r : Rule} (h : r ∈ g.rules) : g.productions r.name = r.productions := by
  have hu : ∀ r' ∈ g.rules, r'.name = r.name → r' = r := fun r' h' hn =>
    List.inj_on_of_nodup_map g.nodup h' h hn
  cases hf : g.rules.find? (·.name = r.name) with
  | none => exact absurd (List.find?_eq_none.1 hf r h) (by simp)
  | some r' =>
    have hr' := hu r' (List.mem_of_find?_eq_some hf) (by simpa using List.find?_some hf)
    rw [productions, hf, hr']

theorem mem_productions {s : Symbol} {p : Production} :
    p ∈ g.productions s ↔ ∃ r ∈ g.rules, r.name = s ∧ p ∈ r.productions := by
  constructor
  · intro h
    unfold productions at h
    split at h
    · next r hr => exact ⟨r, List.mem_of_find?_eq_some hr, by simpa using List.find?_some hr, h⟩
    · exact absurd h List.not_mem_nil
  · rintro ⟨r, hr, rfl, hp⟩
    rwa [productions_of_mem hr]

theorem isRule_iff {s : Symbol} : g.isRule s = true ↔ s ∈ g.names := by
  simp [isRule, names]

theorem isRule_of_mem_productions {s : Symbol} {p : Production} (h : p ∈ g.productions s) :
    g.isRule s = true := by
  obtain ⟨r, hr, rfl, -⟩ := mem_productions.1 h
  exact isRule_iff.2 (List.mem_map_of_mem hr)

theorem productions_eq_nil {s : Symbol} (h : g.isRule s = false) : g.productions s = [] := by
  apply List.eq_nil_iff_forall_not_mem.2
  intro p hp
  rw [isRule_of_mem_productions hp] at h
  contradiction

theorem isRule_start (g : Grammar) : g.isRule g.start = true :=
  isRule_iff.2 (List.mem_map_of_mem (List.head_mem g.nonempty))

theorem eq_epsilon_of_mem {s : Symbol} {p : Production} (hp : p ∈ g.productions s)
    (h : Symbol.epsilon ∈ p) : p = [Symbol.epsilon] := by
  obtain ⟨r, hr, -, hp⟩ := mem_productions.1 hp
  have hu := g.unmixed r hr p hp
  have hany : p.any (· = Symbol.epsilon) = true := List.any_eq_true.2 ⟨_, h, by simp⟩
  rw [Production.mixesEpsilon, hany, Bool.and_true, decide_eq_false_iff_not] at hu
  match p with
  | [s] => rw [List.mem_singleton.1 h]
  | s :: s' :: p => simp at hu

/-- Terminals are the symbols that stand for themselves. -/
def isTerminal (g : Grammar) (s : Symbol) : Bool := !g.isRule s && s ≠ Symbol.epsilon

theorem isTerminal_iff {s : Symbol} :
    g.isTerminal s = true ↔ g.isRule s = false ∧ s ≠ Symbol.epsilon := by
  simp [isTerminal]

def Expands (g : Grammar) (t : Tree) : Prop :=
  if g.isRule t.label then t.children.map (·.label) ∈ g.productions t.label else t.children = []

instance (g : Grammar) (t : Tree) : Decidable (g.Expands t) :=
  inferInstanceAs (Decidable (if g.isRule t.label then _ else _))

def IsDerivation (g : Grammar) (t : Tree) : Prop := ∀ n ∈ t.preorder, g.Expands n

instance (g : Grammar) (t : Tree) : Decidable (g.IsDerivation t) :=
  inferInstanceAs (Decidable (∀ n ∈ t.preorder, g.Expands n))

def terminalLeaves (g : Grammar) (t : Tree) : List Node :=
  t.leaves.filter fun n => g.isTerminal n.label

def yield (g : Grammar) (t : Tree) : List Symbol := (g.terminalLeaves t).map (·.label)

theorem isDerivation_node {info : Node} {children : List Tree} :
    g.IsDerivation (.node info children) ↔
      g.Expands (.node info children) ∧ ∀ c ∈ children, g.IsDerivation c := by
  simp only [IsDerivation, Tree.preorder_node, List.forall_mem_cons, List.mem_flatMap,
    forall_exists_index, and_imp]
  exact and_congr_right fun _ => ⟨fun h c hc n => h n c hc, fun h n c hc => h c hc n⟩

theorem IsDerivation.child {t c : Tree} (h : g.IsDerivation t) (hc : c ∈ t.children) :
    g.IsDerivation c := by
  cases t with
  | node info children => exact (isDerivation_node.1 h).2 c hc

theorem IsDerivation.expands {t : Tree} (h : g.IsDerivation t) : g.Expands t := by
  cases t with
  | node info children => exact (isDerivation_node.1 h).1

theorem IsDerivation.production {t : Tree} (h : g.IsDerivation t) (hr : g.isRule t.label = true) :
    t.children.map (·.label) ∈ g.productions t.label := by
  have he := h.expands
  rwa [Expands, if_pos hr] at he

theorem IsDerivation.children_eq_nil {t : Tree} (h : g.IsDerivation t)
    (hr : g.isRule t.label = false) : t.children = [] := by
  have he := h.expands
  rwa [Expands, if_neg (by simp [hr])] at he

theorem IsDerivation.bare_eq_leaf {t : Tree} (h : g.IsDerivation t)
    (hr : g.isRule t.label = false) (id : Nat) : t.bare = (Tree.leaf id t.label).bare := by
  cases t with
  | node info children =>
    obtain rfl : children = [] := h.children_eq_nil hr
    rw [Tree.leaf, Tree.bare_node, Tree.bare_node]
    rfl

/-- Children may be replaced by other derivations of the same symbols. -/
theorem IsDerivation.replace {info : Node} {children children' : List Tree}
    (h : g.IsDerivation (.node info children))
    (hlabels : children'.map (·.label) = children.map (·.label))
    (hd : ∀ c ∈ children', g.IsDerivation c) : g.IsDerivation (.node info children') := by
  refine isDerivation_node.2 ⟨?_, hd⟩
  cases hr : g.isRule info.label with
  | true =>
    rw [Expands, Tree.label_node, if_pos hr]
    exact hlabels ▸ h.production hr
  | false =>
    rw [Expands, Tree.label_node, if_neg (by simp [hr])]
    rw [show children = [] from h.children_eq_nil hr, List.map_nil] at hlabels
    exact List.map_eq_nil_iff.1 hlabels

/-- `EPSILON` stands alone below a node, for a production of that node's rule, and has nothing
below it. -/
theorem IsDerivation.epsilon_alone (hε : g.isRule Symbol.epsilon = false) {t n e : Tree}
    (h : g.IsDerivation t) (hn : n ∈ t.preorder) (he : e ∈ n.children)
    (hl : e.label = Symbol.epsilon) :
    n.children = [e] ∧ e.children = [] ∧ [Symbol.epsilon] ∈ g.productions n.label := by
  have hexp := h n hn
  by_cases hr : g.isRule n.label = true
  · rw [Expands, if_pos hr] at hexp
    have hp := eq_epsilon_of_mem hexp (List.mem_map.2 ⟨e, he, hl⟩)
    obtain ⟨e', hc, -⟩ := List.map_eq_singleton_iff.1 hp
    obtain rfl : e = e' := by simpa [hc] using he
    have hmem : e ∈ t.preorder := Tree.mem_preorder_of_child hn he
    refine ⟨hc, ?_, hp ▸ hexp⟩
    have hexp' := h e hmem
    rwa [Expands, if_neg (by simp [hl, hε])] at hexp'
  · rw [Expands, if_neg hr] at hexp
    simp [hexp] at he

theorem terminalLeaves_leaf (info : Node) :
    g.terminalLeaves (.node info []) = if g.isTerminal info.label then [info] else [] := by
  rw [terminalLeaves, Tree.leaves_leaf, List.filter_cons, List.filter_nil]

theorem terminalLeaves_node {info : Node} (children : List Tree) (h : g.isRule info.label = true) :
    g.terminalLeaves (.node info children) = children.flatMap g.terminalLeaves := by
  cases children with
  | nil => rw [terminalLeaves_leaf, isTerminal, h]; rfl
  | cons c children =>
    rw [terminalLeaves, Tree.leaves_node info (List.cons_ne_nil c children), List.filter_flatMap]
    rfl

theorem yield_leaf (info : Node) :
    g.yield (.node info []) = if g.isTerminal info.label then [info.label] else [] := by
  rw [yield, terminalLeaves_leaf]
  split <;> rfl

theorem yield_node {info : Node} (children : List Tree) (h : g.isRule info.label = true) :
    g.yield (.node info children) = children.flatMap g.yield := by
  rw [yield, terminalLeaves_node children h, List.map_flatMap]
  rfl

/-- The yield of a derivation is a matter of its shape. -/
theorem IsDerivation.yield_eq_of_bare {t t' : Tree} (hd : g.IsDerivation t)
    (h : t'.bare = t.bare) : g.yield t' = g.yield t := by
  induction t using Tree.induct generalizing t' with
  | node info children ih =>
    obtain ⟨info', children'⟩ := t'
    obtain ⟨hlabel, hchildren⟩ := Tree.bare_eq_bare.1 h
    cases hr : g.isRule info.label with
    | true =>
      rw [yield_node _ hr, yield_node _ (hlabel ▸ hr), List.flatMap_def, List.flatMap_def]
      congr 1
      apply List.ext_getElem
      · simpa using congrArg List.length hchildren
      · intro i h₁ h₂
        rw [List.length_map] at h₁ h₂
        have hbare := List.getElem_of_eq hchildren (List.length_map Tree.bare ▸ h₁)
        rw [List.getElem_map, List.getElem_map] at hbare ⊢
        exact ih _ (List.getElem_mem h₂) (hd.child (List.getElem_mem h₂)) hbare
    | false =>
      obtain rfl : children = [] := hd.children_eq_nil hr
      obtain rfl : children' = [] := List.map_eq_nil_iff.1 hchildren
      rw [yield_leaf, yield_leaf, hlabel]

theorem isTerminal_of_mem_yield {t : Tree} {s : Symbol} (h : s ∈ g.yield t) :
    g.isTerminal s = true := by
  obtain ⟨n, hn, rfl⟩ := List.mem_map.1 h
  exact (List.mem_filter.1 hn).2

/-- Where the end marker stands only in productions of a start symbol that stands in none itself,
neither of the two is reached from any other rule. -/
theorem inner_of_end {start : Symbol}
    (h : ∀ rule, ∀ p ∈ g.productions rule, start ∉ p ∧ (Symbol.eof ∈ p → rule = start)) {s : Symbol}
    (hs : s ≠ start) : ∀ p ∈ g.productions s, ∀ x ∈ p, x ≠ start ∧ x ≠ Symbol.eof := by
  intro p hp x hx
  obtain ⟨hstart, heof⟩ := h s p hp
  exact ⟨ne_of_mem_of_not_mem hx hstart, ne_of_mem_of_not_mem hx fun h => hs (heof h)⟩

/-- A yield has inner symbols only if the root is inner and productions do not lead out of these. -/
theorem IsDerivation.inner_of_mem_yield {inner : Symbol → Prop}
    (hinner : ∀ s, inner s → ∀ p ∈ g.productions s, ∀ x ∈ p, inner x) {t : Tree}
    (hd : g.IsDerivation t) (ht : inner t.label) : ∀ s ∈ g.yield t, inner s := by
  induction t using Tree.induct with
  | node info children ih =>
    cases hr : g.isRule info.label with
    | true =>
      intro s hs
      rw [yield_node children hr, List.mem_flatMap] at hs
      obtain ⟨c, hc, hs⟩ := hs
      exact ih c hc (hd.child hc)
        (hinner _ ht _ (hd.production hr) _ (List.mem_map_of_mem hc)) s hs
    | false =>
      obtain rfl : children = [] := hd.children_eq_nil hr
      rw [yield_leaf]
      split
      · exact List.forall_mem_singleton.2 ht
      · exact fun s hs => absurd hs List.not_mem_nil

end Grammar

end Lookahead
