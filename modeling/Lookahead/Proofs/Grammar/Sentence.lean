import Lookahead.Proofs.Grammar.Tree
import Mathlib.Logic.Relation

namespace Lookahead.Grammar

variable {g : Grammar}

/-- The symbols that a production puts in the place of its rule. -/
def replacement (p : Production) : List Symbol := p.filter (· ≠ Symbol.epsilon)

inductive Rewrites (g : Grammar) : List Symbol → List Symbol → Prop
  | replace (before after : List Symbol) {s : Symbol} {p : Production} (h : p ∈ g.productions s) :
    Rewrites g (before ++ s :: after) (before ++ replacement p ++ after)

def Derives (g : Grammar) : List Symbol → List Symbol → Prop := Relation.ReflTransGen g.Rewrites

def IsSentence (g : Grammar) (w : List Symbol) : Prop :=
  g.Derives [g.start] w ∧ ∀ s ∈ w, g.isTerminal s = true

theorem Derives.context {u v : List Symbol} (h : g.Derives u v) (before after : List Symbol) :
    g.Derives (before ++ u ++ after) (before ++ v ++ after) := by
  induction h with
  | refl => exact .refl
  | tail _ hs ih =>
    obtain ⟨b, a, hp⟩ := hs
    have hr := Rewrites.replace (g := g) (before ++ b) (a ++ after) hp
    refine ih.tail ?_
    simpa only [List.append_assoc, List.cons_append] using hr

theorem Derives.append {u v u' v' : List Symbol} (h : g.Derives u v) (h' : g.Derives u' v') :
    g.Derives (u ++ u') (v ++ v') := by
  have hl := h.context [] u'
  have hr := h'.context v []
  rw [List.nil_append, List.nil_append] at hl
  rw [List.append_nil, List.append_nil] at hr
  exact hl.trans hr

theorem derives_replacement {s : Symbol} {p : Production} (h : p ∈ g.productions s) :
    g.Derives [s] (replacement p) := by
  have hr := Rewrites.replace (g := g) [] [] h
  rw [List.nil_append, List.nil_append, List.append_nil] at hr
  exact .single hr

/-- A rule is rewritten by a production up to one of its symbols, and that symbol too. -/
theorem derives_of_row {rule s : Symbol} {before rest u v : List Symbol}
    (hp : before ++ s :: rest ∈ g.productions rule) (hs : s ≠ Symbol.epsilon)
    (hbefore : g.Derives (replacement before) u) (hsymbol : g.Derives [s] v) :
    g.Derives [rule] (u ++ (v ++ replacement rest)) := by
  have hsplit : replacement (before ++ s :: rest) =
      replacement before ++ ([s] ++ replacement rest) := by
    simp [replacement, hs]
  have hrule := derives_replacement hp
  rw [hsplit] at hrule
  exact hrule.trans (hbefore.append (hsymbol.append .refl))

/-- The labels of a row of trees, without those that stand for nothing. -/
def roots (trees : List Tree) : List Symbol := replacement (trees.map (·.label))

theorem roots_cons (t : Tree) (trees : List Tree) :
    roots (t :: trees) = roots [t] ++ roots trees := by
  rw [roots, List.map_cons, ← List.singleton_append, replacement, List.filter_append]
  rfl

theorem roots_singleton (t : Tree) (h : t.label ≠ Symbol.epsilon) : roots [t] = [t.label] := by
  simp [roots, replacement, h]

theorem roots_epsilon (t : Tree) (h : t.label = Symbol.epsilon) : roots [t] = [] := by
  simp [roots, replacement, h]

theorem derives_yields {trees : List Tree} (h : ∀ t ∈ trees, g.Derives (roots [t]) (g.yield t)) :
    g.Derives (roots trees) (trees.flatMap g.yield) := by
  induction trees with
  | nil => exact .refl
  | cons t trees ih =>
    rw [roots_cons, List.flatMap_cons]
    have ht := List.forall_mem_cons.1 h
    exact ht.1.append (ih ht.2)

section

variable (hε : g.isRule Symbol.epsilon = false)
include hε

theorem ne_epsilon_of_isRule {s : Symbol} (h : g.isRule s = true) : s ≠ Symbol.epsilon := by
  rintro rfl
  rw [hε] at h
  contradiction

/-- A derivation tree rewrites its root to its yield. -/
theorem IsDerivation.derives {t : Tree} (h : g.IsDerivation t) :
    g.Derives (roots [t]) (g.yield t) := by
  induction t using Tree.induct with
  | node info children ih =>
    by_cases hr : g.isRule info.label = true
    · have hc := derives_yields fun c hc => ih c hc (h.child hc)
      rw [yield_node children hr,
        roots_singleton (.node info children) (ne_epsilon_of_isRule hε hr)]
      exact (derives_replacement (h.production hr)).trans hc
    · have hr : g.isRule info.label = false := by simpa using hr
      obtain rfl : children = [] := h.children_eq_nil hr
      rw [yield_leaf]
      by_cases he : info.label = Symbol.epsilon
      · rw [roots_epsilon (.node info []) he, if_neg (by simp [isTerminal, he])]
        exact .refl
      · rw [roots_singleton (.node info []) he, if_pos (isTerminal_iff.2 ⟨hr, he⟩)]
        exact .refl

/-- One step of rewriting, undone in a row of derivation trees: the trees of the replacement
become the children of one tree. -/
theorem Rewrites.fold {u v : List Symbol} (hr : g.Rewrites u v) {trees : List Tree}
    (hd : ∀ t ∈ trees, g.IsDerivation t) (hv : trees.map (·.label) = v) :
    ∃ folded : List Tree, (∀ t ∈ folded, g.IsDerivation t) ∧ folded.map (·.label) = u ∧
      folded.flatMap g.yield = trees.flatMap g.yield := by
  obtain ⟨before, after, hp⟩ := hr
  rename_i s p
  obtain ⟨front, back, rfl, hfront, hback⟩ := List.map_eq_append_iff.1 hv
  obtain ⟨left, middle, rfl, hleft, hmiddle⟩ := List.map_eq_append_iff.1 hfront
  have hs := isRule_of_mem_productions hp
  -- an `EPSILON` production has a leaf of its own for the empty row
  obtain ⟨children, hlabels, hchildren, hyield⟩ : ∃ children : List Tree,
      children.map (·.label) = p ∧ (∀ t ∈ children, g.IsDerivation t) ∧
        children.flatMap g.yield = middle.flatMap g.yield := by
    by_cases he : Symbol.epsilon ∈ p
    · obtain rfl := eq_epsilon_of_mem hp he
      obtain rfl : middle = [] := by simpa [replacement] using hmiddle
      refine ⟨[.leaf 0 Symbol.epsilon], rfl, ?_, ?_⟩
      · refine List.forall_mem_singleton.2 (isDerivation_node.2 ⟨?_, by simp⟩)
        rw [Expands, if_neg (by simpa [Tree.leaf] using hε)]
        rfl
      · rw [List.flatMap_singleton, Tree.leaf, yield_leaf, if_neg (by simp [isTerminal])]
        rfl
    · have hp' : replacement p = p :=
        List.filter_eq_self.2 fun x hx => decide_eq_true (ne_of_mem_of_not_mem hx he)
      rw [hp'] at hmiddle
      exact ⟨middle, hmiddle, fun t ht => hd t (by simp [ht]), rfl⟩
  refine ⟨left ++ .node ⟨0, s, none, none⟩ children :: back, ?_, ?_, ?_⟩
  · intro t ht
    rcases List.mem_append.1 ht with ht | ht
    · exact hd t (by simp [ht])
    rcases List.mem_cons.1 ht with rfl | ht
    · refine isDerivation_node.2 ⟨?_, hchildren⟩
      rw [Expands, if_pos (by exact hs)]
      exact hlabels ▸ hp
    · exact hd t (by simp [ht])
  · rw [List.map_append, List.map_cons, hleft, hback]
    rfl
  · rw [List.flatMap_append, List.flatMap_cons, yield_node children hs, hyield]
    simp only [List.flatMap_append, List.append_assoc]

omit hε in
theorem flatMap_yield_leaf {w : List Symbol} (h : ∀ s ∈ w, g.isTerminal s = true) :
    w.flatMap (fun s => g.yield (.node ⟨0, s, none, none⟩ [])) = w := by
  induction w with
  | nil => rfl
  | cons s w ih =>
    have hs := List.forall_mem_cons.1 h
    rw [List.flatMap_cons, yield_leaf, if_pos hs.1, ih hs.2, List.singleton_append]

/-- Whatever a row of symbols is rewritten to, there are derivation trees for it. -/
theorem Derives.exists_trees {u w : List Symbol} (h : g.Derives u w)
    (hw : ∀ s ∈ w, g.isTerminal s = true) :
    ∃ trees : List Tree, (∀ t ∈ trees, g.IsDerivation t) ∧ trees.map (·.label) = u ∧
      trees.flatMap g.yield = w := by
  induction h using Relation.ReflTransGen.head_induction_on with
  | refl =>
    refine ⟨w.map fun s => .node ⟨0, s, none, none⟩ [], ?_, ?_, ?_⟩
    · intro t ht
      obtain ⟨s, hs, rfl⟩ := List.mem_map.1 ht
      refine isDerivation_node.2 ⟨?_, by simp⟩
      rw [Expands, if_neg (by simp [(isTerminal_iff.1 (hw s hs)).1])]
      rfl
    · rw [List.map_map]
      exact List.map_id w
    · rw [List.flatMap_map]
      exact flatMap_yield_leaf hw
  | head hr _ ih =>
    obtain ⟨trees, hd, hv, hy⟩ := ih
    obtain ⟨folded, hfd, hfv, hfy⟩ := hr.fold hε hd hv
    exact ⟨folded, hfd, hfv, hfy.trans hy⟩

theorem isSentence_iff {w : List Symbol} :
    g.IsSentence w ↔ ∃ t, g.IsDerivation t ∧ t.label = g.start ∧ g.yield t = w := by
  constructor
  · rintro ⟨hd, hw⟩
    obtain ⟨trees, htrees, hlabels, hyield⟩ := hd.exists_trees hε hw
    obtain ⟨t, rest, rfl, hlabel, hrest⟩ := List.map_eq_cons_iff.1 hlabels
    obtain rfl := List.map_eq_nil_iff.1 hrest
    rw [List.flatMap_singleton] at hyield
    exact ⟨t, htrees t (List.mem_singleton_self t), hlabel, hyield⟩
  · rintro ⟨t, hd, hlabel, rfl⟩
    refine ⟨?_, fun s => isTerminal_of_mem_yield⟩
    have hne := ne_epsilon_of_isRule hε (isRule_start g)
    have h := hd.derives hε
    rwa [roots_singleton t (hlabel ▸ hne), hlabel] at h

end

def IsProductive (g : Grammar) (s : Symbol) : Prop :=
  ∃ w, g.Derives [s] w ∧ ∀ x ∈ w, g.isTerminal x = true

/-- Rules are productive if there is a derivation tree for each. -/
theorem isProductive_of_trees (hε : g.isRule Symbol.epsilon = false) (trees : List Tree)
    (hd : ∀ t ∈ trees, g.IsDerivation t) (hnames : ∀ s ∈ g.names, s ∈ trees.map (·.label))
    {s : Symbol} (hs : g.isRule s = true) : g.IsProductive s := by
  obtain ⟨t, ht, rfl⟩ := List.mem_map.1 (hnames s (isRule_iff.1 hs))
  have h := (hd t ht).derives hε
  rw [roots_singleton t (ne_epsilon_of_isRule hε hs)] at h
  exact ⟨g.yield t, h, fun x => isTerminal_of_mem_yield⟩

theorem Derives.ne_epsilon {u v : List Symbol} (h : g.Derives u v)
    (hu : ∀ s ∈ u, s ≠ Symbol.epsilon) : ∀ s ∈ v, s ≠ Symbol.epsilon := by
  induction h with
  | refl => exact hu
  | tail _ hs ih =>
    obtain ⟨before, after, hp⟩ := hs
    intro s hs
    rcases List.mem_append.1 hs with hs | hs
    · rcases List.mem_append.1 hs with hs | hs
      · exact ih s (List.mem_append_left _ hs)
      · exact of_decide_eq_true (List.mem_filter.1 hs).2
    · exact ih s (List.mem_append_right _ (List.mem_cons_of_mem _ hs))

/-- A row of symbols, each a terminal or a productive rule, is rewritten to terminals. -/
theorem exists_terminals (hproductive : ∀ s, g.isRule s = true → g.IsProductive s)
    {u : List Symbol} (hu : ∀ s ∈ u, s ≠ Symbol.epsilon) :
    ∃ v, g.Derives u v ∧ ∀ s ∈ v, g.isTerminal s = true := by
  induction u with
  | nil => exact ⟨[], .refl, fun _ h => absurd h List.not_mem_nil⟩
  | cons s u ih =>
    obtain ⟨hs, hu⟩ := List.forall_mem_cons.1 hu
    obtain ⟨v, hv, hterminals⟩ := ih hu
    obtain ⟨w, hw, hterminals'⟩ : g.IsProductive s := by
      cases hr : g.isRule s with
      | true => exact hproductive s hr
      | false =>
        exact ⟨[s], .refl, List.forall_mem_singleton.2 (isTerminal_iff.2 ⟨hr, hs⟩)⟩
    refine ⟨w ++ v, hw.append hv, fun x hx => ?_⟩
    exact (List.mem_append.1 hx).elim (hterminals' x) (hterminals x)

/-- Where all rules are productive, terminals that begin what the start symbol is rewritten to
begin a sentence. -/
theorem exists_isSentence_append (hε : g.isRule Symbol.epsilon = false)
    (hproductive : ∀ s, g.isRule s = true → g.IsProductive s) {u rest : List Symbol}
    (h : g.Derives [g.start] (u ++ rest)) (hu : ∀ s ∈ u, g.isRule s = false) :
    ∃ v, g.IsSentence (u ++ v) := by
  have hne := h.ne_epsilon
    (List.forall_mem_singleton.2 (ne_epsilon_of_isRule hε (isRule_start g)))
  obtain ⟨v, hv, hterminals⟩ :=
    exists_terminals hproductive fun s hs => hne s (List.mem_append_right u hs)
  refine ⟨v, h.trans (Derives.append .refl hv), fun s hs => ?_⟩
  rcases List.mem_append.1 hs with hs | hs
  · exact isTerminal_iff.2 ⟨hu s hs, hne s (List.mem_append_left rest hs)⟩
  · exact hterminals s hs

end Lookahead.Grammar
