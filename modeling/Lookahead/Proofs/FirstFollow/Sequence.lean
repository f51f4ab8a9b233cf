import Lookahead.Proofs.Table.Lookup

namespace Lookahead.FirstFollow

variable {first : Dict SymbolSet}

def Vanishes (first : Dict SymbolSet) (s : Symbol) : Prop :=
  s = Symbol.epsilon ∨ Symbol.epsilon ∈ firstOf first s

theorem firstOfSequence_cons (s : Symbol) (rest : List Symbol) :
    firstOfSequence first (s :: rest) =
      if s = Symbol.epsilon then firstOfSequence first rest
      else if Symbol.epsilon ∈ firstOf first s then
        (firstOf first s).withoutEpsilon ∪ firstOfSequence first rest
      else firstOf first s := by
  simp only [firstOfSequence, ofSequence]
  split
  · rfl
  · simp only [pure_bind]
    split <;> rfl

theorem epsilon_mem_firstOfSequence_cons {s : Symbol} {rest : List Symbol} :
    Symbol.epsilon ∈ firstOfSequence first (s :: rest) ↔
      Vanishes first s ∧ Symbol.epsilon ∈ firstOfSequence first rest := by
  rw [firstOfSequence_cons, Vanishes]
  split
  · next hs => simp [hs]
  · next hs =>
    split
    · next he => simp [he]
    · next he => simp [hs, he]

theorem mem_firstOfSequence_cons {s t : Symbol} {rest : List Symbol} (ht : t ≠ Symbol.epsilon) :
    t ∈ firstOfSequence first (s :: rest) ↔
      s ≠ Symbol.epsilon ∧ t ∈ firstOf first s ∨
        Vanishes first s ∧ t ∈ firstOfSequence first rest := by
  rw [firstOfSequence_cons, Vanishes]
  split
  · next hs => simp [hs]
  · next hs =>
    split
    · next he => simp [hs, he, ht]
    · next he => simp [hs, he]

theorem epsilon_mem_firstOfSequence {p : List Symbol} :
    Symbol.epsilon ∈ firstOfSequence first p ↔ ∀ s ∈ p, Vanishes first s := by
  induction p with
  | nil => exact ⟨fun _ _ h => absurd h List.not_mem_nil, fun _ => SymbolSet.mem_singleton.2 rfl⟩
  | cons s rest ih => rw [epsilon_mem_firstOfSequence_cons, ih, List.forall_mem_cons]

theorem epsilon_mem_firstOfSequence_append {u v : List Symbol} :
    Symbol.epsilon ∈ firstOfSequence first (u ++ v) ↔
      Symbol.epsilon ∈ firstOfSequence first u ∧ Symbol.epsilon ∈ firstOfSequence first v := by
  simp only [epsilon_mem_firstOfSequence, List.forall_mem_append]

theorem mem_firstOfSequence_append_iff {u v : List Symbol} {t : Symbol} (ht : t ≠ Symbol.epsilon) :
    t ∈ firstOfSequence first (u ++ v) ↔ t ∈ firstOfSequence first u ∨
      Symbol.epsilon ∈ firstOfSequence first u ∧ t ∈ firstOfSequence first v := by
  induction u with
  | nil =>
    have hnil : t ∉ firstOfSequence first [] := fun h => ht (SymbolSet.mem_singleton.1 h)
    have hε : Symbol.epsilon ∈ firstOfSequence first [] := SymbolSet.mem_singleton.2 rfl
    simp [hnil, hε]
  | cons s u ih =>
    rw [List.cons_append, mem_firstOfSequence_cons ht, mem_firstOfSequence_cons ht,
      epsilon_mem_firstOfSequence_cons, ih]
    tauto

theorem mem_firstOfSequence_append {before rest : List Symbol} {t : Symbol}
    (h : ∀ s ∈ before, Vanishes first s) (ht : t ≠ Symbol.epsilon)
    (hrest : t ∈ firstOfSequence first rest) : t ∈ firstOfSequence first (before ++ rest) :=
  (mem_firstOfSequence_append_iff ht).2 (.inr ⟨epsilon_mem_firstOfSequence.2 h, hrest⟩)

/-- Each symbol that the productions ask for is there. -/
structure Closed (g : Grammar) (sets : FirstFollow) : Prop where
  terminal : ∀ s, g.isTerminal s = true → s ∈ firstOf sets.first s
  production : ∀ rule, ∀ p ∈ g.productions rule, ∀ t ∈ firstOfSequence sets.first p,
    t ∈ firstOf sets.first rule
  start : Symbol.eof ∈ sets.followOf g.start
  next : ∀ rule before s rest, before ++ s :: rest ∈ g.productions rule → g.isRule s = true →
    ∀ t ∈ firstOfSequence sets.first rest, t ≠ Symbol.epsilon → t ∈ sets.followOf s
  inherit : ∀ rule before s rest, before ++ s :: rest ∈ g.productions rule → g.isRule s = true →
    Symbol.epsilon ∈ firstOfSequence sets.first rest →
    ∀ t ∈ sets.followOf rule, t ∈ sets.followOf s

namespace Closed

variable {g : Grammar} {sets : FirstFollow}

/-- A set holds what a yield begins with, and `EPSILON` for an empty yield. -/
def Heads (set : SymbolSet) (w : List Symbol) : Prop := w.headD Symbol.epsilon ∈ set

theorem heads_forest {trees : List Tree} (h : ∀ t ∈ trees, t.label ≠ Symbol.epsilon →
      Heads (firstOf sets.first t.label) (g.yield t))
    (hε : ∀ t ∈ trees, t.label = Symbol.epsilon → g.yield t = []) :
    Heads (firstOfSequence sets.first (trees.map (·.label))) (trees.flatMap g.yield) := by
  induction trees with
  | nil => exact SymbolSet.mem_singleton.2 rfl
  | cons t trees ih =>
    have h' := List.forall_mem_cons.1 h
    have hε' := List.forall_mem_cons.1 hε
    have hrest := ih h'.2 hε'.2
    rw [List.flatMap_cons, List.map_cons]
    cases hy : g.yield t with
    | nil =>
      have hv : Vanishes sets.first t.label := by
        by_cases he : t.label = Symbol.epsilon
        · exact .inl he
        · have ht := h'.1 he
          rw [hy] at ht
          exact .inr ht
      rw [List.nil_append]
      cases hw : trees.flatMap g.yield with
      | nil =>
        rw [hw] at hrest
        exact epsilon_mem_firstOfSequence_cons.2 ⟨hv, hrest⟩
      | cons a w =>
        rw [hw] at hrest
        have ha : g.isTerminal a = true := by
          obtain ⟨t', -, ht'⟩ := List.mem_flatMap.1 (hw ▸ List.mem_cons_self)
          exact Grammar.isTerminal_of_mem_yield ht'
        exact (mem_firstOfSequence_cons (Grammar.isTerminal_iff.1 ha).2).2 (.inr ⟨hv, hrest⟩)
    | cons a w =>
      have hne : t.label ≠ Symbol.epsilon := fun he => by simp [hε'.1 he] at hy
      have ht := h'.1 hne
      rw [hy] at ht
      have ha : g.isTerminal a = true :=
        Grammar.isTerminal_of_mem_yield (hy ▸ List.mem_cons_self)
      exact (mem_firstOfSequence_cons (Grammar.isTerminal_iff.1 ha).2).2 (.inl ⟨hne, ht⟩)

theorem yield_of_epsilon (hε : g.isRule Symbol.epsilon = false) {t : Tree}
    (hd : g.IsDerivation t) (h : t.label = Symbol.epsilon) : g.yield t = [] := by
  cases t with
  | node info children =>
    obtain rfl : children = [] := hd.children_eq_nil (h ▸ hε)
    rw [Grammar.yield_leaf, if_neg]
    rw [show info.label = Symbol.epsilon from h]
    simp [Grammar.isTerminal]

theorem heads_tree (hc : Closed g sets) (hε : g.isRule Symbol.epsilon = false) {t : Tree}
    (hd : g.IsDerivation t) (hne : t.label ≠ Symbol.epsilon) :
    Heads (firstOf sets.first t.label) (g.yield t) := by
  induction t using Tree.induct with
  | node info children ih =>
    by_cases hr : g.isRule info.label = true
    · rw [Grammar.yield_node children hr]
      refine hc.production _ _ (hd.production hr) _ (heads_forest ?_ ?_)
      · exact fun c hcm hcn => ih c hcm (hd.child hcm) hcn
      · exact fun c hcm => yield_of_epsilon hε (hd.child hcm)
    · have hr : g.isRule info.label = false := by simpa using hr
      have ht : g.isTerminal info.label = true := Grammar.isTerminal_iff.2 ⟨hr, hne⟩
      obtain rfl : children = [] := hd.children_eq_nil hr
      rw [Grammar.yield_leaf, if_pos ht]
      exact hc.terminal _ ht

theorem heads_children (hc : Closed g sets) (hε : g.isRule Symbol.epsilon = false)
    {trees : List Tree} (hd : ∀ t ∈ trees, g.IsDerivation t) :
    Heads (firstOfSequence sets.first (trees.map (·.label))) (trees.flatMap g.yield) :=
  heads_forest (fun t ht => hc.heads_tree hε (hd t ht)) fun t ht => yield_of_epsilon hε (hd t ht)

end Closed

end Lookahead.FirstFollow
