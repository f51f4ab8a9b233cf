import Lookahead.Proofs.Derivation.Rejection

namespace Lookahead.Derivation

open FirstFollow (Closed)

variable {g : Grammar} {sets : FirstFollow} {table : Table}

/-- A word that may stand behind a symbol. It is not empty: the last of all words is the end
marker. -/
def Follows (g : Grammar) (sets : FirstFollow) (s : Symbol) (w : List Symbol) : Prop :=
  ∃ x rest, w = x :: rest ∧ x ≠ Symbol.epsilon ∧ (g.isRule s = true → x ∈ sets.followOf s)

/-- Of the trees of its label, no other begins a word that the tree begins too, with what may stand
behind them, and none leaves another rest. -/
def Determined (g : Grammar) (sets : FirstFollow) (t : Tree) : Prop :=
  ∀ (t' : Tree) (w w' : List Symbol), g.IsDerivation t' → t'.label = t.label →
    Follows g sets t.label w → Follows g sets t.label w' → g.yield t ++ w = g.yield t' ++ w' →
    t.bare = t'.bare ∧ w = w'

theorem head?_append_follows {s : Symbol} {w : List Symbol} (v : List Symbol)
    (h : Follows g sets s w) (hr : g.isRule s = true) :
    ∃ x, x ∈ sets.followOf s ∧ x ≠ Symbol.epsilon ∧ (v ++ w).head? = some (v.headD x) := by
  obtain ⟨x, rest, rfl, hne, hx⟩ := h
  refine ⟨x, hx hr, hne, ?_⟩
  cases v <;> rfl

section

variable (hclosed : Closed g sets) (hε : g.isRule Symbol.epsilon = false)

include hclosed hε

theorem follows_append {rule s : Symbol} {before w : List Symbol} {trees : List Tree}
    (hd : ∀ t ∈ trees, g.IsDerivation t)
    (hp : before ++ s :: trees.map (·.label) ∈ g.productions rule) (h : Follows g sets rule w) :
    Follows g sets s (trees.flatMap g.yield ++ w) := by
  obtain ⟨x, rest, rfl, hne, hx⟩ := h
  have hx := hx (Grammar.isRule_of_mem_productions hp)
  have hclaims := hclosed.claims_headD hε hd hx hne
  refine ⟨(trees.flatMap g.yield).headD x, (trees.flatMap g.yield ++ x :: rest).tail, ?_, hclaims.1,
    fun hr => hclosed.headD_mem_followOf hε hd hp hr hx⟩
  cases trees.flatMap g.yield <;> rfl

theorem determined_all {rule : Symbol} (before : List Symbol) {trees trees' : List Tree}
    (hp : before ++ trees.map (·.label) ∈ g.productions rule)
    (hlabels : trees'.map (·.label) = trees.map (·.label))
    (hd : ∀ t ∈ trees, g.IsDerivation t) (hd' : ∀ t ∈ trees', g.IsDerivation t)
    (hdet : ∀ t ∈ trees, t.label ≠ Symbol.epsilon → Determined g sets t) {w w' : List Symbol}
    (hw : Follows g sets rule w) (hw' : Follows g sets rule w')
    (h : trees.flatMap g.yield ++ w = trees'.flatMap g.yield ++ w') :
    trees.map Tree.bare = trees'.map Tree.bare ∧ w = w' := by
  induction trees generalizing before trees' with
  | nil =>
    obtain rfl : trees' = [] := List.map_eq_nil_iff.1 hlabels
    exact ⟨rfl, h⟩
  | cons t trees ih =>
    obtain ⟨t', trees', rfl, hlabel, hlabels⟩ := List.map_eq_cons_iff.1 hlabels
    obtain hlabel : t'.label = t.label := hlabel
    obtain ⟨hdt, hd⟩ := List.forall_mem_cons.1 hd
    obtain ⟨hdt', hd'⟩ := List.forall_mem_cons.1 hd'
    obtain ⟨hdett, hdet⟩ := List.forall_mem_cons.1 hdet
    rw [List.map_cons] at hp
    rw [List.flatMap_cons, List.flatMap_cons, List.append_assoc, List.append_assoc] at h
    -- The first trees are the same, and so are the words behind them.
    have hfirst : t.bare = t'.bare ∧
        trees.flatMap g.yield ++ w = trees'.flatMap g.yield ++ w' := by
      by_cases hne : t.label = Symbol.epsilon
      · rw [Closed.yield_of_epsilon hε hdt hne,
          Closed.yield_of_epsilon hε hdt' (hlabel.trans hne)] at h
        rw [hdt.bare_eq_leaf (hne ▸ hε) 0, hdt'.bare_eq_leaf (hlabel ▸ hne ▸ hε) 0, hlabel]
        exact ⟨rfl, h⟩
      · exact hdett hne t' _ _ hdt' hlabel (follows_append hclosed hε hd hp hw)
          (follows_append hclosed hε hd' (hlabels ▸ hp) hw') h
    have hp' : (before ++ [t.label]) ++ trees.map (·.label) ∈ g.productions rule := by
      rwa [List.append_assoc, List.singleton_append]
    obtain ⟨hbares, hrest⟩ := ih _ hp' hlabels hd hd' hdet hfirst.2
    exact ⟨by rw [List.map_cons, List.map_cons, hfirst.1, hbares], hrest⟩

theorem determined (hbuild : Table.build g sets = .ok table) (hconflicts : table.conflicts = [])
    {t : Tree} (hd : g.IsDerivation t) (hne : t.label ≠ Symbol.epsilon) : Determined g sets t := by
  induction t using Tree.induct with
  | node info children ih =>
    rintro ⟨info', children'⟩ w w' hd' hlabel hw hw' h
    obtain hlabel : info'.label = info.label := hlabel
    cases hr : g.isRule info.label with
    | false =>
      have hterminal : g.isTerminal info.label = true := Grammar.isTerminal_iff.2 ⟨hr, hne⟩
      have hr' : g.isRule info'.label = false := hlabel ▸ hr
      obtain rfl : children = [] := hd.children_eq_nil hr
      obtain rfl : children' = [] := hd'.children_eq_nil hr'
      rw [Grammar.yield_leaf, Grammar.yield_leaf, hlabel, if_pos hterminal] at h
      rw [hd.bare_eq_leaf hr 0, hd'.bare_eq_leaf hr' 0, Tree.label_node, Tree.label_node, hlabel]
      exact ⟨rfl, List.append_cancel_left h⟩
    | true =>
      have hr' : g.isRule info'.label = true := hlabel ▸ hr
      have hdc : ∀ t ∈ children, g.IsDerivation t := fun t ht => hd.child ht
      have hdc' : ∀ t ∈ children', g.IsDerivation t := fun t ht => hd'.child ht
      have hp : children.map (·.label) ∈ g.productions info.label := hd.production hr
      have hp' : children'.map (·.label) ∈ g.productions info.label := hlabel ▸ hd'.production hr'
      rw [Grammar.yield_node children hr, Grammar.yield_node children' hr'] at h
      obtain ⟨x, hx, hxne, hhead⟩ := head?_append_follows (children.flatMap g.yield) hw hr
      obtain ⟨x', hx', hxne', hhead'⟩ := head?_append_follows (children'.flatMap g.yield) hw' hr
      -- Both productions claim the first terminal of the word, and the table holds one of them.
      have hlookup := Table.lookup_of_claims hbuild hconflicts hp
        (hclosed.claims_headD hε hdc hx hxne)
      have hlookup' := Table.lookup_of_claims hbuild hconflicts hp'
        (hclosed.claims_headD hε hdc' hx' hxne')
      rw [h, hhead'] at hhead
      rw [Option.some.inj hhead, hlookup] at hlookup'
      have hlabels := (Option.some.inj hlookup').symm
      obtain ⟨hbares, hrest⟩ := determined_all hclosed hε [] hp hlabels hdc hdc'
        (fun t ht => ih t ht (hdc t ht)) hw hw' h
      exact ⟨by rw [Tree.bare_node, Tree.bare_node, hlabel, hbares], hrest⟩

end

/-- A sentence has one derivation tree: both trees are followed by the end marker. -/
theorem bare_eq_of_yield_eq (hbuild : Table.build g sets = .ok table)
    (hconflicts : table.conflicts = []) (hclosed : Closed g sets)
    (hε : g.isRule Symbol.epsilon = false) {t t' : Tree} (hd : g.IsDerivation t)
    (hd' : g.IsDerivation t') (hstart : t.label = g.start) (hstart' : t'.label = g.start)
    (hy : g.yield t = g.yield t') : t.bare = t'.bare := by
  have hend : Follows g sets t.label [Symbol.eof] :=
    ⟨_, [], rfl, by decide, fun _ => hstart ▸ hclosed.start⟩
  have hne : t.label ≠ Symbol.epsilon :=
    Grammar.ne_epsilon_of_isRule hε (hstart ▸ g.isRule_start)
  exact (determined hclosed hε hbuild hconflicts hd hne t' _ _ hd' (hstart'.trans hstart.symm) hend
    hend (by rw [hy])).1

/-- With a table without conflicts, every sentence is accepted and has one derivation tree. Each
derivation tree of the start symbol is found again from its yield, unless the end marker names a
rule. -/
theorem parse_complete_unique (hbuild : Table.build g (.compute g) = .ok table)
    (hconflicts : table.conflicts = []) (hε : g.isRule Symbol.epsilon = false) :
    (g.isRule Symbol.eof = false → ∀ (t : Tree) (tokens : List Token), g.IsDerivation t →
      t.label = g.start → tokens.map (·.kind) = g.yield t →
      ∃ t', (parse table g.start (.ofTokens tokens)).result = .ok (.rooted t') ∧
        t'.bare = t.bare) ∧
    (∀ tokens : List Token, g.IsSentence (tokens.map (·.kind)) →
      ∃ tree, (parse table g.start (.ofTokens tokens)).result = .ok tree) ∧
    ∀ t t' : Tree, g.IsDerivation t → g.IsDerivation t' → t.label = g.start →
      t'.label = g.start → g.yield t = g.yield t' → t.bare = t'.bare := by
  have hclosed := FirstFollow.closed_compute g
  refine ⟨?_, ?_, ?_⟩
  · intro heof t tokens hd hstart hy
    obtain ⟨line, hend⟩ := TokenStream.get_ofTokens_of_le (Nat.le_refl tokens.length)
    exact exists_parse hbuild hconflicts hclosed hε heof hd hstart hy
      (TokenStream.shows_ofTokens tokens) hend
  · intro tokens hw
    refine exists_parse_ended hclosed hε hbuild hconflicts hw (TokenStream.shows_ofTokens tokens) ?_
    intro i hi
    obtain ⟨line, hline⟩ := TokenStream.get_ofTokens_of_le hi
    exact ⟨_, hline, rfl⟩
  · intro t t' hd hd' hstart hstart' hy
    exact bare_eq_of_yield_eq hbuild hconflicts hclosed hε hd hd' hstart hstart' hy

theorem parse_complete_unique_balanced :
    ∃ table, Table.build balanced (.compute balanced) = .ok table ∧ table.conflicts = [] ∧
      ∃ tree, (parse table "S" (.ofTokens [⟨"a", none, 1⟩, ⟨"b", none, 1⟩])).result = .ok tree := by
  refine ⟨_, rfl, by decide +kernel, ?_⟩
  obtain ⟨hparse, -⟩ := parse_complete_unique
    (rfl : Table.build balanced (.compute balanced) = .ok _) (by decide +kernel) (by decide +kernel)
  obtain ⟨t, ht, -⟩ := hparse (by decide +kernel)
    (.branch "S" [.leaf 0 "a", .emptied "S", .leaf 0 "b"])
    [⟨"a", none, 1⟩, ⟨"b", none, 1⟩] (by decide +kernel) (by decide +kernel) (by decide +kernel)
  exact ⟨_, ht⟩

/-- Where the end marker names a rule, it is matched in place of the derivation of that rule from
nothing. -/
theorem parse_ne_derivation_ruledEnd :
    ∃ table t t', Table.build ruledEnd (.compute ruledEnd) = .ok table ∧ table.conflicts = [] ∧
      ruledEnd.isRule Symbol.epsilon = false ∧ ruledEnd.IsDerivation t ∧
      t.label = ruledEnd.start ∧ ruledEnd.yield t = ["a"] ∧
      (parse table ruledEnd.start (.ofTokens [⟨"a", none, 1⟩])).result = .ok (.rooted t') ∧
      t'.bare ≠ t.bare := by
  refine ⟨_, .branch "S" [.leaf 0 "a", .emptied Symbol.eof], _, rfl, by decide +kernel,
    by decide +kernel, by decide +kernel, by decide +kernel, by decide +kernel, rfl, ?_⟩
  intro h
  exact absurd (congrArg Tree.size h) (by decide +kernel)

end Lookahead.Derivation
