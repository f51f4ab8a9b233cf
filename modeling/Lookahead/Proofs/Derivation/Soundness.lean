import Lookahead.Proofs.Derivation.Run
import Lookahead.Proofs.Grammar.Sentence
import Lookahead.Proofs.Table.Lookup

namespace Lookahead

def Node.token? (n : Node) : Option Token := n.line.map fun line => ⟨n.label, n.literal, line⟩

theorem Node.label_of_token? {n : Node} {x : Token} (h : n.token? = some x) : n.label = x.kind := by
  obtain ⟨line, -, rfl⟩ := Option.map_eq_some_iff.1 h
  rfl

theorem Node.map_label_of_token? {nodes : List Node} {ts : List Token}
    (h : nodes.map token? = ts.map some) : nodes.map (·.label) = ts.map (·.kind) := by
  induction nodes generalizing ts with
  | nil =>
    rw [List.map_eq_nil_iff.1 h.symm]
    rfl
  | cons n nodes ih =>
    cases ts with
    | nil => cases h
    | cons x ts =>
      rw [List.map_cons, List.map_cons, List.cons.injEq] at h
      rw [List.map_cons, List.map_cons, label_of_token? h.1, ih h.2]

namespace Derivation

variable {g : Grammar} {sets : FirstFollow} {table : Table}

/-- The trees are derivations, and together their terminal leaves bear the tokens. -/
def Bears (g : Grammar) (trees : List Tree) (ts : List Token) : Prop :=
  (∀ t ∈ trees, g.IsDerivation t) ∧
    (trees.flatMap g.terminalLeaves).map Node.token? = ts.map some

theorem bears_nil : Bears g [] [] := ⟨fun _ h => absurd h List.not_mem_nil, rfl⟩

theorem Bears.append {trees trees' : List Tree} {ts ts' : List Token} (h : Bears g trees ts)
    (h' : Bears g trees' ts') : Bears g (trees ++ trees') (ts ++ ts') := by
  refine ⟨fun t ht => (List.mem_append.1 ht).elim (h.1 t) (h'.1 t), ?_⟩
  rw [List.flatMap_append, List.map_append, h.2, h'.2, List.map_append]

theorem Bears.flatMap_yield {trees : List Tree} {ts : List Token} (h : Bears g trees ts) :
    trees.flatMap g.yield = ts.map (·.kind) := by
  rw [← Node.map_label_of_token? h.2, List.map_flatMap]
  rfl

theorem bears_epsilon (hε : g.isRule Symbol.epsilon = false) (id : Nat) :
    Bears g [.leaf id Symbol.epsilon] [] := by
  constructor
  · intro t ht
    rw [List.mem_singleton.1 ht, Tree.leaf, Grammar.isDerivation_node]
    exact ⟨by simp [Grammar.Expands, Tree.children, hε], by simp⟩
  · simp [Tree.leaf, Grammar.terminalLeaves_leaf, Grammar.isTerminal]

theorem bears_leaf {token : Token} (hr : g.isRule token.kind = false)
    (hne : token.kind ≠ Symbol.epsilon) (id : Nat) :
    Bears g [.node ⟨id, token.kind, token.literal, some token.line⟩ []] [token] := by
  constructor
  · intro t ht
    rw [List.mem_singleton.1 ht, Grammar.isDerivation_node]
    exact ⟨by simp [Grammar.Expands, Tree.children, hr], by simp⟩
  · simp [Grammar.terminalLeaves_leaf, Grammar.isTerminal, hr, hne, Node.token?]

theorem Bears.node {info : Node} {children : List Tree} {ts : List Token}
    (h : Bears g children ts) (hp : children.map (·.label) ∈ g.productions info.label) :
    Bears g [.node info children] ts := by
  have hr := Grammar.isRule_of_mem_productions hp
  constructor
  · intro t ht
    rw [List.mem_singleton.1 ht, Grammar.isDerivation_node]
    refine ⟨?_, h.1⟩
    rwa [Grammar.Expands, Tree.label_node, if_pos hr]
  · rw [List.flatMap_singleton, Grammar.terminalLeaves_node children hr, h.2]

/-- What a call that succeeds has done. -/
def Derived (g : Grammar) (c : Cursor) (symbols : List Symbol) (trees : List Tree)
    (c' : Cursor) : Prop :=
  trees.map (·.label) = symbols ∧ ∃ ts, c.Reads ts c' ∧
    ((∀ x ∈ ts, g.isRule x.kind = false) → Bears g trees ts)

theorem derived_nil (c : Cursor) : Derived g c [] [] c := ⟨rfl, [], .refl c, fun _ => bears_nil⟩

theorem derived_epsilon (hε : g.isRule Symbol.epsilon = false) (c : Cursor) (id : Nat) :
    Derived g c [Symbol.epsilon] [.leaf id Symbol.epsilon] c :=
  ⟨rfl, [], .refl c, fun _ => bears_epsilon hε id⟩

theorem Derived.append (c : Cursor) (p : List Symbol) (trees : List Tree) (c' : Cursor)
    (p' : List Symbol) (trees' : List Tree) (c'' : Cursor) (h : Derived g c p trees c')
    (h' : Derived g c' p' trees' c'') : Derived g c (p ++ p') (trees ++ trees') c'' := by
  obtain ⟨rfl, ts, hreads, hbears⟩ := h
  obtain ⟨rfl, ts', hreads', hbears'⟩ := h'
  refine ⟨List.map_append, ts ++ ts', hreads.append hreads', fun hts => ?_⟩
  exact (hbears fun x hx => hts x (List.mem_append_left ts' hx)).append
    (hbears' fun x hx => hts x (List.mem_append_right ts hx))

section

variable (hbuild : Table.build g sets = .ok table) (hε : g.isRule Symbol.epsilon = false)

include hbuild hε

theorem derived_derive {depth id : Nat} {s : Symbol} {c c' : Cursor} {t : Tree}
    (hs : s ≠ Symbol.epsilon) (h : derive table depth s id c = (.ok t, c')) :
    Derived g c [s] [t] c' := by
  refine derive_induct derived_nil (derived_epsilon hε) Derived.append ?matched ?expand hs h
  case matched =>
    exact fun c c' id hne hreads =>
      ⟨rfl, _, hreads, fun hts => bears_leaf (hts _ List.mem_cons_self) hne id⟩
  case expand =>
    rintro c c' id s p children hl ⟨hlabels, ts, hreads, hbears⟩
    refine ⟨rfl, ts, hreads.of_opened, fun hts => (hbears hts).node ?_⟩
    rw [hlabels]
    exact (Table.lookup_eq_some hbuild hl).1

theorem derived_deriveAll {depth id : Nat} {p : List Symbol} {c c' : Cursor} {trees : List Tree}
    (h : deriveAll (derive table depth) p id c = (.ok trees, c')) : Derived g c p trees c' :=
  deriveAll_induct derived_nil (derived_epsilon hε) Derived.append
    (fun _ _ _ _ _ hs ht => derived_derive hbuild hε hs ht) h

end

section Parse

variable {start : Symbol} {tokens : List Token} {tree : Tree} {pulled : Nat} {steps : List Step}

/-- What a derivation that succeeds has read from its stream. -/
theorem bears_of_parse (hbuild : Table.build g sets = .ok table)
    (hε : g.isRule Symbol.epsilon = false) (hstart : g.isRule start = true) {stream : TokenStream}
    (h : parse table start stream = ⟨.ok tree, pulled, steps⟩) :
    ∃ t ts, tree = .rooted t ∧ t.label = start ∧ stream.Shows ts ∧ matchCount steps = ts.length ∧
      pulled = ts.length + 1 ∧ ((∀ x ∈ ts, g.isRule x.kind = false) → Bears g [t] ts) := by
  obtain ⟨token, rest, t, c, hnext, hderive, rfl, rfl, rfl⟩ := parse_ok h
  obtain ⟨hlabel, ts, hreads, hbears⟩ :=
    derived_derive hbuild hε (Grammar.ne_epsilon_of_isRule hε hstart) hderive
  refine ⟨t, ts, rfl, (List.cons.inj hlabel).1, ?_, ?_, ?_, hbears⟩
  · exact fun i hi => (Cursor.get_first hnext i).symm.trans (hreads.tokens i hi)
  · rw [matchCount, List.countP_reverse]
    simpa [Cursor.first, matchCount] using hreads.matched
  · rw [hreads.pulled, Nat.add_comm]
    rfl

/-- The kinds that a stream of tokens gives are those of its tokens and, past them, `EOF`. -/
theorem isRule_kind_of_get (hkinds : ∀ x ∈ tokens, g.isRule x.kind = false) {k i : Nat} {x : Token}
    (hk : k ≤ tokens.length ∨ g.isRule Symbol.eof = false) (hi : i < k)
    (hx : (TokenStream.ofTokens tokens).get i = .ok x) : g.isRule x.kind = false := by
  by_cases hlt : i < tokens.length
  · rw [TokenStream.get_ofTokens_of_lt hlt] at hx
    cases hx
    exact hkinds _ (List.getElem_mem hlt)
  · obtain ⟨line, hline⟩ := TokenStream.get_ofTokens_of_le (Nat.le_of_not_lt hlt)
    rw [hline] at hx
    cases hx
    exact hk.resolve_left (by omega)

/-- A tree that a derivation returns after `k` matches is a derivation of the start symbol. Its
terminal leaves bear the first `k` tokens, and one more was asked for. -/
theorem isDerivation_of_parse (hbuild : Table.build g sets = .ok table)
    (hε : g.isRule Symbol.epsilon = false) (hstart : g.isRule start = true)
    (hkinds : ∀ x ∈ tokens, g.isRule x.kind = false)
    (hparse : parse table start (.ofTokens tokens) = ⟨.ok tree, pulled, steps⟩)
    (heof : matchCount steps ≤ tokens.length ∨ g.isRule Symbol.eof = false) :
    ∃ t, tree = .rooted t ∧ t.label = start ∧ g.IsDerivation t ∧
      (∀ n ∈ t.preorder, ∀ e ∈ n.children, e.label = Symbol.epsilon →
        n.children = [e] ∧ e.children = [] ∧ [Symbol.epsilon] ∈ g.productions n.label) ∧
      (∃ ts : List Token, (TokenStream.ofTokens tokens).take (matchCount steps) = ts.map .ok ∧
        (g.terminalLeaves t).map Node.token? = ts.map some) ∧
      pulled = matchCount steps + 1 := by
  obtain ⟨t, ts, rfl, hlabel, hshows, hcount, rfl, hbears⟩ :=
    bears_of_parse hbuild hε hstart hparse
  rw [hcount] at heof ⊢
  have hts : ∀ x ∈ ts, g.isRule x.kind = false := by
    intro x hx
    obtain ⟨i, hi, rfl⟩ := List.getElem_of_mem hx
    exact isRule_kind_of_get hkinds heof hi (hshows i hi)
  obtain ⟨hd, hleaves⟩ := hbears hts
  have hd := hd t List.mem_cons_self
  rw [List.flatMap_singleton] at hleaves
  exact ⟨t, rfl, hlabel, hd, fun n hn e he => hd.epsilon_alone hε hn he,
    ⟨ts, hshows.take, hleaves⟩, rfl⟩

/-- `S` derives as many `a` as `b` after them. -/
def balanced : Grammar where
  rules := [⟨"S", [["a", "S", "b"], [Symbol.epsilon]]⟩]
  nonempty := by decide
  nodup := by decide
  unmixed := by decide +kernel

/-- An `a` and then the rule named like the end marker, which derives `b` or nothing. -/
def ruledEnd : Grammar where
  rules := [⟨"S", [["a", Symbol.eof]]⟩, ⟨Symbol.eof, [["b"], [Symbol.epsilon]]⟩]
  nonempty := by decide
  nodup := by decide +kernel
  unmixed := by decide +kernel

theorem isDerivation_of_parse_balanced :
    ∃ table tree steps, Table.build balanced (.compute balanced) = .ok table ∧
      parse table "S" (.ofTokens [⟨"a", none, 1⟩, ⟨"b", some "x", 2⟩]) = ⟨.ok tree, 3, steps⟩ ∧
      ∃ t, tree = .rooted t ∧ balanced.IsDerivation t := by
  refine ⟨_, _, _, rfl, rfl, ?_⟩
  obtain ⟨t, ht, -, hd, -⟩ := isDerivation_of_parse
    (rfl : Table.build balanced (.compute balanced) = .ok _) (by decide +kernel)
    (by decide +kernel) (by decide +kernel)
    (rfl : parse _ "S" (.ofTokens [⟨"a", none, 1⟩, ⟨"b", some "x", 2⟩]) = ⟨.ok _, _, _⟩)
    (by decide +kernel)
  exact ⟨t, ht, hd⟩

/-- The end marker is matched with the rule of its name, which then has no production below it. -/
theorem not_isDerivation_ruledEnd :
    ∃ table t pulled steps, Table.build ruledEnd (.compute ruledEnd) = .ok table ∧
      ruledEnd.isRule Symbol.epsilon = false ∧ ruledEnd.isRule "S" = true ∧
      ruledEnd.isRule "a" = false ∧
      parse table "S" (.ofTokens [⟨"a", none, 1⟩]) = ⟨.ok (.rooted t), pulled, steps⟩ ∧
      ¬ruledEnd.IsDerivation t :=
  ⟨_, _, _, _, rfl, by decide +kernel, by decide +kernel, by decide +kernel, rfl, by decide +kernel⟩

end Parse

end Derivation

end Lookahead
