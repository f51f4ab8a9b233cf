import Lookahead.Proofs.Derivation.Depth
import Lookahead.Proofs.Derivation.Soundness
import Lookahead.Proofs.FirstFollow.Follow

namespace Lookahead

namespace FirstFollow.Closed

variable {g : Grammar} {sets : FirstFollow} {rule x : Symbol} {trees : List Tree}

/-- A production claims the first terminal of what it is rewritten to or, if that is nothing, what
may follow its rule. -/
theorem claims_headD (hc : Closed g sets) (hε : g.isRule Symbol.epsilon = false)
    (hd : ∀ t ∈ trees, g.IsDerivation t) (hx : x ∈ sets.followOf rule) (hne : x ≠ Symbol.epsilon) :
    sets.Claims rule (trees.map (·.label)) ((trees.flatMap g.yield).headD x) := by
  have hheads := hc.heads_children hε hd
  cases hw : trees.flatMap g.yield with
  | nil =>
    rw [hw] at hheads
    exact ⟨hne, .inr ⟨hheads, hx⟩⟩
  | cons a w =>
    rw [hw] at hheads
    obtain ⟨t, -, ht⟩ := List.mem_flatMap.1 (hw ▸ List.mem_cons_self : a ∈ trees.flatMap g.yield)
    exact ⟨(Grammar.isTerminal_iff.1 (Grammar.isTerminal_of_mem_yield ht)).2, .inl hheads⟩

/-- A symbol of a production is followed by the first terminal of what stands behind it or, if that
is nothing, by what may follow the rule. -/
theorem headD_mem_followOf (hc : Closed g sets) (hε : g.isRule Symbol.epsilon = false)
    {before : List Symbol} {s : Symbol} (hd : ∀ t ∈ trees, g.IsDerivation t)
    (hp : before ++ s :: trees.map (·.label) ∈ g.productions rule) (hr : g.isRule s = true)
    (hx : x ∈ sets.followOf rule) : (trees.flatMap g.yield).headD x ∈ sets.followOf s := by
  have hheads := hc.heads_children hε hd
  cases hw : trees.flatMap g.yield with
  | nil =>
    rw [hw] at hheads
    exact hc.inherit rule before s _ hp hr hheads x hx
  | cons a w =>
    rw [hw] at hheads
    obtain ⟨t, -, ht⟩ := List.mem_flatMap.1 (hw ▸ List.mem_cons_self : a ∈ trees.flatMap g.yield)
    exact hc.next rule before s _ hp hr a hheads
      (Grammar.isTerminal_iff.1 (Grammar.isTerminal_of_mem_yield ht)).2

end FirstFollow.Closed

namespace Derivation

open FirstFollow (Closed)

variable {g : Grammar} {sets : FirstFollow} {table : Table}

def Cursor.Shows (c : Cursor) (ts : List Token) : Prop :=
  ∀ i (h : i < ts.length), c.get i = .ok ts[i]

theorem Cursor.Shows.lookahead {c : Cursor} {x : Token} {ts : List Token} (h : c.Shows (x :: ts)) :
    c.lookahead = x :=
  Except.ok.inj (h 0 (by simp))

theorem Cursor.Shows.of_reads {c c' : Cursor} {ts ts' : List Token} (h : c.Shows (ts ++ ts'))
    (hr : c.Reads ts c') : c'.Shows ts' := by
  intro i hi
  rw [hr.rest, h (ts.length + i) (by rw [List.length_append]; omega)]
  rw [List.getElem_append_right (by omega)]
  simp

theorem Cursor.Shows.opened {c : Cursor} {ts : List Token} (h : c.Shows ts) (rule : Symbol)
    (p : Production) : (c.opened rule p).Shows ts :=
  fun i hi => (Cursor.get_opened c rule p i).trans (h i hi)

/-- A tree is derived again wherever its yield lies ahead, followed by a terminal that may follow
its label, with enough levels. -/
def Rederived (g : Grammar) (sets : FirstFollow) (table : Table) (t : Tree) : Prop :=
  ∀ (us : List Token) (x : Token) (rest : List Token) (c : Cursor) (depth id : Nat),
    us.map (·.kind) = g.yield t → c.Shows (us ++ x :: rest) → g.isTerminal x.kind = true →
    (g.isRule t.label = true → x.kind ∈ sets.followOf t.label) → t.height ≤ depth →
    ∃ t' c', derive table depth t.label id c = (.ok t', c') ∧ t'.bare = t.bare ∧ c.Reads us c'

theorem rederived_leaf {info : Node} (ht : g.isTerminal info.label = true) :
    Rederived g sets table (.node info []) := by
  intro us x rest c depth id hy hshow _ _ hdepth
  rw [Grammar.yield_leaf, if_pos ht] at hy
  obtain ⟨u, rfl, hu⟩ := List.map_eq_singleton_iff.1 hy
  obtain ⟨depth, rfl⟩ := Nat.exists_eq_succ_of_ne_zero (Nat.ne_of_gt hdepth)
  have hlook : c.lookahead = u := hshow.lookahead
  have hnext : c.get 1 = .ok x := hshow 1 (by simp)
  have hderive : derive table (depth + 1) info.label id c = _ :=
    derive_matched (hlook ▸ hu.symm) depth id
  rw [hnext] at hderive
  refine ⟨_, _, hderive, ?_, hlook ▸ Cursor.reads_asked hnext⟩
  rw [Tree.bare_node, Tree.bare_node]

/-- What lies ahead behind the trees of a row, split off at its first token. -/
theorem exists_next {us : List Token} {x : Token} (rest : List Token) {trees : List Tree}
    (hy : us.map (·.kind) = trees.flatMap g.yield) (hx : g.isTerminal x.kind = true) :
    ∃ y rest', us ++ x :: rest = y :: rest' ∧ g.isTerminal y.kind = true ∧
      y.kind = (trees.flatMap g.yield).headD x.kind := by
  rw [← hy]
  cases us with
  | nil => exact ⟨x, rest, rfl, hx, rfl⟩
  | cons u us =>
    have hmem : u.kind ∈ trees.flatMap g.yield := by
      rw [← hy]
      exact List.mem_cons_self
    obtain ⟨t, -, ht⟩ := List.mem_flatMap.1 hmem
    exact ⟨u, us ++ x :: rest, rfl, Grammar.isTerminal_of_mem_yield ht, rfl⟩

section

variable (hclosed : Closed g sets) (hε : g.isRule Symbol.epsilon = false)

include hclosed hε

theorem exists_deriveAll {rule : Symbol} (before : List Symbol) {trees : List Tree}
    (hp : before ++ trees.map (·.label) ∈ g.productions rule)
    (hd : ∀ t ∈ trees, g.IsDerivation t)
    (hre : ∀ t ∈ trees, t.label ≠ Symbol.epsilon → Rederived g sets table t)
    {us : List Token} {x : Token} {rest : List Token} {c : Cursor} {depth : Nat} (id : Nat)
    (hy : us.map (·.kind) = trees.flatMap g.yield) (hshow : c.Shows (us ++ x :: rest))
    (hx : g.isTerminal x.kind = true) (hfollow : x.kind ∈ sets.followOf rule)
    (hdepth : Tree.heightAll trees ≤ depth) :
    ∃ trees' c', deriveAll (derive table depth) (trees.map (·.label)) id c = (.ok trees', c') ∧
      trees'.map Tree.bare = trees.map Tree.bare ∧ c.Reads us c' := by
  induction trees generalizing before us c id with
  | nil =>
    obtain rfl : us = [] := List.map_eq_nil_iff.1 hy
    exact ⟨[], c, rfl, rfl, .refl c⟩
  | cons t trees ih =>
    obtain ⟨hdt, hd'⟩ := List.forall_mem_cons.1 hd
    obtain ⟨hret, hre'⟩ := List.forall_mem_cons.1 hre
    rw [List.flatMap_cons] at hy
    obtain ⟨us₁, us₂, rfl, hy₁, hy₂⟩ := List.map_eq_append_iff.1 hy
    rw [List.append_assoc] at hshow
    rw [List.map_cons] at hp ⊢
    have hp' : (before ++ [t.label]) ++ trees.map (·.label) ∈ g.productions rule := by
      rwa [List.append_assoc, List.singleton_append]
    have hdepth' : t.height ≤ depth ∧ Tree.heightAll trees ≤ depth := by
      rw [Tree.heightAll] at hdepth
      omega
    -- The first tree; an `EPSILON` takes nothing from the cursor.
    have hfirst : ∃ t' c', t'.bare = t.bare ∧ c.Reads us₁ c' ∧
        ∀ rest, deriveAll (derive table depth) (t.label :: rest) id c =
          attach t' (deriveAll (derive table depth) rest (id + 1) c') := by
      by_cases hne : t.label = Symbol.epsilon
      · obtain rfl : us₁ = [] := by
          rw [FirstFollow.Closed.yield_of_epsilon hε hdt hne] at hy₁
          exact List.map_eq_nil_iff.1 hy₁
        refine ⟨.leaf id Symbol.epsilon, c, ?_, .refl c, fun rest => ?_⟩
        · rw [hdt.bare_eq_leaf (hne ▸ hε) id, hne]
        · rw [hne, deriveAll_epsilon]
      · obtain ⟨y, rest', hnext, hterminal, hy'⟩ := exists_next rest hy₂ hx
        have hyf : g.isRule t.label = true → y.kind ∈ sets.followOf t.label :=
          fun hr => hy' ▸ hclosed.headD_mem_followOf hε hd' hp hr hfollow
        rw [hnext] at hshow
        obtain ⟨t', c', hderive, hbare, hreads⟩ :=
          hret hne us₁ y rest' c depth id hy₁ hshow hterminal hyf hdepth'.1
        refine ⟨t', c', hbare, hreads, fun rest => ?_⟩
        rw [deriveAll_cons hne, hderive]
    obtain ⟨t', c₁, hbare, hreads, hstep⟩ := hfirst
    obtain ⟨trees', c₂, hall, hbares, hreads'⟩ :=
      ih _ hp' hd' hre' (id + 1) hy₂ (hshow.of_reads hreads) hdepth'.2
    refine ⟨t' :: trees', c₂, ?_, ?_, hreads.append hreads'⟩
    · rw [hstep, hall]
      rfl
    · rw [List.map_cons, List.map_cons, hbare, hbares]

theorem rederived (hbuild : Table.build g sets = .ok table) (hconflicts : table.conflicts = [])
    {t : Tree} (hd : g.IsDerivation t) (hne : t.label ≠ Symbol.epsilon) :
    Rederived g sets table t := by
  induction t using Tree.induct with
  | node info children ih =>
    cases hr : g.isRule info.label with
    | false =>
      obtain rfl : children = [] := hd.children_eq_nil hr
      exact rederived_leaf (Grammar.isTerminal_iff.2 ⟨hr, hne⟩)
    | true =>
      intro us x rest c depth id hy hshow hx hfollow hdepth
      obtain ⟨depth, rfl⟩ := Nat.exists_eq_succ_of_ne_zero
        (Nat.ne_of_gt (Nat.lt_of_lt_of_le (Nat.succ_pos _) hdepth))
      have hp : children.map (·.label) ∈ g.productions info.label := hd.production hr
      have hdc : ∀ t ∈ children, g.IsDerivation t := fun t ht => hd.child ht
      rw [Grammar.yield_node children hr] at hy
      obtain ⟨y, rest', hnext, hterminal, hy'⟩ := exists_next rest hy hx
      have hlook : c.lookahead = y := Cursor.Shows.lookahead (hnext ▸ hshow)
      have hclaims : sets.Claims info.label (children.map (·.label)) y.kind :=
        hy' ▸ hclosed.claims_headD hε hdc (hfollow hr) (Grammar.isTerminal_iff.1 hx).2
      have hlookup := Table.lookup_of_claims hbuild hconflicts hp hclaims
      have hmiss : info.label ≠ c.lookahead.kind := by
        intro heq
        rw [heq, hlook, (Grammar.isTerminal_iff.1 hterminal).1] at hr
        contradiction
      rw [Tree.label_node,
        derive_expand hmiss ((Table.isRule_of_build hbuild _).trans hr) (hlook ▸ hlookup)]
      obtain ⟨children', c', hall, hbares, hreads⟩ := exists_deriveAll hclosed hε []
        hp hdc (fun t ht => ih t ht (hdc t ht)) c.size hy
        (hshow.opened info.label (children.map (·.label))) hx (hfollow hr)
        (Nat.le_of_succ_le_succ hdepth)
      refine ⟨_, c', by rw [hall]; rfl, ?_, hreads.of_opened⟩
      rw [Tree.bare_node, Tree.bare_node, hbares]

end

/-- A derivation of the start symbol is derived from any stream that begins with tokens of the
kinds of its yield and the end marker behind them. -/
theorem exists_parse (hbuild : Table.build g sets = .ok table) (hconflicts : table.conflicts = [])
    (hclosed : Closed g sets) (hε : g.isRule Symbol.epsilon = false)
    (heof : g.isRule Symbol.eof = false) {t : Tree} (hd : g.IsDerivation t)
    (hstart : t.label = g.start) {stream : TokenStream} {tokens : List Token}
    (hy : tokens.map (·.kind) = g.yield t) (hshows : stream.Shows tokens) {line : Nat}
    (hend : stream.get tokens.length = .ok (.eof line)) :
    ∃ t', (parse table g.start stream).result = .ok (.rooted t') ∧ t'.bare = t.bare := by
  have hne : t.label ≠ Symbol.epsilon :=
    Grammar.ne_epsilon_of_isRule hε (hstart ▸ g.isRule_start)
  have hshows := hshows.append_singleton hend
  have hfirst : ∃ token rest, stream.next = (.ok token, rest) := by
    have hnext := stream.next_fst
    rw [hshows 0 (by simp)] at hnext
    exact ⟨_, _, Prod.ext hnext rfl⟩
  obtain ⟨token, rest, hnext⟩ := hfirst
  have hfollow : Symbol.eof ∈ sets.followOf t.label := hstart ▸ hclosed.start
  obtain ⟨t', c', hderive, hbare, -⟩ := rederived hclosed hε hbuild hconflicts hd hne tokens
    (.eof line) [] (.first token rest) t.height 1 hy
    (fun i hi => (Cursor.get_first hnext i).trans (hshows i hi))
    (Grammar.isTerminal_iff.2 ⟨heof, (by decide : Symbol.eof ≠ Symbol.epsilon)⟩)
    (fun _ => hfollow) (Nat.le_refl _)
  have hbound := derive_depthBound (Cursor.at_first hnext) (by rw [hderive]; exact nofun)
  refine ⟨t', ?_, hbare⟩
  rw [parse_eq hnext, ← hstart, hbound, hderive]
  rfl

end Derivation

end Lookahead
