import Lookahead.Proofs.Derivation.Completeness
import Lookahead.Proofs.Derivation.Locality

namespace Lookahead.Derivation

open FirstFollow (Closed)

variable {g : Grammar} {sets : FirstFollow} {table : Table}

section Viable

variable (hbuild : Table.build g sets = .ok table) (hε : g.isRule Symbol.epsilon = false)

include hbuild hε

theorem derives_of_deriveAll {depth id : Nat} {p : List Symbol} {c c' : Cursor} {trees : List Tree}
    (h : deriveAll (derive table depth) p id c = (.ok trees, c')) :
    ∃ ts, c.Reads ts c' ∧ ((∀ x ∈ ts, g.isRule x.kind = false) →
      g.Derives (Grammar.replacement p) (ts.map (·.kind))) := by
  obtain ⟨hlabels, ts, hreads, hbears⟩ := derived_deriveAll hbuild hε h
  refine ⟨ts, hreads, fun hts => ?_⟩
  have hderives := Grammar.derives_yields fun t ht => ((hbears hts).1 t ht).derives hε
  rwa [(hbears hts).flatMap_yield, Grammar.roots, hlabels] at hderives

/-- The tokens that a rejecting derivation has matched begin something that its symbol is rewritten
to, and it rejects the token it then looks at. -/
theorem viable_of_rejected {depth id : Nat} {s : Symbol} {c c' : Cursor} {e : SyntaxError}
    (h : derive table depth s id c = (.error (.rejected e), c')) :
    ∃ ts, c.Reads ts c' ∧ e.line = c'.lookahead.line ∧
      ((∀ x ∈ ts, g.isRule x.kind = false) →
        ∃ rest, g.Derives [s] (ts.map (·.kind) ++ rest)) := by
  induction depth generalizing s id c with
  | zero => cases h
  | succ depth ih =>
    by_cases hs : s = c.lookahead.kind
    · rw [derive_matched hs] at h
      cases hg : c.get 1 <;> rw [hg] at h <;> cases h
    · cases hr : table.isRule s with
      | false =>
        rw [derive_mismatch hs hr] at h
        cases h
        exact ⟨[], .refl c', rfl, fun _ => ⟨[s], .refl⟩⟩
      | true =>
        cases hl : table.lookup s c.lookahead.kind with
        | none =>
          rw [derive_noProduction hs hr hl] at h
          cases h
          exact ⟨[], .refl c', rfl, fun _ => ⟨[s], .refl⟩⟩
        | some p =>
          have hp := (Table.lookup_eq_some hbuild hl).1
          have hall : deriveAll (derive table depth) p c.size (c.opened s p) =
              (.error (.rejected e), c') := by
            rw [derive_expand hs hr hl] at h
            rcases hd : deriveAll (derive table depth) p c.size (c.opened s p) with ⟨e' | ts, d⟩ <;>
              rw [hd] at h <;> cases h
            rfl
          -- The symbols before the rejecting one are derived in full, those behind it are left.
          obtain ⟨before, s', rest, trees, d, rfl, hs', hbefore, hcall⟩ := deriveAll_error hall
          obtain ⟨ts, hreads, hderives⟩ := derives_of_deriveAll hbuild hε hbefore
          obtain ⟨ts', hreads', hline, hviable⟩ := ih hcall
          refine ⟨ts ++ ts', hreads.of_opened.append hreads', hline, fun hts => ?_⟩
          have hts := List.forall_mem_append.1 hts
          obtain ⟨after, hafter⟩ := hviable hts.2
          refine ⟨after ++ Grammar.replacement rest, ?_⟩
          have hrow := Grammar.derives_of_row hp hs' (hderives hts.1) hafter
          rwa [List.append_assoc, ← List.append_assoc, ← List.map_append] at hrow

end Viable

section Ended

/-- The tokens lie ahead, and behind them nothing but end markers. -/
def Cursor.Ended (c : Cursor) (ts : List Token) : Prop :=
  c.Shows ts ∧ ∀ i, ts.length ≤ i → ∃ x, c.get i = .ok x ∧ x.kind = Symbol.eof

theorem Cursor.Ended.of_reads {c c' : Cursor} {ts ts' : List Token} (h : c.Ended (ts ++ ts'))
    (hr : c.Reads ts c') : c'.Ended ts' := by
  refine ⟨h.1.of_reads hr, fun i hi => ?_⟩
  rw [hr.rest]
  apply h.2
  rw [List.length_append]
  omega

theorem Cursor.Ended.opened {c : Cursor} {ts : List Token} (h : c.Ended ts) (rule : Symbol)
    (p : Production) : (c.opened rule p).Ended ts :=
  ⟨h.1.opened rule p, fun i hi => (Cursor.get_opened c rule p i).symm ▸ h.2 i hi⟩

/-- What the first of the results ahead can be. -/
theorem Cursor.Ended.lookahead {c : Cursor} {ts : List Token} (h : c.Ended ts) :
    (ts = [] ∧ c.lookahead.kind = Symbol.eof) ∨ ∃ rest, ts = c.lookahead :: rest := by
  cases ts with
  | nil =>
    obtain ⟨x, hx, hkind⟩ := h.2 0 (Nat.le_refl 0)
    cases hx
    exact .inl ⟨rfl, hkind⟩
  | cons x rest =>
    rw [h.1.lookahead]
    exact .inr ⟨rest, rfl⟩

/-- A match leaves the tokens behind the one that is matched. At the end it takes an end marker. -/
theorem Cursor.Ended.exists_match {c : Cursor} {ts : List Token} (h : c.Ended ts) (table : Table)
    (depth id : Nat) :
    ∃ t c', derive table (depth + 1) c.lookahead.kind id c = (.ok t, c') ∧ c'.Ended ts.tail := by
  obtain ⟨x, hx⟩ : ∃ x, c.get 1 = .ok x := by
    by_cases hlt : 1 < ts.length
    · exact ⟨_, h.1 1 hlt⟩
    · obtain ⟨x, hx, -⟩ := h.2 1 (by omega)
      exact ⟨x, hx⟩
  have hderive : derive table (depth + 1) c.lookahead.kind id c = _ := derive_matched rfl depth id
  rw [hx] at hderive
  refine ⟨_, _, hderive, ?_⟩
  rcases h.lookahead with ⟨rfl, -⟩ | ⟨rest, rfl⟩
  · refine ⟨fun i hi => absurd hi (Nat.not_lt_zero i), fun i _ => ?_⟩
    rw [(Cursor.reads_asked hx).rest]
    exact h.2 _ (Nat.zero_le _)
  · have h' : c.Ended ([c.lookahead] ++ rest) := h
    exact h'.of_reads (Cursor.reads_asked hx)

/-- A tree whose label the end marker may follow is derived where its yield and then end markers lie
ahead. A rule that is named like the end marker may take one of them. -/
def Finished (g : Grammar) (sets : FirstFollow) (table : Table) (t : Tree) : Prop :=
  ∀ (us : List Token) (c : Cursor) (depth id : Nat), us.map (·.kind) = g.yield t → c.Ended us →
    (g.isRule t.label = true → Symbol.eof ∈ sets.followOf t.label) → t.height ≤ depth →
    ∃ t' c', derive table depth t.label id c = (.ok t', c') ∧ c'.Ended []

/-- Where the lookahead is the label of a tree itself, the tree yields no more than that. -/
theorem tail_eq_nil {info : Node} {children : List Tree} (hd : g.IsDerivation (.node info children))
    (hne : info.label ≠ Symbol.epsilon) {us : List Token} {c : Cursor}
    (hy : us.map (·.kind) = g.yield (.node info children)) (hended : c.Ended us)
    (hlook : info.label = c.lookahead.kind) : us.tail = [] := by
  cases hr : g.isRule info.label with
  | false =>
    obtain rfl : children = [] := hd.children_eq_nil hr
    rw [Grammar.yield_leaf, if_pos (Grammar.isTerminal_iff.2 ⟨hr, hne⟩)] at hy
    obtain ⟨u, rfl, -⟩ := List.map_eq_singleton_iff.1 hy
    rfl
  | true =>
    rcases hended.lookahead with ⟨rfl, -⟩ | ⟨rest, rfl⟩
    · rfl
    · -- A rule is no terminal, so it is not the first of what is yielded.
      have hmem : c.lookahead.kind ∈ g.yield (.node info children) := by
        rw [← hy]
        exact List.mem_cons_self
      have hu := (Grammar.isTerminal_iff.1 (Grammar.isTerminal_of_mem_yield hmem)).1
      rw [← hlook, hr] at hu
      contradiction

variable (hclosed : Closed g sets) (hε : g.isRule Symbol.epsilon = false)

include hclosed hε

/-- The production of a node claims the lookahead where its yield and then end markers lie ahead. -/
theorem claims_ended {info : Node} {children : List Tree} (hd : ∀ t ∈ children, g.IsDerivation t)
    {us : List Token} {c : Cursor} (hy : us.map (·.kind) = children.flatMap g.yield)
    (hended : c.Ended us) (hfollow : Symbol.eof ∈ sets.followOf info.label) :
    sets.Claims info.label (children.map (·.label)) c.lookahead.kind := by
  have hlook : c.lookahead.kind = (children.flatMap g.yield).headD Symbol.eof := by
    rw [← hy]
    rcases hended.lookahead with ⟨rfl, heof⟩ | ⟨rest, rfl⟩
    · exact heof
    · rfl
  rw [hlook]
  exact hclosed.claims_headD hε hd hfollow (by decide)

variable (hbuild : Table.build g sets = .ok table) (hconflicts : table.conflicts = [])

include hbuild hconflicts

/-- A tree of a row is derived where its yield, the yields of the trees behind it and then end
markers lie ahead. -/
theorem exists_derive_ended {rule : Symbol} {before : List Symbol} {t : Tree} {trees : List Tree}
    (hp : before ++ t.label :: trees.map (·.label) ∈ g.productions rule) (hdt : g.IsDerivation t)
    (hd : ∀ t ∈ trees, g.IsDerivation t) (hne : t.label ≠ Symbol.epsilon)
    (hfin : Finished g sets table t) (hfollow : Symbol.eof ∈ sets.followOf rule)
    {us us' : List Token} {c : Cursor} {depth : Nat} (id : Nat) (hy : us.map (·.kind) = g.yield t)
    (hy' : us'.map (·.kind) = trees.flatMap g.yield) (hended : c.Ended (us ++ us'))
    (hdepth : t.height ≤ depth) :
    ∃ t' c', derive table depth t.label id c = (.ok t', c') ∧ c'.Ended us' := by
  have hnext (hr : g.isRule t.label = true) :
      (us'.map (·.kind)).headD Symbol.eof ∈ sets.followOf t.label :=
    hy' ▸ hclosed.headD_mem_followOf hε hd hp hr hfollow
  cases us' with
  | nil =>
    -- The trees behind it yield nothing, so the end marker may follow this one too.
    rw [List.append_nil] at hended
    exact hfin us c depth id hy hended hnext hdepth
  | cons u us' =>
    -- Otherwise a token of theirs comes next, in front of which this one is derived.
    have hmem : u.kind ∈ trees.flatMap g.yield := by
      rw [← hy']
      exact List.mem_cons_self
    obtain ⟨_, -, hu⟩ := List.mem_flatMap.1 hmem
    obtain ⟨t', c', hderive, -, hreads⟩ := rederived hclosed hε hbuild hconflicts hdt hne us u us' c
      depth id hy hended.1 (Grammar.isTerminal_of_mem_yield hu) hnext hdepth
    exact ⟨t', c', hderive, hended.of_reads hreads⟩

theorem exists_deriveAll_ended {rule : Symbol} (before : List Symbol) {trees : List Tree}
    (hp : before ++ trees.map (·.label) ∈ g.productions rule)
    (hd : ∀ t ∈ trees, g.IsDerivation t)
    (hfin : ∀ t ∈ trees, t.label ≠ Symbol.epsilon → Finished g sets table t)
    (hfollow : Symbol.eof ∈ sets.followOf rule) {us : List Token} {c : Cursor} {depth : Nat}
    (id : Nat) (hy : us.map (·.kind) = trees.flatMap g.yield) (hended : c.Ended us)
    (hdepth : Tree.heightAll trees ≤ depth) :
    ∃ trees' c', deriveAll (derive table depth) (trees.map (·.label)) id c = (.ok trees', c') ∧
      c'.Ended [] := by
  induction trees generalizing before us c id with
  | nil =>
    obtain rfl : us = [] := List.map_eq_nil_iff.1 hy
    exact ⟨[], c, rfl, hended⟩
  | cons t trees ih =>
    obtain ⟨hdt, hd'⟩ := List.forall_mem_cons.1 hd
    obtain ⟨hfint, hfin'⟩ := List.forall_mem_cons.1 hfin
    rw [List.flatMap_cons] at hy
    obtain ⟨us₁, us₂, rfl, hy₁, hy₂⟩ := List.map_eq_append_iff.1 hy
    rw [List.map_cons] at hp ⊢
    have hp' : (before ++ [t.label]) ++ trees.map (·.label) ∈ g.productions rule := by
      rwa [List.append_assoc, List.singleton_append]
    have hdepth' : t.height ≤ depth ∧ Tree.heightAll trees ≤ depth := by
      rw [Tree.heightAll] at hdepth
      omega
    by_cases hne : t.label = Symbol.epsilon
    · obtain rfl : us₁ = [] := by
        rw [Closed.yield_of_epsilon hε hdt hne] at hy₁
        exact List.map_eq_nil_iff.1 hy₁
      obtain ⟨trees', c', hall, hended'⟩ := ih _ hp' hd' hfin' (id + 1) hy₂ hended hdepth'.2
      refine ⟨.leaf id Symbol.epsilon :: trees', c', ?_, hended'⟩
      rw [hne, deriveAll_epsilon, hall]
      rfl
    · obtain ⟨t', c₁, hderive, hended₁⟩ := exists_derive_ended hclosed hε hbuild hconflicts hp hdt
        hd' hne (hfint hne) hfollow id hy₁ hy₂ hended hdepth'.1
      obtain ⟨trees', c', hall, hended'⟩ := ih _ hp' hd' hfin' (id + 1) hy₂ hended₁ hdepth'.2
      refine ⟨t' :: trees', c', ?_, hended'⟩
      rw [deriveAll_cons hne, hderive]
      exact congrArg (attach t') hall

theorem finished {t : Tree} (hd : g.IsDerivation t) (hne : t.label ≠ Symbol.epsilon) :
    Finished g sets table t := by
  induction t using Tree.induct with
  | node info children ih =>
    intro us c depth id hy hended hfollow hdepth
    obtain ⟨depth, rfl⟩ := Nat.exists_eq_succ_of_ne_zero
      (Nat.ne_of_gt (Nat.lt_of_lt_of_le (Nat.succ_pos _) hdepth))
    by_cases hlook : info.label = c.lookahead.kind
    · obtain ⟨t', c', hderive, hended'⟩ := hended.exists_match table depth id
      rw [tail_eq_nil hd hne hy hended hlook] at hended'
      exact ⟨t', c', by rwa [Tree.label_node, hlook], hended'⟩
    · cases hr : g.isRule info.label with
      | false =>
        obtain rfl : children = [] := hd.children_eq_nil hr
        rw [Grammar.yield_leaf, if_pos (Grammar.isTerminal_iff.2 ⟨hr, hne⟩)] at hy
        obtain ⟨u, rfl, hu⟩ := List.map_eq_singleton_iff.1 hy
        rw [hended.1.lookahead] at hlook
        exact absurd hu.symm hlook
      | true =>
        have hp : children.map (·.label) ∈ g.productions info.label := hd.production hr
        have hdc : ∀ t ∈ children, g.IsDerivation t := fun t ht => hd.child ht
        rw [Grammar.yield_node children hr] at hy
        have hlookup := Table.lookup_of_claims hbuild hconflicts hp
          (claims_ended hclosed hε hdc hy hended (hfollow hr))
        obtain ⟨children', c', hall, hended'⟩ := exists_deriveAll_ended hclosed hε hbuild hconflicts
          [] hp hdc (fun t ht => ih t ht (hdc t ht)) (hfollow hr) c.size hy
          (hended.opened info.label _) (Nat.le_of_succ_le_succ hdepth)
        refine ⟨.node ⟨id, info.label, none, none⟩ children', c', ?_, hended'⟩
        rw [Tree.label_node,
          derive_expand hlook ((Table.isRule_of_build hbuild _).trans hr) hlookup, hall]
        rfl

/-- A sentence with end markers behind it is accepted, also where the end marker names a rule. -/
theorem exists_parse_ended {stream : TokenStream} {tokens : List Token}
    (hw : g.IsSentence (tokens.map (·.kind))) (hshows : stream.Shows tokens)
    (hend : ∀ i, tokens.length ≤ i → ∃ x, stream.get i = .ok x ∧ x.kind = Symbol.eof) :
    ∃ tree, (parse table g.start stream).result = .ok tree := by
  obtain ⟨t, hd, hstart, hy⟩ := (Grammar.isSentence_iff hε).1 hw
  obtain ⟨token, rest, hnext⟩ : ∃ token rest, stream.next = (.ok token, rest) := by
    obtain ⟨x, hx⟩ : ∃ x, stream.get 0 = .ok x := by
      by_cases hlt : 0 < tokens.length
      · exact ⟨_, hshows 0 hlt⟩
      · obtain ⟨x, hx, -⟩ := hend 0 (by omega)
        exact ⟨x, hx⟩
    exact ⟨x, _, Prod.ext (stream.next_fst.trans hx) rfl⟩
  have hended : (Cursor.first token rest).Ended tokens := by
    constructor
    · exact fun i hi => (Cursor.get_first hnext i).trans (hshows i hi)
    · intro i hi
      rw [Cursor.get_first hnext]
      exact hend i hi
  obtain ⟨t', c', hderive, -⟩ := finished hclosed hε hbuild hconflicts hd
    (hstart ▸ Grammar.ne_epsilon_of_isRule hε g.isRule_start) tokens (.first token rest) t.height 1
    hy.symm hended (fun _ => hstart ▸ hclosed.start) (Nat.le_refl _)
  refine ⟨.rooted t', ?_⟩
  have hbound := derive_depthBound (Cursor.at_first hnext) (by rw [hderive]; exact nofun)
  rw [parse_eq hnext, ← hstart, hbound, hderive]
  rfl

end Ended

/-- A token that is rejected does not go on with the tokens before it: no sentence does, with end
markers behind it. -/
theorem not_isPrefix_of_rejected (hbuild : Table.build g sets = .ok table)
    (hconflicts : table.conflicts = []) (hclosed : Closed g sets)
    (hε : g.isRule Symbol.epsilon = false) {stream : TokenStream} {e : SyntaxError}
    (hparse : (parse table g.start stream).result = .error (.rejected e)) {seen : List Token}
    (hshows : stream.Shows seen) (hpulled : (parse table g.start stream).pulled = seen.length)
    {w : List Symbol} (hw : g.IsSentence w) (n : Nat) :
    ¬seen.map (·.kind) <+: w ++ List.replicate n Symbol.eof := by
  rintro ⟨rest, hrest⟩
  -- A stream that begins as this one and goes on as the sentence does.
  let tokens : List Token := seen ++ rest.map fun s => ⟨s, none, 0⟩
  have hkinds : tokens.map (·.kind) = w ++ List.replicate n Symbol.eof := by
    rw [List.map_append, List.map_map, ← hrest]
    exact congrArg _ (List.map_id rest)
  have hsame : parse table g.start (.ofTokens tokens) = parse table g.start stream := by
    apply parse_eq_of_agree
    · rw [hparse]
      exact nofun
    · intro i hi
      rw [hpulled] at hi
      rw [hshows i hi, TokenStream.get_ofTokens_of_lt (by rw [List.length_append]; omega),
        List.getElem_append_left hi]
  have hlength : tokens.length = w.length + n := by
    have h := congrArg List.length hkinds
    simpa using h
  have hsentence : g.IsSentence ((tokens.take w.length).map (·.kind)) := by
    rwa [List.map_take, hkinds, List.take_left]
  have hspells : (TokenStream.ofTokens tokens).Shows (tokens.take w.length) := by
    intro i hi
    rw [List.getElem_take]
    exact TokenStream.get_ofTokens_of_lt _
  obtain ⟨tree, htree⟩ := exists_parse_ended hclosed hε hbuild hconflicts hsentence hspells <| by
    intro i hi
    rw [List.length_take, hlength, Nat.min_eq_left (by omega)] at hi
    by_cases hlt : i < tokens.length
    · refine ⟨_, TokenStream.get_ofTokens_of_lt hlt, ?_⟩
      have hkind : (tokens.map (·.kind))[i]? = some Symbol.eof := by
        rw [hkinds, List.getElem?_append_right hi, List.getElem?_replicate, if_pos (by omega)]
      rw [List.getElem?_map, List.getElem?_eq_getElem hlt] at hkind
      exact Option.some.inj hkind
    · obtain ⟨line, hline⟩ := TokenStream.get_ofTokens_of_le (Nat.le_of_not_lt hlt)
      exact ⟨_, hline, rfl⟩
  rw [hsame, hparse] at htree
  cases htree

/-- A derivation that ends in a syntax error has asked for `k + 1` tokens and names the line of the
last of them. No sentence, with end markers behind it, begins with these tokens; those before the
last begin a sentence, if all rules are productive and none of them was an end marker matched with
a rule of its name. -/
theorem parse_rejects_earliest (hbuild : Table.build g (.compute g) = .ok table)
    (hconflicts : table.conflicts = []) (hε : g.isRule Symbol.epsilon = false)
    {tokens : List Token} (hkinds : ∀ x ∈ tokens, g.isRule x.kind = false) {e : SyntaxError}
    (hparse : (parse table g.start (.ofTokens tokens)).result = .error (.rejected e)) :
    ∃ (k : Nat) (ts : List Token) (x : Token),
      (parse table g.start (.ofTokens tokens)).pulled = k + 1 ∧
      (TokenStream.ofTokens tokens).take k = ts.map .ok ∧
      (TokenStream.ofTokens tokens).get k = .ok x ∧ e.line = x.line ∧
      (∀ w n, g.IsSentence w →
        ¬(ts ++ [x]).map (·.kind) <+: w ++ List.replicate n Symbol.eof) ∧
      ((∀ s, g.isRule s = true → g.IsProductive s) →
        (k ≤ tokens.length ∨ g.isRule Symbol.eof = false) →
        ∃ v, g.IsSentence (ts.map (·.kind) ++ v)) := by
  have hclosed := FirstFollow.closed_compute g
  rcases hnext : (TokenStream.ofTokens tokens).next with ⟨e' | token, rest⟩
  · rw [parse_of_error hnext] at hparse
    cases hparse
  · obtain ⟨c, hderive⟩ : ∃ c, derive table (depthBound table (.ofTokens tokens)) g.start 1
        (.first token rest) = (.error (.rejected e), c) := by
      rw [parse_eq hnext] at hparse
      rcases hd : derive table (depthBound table (.ofTokens tokens)) g.start 1
        (.first token rest) with ⟨e' | t, c⟩ <;> rw [hd] at hparse <;> cases hparse
      exact ⟨c, rfl⟩
    obtain ⟨ts, hreads, hline, hviable⟩ := viable_of_rejected hbuild hε hderive
    have hshows : (TokenStream.ofTokens tokens).Shows ts :=
      fun i hi => (Cursor.get_first hnext i).symm.trans (hreads.tokens i hi)
    have hlast : (TokenStream.ofTokens tokens).get ts.length = .ok c.lookahead := by
      rw [← Cursor.get_first hnext]
      exact (hreads.rest 0).symm
    have hpulled : (parse table g.start (.ofTokens tokens)).pulled = ts.length + 1 := by
      rw [parse_eq hnext, hderive, Nat.add_comm]
      exact hreads.pulled
    refine ⟨ts.length, ts, c.lookahead, hpulled, hshows.take, hlast, hline, ?_, ?_⟩
    · intro w n hw
      exact not_isPrefix_of_rejected hbuild hconflicts hclosed hε hparse
        (hshows.append_singleton hlast) (by rw [hpulled, List.length_append]; rfl) hw n
    · intro hproductive hend
      have hts : ∀ x ∈ ts, g.isRule x.kind = false := by
        intro x hx
        obtain ⟨i, hi, rfl⟩ := List.getElem_of_mem hx
        exact isRule_kind_of_get hkinds hend hi (hshows i hi)
      obtain ⟨after, hafter⟩ := hviable hts
      apply Grammar.exists_isSentence_append hε hproductive hafter
      intro s hs
      obtain ⟨x, hx, rfl⟩ := List.mem_map.1 hs
      exact hts x hx

/-- A table without conflicts and a failing derivation with it, as they are computed. -/
theorem exists_failing_run (tokens : List Token) (e : ParseError) (pulled : Nat)
    (h : (Table.build g (.compute g)).map (fun table => (table.conflicts,
      (parse table g.start (.ofTokens tokens)).result.map fun _ => (),
      (parse table g.start (.ofTokens tokens)).pulled)) = .ok ([], .error e, pulled)) :
    ∃ table, Table.build g (.compute g) = .ok table ∧ table.conflicts = [] ∧
      (parse table g.start (.ofTokens tokens)).result = .error e ∧
      (parse table g.start (.ofTokens tokens)).pulled = pulled := by
  cases hbuild : Table.build g (.compute g) with
  | error e' =>
    rw [hbuild] at h
    cases h
  | ok table =>
    rw [hbuild] at h
    obtain ⟨hconflicts, h⟩ := Prod.mk.inj (Except.ok.inj h)
    obtain ⟨hresult, hpulled⟩ := Prod.mk.inj h
    refine ⟨table, rfl, hconflicts, ?_, hpulled⟩
    cases hr : (parse table g.start (.ofTokens tokens)).result with
    | error e' =>
      rw [hr] at hresult
      exact congrArg _ (Except.error.inj hresult)
    | ok tree =>
      rw [hr] at hresult
      cases hresult

theorem parse_rejects_earliest_balanced :
    ∃ table v, Table.build balanced (.compute balanced) = .ok table ∧ table.conflicts = [] ∧
      (parse table "S" (.ofTokens [⟨"a", none, 1⟩, ⟨"a", none, 1⟩, ⟨"b", none, 2⟩])).result =
        .error (.rejected (.mismatch "b" (.eof 2))) ∧
      balanced.IsSentence (["a", "a", "b"] ++ v) ∧
      ∀ w n, balanced.IsSentence w →
        ¬["a", "a", "b", Symbol.eof] <+: w ++ List.replicate n Symbol.eof := by
  obtain ⟨table, hbuild, hconflicts, hresult, hfour⟩ := exists_failing_run (g := balanced)
    [⟨"a", none, 1⟩, ⟨"a", none, 1⟩, ⟨"b", none, 2⟩] (.rejected (.mismatch "b" (.eof 2))) 4
    (by decide +kernel)
  obtain ⟨k, ts, x, hpulled, hts, hx, -, hnone, hsome⟩ := parse_rejects_earliest hbuild hconflicts
    (by decide +kernel) (by decide +kernel) hresult
  obtain rfl : k = 3 := by omega
  have hkinds : ts.map (·.kind) = ["a", "a", "b"] := by
    obtain rfl : ts = [⟨"a", none, 1⟩, ⟨"a", none, 1⟩, ⟨"b", none, 2⟩] :=
      List.map_injective_iff.2 (fun _ _ => Except.ok.inj) hts.symm
    rfl
  have hkind : x.kind = Symbol.eof := by
    cases hx
    rfl
  have hproductive : ∀ s, balanced.isRule s = true → balanced.IsProductive s :=
    fun s => Grammar.isProductive_of_trees (by decide +kernel)
      [.emptied "S"] (by decide +kernel) (by decide +kernel)
  obtain ⟨v, hv⟩ := hsome hproductive (.inr (by decide +kernel))
  rw [hkinds] at hv
  rw [List.map_append, hkinds, List.map_singleton, hkind] at hnone
  exact ⟨table, v, hbuild, hconflicts, hresult, hv, hnone⟩

/-- An `a`, the rule named like the end marker, which derives `b` or nothing, and a `c`. -/
def enclosedEnd : Grammar where
  rules := [⟨"S", [["a", Symbol.eof, "c"]]⟩, ⟨Symbol.eof, [["b"], [Symbol.epsilon]]⟩]
  nonempty := by decide
  nodup := by decide +kernel
  unmixed := by decide +kernel

/-- Where the end marker names a rule, it is matched with that rule, and the error comes one token
later: no sentence begins with the tokens before it. -/
theorem parse_rejects_late_enclosedEnd :
    ∃ table e, Table.build enclosedEnd (.compute enclosedEnd) = .ok table ∧ table.conflicts = [] ∧
      enclosedEnd.isRule Symbol.epsilon = false ∧ enclosedEnd.isRule "a" = false ∧
      (∀ s, enclosedEnd.isRule s = true → enclosedEnd.IsProductive s) ∧
      (parse table enclosedEnd.start (.ofTokens [⟨"a", none, 1⟩])).result =
        .error (.rejected e) ∧
      (parse table enclosedEnd.start (.ofTokens [⟨"a", none, 1⟩])).pulled = 2 + 1 ∧
      (TokenStream.ofTokens [⟨"a", none, 1⟩]).take 2 = [.ok ⟨"a", none, 1⟩, .ok (.eof 1)] ∧
      ∀ v, ¬enclosedEnd.IsSentence (["a", Symbol.eof] ++ v) := by
  obtain ⟨table, hbuild, hconflicts, hresult, hpulled⟩ := exists_failing_run (g := enclosedEnd)
    [⟨"a", none, 1⟩] (.rejected (.mismatch "c" (.eof 1))) 3 (by decide +kernel)
  refine ⟨table, _, hbuild, hconflicts, by decide +kernel, by decide +kernel, ?_, hresult, hpulled,
    rfl, ?_⟩
  · exact fun s => Grammar.isProductive_of_trees (by decide +kernel)
      [.emptied Symbol.eof, .branch "S" [.leaf 0 "a", .emptied Symbol.eof, .leaf 0 "c"]]
      (by decide +kernel) (by decide +kernel)
  · rintro v ⟨-, hterminals⟩
    exact absurd (hterminals Symbol.eof (by simp)) (by decide +kernel)

end Lookahead.Derivation
