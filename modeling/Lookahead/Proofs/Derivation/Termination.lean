import Lookahead.Proofs.Derivation.Depth
import Lookahead.Proofs.FirstFollow.Height

namespace Lookahead.Derivation

open FirstFollow (Fades Starts Within firstOfSequence)

variable {g : Grammar} {table : Table}

section Still

/-- A symbol of a row that was derived without asking for a token. -/
theorem exists_still_call {depth id : Nat} {before rest : List Symbol} {x : Symbol} {c c' : Cursor}
    {trees : List Tree} (hx : x ≠ Symbol.epsilon)
    (h : deriveAll (derive table depth) (before ++ x :: rest) id c = (.ok trees, c'))
    (hstill : c'.pulled = c.pulled) :
    ∃ id' d d' t, d.lookahead = c.lookahead ∧ derive table depth x id' d = (.ok t, d') ∧
      d'.pulled = d.pulled := by
  obtain ⟨ts, us, d, hbefore, hrest⟩ := deriveAll_append_ok h
  obtain ⟨t, us, d', -, hrest, hcall⟩ := deriveAll_ok hrest
  obtain ⟨-, hcall⟩ := hcall.resolve_left fun h => hx h.1
  obtain ⟨ts, hreads⟩ := reads_deriveAll hbefore
  obtain ⟨ts', hreads'⟩ := reads_deriveAll hrest
  have hle : d.pulled ≤ d'.pulled := by
    have hle := pulled_le_derive table depth x (id + before.length) d
    rwa [hcall] at hle
  have hpulled := hreads.pulled
  have hpulled' := hreads'.pulled
  -- As the row as a whole asks for nothing, none of its parts does.
  obtain rfl : ts = [] := List.eq_nil_of_length_eq_zero (by omega)
  refine ⟨_, d, d', t, ?_, hcall, by omega⟩
  exact Except.ok.inj (hreads.rest 0)

variable (hbuild : Table.build g (.compute g) = .ok table)

include hbuild

theorem opened_of_still {depth id : Nat} {s : Symbol} {c c' : Cursor} {t : Tree}
    (h : derive table depth s id c = (.ok t, c')) (hstill : c'.pulled = c.pulled) :
    g.isRule s = true ∧ ∃ d p children, table.lookup s c.lookahead.kind = some p ∧
      deriveAll (derive table d) p c.size (c.opened s p) = (.ok children, c') := by
  rcases derive_ok h with ⟨-, hreads, -⟩ | ⟨d, p, children, -, hl, hall, -⟩
  · have hpulled := hreads.pulled
    rw [List.length_singleton] at hpulled
    omega
  · exact ⟨Grammar.isRule_of_mem_productions (Table.lookup_eq_some hbuild hl).1, d, p, children, hl,
      hall⟩

variable (hconflicts : table.conflicts = [])

include hconflicts

/-- The production that is looked up is the one by which the rule begins with the lookahead. -/
theorem begins_of_lookup {n : Nat} {s t : Symbol} {p : Production}
    (hl : table.lookup s t = some p) (h : Within g (n + 1) s t) :
    FirstFollow.Begins g (Within g n) p t := by
  obtain ⟨q, hq, hbegins⟩ := h
  have ht := (Table.lookup_eq_some hbuild hl).2.1
  have hlq := Table.lookup_of_claims hbuild hconflicts hq
    ⟨ht, .inl (hbegins.mem fun _ _ h => h.mem)⟩
  rw [hl] at hlq
  cases hlq
  exact hbegins

/-- A symbol that is derived without asking for a token does not begin with the lookahead. -/
theorem not_starts_of_still {n depth id : Nat} {s : Symbol} {c c' : Cursor} {t : Tree}
    (h : derive table depth s id c = (.ok t, c')) (hstill : c'.pulled = c.pulled) :
    ¬Starts g (Within g n) s c.lookahead.kind := by
  induction n generalizing depth id s c c' t with
  | zero =>
    obtain ⟨hr, -⟩ := opened_of_still hbuild h hstill
    rintro (⟨-, hwithin⟩ | ⟨hr', -⟩)
    · exact hwithin
    · rw [hr] at hr'
      contradiction
  | succ n ih =>
    obtain ⟨hr, d, p, children, hl, hall⟩ := opened_of_still hbuild h hstill
    rintro (⟨-, hwithin⟩ | ⟨hr', -⟩)
    · have ht := (Table.lookup_eq_some hbuild hl).2.1
      obtain ⟨before, x, rest, rfl, hx, -, hstarts⟩ :=
        (begins_of_lookup hbuild hconflicts hl hwithin).exists_head ht
      -- The symbol that begins with the lookahead, one step lower, was derived without asking too.
      obtain ⟨id', e, e', t', hlook, hcall, hstill'⟩ := exists_still_call hx hall hstill
      apply ih hcall hstill'
      rwa [hlook]
    · rw [hr] at hr'
      contradiction

end Still

section Rank

/-- How high the productions are stacked by which the rule begins with the lookahead, or by which
it is empty if it does not. -/
def Ranked (g : Grammar) (n : Nat) (s t : Symbol) : Prop :=
  Within g n s t ∨ (∀ m, ¬Within g m s t) ∧ Within g n s Symbol.epsilon

variable (hbuild : Table.build g (.compute g) = .ok table)

include hbuild

theorem exists_ranked {s t : Symbol} {p : Production} (hl : table.lookup s t = some p) :
    ∃ n, Ranked g n s t := by
  obtain ⟨hp, -, hclaims⟩ := Table.lookup_eq_some hbuild hl
  have hr := Grammar.isRule_of_mem_productions hp
  have hmem := (FirstFollow.closed_compute g).production s p hp
  by_cases hstarts : ∃ n, Within g n s t
  · obtain ⟨n, hn⟩ := hstarts
    exact ⟨n, .inl hn⟩
  · rcases hclaims with ht | ⟨hempty, -⟩
    · exact absurd (FirstFollow.exists_within hr (hmem _ ht)) hstarts
    · obtain ⟨n, hn⟩ := FirstFollow.exists_within hr (hmem _ hempty)
      exact ⟨n, .inr ⟨not_exists.1 hstarts, hn⟩⟩

variable (hconflicts : table.conflicts = [])

include hconflicts

/-- A rule that begins with the lookahead is opened by the production that says so. A rule in it is
the one that begins with the lookahead, or comes before that one and can only be empty. -/
theorem ranked_of_within {n : Nat} {s t x : Symbol} {before rest : List Symbol}
    (h : Within g (n + 1) s t) (hl : table.lookup s t = some (before ++ x :: rest))
    (hx : x ≠ Symbol.epsilon) (hr : g.isRule x = true)
    (hstill : ∀ y ∈ before, y ≠ Symbol.epsilon → ¬Starts g (Within g n) y t) : Ranked g n x t := by
  obtain ⟨hp, ht, -⟩ := Table.lookup_eq_some hbuild hl
  obtain ⟨front, y, back, heq, hy, hfades, hstarts⟩ :=
    (begins_of_lookup hbuild hconflicts hl h).exists_head ht
  have hhere : x = y → Ranked g n x t := by
    rintro rfl
    rcases hstarts with ⟨-, hwithin⟩ | ⟨hr', -⟩
    · exact .inl hwithin
    · rw [hr] at hr'
      contradiction
  rcases List.append_eq_append_iff.1 heq with ⟨mid, rfl, hmid⟩ | ⟨mid, rfl, hmid⟩
  · cases mid with
    | nil => exact hhere (List.cons.inj hmid).1
    | cons z mid =>
      -- `x` stands before the symbol that begins with the lookahead, which may thus follow it.
      obtain ⟨rfl, rfl⟩ := List.cons.inj hmid
      have hempty := ((hfades x (by simp)).resolve_left hx).2
      refine .inr ⟨fun m => ?_, hempty⟩
      have hfirst : t ∈ firstOfSequence (FirstFollow.compute g).first (mid ++ y :: back) := by
        apply FirstFollow.mem_firstOfSequence_append
          (fun z hz => (hfades z (by simp [hz])).vanishes) ht
        exact (FirstFollow.mem_firstOfSequence_cons ht).2 (.inl ⟨hy, hstarts.mem⟩)
      exact (Table.distinct_of_build hbuild hconflicts).not_overlap hr ht hempty.mem
        ((FirstFollow.closed_compute g).next s before x _ hp hr t hfirst ht)
  · cases mid with
    | nil => exact hhere (List.cons.inj hmid).1.symm
    | cons z mid =>
      -- That symbol stands before `x`, but nothing there can have begun with the lookahead.
      obtain ⟨rfl, -⟩ := List.cons.inj hmid
      exact absurd hstarts (hstill y (by simp) hy)

/-- A rule that does not begin with the lookahead is opened by the production by which it is empty,
and no rule in that begins with the lookahead either. -/
theorem ranked_of_empty {n : Nat} {s t x : Symbol} {before rest : List Symbol}
    (hnot : ∀ m, ¬Within g m s t) (h : Within g (n + 1) s Symbol.epsilon)
    (hl : table.lookup s t = some (before ++ x :: rest)) (hx : x ≠ Symbol.epsilon) :
    Ranked g n x t := by
  obtain ⟨hp, ht, hclaims⟩ := Table.lookup_eq_some hbuild hl
  have hs := Grammar.isRule_of_mem_productions hp
  have hmem := (FirstFollow.closed_compute g).production s _ hp
  have hfirst : t ∉ firstOfSequence (FirstFollow.compute g).first (before ++ x :: rest) := by
    intro hfirst
    obtain ⟨m, hm⟩ := FirstFollow.exists_within hs (hmem t hfirst)
    exact hnot m hm
  -- The production by which the rule is empty claims the cell, so it is the one looked up.
  obtain ⟨q, hq, hbegins⟩ := h
  have hlq := Table.lookup_of_claims hbuild hconflicts hq
    ⟨ht, .inr ⟨hbegins.mem fun _ _ h => h.mem, (hclaims.resolve_left hfirst).2⟩⟩
  rw [hl] at hlq
  cases hlq
  have hfades := hbegins.fades
  refine .inr ⟨fun m hm => hfirst ?_, ((hfades x (by simp)).resolve_left hx).2⟩
  apply FirstFollow.mem_firstOfSequence_append (fun y hy => (hfades y (by simp [hy])).vanishes) ht
  exact (FirstFollow.mem_firstOfSequence_cons ht).2 (.inl ⟨hx, hm.mem⟩)

/-- The rank falls from a rule to one that is opened below it before a token is asked for. -/
theorem Ranked.call {n depth id : Nat} {s x : Symbol} {before rest : List Symbol} {c d : Cursor}
    {trees : List Tree} (h : Ranked g (n + 1) s c.lookahead.kind)
    (hl : table.lookup s c.lookahead.kind = some (before ++ x :: rest)) (hx : x ≠ Symbol.epsilon)
    (hr : g.isRule x = true)
    (hbefore : deriveAll (derive table depth) before id (c.opened s (before ++ x :: rest)) =
      (.ok trees, d))
    (hstill : d.pulled = c.pulled) : Ranked g n x c.lookahead.kind := by
  rcases h with hwithin | ⟨hnot, hempty⟩
  · apply ranked_of_within hbuild hconflicts hwithin hl hx hr
    intro y hy hne
    obtain ⟨front, back, rfl⟩ := List.append_of_mem hy
    obtain ⟨id', e, e', t, hlook, hcall, hstill'⟩ := exists_still_call hne hbefore hstill
    rw [← show e.lookahead = c.lookahead from hlook]
    exact not_starts_of_still hbuild hconflicts hcall hstill'
  · exact ranked_of_empty hbuild hconflicts hnot hempty hl hx

end Rank

section Endless

def Endless (table : Table) (s : Symbol) (id : Nat) (c : Cursor) : Prop :=
  ∀ depth, Exhausted (derive table depth s id c)

/-- From some number of levels on, a run of the first call ends where one of the second does. -/
def Enters (table : Table) (s : Symbol) (id : Nat) (c : Cursor) (s' : Symbol) (id' : Nat)
    (c' : Cursor) : Prop :=
  ∃ above depth, ∀ depth' ≥ depth,
    (derive table (depth' + above) s id c).2 = (derive table depth' s' id' c').2

theorem Enters.trans {s s' s'' : Symbol} {id id' id'' : Nat} {c c' c'' : Cursor}
    (h : Enters table s id c s' id' c') (h' : Enters table s' id' c' s'' id'' c'') :
    Enters table s id c s'' id'' c'' := by
  obtain ⟨above, depth, h⟩ := h
  obtain ⟨above', depth', h'⟩ := h'
  refine ⟨above' + above, max depth depth', fun n hn => ?_⟩
  rw [← Nat.add_assoc, h (n + above') (by omega), h' n (by omega)]

/-- A row that no number of levels is enough for, though one is enough for its first symbol, goes on
behind that. -/
theorem exists_attach {s : Symbol} {id : Nat} {c : Cursor} {p : List Symbol}
    (hs : s = Symbol.epsilon ∨ ¬Endless table s id c)
    (h : ∀ depth, Exhausted (deriveAll (derive table depth) (s :: p) id c)) :
    ∃ t d depth, ∀ depth' ≥ depth, ∀ q, deriveAll (derive table depth') (s :: q) id c =
      attach t (deriveAll (derive table depth') q (id + 1) d) := by
  by_cases hε : s = Symbol.epsilon
  · subst hε
    exact ⟨_, c, 0, fun _ _ q => deriveAll_epsilon q id c⟩
  · obtain ⟨depth, hdepth⟩ := not_forall.1 (hs.resolve_left hε)
    rcases hd : derive table depth s id c with ⟨e | t, d⟩
    · have hrow := h depth
      rw [deriveAll_cons hε, hd] at hrow
      rw [hd] at hdepth
      exact absurd (congrArg Except.error (Except.error.inj hrow)) hdepth
    · refine ⟨t, d, depth, fun depth' hle q => ?_⟩
      rw [deriveAll_cons hε, derive_mono hle hdepth, hd]

/-- A row that no number of levels is enough for has a first symbol that none is enough for. -/
theorem exists_endless {p : List Symbol} {id : Nat} {c : Cursor}
    (h : ∀ depth, Exhausted (deriveAll (derive table depth) p id c)) :
    ∃ before x rest trees d depth, p = before ++ x :: rest ∧ x ≠ Symbol.epsilon ∧
      Endless table x (id + before.length) d ∧ ∀ depth' ≥ depth,
        deriveAll (derive table depth') before id c = (.ok trees, d) ∧
        (deriveAll (derive table depth') p id c).2 =
          (derive table depth' x (id + before.length) d).2 := by
  induction p generalizing id c with
  | nil => cases h 0
  | cons s p ih =>
    by_cases hs : s = Symbol.epsilon ∨ ¬Endless table s id c
    · -- Some number of levels is enough for the first symbol, so none is enough for the rest.
      obtain ⟨t, d, depth, hstep⟩ := exists_attach hs h
      obtain ⟨before, x, rest, trees, e, depth', rfl, hx, hend, hrun⟩ := ih fun n => by
        have hrow := h (max n depth)
        rw [hstep _ (Nat.le_max_right n depth), exhausted_attach] at hrow
        by_contra hn
        rw [deriveAll_mono (fun _ _ _ => derive_mono (Nat.le_max_left n depth)) hn] at hrow
        exact hn hrow
      have hid : id + (s :: before).length = id + 1 + before.length := by
        rw [List.length_cons]
        omega
      refine ⟨s :: before, x, rest, t :: trees, e, max depth depth', rfl, hx, hid ▸ hend, ?_⟩
      intro n hn
      obtain ⟨hbefore, hcursor⟩ := hrun n (by omega)
      rw [hid, hstep n (by omega), hstep n (by omega), hbefore]
      exact ⟨rfl, hcursor⟩
    · rw [not_or, not_not] at hs
      refine ⟨[], s, p, [], c, 0, rfl, hs.1, hs.2, fun n _ => ⟨rfl, ?_⟩⟩
      have hexhausted := hs.2 n
      rw [deriveAll_cons hs.1]
      rcases hd : derive table n s id c with ⟨e | t, d⟩
      · rfl
      · rw [hd] at hexhausted
        cases hexhausted

/-- A call that no number of levels is enough for makes another of the kind. -/
theorem Endless.call {s : Symbol} {id : Nat} {c : Cursor} (h : Endless table s id c) :
    ∃ before x rest trees d depth id',
      table.lookup s c.lookahead.kind = some (before ++ x :: rest) ∧ x ≠ Symbol.epsilon ∧
      deriveAll (derive table depth) before c.size (c.opened s (before ++ x :: rest)) =
        (.ok trees, d) ∧
      Endless table x id' d ∧ Enters table s id c x id' d := by
  obtain ⟨hs, hr, p, hl, -⟩ := derive_endless (h 1)
  have hrun : ∀ depth, derive table (depth + 1) s id c =
      close id s (deriveAll (derive table depth) p c.size (c.opened s p)) :=
    fun depth => derive_expand hs hr hl depth id
  obtain ⟨before, x, rest, trees, d, depth, rfl, hx, hend, hrow⟩ := exists_endless fun depth => by
    have h := h (depth + 1)
    rwa [hrun, exhausted_close] at h
  refine ⟨before, x, rest, trees, d, depth, _, hl, hx, (hrow depth (Nat.le_refl _)).1, hend, 1,
    depth, fun n hn => ?_⟩
  rw [hrun]
  exact (hrow n hn).2

theorem Endless.isRule {s : Symbol} {id : Nat} {c : Cursor} (h : Endless table s id c) :
    table.isRule s = true := (derive_endless (h 1)).2.1

end Endless

section Reading

variable {inner : Symbol → Prop}

def ReadsInner (inner : Symbol → Prop) (c : Cursor) (p : List Symbol) (_ : List Tree)
    (c' : Cursor) : Prop :=
  (∀ s ∈ p, inner s) → ∃ ts, c.Reads ts c' ∧ ∀ x ∈ ts, inner x.kind

theorem readsInner_refl (c : Cursor) (p : List Symbol) (trees : List Tree) :
    ReadsInner inner c p trees c :=
  fun _ => ⟨[], .refl c, fun _ h => absurd h List.not_mem_nil⟩

theorem ReadsInner.append (c : Cursor) (p : List Symbol) (trees : List Tree) (c' : Cursor)
    (p' : List Symbol) (trees' : List Tree) (c'' : Cursor) (h : ReadsInner inner c p trees c')
    (h' : ReadsInner inner c' p' trees' c'') :
    ReadsInner inner c (p ++ p') (trees ++ trees') c'' := by
  intro hp
  obtain ⟨hp, hp'⟩ := List.forall_mem_append.1 hp
  obtain ⟨ts, hreads, hts⟩ := h hp
  obtain ⟨ts', hreads', hts'⟩ := h' hp'
  exact ⟨ts ++ ts', hreads.append hreads', List.forall_mem_append.2 ⟨hts, hts'⟩⟩

theorem readsInner_deriveAll (hbuild : Table.build g (.compute g) = .ok table)
    (hinner : ∀ s, inner s → ∀ p ∈ g.productions s, ∀ x ∈ p, inner x) {depth id : Nat}
    {p : List Symbol} {c c' : Cursor} {trees : List Tree}
    (h : deriveAll (derive table depth) p id c = (.ok trees, c')) :
    ReadsInner inner c p trees c' := by
  refine deriveAll_induct (fun c => readsInner_refl c [] []) (fun c id => readsInner_refl c _ _)
    ReadsInner.append (fun s id c t c' hs ht => ?_) h
  refine derive_induct (fun c => readsInner_refl c [] []) (fun c id => readsInner_refl c _ _)
    ReadsInner.append ?matched ?expand hs ht
  case matched =>
    intro c c' id _ hreads hp
    exact ⟨_, hreads, List.forall_mem_singleton.2 (hp _ List.mem_cons_self)⟩
  case expand =>
    intro c c' id s p children hl hrow hp
    have hs := hp s List.mem_cons_self
    obtain ⟨ts, hreads, hts⟩ := hrow (hinner s hs p (Table.lookup_eq_some hbuild hl).1)
    exact ⟨ts, hreads.of_opened, hts⟩

/-- The call reads `m` tokens or more, all of them inner, and then makes an endless call of a rule
whose productions have inner symbols only. -/
def ReadsOn (g : Grammar) (table : Table) (inner : Symbol → Prop) (m : Nat) (s : Symbol) (id : Nat)
    (c : Cursor) : Prop :=
  ∃ s' id' d ts, m ≤ ts.length ∧ c.Reads ts d ∧ (∀ x ∈ ts, inner x.kind) ∧
    (∀ p ∈ g.productions s', ∀ x ∈ p, inner x) ∧ Endless table s' id' d ∧
    Enters table s id c s' id' d

variable (hbuild : Table.build g (.compute g) = .ok table) (hconflicts : table.conflicts = [])
  (hinner : ∀ s, inner s → ∀ p ∈ g.productions s, ∀ x ∈ p, inner x)

include hbuild hconflicts hinner

theorem Endless.readsOn_one {n : Nat} {s : Symbol} {id : Nat} {c : Cursor}
    (hrank : Ranked g n s c.lookahead.kind) (hs : ∀ p ∈ g.productions s, ∀ x ∈ p, inner x)
    (h : Endless table s id c) : ReadsOn g table inner 1 s id c := by
  induction n generalizing s id c with
  | zero => exact hrank.elim False.elim fun h => h.2.elim
  | succ n ih =>
    obtain ⟨before, x, rest, trees, d, depth, id', hl, hx, hbefore, hend, henters⟩ := h.call
    have hp := hs _ (Table.lookup_eq_some hbuild hl).1
    obtain ⟨ts, hreads, hts⟩ := readsInner_deriveAll hbuild hinner hbefore
      fun y hy => hp y (List.mem_append_left _ hy)
    have hx' := hinner x (hp x (by simp))
    have hreads := hreads.of_opened
    cases ts with
    | cons y ts => exact ⟨x, id', d, y :: ts, by simp, hreads, hts, hx', hend, henters⟩
    | nil =>
      -- No token was asked for, so the rank falls.
      have hr := (Table.isRule_of_build hbuild x).symm.trans hend.isRule
      have hrank' := hrank.call hbuild hconflicts hl hx hr hbefore hreads.pulled
      rw [← show d.lookahead = c.lookahead from Except.ok.inj (hreads.rest 0)] at hrank'
      obtain ⟨s', id'', e, ts, hm, hreads', hts, hs', hend', henters'⟩ := ih hrank' hx' hend
      exact ⟨s', id'', e, ts, hm, hreads.append hreads', hts, hs', hend', henters.trans henters'⟩

theorem Endless.readsOn {s : Symbol} {id : Nat} {c : Cursor}
    (hs : ∀ p ∈ g.productions s, ∀ x ∈ p, inner x) (h : Endless table s id c) (m : Nat) :
    ReadsOn g table inner m s id c := by
  induction m with
  | zero => exact ⟨s, id, c, [], Nat.le_refl 0, .refl c, by simp, hs, h, 0, 0, fun _ _ => rfl⟩
  | succ m ih =>
    obtain ⟨s', id', d, ts, hm, hreads, hts, hs', hend, henters⟩ := ih
    obtain ⟨-, -, p, hl, -⟩ := derive_endless (hend 1)
    obtain ⟨n, hrank⟩ := exists_ranked hbuild hl
    obtain ⟨s'', id'', e, ts', hm', hreads', hts', hs'', hend', henters'⟩ :=
      hend.readsOn_one hbuild hconflicts hinner hrank hs'
    refine ⟨s'', id'', e, ts ++ ts', ?_, hreads.append hreads',
      List.forall_mem_append.2 ⟨hts, hts'⟩, hs'', hend', henters.trans henters'⟩
    rw [List.length_append]
    omega

/-- A call does not read for ever if the end marker is not among what it reads. -/
theorem not_endless {s : Symbol} {id : Nat} {c : Cursor} {stream : TokenStream} {j : Nat}
    (heof : ¬inner Symbol.eof) (hat : c.At stream j)
    (hs : ∀ p ∈ g.productions s, ∀ x ∈ p, inner x) : ¬Endless table s id c := by
  intro h
  obtain ⟨s', id', d, ts, hm, hreads, hts, -⟩ :=
    h.readsOn hbuild hconflicts hinner hs (stream.items.length + 1)
  have hget := hreads.tokens stream.items.length hm
  rw [hat, TokenStream.get_of_le (Nat.le_add_left _ j)] at hget
  apply heof
  rw [show Symbol.eof = (ts.get ⟨stream.items.length, hm⟩).kind from
    congrArg Token.kind (Except.ok.inj hget)]
  exact hts _ (List.get_mem ts _)

end Reading

section Steps

def openedAt : Nat → List Step → Nat
  | _, [] => 0
  | j, .expand .. :: rest => (if j = 0 then 1 else 0) + openedAt j rest
  | 0, .matched .. :: _ => 0
  | j + 1, .matched .. :: rest => openedAt j rest

theorem openedAt_le_append (j : Nat) (steps rest : List Step) :
    openedAt j steps ≤ openedAt j (steps ++ rest) := by
  induction steps generalizing j with
  | nil => exact Nat.zero_le _
  | cons step steps ih =>
    cases step with
    | expand rule p lookahead => exact Nat.add_le_add_left (ih j) _
    | matched kind line =>
      cases j with
      | zero => exact Nat.le_refl _
      | succ j => exact ih j

/-- Steps behind the next match do not count. -/
theorem openedAt_append {j : Nat} {steps : List Step} (h : j < matchCount steps)
    (rest : List Step) : openedAt j (steps ++ rest) = openedAt j steps := by
  induction steps generalizing j with
  | nil => exact absurd h (Nat.not_lt_zero j)
  | cons step steps ih =>
    cases step with
    | expand rule p lookahead => exact congrArg ((if j = 0 then 1 else 0) + ·) (ih h)
    | matched kind line =>
      cases j with
      | zero => rfl
      | succ j =>
        apply ih
        rw [matchCount, List.countP_cons_of_pos rfl] at h
        exact Nat.lt_of_succ_lt_succ h

/-- The steps of a run in which no path is longer than `depth`. A run without that limit begins
with all of them. -/
def stepsWithin (table : Table) (start : Symbol) (stream : TokenStream) (depth : Nat) : List Step :=
  match stream.next with
  | (.error _, _) => []
  | (.ok token, rest) => (derive table depth start 1 (.first token rest)).2.steps.reverse

theorem stepsWithin_eq {stream rest : TokenStream} {token : Token}
    (h : stream.next = (.ok token, rest)) (start : Symbol) (depth : Nat) :
    stepsWithin table start stream depth =
      (derive table depth start 1 (.first token rest)).2.steps.reverse := by
  rw [stepsWithin, h]

theorem stepsWithin_of_error {stream rest : TokenStream} {e : LexicalError}
    (h : stream.next = (.error e, rest)) (start : Symbol) (depth : Nat) :
    stepsWithin table start stream depth = [] := by
  rw [stepsWithin, h]

theorem steps_derive (table : Table) (depth : Nat) (s : Symbol) (id : Nat) (c : Cursor) :
    c.steps <:+ (derive table depth s id c).2.steps :=
  cursor_derive (R := fun c d => c.steps <:+ d.steps) (fun _ => List.suffix_rfl)
    List.IsSuffix.trans (fun _ _ _ => List.suffix_cons _ _) (fun _ _ => List.suffix_cons _ _)
    depth s id c

theorem stepsWithin_mono (table : Table) (start : Symbol) (stream : TokenStream)
    {depth depth' : Nat} (hle : depth ≤ depth') :
    stepsWithin table start stream depth <+: stepsWithin table start stream depth' := by
  rcases hnext : stream.next with ⟨e | token, rest⟩
  · rw [stepsWithin_of_error hnext, stepsWithin_of_error hnext]
  · rw [stepsWithin_eq hnext, stepsWithin_eq hnext, List.reverse_prefix]
    exact cursor_derive_mono (R := fun c d => c.steps <:+ d.steps) (fun _ => List.suffix_rfl)
      List.IsSuffix.trans (fun _ _ _ => List.suffix_cons _ _) (fun _ _ => List.suffix_cons _ _) hle
      start 1 (.first token rest)

end Steps

section Parse

variable (hbuild : Table.build g (.compute g) = .ok table) (hconflicts : table.conflicts = [])

include hbuild hconflicts

/-- An endless call gets past any number of matches. -/
theorem Endless.exists_depth {s : Symbol} {id : Nat} {c : Cursor} (h : Endless table s id c)
    (j : Nat) : ∃ depth, j < matchCount (derive table depth s id c).2.steps := by
  obtain ⟨s', id', d, ts, hm, hreads, -, -, -, above, depth, hsame⟩ :=
    h.readsOn hbuild hconflicts (fun s (_ : True) _ _ _ _ => trivial) (fun _ _ _ _ => trivial)
      (j + 1)
  refine ⟨depth + above, ?_⟩
  rw [hsame depth (Nat.le_refl depth)]
  have hle : matchCount d.steps ≤ matchCount (derive table depth s' id' d).2.steps :=
    (steps_derive table depth s' id' d).sublist.countP_le
  have hmatched := hreads.matched
  omega

/-- With any number of levels, no more rules are opened between two matches than with some fixed
one. -/
theorem exists_openedAt_le (start : Symbol) (stream : TokenStream) (j : Nat) :
    ∃ bound, ∀ depth, openedAt j (stepsWithin table start stream depth) ≤ bound := by
  -- It is enough that the count stays the same from some number of levels on.
  suffices h : ∃ depth, ∀ depth' ≥ depth, openedAt j (stepsWithin table start stream depth') =
      openedAt j (stepsWithin table start stream depth) by
    obtain ⟨depth, hsame⟩ := h
    refine ⟨openedAt j (stepsWithin table start stream depth), fun depth' => ?_⟩
    rw [← hsame (max depth depth') (Nat.le_max_left _ _)]
    obtain ⟨rest, hrest⟩ := stepsWithin_mono table start stream
      (Nat.le_max_right depth depth')
    rw [← hrest]
    exact openedAt_le_append j _ rest
  rcases hnext : stream.next with ⟨e | token, rest⟩
  · exact ⟨0, fun depth' _ => by rw [stepsWithin_of_error hnext, stepsWithin_of_error hnext]⟩
  · by_cases hend : Endless table start 1 (.first token rest)
    · obtain ⟨depth, hdepth⟩ := hend.exists_depth hbuild hconflicts j
      refine ⟨depth, fun depth' hle => ?_⟩
      obtain ⟨rest', hrest⟩ := stepsWithin_mono table start stream hle
      rw [← hrest, openedAt_append]
      rwa [stepsWithin_eq hnext, matchCount, List.countP_reverse]
    · obtain ⟨depth, hdepth⟩ := not_forall.1 hend
      refine ⟨depth, fun depth' hle => ?_⟩
      rw [stepsWithin_eq hnext, stepsWithin_eq hnext, derive_mono hle hdepth]

/-- A run does not go on for ever if the end marker stands in no production, or only in those of a
start symbol that stands in none itself. -/
theorem not_endless_start {start : Symbol} {id : Nat} {c : Cursor} {stream : TokenStream}
    (heof : (∀ rule, ∀ p ∈ g.productions rule, Symbol.eof ∉ p) ∨
      ∀ rule, ∀ p ∈ g.productions rule, start ∉ p ∧ (Symbol.eof ∈ p → rule = start))
    (hat : c.At stream 0) : ¬Endless table start id c := by
  rcases heof with hnone | hstart
  · have hinner : ∀ s, ∀ p ∈ g.productions s, ∀ x ∈ p, x ≠ Symbol.eof :=
      fun s p hp x hx => ne_of_mem_of_not_mem hx (hnone s p hp)
    exact not_endless hbuild hconflicts (fun s _ => hinner s) (fun h => h rfl) hat (hinner start)
  · intro h
    -- Below the start symbol there is neither an end marker nor the start symbol again.
    obtain ⟨before, x, rest, trees, d, depth, id', hl, -, hbefore, hend, -⟩ := h.call
    obtain ⟨ts, hreads⟩ := reads_deriveAll hbefore
    have hx : x ≠ start :=
      ne_of_mem_of_not_mem (by simp) (hstart start _ (Table.lookup_eq_some hbuild hl).1).1
    exact not_endless hbuild hconflicts (fun s hs => Grammar.inner_of_end hstart hs.1)
      (fun h => h.2 rfl) (hat.of_reads hreads.of_opened) (Grammar.inner_of_end hstart hx) hend

theorem parse_ne_endless {start : Symbol} (stream : TokenStream)
    (heof : (∀ rule, ∀ p ∈ g.productions rule, Symbol.eof ∉ p) ∨
      ∀ rule, ∀ p ∈ g.productions rule, start ∉ p ∧ (Symbol.eof ∈ p → rule = start)) :
    (parse table start stream).result ≠ .error .endless := by
  rcases hnext : stream.next with ⟨e | token, rest⟩
  · rw [parse_of_error hnext]
    exact nofun
  · have hend : ¬Endless table start 1 (.first token rest) :=
      not_endless_start hbuild hconflicts heof (Cursor.at_first hnext)
    obtain ⟨depth, hdepth⟩ := not_forall.1 hend
    rwa [Ne, parse_eq_endless_iff hnext, derive_depthBound (Cursor.at_first hnext) hdepth]

/-- With a table without conflicts, whatever the rules and the tokens are, only finitely many rules
are opened between two tokens that are asked for, however many levels there are. Where the end
marker stands in no production, or only in those of a start symbol that stands in none itself, the
run ends: its steps are all there is. -/
theorem parse_terminates (start : Symbol) (stream : TokenStream) :
    (∀ j, ∃ bound, ∀ depth, openedAt j (stepsWithin table start stream depth) ≤ bound) ∧
    ((∀ rule, ∀ p ∈ g.productions rule, Symbol.eof ∉ p) ∨
      (∀ rule, ∀ p ∈ g.productions rule, start ∉ p ∧ (Symbol.eof ∈ p → rule = start)) →
      (parse table start stream).result ≠ .error .endless ∧
        ∀ depth ≥ depthBound table stream,
          stepsWithin table start stream depth = (parse table start stream).steps) := by
  refine ⟨exists_openedAt_le hbuild hconflicts start stream, fun heof => ?_⟩
  have hend := parse_ne_endless hbuild hconflicts stream heof
  refine ⟨hend, fun depth hle => ?_⟩
  rcases hnext : stream.next with ⟨e | token, rest⟩
  · rw [stepsWithin_of_error hnext, parse_of_error hnext]
  · rw [Ne, parse_eq_endless_iff hnext] at hend
    rw [stepsWithin_eq hnext, parse_eq hnext, derive_mono hle hend]

end Parse

/-- `S` derives any number of `a` and a `b`. The rule `L` is left recursive: it derives nothing,
and nothing leads to it. -/
def leftRecursive : Grammar where
  rules := [⟨"S", [["a", "S"], ["b"]]⟩, ⟨"L", [["L", "c"]]⟩]
  nonempty := by decide
  nodup := by decide
  unmixed := by decide +kernel

theorem parse_terminates_leftRecursive :
    ∃ table, Table.build leftRecursive (.compute leftRecursive) = .ok table ∧
      table.conflicts = [] ∧
      (∀ j, ∃ bound, ∀ depth, openedAt j
        (stepsWithin table "S" (.ofTokens [⟨"a", none, 1⟩, ⟨"b", none, 1⟩]) depth) ≤ bound) ∧
      (parse table "S" (.ofTokens [⟨"a", none, 1⟩, ⟨"b", none, 1⟩])).result ≠ .error .endless ∧
      (parse table "L" (.ofTokens [⟨"c", none, 1⟩])).result ≠ .error .endless := by
  obtain ⟨table, hbuild⟩ := FirstFollow.exists_build_compute leftRecursive
  have hconflicts : (Table.build leftRecursive (.compute leftRecursive)).map (·.conflicts) =
      .ok [] := by decide +kernel
  rw [hbuild] at hconflicts
  have hconflicts := Except.ok.inj hconflicts
  have heof : ∀ e ∈ Table.ruleProductions leftRecursive, Symbol.eof ∉ e.2 := by decide +kernel
  have heof : ∀ rule, ∀ p ∈ leftRecursive.productions rule, Symbol.eof ∉ p :=
    fun rule p hp => heof (rule, p) (Table.mem_ruleProductions.2 hp)
  obtain ⟨hbound, hend⟩ := parse_terminates hbuild hconflicts "S" _
  exact ⟨table, hbuild, hconflicts, hbound, (hend (.inl heof)).1,
    ((parse_terminates hbuild hconflicts "L" _).2 (.inl heof)).1⟩

end Lookahead.Derivation
