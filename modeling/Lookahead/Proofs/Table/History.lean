import Lookahead.Proofs.Grammar.Declared
import Lookahead.Table

namespace Lookahead

namespace FirstFollow

variable {g : Grammar} {sets : FirstFollow}

def HasFirsts (g : Grammar) (sets : FirstFollow) : Prop :=
  ∀ s ∈ g.names, (sets.first.get? s).isSome = true

theorem lookup_eq_ok (h : HasFirsts g sets) (s : Symbol) :
    sets.lookup g s = .ok (firstOf sets.first s) := by
  unfold lookup firstOf
  cases hs : sets.first.get? s with
  | some set => rfl
  | none =>
    have hrule : g.isRule s = false := by
      by_contra hrule
      have hsome := h s (Grammar.isRule_iff.1 (by simpa using hrule))
      rw [hs] at hsome
      cases hsome
    simp [hrule]

/-- With an entry for each rule, no symbol of a sequence is looked up in vain. -/
theorem ofSequence_lookup (h : HasFirsts g sets) (p : List Symbol) :
    ofSequence (sets.lookup g) p = .ok (firstOfSequence sets.first p) := by
  induction p with
  | nil => rfl
  | cons s rest ih =>
    by_cases hs : s = Symbol.epsilon
    · simp only [ofSequence, firstOfSequence, if_pos hs, ih]
    · by_cases he : Symbol.epsilon ∈ firstOf sets.first s
      · simp only [ofSequence, firstOfSequence, if_neg hs, lookup_eq_ok h, ih, if_pos he,
          bind, Except.bind, pure, Except.pure, Id.run]
      · simp only [ofSequence, firstOfSequence, if_neg hs, lookup_eq_ok h, if_neg he,
          bind, Except.bind, pure, Except.pure, Id.run]

def followOf (sets : FirstFollow) (rule : Symbol) : SymbolSet := (sets.follow.get? rule).getD ∅

/-- A production of `rule` claims the lookahead `t`. -/
def Claims (sets : FirstFollow) (rule : Symbol) (p : Production) (t : Symbol) : Prop :=
  t ≠ Symbol.epsilon ∧ (t ∈ firstOfSequence sets.first p ∨
    Symbol.epsilon ∈ firstOfSequence sets.first p ∧ t ∈ sets.followOf rule)

instance (sets : FirstFollow) (rule : Symbol) (p : Production) (t : Symbol) :
    Decidable (sets.Claims rule p t) :=
  inferInstanceAs (Decidable (_ ∧ _))

def claimants (sets : FirstFollow) (g : Grammar) (rule t : Symbol) : List Production :=
  (g.productions rule).filter fun p => sets.Claims rule p t

/-- The lookaheads that a production claims, in the order in which it does. -/
def claimed (sets : FirstFollow) (e : Symbol × Production) : List Symbol :=
  (firstOfSequence sets.first e.2).withoutEpsilon.toList ++
    if Symbol.epsilon ∈ firstOfSequence sets.first e.2 then
      (sets.followOf e.1).withoutEpsilon.toList
    else []

theorem mem_claimed {sets : FirstFollow} {e : Symbol × Production} {t : Symbol} :
    t ∈ sets.claimed e ↔ sets.Claims e.1 e.2 t := by
  rw [claimed, Claims, List.mem_append, SymbolSet.mem_toList, SymbolSet.mem_withoutEpsilon]
  split
  · next hε =>
    rw [SymbolSet.mem_toList, SymbolSet.mem_withoutEpsilon]
    simp only [hε, true_and]
    tauto
  · next hε =>
    simp only [hε, false_and, or_false, List.not_mem_nil]
    tauto

end FirstFollow

namespace Table

variable {g : Grammar} {sets : FirstFollow} {rule lookahead : Symbol}

/-- With an entry for each rule, only a FOLLOW set can be missing. -/
theorem claims_cons (h : FirstFollow.HasFirsts g sets) (e : Symbol × Production)
    (rest : List (Symbol × Production)) :
    claims g sets (e :: rest) =
      let first := FirstFollow.firstOfSequence sets.first e.2
      let own := first.withoutEpsilon.toList.map fun t => (⟨e.1, t, e.2⟩ : Cell)
      if Symbol.epsilon ∈ first then
        match sets.follow.get? e.1 with
        | none => (own, some (.missingFollow e.1))
        | some follow =>
          (own ++ follow.withoutEpsilon.toList.map (fun t => ⟨e.1, t, e.2⟩) ++
            (claims g sets rest).1, (claims g sets rest).2)
      else (own ++ (claims g sets rest).1, (claims g sets rest).2) := by
  rewrite [claims, FirstFollow.ofSequence_lookup h]
  rfl

theorem claims_fst (hfirsts : FirstFollow.HasFirsts g sets) {l : List (Symbol × Production)}
    (h : (claims g sets l).2 = none) :
    (claims g sets l).1 =
      l.flatMap fun e => (sets.claimed e).map fun t => (⟨e.1, t, e.2⟩ : Cell) := by
  induction l with
  | nil => rfl
  | cons e rest ih =>
    obtain ⟨r, p⟩ := e
    rw [List.flatMap_cons, FirstFollow.claimed, List.map_append]
    simp only [claims_cons hfirsts] at h ⊢
    split at h
    · next hε =>
      rw [if_pos hε, if_pos hε]
      split at h
      · simp at h
      · next follow hf =>
        have hfollow : sets.followOf r = follow := by rw [FirstFollow.followOf, hf]; rfl
        rw [ih h, hfollow]
    · next hε =>
      rw [if_neg hε, if_neg hε, ih h, List.map_nil, List.append_nil]

/-- What a table says about a cell: the production in it and the conflicts met there. -/
structure History where
  held : Option Production
  conflicts : List Conflict

/-- A production takes the cell. -/
def History.enter (rule lookahead : Symbol) (h : History) (p : Production) : History where
  held := some p
  conflicts := h.conflicts ++
    match h.held with
    | some q => if q = p then [] else [⟨rule, lookahead, q, p⟩]
    | none => []

def conflictsAt (t : Table) (rule lookahead : Symbol) : List Conflict :=
  t.conflicts.filter fun c => c.rule = rule ∧ c.lookahead = lookahead

def history (t : Table) (rule lookahead : Symbol) : History where
  held := t.lookup rule lookahead
  conflicts := t.conflictsAt rule lookahead

theorem History.enter_enter (h : History) (p : Production) :
    (h.enter rule lookahead p).enter rule lookahead p = h.enter rule lookahead p := by
  simp [enter]

theorem lookup_claim (t : Table) (c : Cell) (rule lookahead : Symbol) :
    (t.claim c).lookup rule lookahead =
      if c.rule = rule ∧ c.lookahead = lookahead then some c.production
      else t.lookup rule lookahead := by
  by_cases hr : c.rule = rule
  · subst hr
    by_cases hl : c.lookahead = lookahead <;> simp [lookup, row, claim, hl]
  · simp [lookup, row, claim, hr]

theorem conflict?_at {t : Table} {c : Cell} {k : Conflict} (h : k ∈ t.conflict? c) :
    k.rule = c.rule ∧ k.lookahead = c.lookahead := by
  unfold conflict? at h
  split at h
  · split at h
    · contradiction
    · obtain rfl := Option.some.inj h
      exact ⟨rfl, rfl⟩
  · contradiction

theorem conflictsAt_claim (t : Table) (c : Cell) :
    (t.claim c).conflictsAt rule lookahead = t.conflictsAt rule lookahead ++
      if c.rule = rule ∧ c.lookahead = lookahead then (t.conflict? c).toList else [] := by
  rw [conflictsAt, claim, List.filter_append, conflictsAt]
  congr 1
  split
  · next hat =>
    rw [List.filter_eq_self]
    intro k hk
    obtain ⟨hrule, hlook⟩ := conflict?_at (Option.mem_toList.1 hk)
    exact decide_eq_true ⟨hrule.trans hat.1, hlook.trans hat.2⟩
  · next hat =>
    rw [List.filter_eq_nil_iff]
    intro k hk hin
    obtain ⟨hrule, hlook⟩ := conflict?_at (Option.mem_toList.1 hk)
    have hin := of_decide_eq_true hin
    exact hat ⟨hrule.symm.trans hin.1, hlook.symm.trans hin.2⟩

theorem history_claim (t : Table) (c : Cell) :
    (t.claim c).history rule lookahead =
      if c.rule = rule ∧ c.lookahead = lookahead then
        (t.history rule lookahead).enter rule lookahead c.production
      else t.history rule lookahead := by
  rw [history, lookup_claim, conflictsAt_claim]
  split
  · next hat =>
    obtain ⟨rfl, rfl⟩ := hat
    simp only [history, History.enter, conflict?]
    congr 2
    cases t.lookup c.rule c.lookahead with
    | none => rfl
    | some q =>
      by_cases hq : q = c.production
      · simp [hq]
      · simp [hq]
  · rw [List.append_nil, history]

/-- The claims of one production count as one. -/
theorem history_claimed (t : Table) (r : Symbol) (p : Production) (ts : List Symbol) :
    ((ts.map fun x => (⟨r, x, p⟩ : Cell)).foldl claim t).history rule lookahead =
      if r = rule ∧ lookahead ∈ ts then (t.history rule lookahead).enter rule lookahead p
      else t.history rule lookahead := by
  induction ts generalizing t with
  | nil => simp
  | cons x ts ih =>
    rw [List.map_cons, List.foldl_cons, ih, history_claim]
    by_cases hr : r = rule
    · by_cases hx : x = lookahead
      · simp [hr, hx, History.enter_enter]
      · simp [hr, hx, Ne.symm hx]
    · simp [hr]

theorem history_foldl (t : Table) (l : List (Symbol × Production)) :
    ((l.flatMap fun e => (sets.claimed e).map fun x => (⟨e.1, x, e.2⟩ : Cell)).foldl claim
      t).history rule lookahead =
      ((l.filter fun e => e.1 = rule ∧ sets.Claims rule e.2 lookahead).map (·.2)).foldl
        (History.enter rule lookahead) (t.history rule lookahead) := by
  induction l generalizing t with
  | nil => rfl
  | cons e l ih =>
    rw [List.flatMap_cons, List.foldl_append, ih, history_claimed, List.filter_cons]
    simp only [FirstFollow.mem_claimed]
    by_cases h : e.1 = rule ∧ sets.Claims rule e.2 lookahead
    · obtain ⟨rfl, hclaims⟩ := h
      simp [hclaims]
    · have hnot : ¬(e.1 = rule ∧ sets.Claims e.1 e.2 lookahead) := by
        rintro ⟨rfl, hclaims⟩
        exact h ⟨rfl, hclaims⟩
      simp [h, hnot]

theorem map_filter_ruleProductions (g : Grammar) (rule : Symbol) (q : Production → Prop)
    [DecidablePred q] :
    ((ruleProductions g).filter fun e => e.1 = rule ∧ q e.2).map (·.2) =
      (g.productions rule).filter fun p => q p := by
  have hrow (r : Rule) :
      ((r.productions.map fun p => (r.name, p)).filter fun e => e.1 = rule ∧ q e.2).map (·.2) =
        (if r.name = rule then r.productions else []).filter fun p => q p := by
    by_cases hr : r.name = rule <;> simp [hr, List.filter_map, Function.comp_def]
  rw [Grammar.productions_eq_declared, ruleProductions]
  induction g.rules with
  | nil => rfl
  | cons r rest ih =>
    rw [List.flatMap_cons, List.filter_append, List.map_append, hrow, ih, Grammar.declared_cons,
      List.filter_append]

def changes (l : List Production) : List (Production × Production) :=
  (l.zip l.tail).filter fun e => e.1 ≠ e.2

theorem changes_cons_cons (p q : Production) (l : List Production) :
    changes (p :: q :: l) = (if p = q then [] else [(p, q)]) ++ changes (q :: l) := by
  by_cases h : p = q <;> simp [changes, h]

def overwritten (rule lookahead : Symbol) (l : List Production) : List Conflict :=
  (changes l).map fun e => ⟨rule, lookahead, e.1, e.2⟩

theorem foldl_enter (p : Production) (old : List Conflict) (l : List Production) :
    l.foldl (History.enter rule lookahead) ⟨some p, old⟩ =
      ⟨(p :: l).getLast?, old ++ overwritten rule lookahead (p :: l)⟩ := by
  induction l generalizing p old with
  | nil => simp [overwritten, changes]
  | cons q l ih =>
    rw [List.foldl_cons, History.enter, ih, List.getLast?_cons_cons, overwritten, overwritten,
      changes_cons_cons, List.map_append, List.append_assoc]
    by_cases h : p = q <;> simp [h]

theorem foldl_enter_vacant (l : List Production) :
    l.foldl (History.enter rule lookahead) ⟨none, []⟩ =
      ⟨l.getLast?, overwritten rule lookahead l⟩ := by
  cases l with
  | nil => rfl
  | cons p l => exact foldl_enter p [] l

def History.Won (h : History) : Prop :=
  ∀ c, h.conflicts.getLast? = some c → h.held = some c.winner

theorem History.Won.enter {h : History} (hwon : h.Won) (p : Production) :
    (h.enter rule lookahead p).Won := by
  intro c hc
  cases hheld : h.held with
  | none =>
    simp only [History.enter, hheld, List.append_nil] at hc
    have hsome := hwon c hc
    rw [hheld] at hsome
    contradiction
  | some q =>
    by_cases hq : q = p
    · simp only [History.enter, hheld, if_pos hq, List.append_nil] at hc
      have hsome := hwon c hc
      rw [hheld, hq] at hsome
      exact hsome
    · simp only [History.enter, hheld, if_neg hq, List.getLast?_concat, Option.some.injEq] at hc
      rw [← hc]
      rfl

section Build

variable {table : Table}

theorem build_eq_ok (h : build g sets = .ok table) : FirstFollow.HasFirsts g sets ∧
    (claims g sets (ruleProductions g)).2 = none ∧
      table = (claims g sets (ruleProductions g)).1.foldl claim ⟨g.names, ∅, []⟩ := by
  unfold build fill at h
  split at h
  · next heq =>
    obtain rfl := Except.ok.inj h
    split at heq
    · simp at heq
    · next hfirsts =>
      simp only [Prod.mk.injEq] at heq
      refine ⟨fun s hs => ?_, heq.2, heq.1.symm⟩
      have hsome := List.find?_eq_none.1 hfirsts s hs
      rwa [Bool.not_eq_true, Option.isNone_eq_false_iff] at hsome
  · contradiction

theorem history_of_build (h : build g sets = .ok table) (rule lookahead : Symbol) :
    table.history rule lookahead =
      (sets.claimants g rule lookahead).foldl (History.enter rule lookahead) ⟨none, []⟩ := by
  obtain ⟨hfirsts, hnone, rfl⟩ := build_eq_ok h
  have hvacant : history ⟨g.names, ∅, []⟩ rule lookahead = ⟨none, []⟩ := rfl
  rw [claims_fst hfirsts hnone, history_foldl, hvacant,
    map_filter_ruleProductions g rule (sets.Claims rule · lookahead)]
  rfl

theorem lookup_of_build (h : build g sets = .ok table) (rule lookahead : Symbol) :
    table.lookup rule lookahead = (sets.claimants g rule lookahead).getLast? := by
  have hheld := congrArg History.held (history_of_build h rule lookahead)
  rwa [foldl_enter_vacant] at hheld

theorem conflictsAt_of_build (h : build g sets = .ok table) (rule lookahead : Symbol) :
    table.conflictsAt rule lookahead =
      overwritten rule lookahead (sets.claimants g rule lookahead) := by
  have hconflicts := congrArg History.conflicts (history_of_build h rule lookahead)
  rwa [foldl_enter_vacant] at hconflicts

theorem won_of_build (h : build g sets = .ok table) (rule lookahead : Symbol) :
    (table.history rule lookahead).Won := by
  rw [history_of_build h]
  refine List.foldlRecOn _ _ ?_ fun _ hwon p _ => hwon.enter p
  intro c hc
  contradiction

end Build

end Table

end Lookahead
