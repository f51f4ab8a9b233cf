import Lookahead.Proofs.Table.History

namespace Lookahead

/-- No two productions of a rule claim one lookahead. -/
def FirstFollow.Distinct (g : Grammar) (sets : FirstFollow) : Prop :=
  ∀ rule, ∀ p ∈ g.productions rule, ∀ q ∈ g.productions rule, ∀ t,
    sets.Claims rule p t → sets.Claims rule q t → p = q

namespace Table

theorem mem_ruleProductions {g : Grammar} {rule : Symbol} {p : Production} :
    (rule, p) ∈ ruleProductions g ↔ p ∈ g.productions rule := by
  simp only [ruleProductions, List.mem_flatMap, List.mem_map, Prod.mk.injEq,
    Grammar.mem_productions]
  grind

theorem rules_foldl_claim (cells : List Cell) (t : Table) :
    (cells.foldl claim t).rules = t.rules := by
  induction cells generalizing t with
  | nil => rfl
  | cons c cells ih => exact ih (t.claim c)

theorem mem_of_mem_changes {l : List Production} {p q : Production} (h : (p, q) ∈ changes l) :
    p ∈ l ∧ q ∈ l ∧ p ≠ q := by
  obtain ⟨hzip, hne⟩ := List.mem_filter.1 h
  obtain ⟨hp, hq⟩ := List.of_mem_zip hzip
  exact ⟨hp, List.mem_of_mem_tail hq, of_decide_eq_true hne⟩

theorem getLast?_of_changes_eq_nil {l : List Production} (h : changes l = []) {p : Production}
    (hp : p ∈ l) : l.getLast? = some p := by
  induction l with
  | nil => exact absurd hp List.not_mem_nil
  | cons q l ih =>
    cases l with
    | nil => rw [List.mem_singleton.1 hp, List.getLast?_singleton]
    | cons r l =>
      rw [changes_cons_cons, List.append_eq_nil_iff] at h
      have hqr : q = r := by
        by_contra hne
        simp [hne] at h
      rw [List.getLast?_cons_cons]
      apply ih h.2
      rcases List.mem_cons.1 hp with rfl | hp
      · exact hqr ▸ List.mem_cons_self
      · exact hp

section Build

variable {g : Grammar} {sets : FirstFollow} {t : Table}

theorem claims_error (hfirsts : FirstFollow.HasFirsts g sets)
    (hfollow : ∀ s, g.isRule s = true → (sets.follow.get? s).isSome = true)
    {l : List (Symbol × Production)} (hl : ∀ e ∈ l, g.isRule e.1 = true) :
    (claims g sets l).2 = none := by
  induction l with
  | nil => rfl
  | cons e rest ih =>
    obtain ⟨he, hrest⟩ := List.forall_mem_cons.1 hl
    obtain ⟨follow, hf⟩ := Option.isSome_iff_exists.1 (hfollow e.1 he)
    simp only [claims_cons hfirsts, hf]
    split <;> exact ih hrest

/-- Sets that have an entry for each rule are enough for a table. -/
theorem exists_build (hfirst : ∀ s, g.isRule s = true → (sets.first.get? s).isSome = true)
    (hfollow : ∀ s, g.isRule s = true → (sets.follow.get? s).isSome = true) :
    ∃ t, build g sets = .ok t := by
  have hfirsts : FirstFollow.HasFirsts g sets := fun s hs => hfirst s (Grammar.isRule_iff.2 hs)
  have hnone : g.names.find? (fun s => (sets.first.get? s).isNone) = none := by
    rw [List.find?_eq_none]
    intro s hs
    rw [Bool.not_eq_true, Option.isNone_eq_false_iff]
    exact hfirsts s hs
  have hclaims : (claims g sets (ruleProductions g)).2 = none :=
    claims_error hfirsts hfollow fun e he =>
      Grammar.isRule_of_mem_productions (mem_ruleProductions.1 he)
  refine ⟨(claims g sets (ruleProductions g)).1.foldl claim ⟨g.names, ∅, []⟩, ?_⟩
  unfold build fill
  rw [hnone]
  simp only [hclaims]

theorem rules_of_build (h : build g sets = .ok t) : t.rules = g.names := by
  rw [(build_eq_ok h).2.2, rules_foldl_claim]

theorem isRule_of_build (h : build g sets = .ok t) (s : Symbol) : t.isRule s = g.isRule s := by
  rw [isRule, rules_of_build h, Bool.eq_iff_iff, decide_eq_true_iff, Grammar.isRule_iff]

theorem lookup_eq_some (h : build g sets = .ok t) {rule lookahead : Symbol} {p : Production}
    (hl : t.lookup rule lookahead = some p) :
    p ∈ g.productions rule ∧ sets.Claims rule p lookahead := by
  rw [lookup_of_build h] at hl
  obtain ⟨hp, hclaims⟩ := List.mem_filter.1 (List.mem_of_getLast? hl)
  exact ⟨hp, of_decide_eq_true hclaims⟩

theorem lookup_of_claims (h : build g sets = .ok t) (hc : t.conflicts = [])
    {rule lookahead : Symbol} {p : Production} (hp : p ∈ g.productions rule)
    (hcl : sets.Claims rule p lookahead) : t.lookup rule lookahead = some p := by
  have hnone : overwritten rule lookahead (sets.claimants g rule lookahead) = [] := by
    rw [← conflictsAt_of_build h, conflictsAt, hc, List.filter_nil]
  rw [lookup_of_build h]
  apply getLast?_of_changes_eq_nil (List.map_eq_nil_iff.1 hnone)
  exact List.mem_filter.2 ⟨hp, decide_eq_true hcl⟩

theorem distinct_of_build (h : build g sets = .ok t) (hc : t.conflicts = []) :
    FirstFollow.Distinct g sets := by
  intro rule p hp q hq a hpa hqa
  have hlookup := lookup_of_claims h hc hp hpa
  rw [lookup_of_claims h hc hq hqa] at hlookup
  exact (Option.some.inj hlookup).symm

theorem conflicts_eq_nil (h : build g sets = .ok t) (hd : FirstFollow.Distinct g sets) :
    t.conflicts = [] := by
  apply List.eq_nil_iff_forall_not_mem.2
  intro c hc
  have hat : c ∈ t.conflictsAt c.rule c.lookahead :=
    List.mem_filter.2 ⟨hc, decide_eq_true ⟨rfl, rfl⟩⟩
  rw [conflictsAt_of_build h] at hat
  obtain ⟨e, he, -⟩ := List.mem_map.1 hat
  obtain ⟨hp, hq, hne⟩ := mem_of_mem_changes he
  obtain ⟨hp, hpc⟩ := List.mem_filter.1 hp
  obtain ⟨hq, hqc⟩ := List.mem_filter.1 hq
  exact hne (hd _ _ hp _ hq _ (of_decide_eq_true hpc) (of_decide_eq_true hqc))

end Build

end Table

end Lookahead
