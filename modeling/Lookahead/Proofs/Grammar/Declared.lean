import Lookahead.Proofs.Grammar.Tree

namespace Lookahead.Grammar

variable {g : Grammar} {rules : List Rule}

/-- The productions that declarations give to a rule, in order. -/
def declared (rules : List Rule) (s : Symbol) : List Production :=
  (rules.filter (·.name = s)).flatMap (·.productions)

@[simp] theorem declared_nil (s : Symbol) : declared [] s = [] := rfl

theorem declared_cons (rule : Rule) (rules : List Rule) (s : Symbol) :
    declared (rule :: rules) s =
      (if rule.name = s then rule.productions else []) ++ declared rules s := by
  by_cases h : rule.name = s <;> simp [declared, h]

theorem declared_eq_nil {s : Symbol} (h : s ∉ rules.map (·.name)) : declared rules s = [] := by
  have hnone : rules.filter (·.name = s) = [] := by
    rw [List.filter_eq_nil_iff]
    intro rule hrule heq
    exact h (List.mem_map.2 ⟨rule, hrule, of_decide_eq_true heq⟩)
  rw [declared, hnone, List.flatMap_nil]

theorem declared_extend (rule : Rule) (h : (rules.map (·.name)).Nodup) (s : Symbol) :
    declared (extend rule rules) s =
      declared rules s ++ if rule.name = s then rule.productions else [] := by
  fun_induction extend rule rules with
  | case1 => rw [declared_cons, declared_nil, List.nil_append, List.append_nil]
  | case2 r rest hname =>
    rw [declared_cons, declared_cons, ← hname]
    by_cases hs : r.name = s
    · -- no later rule has the name, so the new productions come last
      have hrest : declared rest s = [] := declared_eq_nil (hs ▸ (List.nodup_cons.1 h).1)
      simp [hs, hrest]
    · simp [hs]
  | case3 r rest hname ih =>
    rw [declared_cons, declared_cons, ih (List.nodup_cons.1 h).2, List.append_assoc]

theorem declared_foldl_extend (rules : List Rule) {acc : List Rule}
    (h : (acc.map (·.name)).Nodup) (s : Symbol) :
    declared (rules.foldl (fun acc rule => extend rule acc) acc) s =
      declared acc s ++ declared rules s := by
  induction rules generalizing acc with
  | nil => rw [List.foldl_nil, declared_nil, List.append_nil]
  | cons rule rules ih =>
    rw [List.foldl_cons, ih (nodup_extend rule h), declared_extend rule h, declared_cons rule rules,
      List.append_assoc]

theorem find?_eq_declared (h : (rules.map (·.name)).Nodup) (s : Symbol) :
    (match rules.find? (·.name = s) with
      | some rule => rule.productions
      | none => []) = declared rules s := by
  induction rules with
  | nil => rfl
  | cons r rest ih =>
    rw [declared_cons]
    by_cases hs : r.name = s
    · have hrest : declared rest s = [] := declared_eq_nil (hs ▸ (List.nodup_cons.1 h).1)
      simp [hs, hrest]
    · simpa [hs] using ih (List.nodup_cons.1 h).2

theorem productions_eq_declared (g : Grammar) (s : Symbol) :
    g.productions s = declared g.rules s :=
  find?_eq_declared g.nodup s

theorem rules_of_ofRules (h : ofRules rules = .ok g) : g.rules = collect rules := by
  unfold ofRules at h
  split at h
  · contradiction
  · split at h
    · contradiction
    · rw [← Except.ok.inj h]

theorem productions_ofRules (h : ofRules rules = .ok g) (s : Symbol) :
    g.productions s = declared rules s := by
  rw [productions_eq_declared, rules_of_ofRules h]
  exact declared_foldl_extend rules (by simp) s

end Lookahead.Grammar
