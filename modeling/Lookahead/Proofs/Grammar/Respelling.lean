import Lookahead.Proofs.Table.Lookup

namespace Lookahead

/-- The production with no symbol in place of `EPSILON`, if `bare` asks for it. -/
def Production.respell (bare : Bool) (p : Production) : Production :=
  if bare = true ∧ p = [Symbol.epsilon] then [] else p

def Rule.respell (bare : Symbol → Bool) (rule : Rule) : Rule :=
  { rule with productions := rule.productions.map (Production.respell (bare rule.name)) }

namespace Production

variable {bare : Bool} {p : Production}

/-- Either nothing changes or `EPSILON` is left out. -/
theorem respell_cases (bare : Bool) (p : Production) :
    respell bare p = p ∨ p = [Symbol.epsilon] ∧ respell bare p = [] := by
  unfold respell
  split
  · next h => exact .inr ⟨h.2, rfl⟩
  · exact .inl rfl

theorem mixesEpsilon_respell (h : p.mixesEpsilon = false) :
    (respell bare p).mixesEpsilon = false := by
  rcases respell_cases bare p with hp | ⟨-, hp⟩
  · rw [hp, h]
  · rw [hp]
    rfl

/-- What a production adds is the same as long as `EPSILON` adds nothing. -/
theorem apply_respell {α : Type} {f : Production → α} (h : f [] = f [Symbol.epsilon]) (bare : Bool)
    (p : Production) : f (respell bare p) = f p := by
  rcases respell_cases bare p with hp | ⟨rfl, hp⟩
  · rw [hp]
  · rw [hp, h]

end Production

namespace Grammar

def respell (g : Grammar) (bare : Symbol → Bool) : Grammar where
  rules := g.rules.map (Rule.respell bare)
  nonempty := by simpa using g.nonempty
  nodup := by
    rw [List.map_map]
    exact g.nodup
  unmixed := by
    simp only [List.forall_mem_map, Rule.respell]
    exact fun rule hrule p hp => Production.mixesEpsilon_respell (g.unmixed rule hrule p hp)

section Accepted

theorem extend_of_not_mem {rule : Rule} {rules : List Rule}
    (h : rule.name ∉ rules.map (·.name)) : extend rule rules = rules ++ [rule] := by
  induction rules with
  | nil => rfl
  | cons r rest ih =>
    rw [List.map_cons, List.mem_cons, not_or] at h
    rw [extend, if_neg (Ne.symm h.1), ih h.2, List.cons_append]

theorem foldl_extend {acc rules : List Rule} (h : ((acc ++ rules).map (·.name)).Nodup) :
    rules.foldl (fun acc rule => extend rule acc) acc = acc ++ rules := by
  induction rules generalizing acc with
  | nil => exact (List.append_nil acc).symm
  | cons rule rest ih =>
    rw [List.map_append, List.map_cons, List.nodup_middle, List.nodup_cons, List.mem_append,
      not_or] at h
    rw [List.foldl_cons, extend_of_not_mem h.1.1, ih, List.append_assoc, List.singleton_append]
    rw [List.append_assoc, List.singleton_append, List.map_append, List.map_cons,
      List.nodup_middle, List.nodup_cons, List.mem_append, not_or]
    exact h

/-- A grammar is made from its own rules. -/
theorem ofRules_rules (g : Grammar) : ofRules g.rules = .ok g := by
  obtain ⟨rules, hne, hnodup, hunmixed⟩ := g
  cases rules with
  | nil => exact absurd rfl hne
  | cons first rest =>
    have hcollect : collect (first :: rest) = first :: rest := foldl_extend hnodup
    have hnone : (first :: rest).find? (·.productions.any Production.mixesEpsilon) = none := by
      simpa using hunmixed
    unfold ofRules
    dsimp only
    split
    · next h => rw [hnone] at h; cases h
    · simp only [hcollect]

end Accepted

variable (g : Grammar) (bare : Symbol → Bool)

theorem rules_respell : (g.respell bare).rules = g.rules.map (Rule.respell bare) := rfl

@[simp] theorem names_respell : (g.respell bare).names = g.names := by
  rw [names, rules_respell, List.map_map]
  rfl

@[simp] theorem start_respell : (g.respell bare).start = g.start := by
  rw [start, start]
  simp [rules_respell, Rule.respell]

@[simp] theorem isRule_respell (s : Symbol) : (g.respell bare).isRule s = g.isRule s := by
  rw [isRule, rules_respell, List.any_map]
  rfl

theorem productions_respell (s : Symbol) :
    (g.respell bare).productions s = (g.productions s).map (Production.respell (bare s)) := by
  have hfind : (g.respell bare).rules.find? (·.name = s) =
      (g.rules.find? (·.name = s)).map (Rule.respell bare) := List.find?_map
  rw [productions, productions, hfind]
  cases hf : g.rules.find? (·.name = s) with
  | none => rfl
  | some rule =>
    obtain rfl : rule.name = s := by simpa using List.find?_some hf
    rfl

@[simp] theorem length_rules_respell : (g.respell bare).rules.length = g.rules.length := by
  rw [rules_respell, List.length_map]

/-- `EPSILON` is no terminal. -/
@[simp] theorem terminals_respell : (g.respell bare).terminals = g.terminals := by
  have hrule (rule : Rule) (keep : Symbol → Bool) (hkeep : keep Symbol.epsilon = false) :
      (rule.respell bare).productions.flatten.filter keep =
        rule.productions.flatten.filter keep := by
    rw [List.filter_flatten, List.filter_flatten, Rule.respell, List.map_map]
    congr 1
    refine List.map_congr_left fun p _ => ?_
    exact Production.apply_respell (f := List.filter keep) (by simp [hkeep]) _ p
  rw [terminals, terminals, rules_respell, List.flatMap_map, List.filter_flatMap,
    List.filter_flatMap]
  simp only [isRule_respell]
  congr 2
  funext rule
  exact hrule rule _ (by simp)

end Grammar

namespace FirstFollow

variable {g : Grammar} {bare : Symbol → Bool}

theorem firstPass_respell : firstPass (g.respell bare) = firstPass g := by
  funext first
  rw [firstPass, firstPass, Grammar.rules_respell, List.foldl_map]
  congr 1
  funext first rule
  rw [Rule.respell, List.foldl_map]
  congr 1
  funext first p
  exact Production.apply_respell
    (f := fun p => grow first rule.name (firstOfSequence first p)) rfl _ p

theorem computeFirst_respell : computeFirst (g.respell bare) = computeFirst g := by
  rw [computeFirst, computeFirst, firstPass_respell, firstSeed, firstSeed, withRules, withRules]
  simp

theorem followProduction_respell (first : Dict SymbolSet) (rule : Symbol) :
    followProduction (g.respell bare) first rule = followProduction g first rule := by
  funext p follow
  induction p generalizing follow with
  | nil => rfl
  | cons s rest ih => rw [followProduction, followProduction, Grammar.isRule_respell, ih, ih]

/-- A rule called `EPSILON` would be followed by what follows the rules that use it. -/
theorem followPass_respell (h : g.isRule Symbol.epsilon = false) (first : Dict SymbolSet) :
    followPass (g.respell bare) first = followPass g first := by
  funext follow
  rw [followPass, followPass, Grammar.rules_respell, List.foldl_map]
  congr 1
  funext follow rule
  rw [Rule.respell, List.foldl_map]
  congr 1
  funext follow p
  rw [followProduction_respell]
  refine Production.apply_respell (f := fun p => followProduction g first rule.name p follow) ?_ _ p
  simp [followProduction, h]

theorem compute_respell (h : g.isRule Symbol.epsilon = false) :
    compute (g.respell bare) = compute g := by
  rw [compute, compute, computeFirst_respell]
  simp only [computeFollow, followPass_respell h, followSeed, withRules, Grammar.names_respell,
    Grammar.start_respell, Grammar.length_rules_respell, Grammar.terminals_respell]

end FirstFollow

def Cell.respell (bare : Symbol → Bool) (c : Cell) : Cell :=
  { c with production := c.production.respell (bare c.rule) }

namespace Table

variable {g : Grammar} {sets : FirstFollow} {bare : Symbol → Bool} {table table' : Table}

theorem claims_respell (h : FirstFollow.HasFirsts g sets) (l : List (Symbol × Production)) :
    claims (g.respell bare) sets (l.map fun e => (e.1, e.2.respell (bare e.1))) =
      ((claims g sets l).1.map (Cell.respell bare), (claims g sets l).2) := by
  have h' : FirstFollow.HasFirsts (g.respell bare) sets := by
    rwa [FirstFollow.HasFirsts, Grammar.names_respell]
  induction l with
  | nil => rfl
  | cons e rest ih =>
    obtain ⟨rule, p⟩ := e
    have hfirst : FirstFollow.firstOfSequence sets.first (p.respell (bare rule)) =
        FirstFollow.firstOfSequence sets.first p := Production.apply_respell rfl _ p
    have hcells (set : SymbolSet) :
        (set.toList.map fun t => (⟨rule, t, p⟩ : Cell)).map (Cell.respell bare) =
          set.toList.map fun t => ⟨rule, t, p.respell (bare rule)⟩ := List.map_map
    rw [List.map_cons, claims_cons h, claims_cons h', hfirst, ih]
    dsimp only
    split
    · cases sets.follow.get? rule with
      | none => rw [hcells]
      | some follow => simp only [List.map_append, hcells]
    · simp only [List.map_append, hcells]

theorem ruleProductions_respell : ruleProductions (g.respell bare) =
    (ruleProductions g).map fun e => (e.1, e.2.respell (bare e.1)) := by
  rw [ruleProductions, ruleProductions, Grammar.rules_respell, List.flatMap_map, List.map_flatMap]
  congr 1
  funext rule
  rw [Rule.respell, List.map_map, List.map_map]
  rfl

theorem lookup_foldl_respell {cells : List Cell} {t t' : Table} {rule lookahead : Symbol}
    (h : t'.lookup rule lookahead = (t.lookup rule lookahead).map (·.respell (bare rule))) :
    ((cells.map (Cell.respell bare)).foldl claim t').lookup rule lookahead =
      ((cells.foldl claim t).lookup rule lookahead).map (·.respell (bare rule)) := by
  induction cells generalizing t t' with
  | nil => exact h
  | cons c cells ih =>
    refine ih ?_
    rw [lookup_claim, lookup_claim]
    by_cases hc : c.rule = rule ∧ c.lookahead = lookahead
    · obtain ⟨rfl, rfl⟩ := hc
      simp [Cell.respell]
    · have hc' : ¬ ((c.respell bare).rule = rule ∧ (c.respell bare).lookahead = lookahead) := hc
      rw [if_neg hc, if_neg hc', h]

/-- The table finds the same production in the other spelling. -/
theorem lookup_respell (h : build g sets = .ok table)
    (h' : build (g.respell bare) sets = .ok table') (rule lookahead : Symbol) :
    table'.lookup rule lookahead = (table.lookup rule lookahead).map (·.respell (bare rule)) := by
  rw [(build_eq_ok h).2.2, (build_eq_ok h').2.2, ruleProductions_respell,
    claims_respell (build_eq_ok h).1]
  exact lookup_foldl_respell rfl

theorem rules_respell (h : build g sets = .ok table)
    (h' : build (g.respell bare) sets = .ok table') : table'.rules = table.rules := by
  rw [rules_of_build h, rules_of_build h', Grammar.names_respell]

end Table

end Lookahead
