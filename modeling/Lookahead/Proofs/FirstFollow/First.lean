import Lookahead.Proofs.FirstFollow.Growth

namespace Lookahead.FirstFollow

variable {g : Grammar} {first : Dict SymbolSet} {bound : Symbol → Symbol → Prop}

def firstStep (first : Dict SymbolSet) (e : Symbol × Production) : Dict SymbolSet :=
  grow first e.1 (firstOfSequence first e.2)

theorem firstPass_eq (g : Grammar) (first : Dict SymbolSet) :
    firstPass g first = (Table.ruleProductions g).foldl firstStep first := by
  simp only [firstPass, Table.ruleProductions, List.foldl_flatMap, List.foldl_map]
  rfl

/-- What a sequence may begin with if each rule `s` in it begins with `t` only where `bound s t`
holds. -/
def Begins (g : Grammar) (bound : Symbol → Symbol → Prop) : List Symbol → Symbol → Prop
  | [], t => t = Symbol.epsilon
  | s :: rest, t =>
    if s = Symbol.epsilon then Begins g bound rest t
    else if g.isRule s then
      t ≠ Symbol.epsilon ∧ bound s t ∨ bound s Symbol.epsilon ∧ Begins g bound rest t
    else t = s

def FirstBound (g : Grammar) (bound : Symbol → Symbol → Prop) : Prop :=
  ∀ rule, ∀ p ∈ g.productions rule, ∀ t, Begins g bound p t → bound rule t

/-- What holds of the sets on the way: a symbol that is no rule begins with itself. -/
structure FirstInv (g : Grammar) (bound : Symbol → Symbol → Prop) (first : Dict SymbolSet) :
    Prop where
  rules : HasRules g first
  other : ∀ s, g.isRule s = false → firstOf first s = .singleton s
  within : ∀ s, g.isRule s = true → ∀ t ∈ firstOf first s, bound s t

theorem FirstInv.begins (h : FirstInv g bound first) {p : List Symbol} {t : Symbol}
    (ht : t ∈ firstOfSequence first p) : Begins g bound p t := by
  induction p with
  | nil => exact SymbolSet.mem_singleton.1 ht
  | cons s rest ih =>
    rw [firstOfSequence_cons] at ht
    rw [Begins]
    by_cases hs : s = Symbol.epsilon
    · rw [if_pos hs] at ht ⊢
      exact ih ht
    rw [if_neg hs] at ht ⊢
    by_cases hr : g.isRule s = true
    · rw [if_pos hr]
      split at ht
      · next he =>
        rcases SymbolSet.mem_union.1 ht with ht | ht
        · obtain ⟨ht, hne⟩ := SymbolSet.mem_withoutEpsilon.1 ht
          exact .inl ⟨hne, h.within s hr t ht⟩
        · exact .inr ⟨h.within s hr _ he, ih ht⟩
      · next he => exact .inl ⟨ne_of_mem_of_not_mem ht he, h.within s hr t ht⟩
    · have hself := h.other s (by simpa using hr)
      rw [if_neg hr]
      have hne : Symbol.epsilon ∉ firstOf first s := by simpa [hself] using Ne.symm hs
      rw [if_neg hne, hself] at ht
      exact SymbolSet.mem_singleton.1 ht

theorem FirstInv.step (hb : FirstBound g bound) (h : FirstInv g bound first) {rule : Symbol}
    {p : Production} (hp : p ∈ g.productions rule) :
    FirstInv g bound (firstStep first (rule, p)) := by
  have hr := Grammar.isRule_of_mem_productions hp
  have he : Extends g first (firstStep first (rule, p)) := extends_grow h.rules hr _
  refine ⟨he.rule, fun s hs => ?_, fun s hs t ht => ?_⟩
  · rw [firstOf, he.other s hs]
    exact h.other s hs
  · rw [firstOf_eq_setOf he.rule hs, firstStep, setOf_grow] at ht
    split at ht
    · next heq =>
      obtain rfl : rule = s := heq
      rcases SymbolSet.mem_union.1 ht with ht | ht
      · exact h.within rule hs t (firstOf_eq_setOf h.rules hs ▸ ht)
      · exact hb rule p hp t (h.begins ht)
    · exact h.within s hs t (firstOf_eq_setOf h.rules hs ▸ ht)

theorem FirstInv.pass (hb : FirstBound g bound) (h : FirstInv g bound first) :
    FirstInv g bound (firstPass g first) := by
  rw [firstPass_eq]
  exact List.foldlRecOn (Table.ruleProductions g) _ h fun _ hd _ he =>
    hd.step hb (Table.mem_ruleProductions.1 he)

theorem get?_withRules (g : Grammar) (d : Dict SymbolSet) (s : Symbol) :
    (withRules g d).get? s = if g.isRule s then some ∅ else d.get? s := by
  rw [withRules, Dict.get?_foldl_insert (fun _ => ∅)]
  exact if_congr Grammar.isRule_iff.symm rfl rfl

theorem FirstInv.seed (g : Grammar) (bound : Symbol → Symbol → Prop) :
    FirstInv g bound (firstSeed g) := by
  refine ⟨fun s hs => ?_, fun s hs => ?_, fun s hs t ht => ?_⟩
  · rw [firstSeed, get?_withRules, if_pos hs]
    rfl
  · rw [firstOf, firstSeed, get?_withRules, if_neg (by simp [hs]), Dict.get?_insert,
      Dict.get?_foldl_insert SymbolSet.singleton]
    split
    · next heq => rw [← heq]; rfl
    · split <;> rfl
  · rw [firstOf, firstSeed, get?_withRules, if_pos hs] at ht
    exact absurd ht (SymbolSet.not_mem_empty t)

def alphabet (g : Grammar) : List Symbol := Symbol.epsilon :: g.terminals.toList

theorem mem_terminals {s : Symbol} : s ∈ g.terminals ↔
    g.isTerminal s = true ∧ ∃ rule, ∃ p ∈ g.productions rule, s ∈ p := by
  simp only [Grammar.terminals, SymbolSet.mem_ofList, List.mem_filter, List.mem_flatMap,
    List.mem_flatten, Grammar.isTerminal, Grammar.mem_productions, Bool.and_eq_true,
    decide_eq_true_eq, Bool.not_eq_true']
  constructor
  · rintro ⟨⟨r, hr, p, hp, hs⟩, hne, hrule⟩
    exact ⟨⟨hrule, hne⟩, r.name, p, ⟨r, hr, rfl, hp⟩, hs⟩
  · rintro ⟨⟨hrule, hne⟩, rule, p, ⟨r, hr, -, hp⟩, hs⟩
    exact ⟨⟨r, hr, p, hp, hs⟩, hne, hrule⟩

theorem mem_alphabet_of_begins (before : List Symbol) {p : List Symbol} {rule t : Symbol}
    (hp : before ++ p ∈ g.productions rule) (h : Begins g (fun _ t => t ∈ alphabet g) p t) :
    t ∈ alphabet g := by
  induction p generalizing before with
  | nil => exact h ▸ List.mem_cons_self
  | cons s rest ih =>
    have hrest : (before ++ [s]) ++ rest ∈ g.productions rule := by simpa using hp
    rw [Begins] at h
    split at h
    · exact ih _ hrest h
    · next hs =>
      split at h
      · rcases h with h | h
        · exact h.2
        · exact ih _ hrest h.2
      · next hr =>
        subst h
        refine List.mem_cons_of_mem _ (mem_terminals.2 ⟨?_, rule, _, hp, by simp⟩)
        exact Grammar.isTerminal_iff.2 ⟨by simpa using hr, hs⟩

theorem firstBound_alphabet (g : Grammar) : FirstBound g fun _ t => t ∈ alphabet g :=
  fun _ _ hp _ ht => mem_alphabet_of_begins [] hp ht

theorem extends_firstStep {e : Symbol × Production} (he : e ∈ Table.ruleProductions g)
    (h : HasRules g first) : Extends g first (firstStep first e) :=
  extends_grow h (Grammar.isRule_of_mem_productions (Table.mem_ruleProductions.1 he)) _

theorem extends_firstPass (h : HasRules g first) : Extends g first (firstPass g first) := by
  rw [firstPass_eq]
  exact extends_foldl (fun e he d hd => extends_firstStep he hd) h

theorem computeFirst_inv (hb : FirstBound g bound) : FirstInv g bound (computeFirst g) :=
  saturate_inv (fun _ h => h.pass hb) _ (.seed g bound)

theorem mem_firstOf_of_isTerminal {s : Symbol} (hs : g.isTerminal s = true) :
    s ∈ firstOf (computeFirst g) s := by
  have h := computeFirst_inv (firstBound_alphabet g)
  rw [h.other s (Grammar.isTerminal_iff.1 hs).1]
  exact SymbolSet.mem_singleton.2 rfl

theorem mem_terminals_of_mem_firstOfSequence {rest : List Symbol} {rule t : Symbol}
    (before : List Symbol) (hp : before ++ rest ∈ g.productions rule)
    (ht : t ∈ firstOfSequence (computeFirst g) rest) (hne : t ≠ Symbol.epsilon) :
    t ∈ g.terminals := by
  have hb := (computeFirst_inv (firstBound_alphabet g)).begins ht
  exact (List.mem_cons.1 (mem_alphabet_of_begins before hp hb)).resolve_left hne

theorem firstPass_computeFirst (g : Grammar) : firstPass g (computeFirst g) = computeFirst g := by
  refine saturate_fixed (FirstInv g fun _ t => t ∈ alphabet g) (weight g)
    (g.rules.length * (alphabet g).length) ?_ ?_ ?_ (.seed g _) ?_
  · exact fun _ h => h.pass (firstBound_alphabet g)
  · exact fun first h hne => weight_lt h.rules (extends_firstPass h.rules) hne
  · intro first h
    exact weight_le fun s hs t ht => h.within s hs t (firstOf_eq_setOf h.rules hs ▸ ht)
  · rw [alphabet, List.length_cons]
    omega

theorem mem_firstOf_of_production {rule t : Symbol} {p : Production}
    (hp : p ∈ g.productions rule) (ht : t ∈ firstOfSequence (computeFirst g) p) :
    t ∈ firstOf (computeFirst g) rule := by
  have h := computeFirst_inv (firstBound_alphabet g)
  have hfix := firstPass_computeFirst g
  rw [firstPass_eq] at hfix
  have hstep := step_eq_self (fun e he d hd => extends_firstStep he hd) h.rules hfix (rule, p)
    (Table.mem_ruleProductions.2 hp)
  have hr := Grammar.isRule_of_mem_productions hp
  rw [firstOf_eq_setOf h.rules hr, ← hstep, firstStep, setOf_grow, if_pos rfl]
  exact SymbolSet.mem_union.2 (.inr ht)

end Lookahead.FirstFollow
