import Lookahead.Proofs.FirstFollow.First
import Lookahead.Proofs.Grammar.Sentence

namespace Lookahead

namespace Grammar

variable {g : Grammar}

/-- Rewriting brings `t` to the front, or for `EPSILON` leaves nothing. -/
def Leads (g : Grammar) (u : List Symbol) (t : Symbol) : Prop :=
  ∃ w, g.Derives u w ∧ w.headD Symbol.epsilon = t

theorem leads_iff {u : List Symbol} {t : Symbol} (ht : t ≠ Symbol.epsilon) :
    g.Leads u t ↔ ∃ w, g.Derives u (t :: w) := by
  constructor
  · rintro ⟨w, hw, hhead⟩
    cases w with
    | nil => exact absurd hhead.symm ht
    | cons a w =>
      obtain rfl : a = t := hhead
      exact ⟨w, hw⟩
  · rintro ⟨w, hw⟩
    exact ⟨t :: w, hw, rfl⟩

theorem leads_epsilon_iff {u : List Symbol} (hu : ∀ s ∈ u, s ≠ Symbol.epsilon) :
    g.Leads u Symbol.epsilon ↔ g.Derives u [] := by
  constructor
  · rintro ⟨w, hw, hhead⟩
    cases w with
    | nil => exact hw
    | cons a w => exact absurd hhead (hw.ne_epsilon hu a List.mem_cons_self)
  · exact fun h => ⟨[], h, rfl⟩

theorem Derives.leads {u v : List Symbol} {t : Symbol} (h : g.Derives u v) (hv : g.Leads v t) :
    g.Leads u t := by
  obtain ⟨w, hw, hhead⟩ := hv
  exact ⟨w, h.trans hw, hhead⟩

theorem replacement_cons_epsilon (rest : List Symbol) :
    replacement (Symbol.epsilon :: rest) = replacement rest := by
  simp [replacement]

theorem replacement_cons {s : Symbol} (hs : s ≠ Symbol.epsilon) (rest : List Symbol) :
    replacement (s :: rest) = [s] ++ replacement rest := by
  simp [replacement, hs]

end Grammar

namespace FirstFollow

open Grammar (replacement)

variable {g : Grammar} {first : Dict SymbolSet}

section Sequence

variable {u v : List Symbol} {t : Symbol}

theorem firstOfSequence_singleton {s : Symbol} (hs : s ≠ Symbol.epsilon) :
    firstOfSequence first [s] = firstOf first s := by
  rw [firstOfSequence_cons, if_neg hs]
  split
  · next he =>
    apply SymbolSet.ext
    intro x
    have hnil : x ∈ firstOfSequence first [] ↔ x = Symbol.epsilon := SymbolSet.mem_singleton
    rw [SymbolSet.mem_union, SymbolSet.mem_withoutEpsilon, hnil]
    by_cases hx : x = Symbol.epsilon
    · simp [hx, he]
    · simp [hx]
  · rfl

theorem firstOfSequence_replacement (p : Production) :
    firstOfSequence first (replacement p) = firstOfSequence first p := by
  induction p with
  | nil => rfl
  | cons s rest ih =>
    by_cases hs : s = Symbol.epsilon
    · rw [hs, Grammar.replacement_cons_epsilon, ih, firstOfSequence_cons, if_pos rfl]
    · rw [Grammar.replacement_cons hs, List.singleton_append, firstOfSequence_cons,
        firstOfSequence_cons, ih]

/-- A larger FIRST in the middle makes the whole larger. -/
theorem mem_firstOfSequence_context {u' : List Symbol} (before after : List Symbol)
    (h : ∀ x ∈ firstOfSequence first u, x ∈ firstOfSequence first u')
    (ht : t ∈ firstOfSequence first (before ++ u ++ after)) :
    t ∈ firstOfSequence first (before ++ u' ++ after) := by
  by_cases hε : t = Symbol.epsilon
  · subst hε
    simp only [epsilon_mem_firstOfSequence_append] at ht ⊢
    exact ⟨⟨ht.1.1, h _ ht.1.2⟩, ht.2⟩
  · simp only [mem_firstOfSequence_append_iff hε, epsilon_mem_firstOfSequence_append] at ht ⊢
    rcases ht with (ht | ht) | ht
    · exact .inl (.inl ht)
    · exact .inl (.inr ⟨ht.1, h t ht.2⟩)
    · exact .inr ⟨⟨ht.1.1, h _ ht.1.2⟩, ht.2⟩

end Sequence

section Derivations

variable (hε : g.isRule Symbol.epsilon = false)
include hε

/-- One rewriting step, undone. -/
theorem mem_firstOfSequence_of_rewrites {u v : List Symbol} {t : Symbol} (h : g.Rewrites u v)
    (ht : t ∈ firstOfSequence (computeFirst g) v) : t ∈ firstOfSequence (computeFirst g) u := by
  obtain ⟨before, after, hp⟩ := h
  rename_i s p
  have hs := Grammar.ne_epsilon_of_isRule hε (Grammar.isRule_of_mem_productions hp)
  rw [← List.singleton_append, ← List.append_assoc]
  refine mem_firstOfSequence_context before after (fun x hx => ?_) ht
  rw [firstOfSequence_replacement] at hx
  rw [firstOfSequence_singleton hs]
  exact mem_firstOf_of_production hp hx

theorem mem_firstOfSequence_of_derives {u v : List Symbol} {t : Symbol} (h : g.Derives u v)
    (ht : t ∈ firstOfSequence (computeFirst g) v) : t ∈ firstOfSequence (computeFirst g) u := by
  induction h with
  | refl => exact ht
  | tail _ hstep ih => exact ih (mem_firstOfSequence_of_rewrites hε hstep ht)

end Derivations

theorem mem_firstOfSequence_cons_of_isTerminal {t : Symbol} (ht : g.isTerminal t = true)
    (w : List Symbol) : t ∈ firstOfSequence (computeFirst g) (t :: w) := by
  have hne := (Grammar.isTerminal_iff.1 ht).2
  exact (mem_firstOfSequence_cons hne).2 (.inl ⟨hne, mem_firstOf_of_isTerminal ht⟩)

/-- A row of symbols leads to what it begins with, as far as its rules do. -/
theorem leads_of_begins {p : List Symbol} {t : Symbol}
    (h : Begins g (fun s t => g.Leads [s] t) p t) : g.Leads (replacement p) t := by
  induction p with
  | nil => exact ⟨[], .refl, h.symm⟩
  | cons s rest ih =>
    rw [Begins] at h
    by_cases hs : s = Symbol.epsilon
    · rw [if_pos hs] at h
      rw [hs, Grammar.replacement_cons_epsilon]
      exact ih h
    rw [if_neg hs] at h
    rw [Grammar.replacement_cons hs]
    split at h
    · rcases h with ⟨ht, hlead⟩ | ⟨hvanish, hrest⟩
      · rw [Grammar.leads_iff ht] at hlead ⊢
        obtain ⟨w, hw⟩ := hlead
        exact ⟨w ++ replacement rest, hw.append .refl⟩
      · rw [Grammar.leads_epsilon_iff (List.forall_mem_singleton.2 hs)] at hvanish
        have hdrop : g.Derives ([s] ++ replacement rest) ([] ++ replacement rest) :=
          hvanish.append .refl
        exact hdrop.leads (ih hrest)
    · subst h
      exact ⟨[t] ++ replacement rest, .refl, rfl⟩

theorem firstBound_leads (g : Grammar) : FirstBound g fun s t => g.Leads [s] t := by
  intro rule p hp t ht
  exact (Grammar.derives_replacement hp).leads (leads_of_begins ht)

theorem firstInv_leads (g : Grammar) : FirstInv g (fun s t => g.Leads [s] t) (computeFirst g) :=
  computeFirst_inv (firstBound_leads g)

theorem leads_of_mem_firstOfSequence {u : List Symbol} {t : Symbol}
    (h : t ∈ firstOfSequence (computeFirst g) u) : g.Leads (replacement u) t :=
  leads_of_begins ((firstInv_leads g).begins h)

theorem get?_firstSeed (g : Grammar) (s : Symbol) : (firstSeed g).get? s =
    if g.isRule s then some ∅
    else if s = Symbol.epsilon ∨ s ∈ g.terminals then some (.singleton s)
    else none := by
  rw [firstSeed, get?_withRules, Dict.get?_insert, Dict.get?_foldl_insert SymbolSet.singleton]
  by_cases hs : Symbol.epsilon = s
  · simp [hs]
  · simp [hs, Ne.symm hs]

theorem extends_computeFirst (g : Grammar) : Extends g (firstSeed g) (computeFirst g) := by
  have hseed : FirstInv g (fun _ _ => True) (firstSeed g) := .seed g _
  exact extends_saturate (fun _ h => extends_firstPass h) _ hseed.rules

/-- The entries of symbols that are no rules stay as they are. -/
theorem get?_computeFirst {s : Symbol} (hs : g.isRule s = false) : (computeFirst g).get? s =
    if s = Symbol.epsilon ∨ s ∈ g.terminals then some (.singleton s) else none := by
  rw [(extends_computeFirst g).other s hs, get?_firstSeed, if_neg (by simp [hs])]

theorem leads_of_mem_computeFirst {s t : Symbol} (hs : g.isRule s = true)
    (h : t ∈ setOf (computeFirst g) s) : g.Leads [s] t := by
  rw [← firstOf_eq_setOf (firstInv_leads g).rules hs] at h
  exact (firstInv_leads g).within s hs t h

section Exact

variable (hε : g.isRule Symbol.epsilon = false)
include hε

theorem setOf_computeFirst {s : Symbol} (hs : g.isRule s = true) :
    setOf (computeFirst g) s = firstOfSequence (computeFirst g) [s] := by
  rw [firstOfSequence_singleton (Grammar.ne_epsilon_of_isRule hε hs),
    firstOf_eq_setOf (firstInv_leads g).rules hs]

theorem mem_computeFirst_iff {s t : Symbol} (hs : g.isRule s = true)
    (ht : g.isTerminal t = true) :
    t ∈ setOf (computeFirst g) s ↔ ∃ w, g.Derives [s] (t :: w) := by
  constructor
  · intro h
    exact (Grammar.leads_iff (Grammar.isTerminal_iff.1 ht).2).1 (leads_of_mem_computeFirst hs h)
  · rintro ⟨w, hw⟩
    rw [setOf_computeFirst hε hs]
    exact mem_firstOfSequence_of_derives hε hw (mem_firstOfSequence_cons_of_isTerminal ht w)

theorem epsilon_mem_computeFirst_iff {s : Symbol} (hs : g.isRule s = true) :
    Symbol.epsilon ∈ setOf (computeFirst g) s ↔ g.Derives [s] [] := by
  constructor
  · intro h
    have hne : ∀ x ∈ [s], x ≠ Symbol.epsilon :=
      List.forall_mem_singleton.2 (Grammar.ne_epsilon_of_isRule hε hs)
    exact (Grammar.leads_epsilon_iff hne).1 (leads_of_mem_computeFirst hs h)
  · intro h
    rw [setOf_computeFirst hε hs]
    exact mem_firstOfSequence_of_derives hε h (SymbolSet.mem_singleton.2 rfl)

end Exact

/-- The sets hold what derivations begin with, and there is one for each symbol. -/
structure FirstExact (g : Grammar) (first : Dict SymbolSet) : Prop where
  keys : ∀ s, s ∈ first.keys ↔ s ∈ g.terminals ∨ s = Symbol.epsilon ∨ g.isRule s = true
  terminal : ∀ t ∈ g.terminals, first.get? t = some (.singleton t)
  epsilon : first.get? Symbol.epsilon = some (.singleton Symbol.epsilon)
  rule : ∀ s, g.isRule s = true → ∃ set, first.get? s = some set ∧
    (∀ t ∈ set, t = Symbol.epsilon ∨ t ∈ g.terminals) ∧
    (∀ t, g.isTerminal t = true → (t ∈ set ↔ ∃ w, g.Derives [s] (t :: w))) ∧
    (Symbol.epsilon ∈ set ↔ g.Derives [s] [])

/-- The passes over the productions come to an end, with exact sets. -/
theorem computeFirst_exact (hε : g.isRule Symbol.epsilon = false) :
    Settles (firstPass g) (firstSeed g) (computeFirst g) ∧ FirstExact g (computeFirst g) := by
  have hinv := computeFirst_inv (firstBound_alphabet g)
  refine ⟨settles_saturate (firstPass_computeFirst g), ?_, ?_, ?_, ?_⟩
  · intro s
    rw [Dict.mem_keys]
    cases hs : g.isRule s with
    | true => simp [hinv.rules s hs]
    | false =>
      rw [get?_computeFirst hs]
      split <;> grind
  · intro t ht
    rw [get?_computeFirst (Grammar.isTerminal_iff.1 (mem_terminals.1 ht).1).1, if_pos (.inr ht)]
  · rw [get?_computeFirst hε, if_pos (.inl rfl)]
  · intro s hs
    refine ⟨setOf (computeFirst g) s, get?_eq_some_setOf hinv.rules hs, ?_, ?_, ?_⟩
    · intro t ht
      rw [← firstOf_eq_setOf hinv.rules hs] at ht
      exact List.mem_cons.1 (hinv.within s hs t ht)
    · exact fun t ht => mem_computeFirst_iff hε hs ht
    · exact epsilon_mem_computeFirst_iff hε hs

/-- `A` and `B` begin with each other and can both be empty, each in its own spelling. The rule `U`
never comes to an end. -/
def entangled : Grammar where
  rules := [⟨"S", [["A", "B", "c"]]⟩, ⟨"A", [["B", "a"], []]⟩,
    ⟨"B", [["A", "b"], [Symbol.epsilon]]⟩, ⟨"U", [["S", "U"]]⟩]
  nonempty := by decide
  nodup := by decide
  unmixed := by decide +kernel

theorem computeFirst_exact_entangled :
    entangled.isRule Symbol.epsilon = false ∧
      (∃ w, entangled.Derives ["U"] ("c" :: w)) ∧ ¬entangled.Derives ["U"] [] ∧
      (¬∃ w, entangled.Derives ["A"] ("c" :: w)) ∧ entangled.Derives ["A"] [] := by
  have hε : entangled.isRule Symbol.epsilon = false := by decide +kernel
  obtain ⟨-, hexact⟩ := computeFirst_exact hε
  obtain ⟨_, hU, -, hUmem, hUempty⟩ := hexact.rule "U" (by decide +kernel)
  obtain ⟨_, hA, -, hAmem, hAempty⟩ := hexact.rule "A" (by decide +kernel)
  have hU' : (computeFirst entangled).get? "U" = some (.ofList ["a", "b", "c"]) := by
    decide +kernel
  have hA' : (computeFirst entangled).get? "A" = some (.ofList ["a", "b", Symbol.epsilon]) := by
    decide +kernel
  obtain rfl := Option.some.inj (hU.symm.trans hU')
  obtain rfl := Option.some.inj (hA.symm.trans hA')
  refine ⟨hε, (hUmem "c" (by decide +kernel)).1 (by decide +kernel), ?_, ?_, ?_⟩
  · exact mt hUempty.2 (by decide +kernel)
  · exact mt (hAmem "c" (by decide +kernel)).2 (by decide +kernel)
  · exact hAempty.1 (by decide +kernel)

end FirstFollow

end Lookahead
