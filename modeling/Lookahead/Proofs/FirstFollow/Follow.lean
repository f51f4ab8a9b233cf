import Lookahead.Proofs.FirstFollow.First

namespace Lookahead.FirstFollow

variable {g : Grammar} {first follow : Dict SymbolSet} {bound : Symbol → Symbol → Prop}

def occurrences : List Symbol → List (Symbol × List Symbol)
  | [] => []
  | s :: rest => (s, rest) :: occurrences rest

theorem mem_occurrences {p rest : List Symbol} {s : Symbol} :
    (s, rest) ∈ occurrences p ↔ ∃ before, p = before ++ s :: rest := by
  induction p with
  | nil => simp [occurrences]
  | cons x p ih =>
    rw [occurrences, List.mem_cons, ih, Prod.mk.injEq]
    constructor
    · rintro (⟨rfl, rfl⟩ | ⟨before, rfl⟩)
      · exact ⟨[], rfl⟩
      · exact ⟨x :: before, rfl⟩
    · rintro ⟨before, h⟩
      cases before with
      | nil => exact .inl (by simpa [eq_comm] using h)
      | cons y before => exact .inr ⟨before, (List.cons.inj h).2⟩

def followStep (g : Grammar) (first follow : Dict SymbolSet) (e : Symbol × Symbol × List Symbol) :
    Dict SymbolSet :=
  if g.isRule e.2.1 then
    let after := firstOfSequence first e.2.2
    grow follow e.2.1 (after.withoutEpsilon ∪
      if Symbol.epsilon ∈ after then setOf follow e.1 else ∅)
  else follow

theorem followProduction_eq (g : Grammar) (first : Dict SymbolSet) (rule : Symbol)
    (p : List Symbol) (follow : Dict SymbolSet) :
    followProduction g first rule p follow =
      (occurrences p).foldl (fun follow e => followStep g first follow (rule, e)) follow := by
  induction p generalizing follow with
  | nil => rfl
  | cons s rest ih =>
    rw [followProduction, occurrences, List.foldl_cons, followStep]
    split
    · exact ih _
    · exact ih follow

def uses (g : Grammar) : List (Symbol × Symbol × List Symbol) :=
  (Table.ruleProductions g).flatMap fun e => (occurrences e.2).map fun o => (e.1, o)

theorem mem_uses {rule s : Symbol} {rest : List Symbol} : (rule, s, rest) ∈ uses g ↔
    ∃ before, before ++ s :: rest ∈ g.productions rule := by
  simp only [uses, List.mem_flatMap, List.mem_map, Prod.mk.injEq]
  constructor
  · rintro ⟨⟨r, p⟩, he, o, ho, rfl, rfl⟩
    obtain ⟨before, rfl⟩ := mem_occurrences.1 ho
    exact ⟨before, Table.mem_ruleProductions.1 he⟩
  · rintro ⟨before, hp⟩
    exact ⟨(rule, _), Table.mem_ruleProductions.2 hp, (s, rest), mem_occurrences.2 ⟨before, rfl⟩,
      rfl, rfl⟩

theorem followPass_eq (g : Grammar) (first follow : Dict SymbolSet) :
    followPass g first follow = (uses g).foldl (followStep g first) follow := by
  simp only [followPass, uses, Table.ruleProductions, List.foldl_flatMap, List.foldl_map,
    followProduction_eq]

structure FollowBound (g : Grammar) (first : Dict SymbolSet) (bound : Symbol → Symbol → Prop) :
    Prop where
  start : bound g.start Symbol.eof
  next : ∀ rule before s rest, before ++ s :: rest ∈ g.productions rule → g.isRule s = true →
    ∀ t ∈ firstOfSequence first rest, t ≠ Symbol.epsilon → bound s t
  inherit : ∀ rule before s rest, before ++ s :: rest ∈ g.productions rule → g.isRule s = true →
    Symbol.epsilon ∈ firstOfSequence first rest → ∀ t, bound rule t → bound s t

structure FollowInv (g : Grammar) (bound : Symbol → Symbol → Prop) (follow : Dict SymbolSet) :
    Prop where
  rules : HasRules g follow
  within : ∀ s, g.isRule s = true → ∀ t ∈ setOf follow s, bound s t

theorem extends_followStep (h : HasRules g follow) (e : Symbol × Symbol × List Symbol) :
    Extends g follow (followStep g first follow e) := by
  rw [followStep]
  split
  · next hs => exact extends_grow h hs _
  · exact .refl h

theorem extends_followPass (h : HasRules g follow) :
    Extends g follow (followPass g first follow) := by
  rw [followPass_eq]
  exact extends_foldl (fun e _ d hd => extends_followStep hd e) h

theorem FollowInv.step (hb : FollowBound g first bound) (h : FollowInv g bound follow)
    {e : Symbol × Symbol × List Symbol} (he : e ∈ uses g) :
    FollowInv g bound (followStep g first follow e) := by
  obtain ⟨rule, s, rest⟩ := e
  obtain ⟨before, hp⟩ := mem_uses.1 he
  refine ⟨(extends_followStep h.rules _).rule, fun x hx t ht => ?_⟩
  rw [followStep] at ht
  split at ht
  · next hs =>
    rw [setOf_grow] at ht
    split at ht
    · next heq =>
      obtain rfl : s = x := heq
      rcases SymbolSet.mem_union.1 ht with ht | ht
      · exact h.within s hs t ht
      rcases SymbolSet.mem_union.1 ht with ht | ht
      · obtain ⟨ht, hne⟩ := SymbolSet.mem_withoutEpsilon.1 ht
        exact hb.next rule before s rest hp hs t ht hne
      · split at ht
        · next hn =>
          have hr := Grammar.isRule_of_mem_productions hp
          exact hb.inherit rule before s rest hp hs hn t (h.within rule hr t ht)
        · exact absurd ht (SymbolSet.not_mem_empty t)
    · exact h.within x hx t ht
  · exact h.within x hx t ht

theorem FollowInv.pass (hb : FollowBound g first bound) (h : FollowInv g bound follow) :
    FollowInv g bound (followPass g first follow) := by
  rw [followPass_eq]
  exact List.foldlRecOn (uses g) _ h fun _ hd _ he => hd.step hb he

theorem FollowInv.seed (hb : bound g.start Symbol.eof) : FollowInv g bound (followSeed g) := by
  refine ⟨fun s hs => ?_, fun s hs t ht => ?_⟩
  · rw [followSeed, Dict.get?_insert, get?_withRules, if_pos hs]
    split <;> rfl
  · rw [setOf, followSeed, Dict.get?_insert, get?_withRules, if_pos hs] at ht
    split at ht
    · next heq =>
      rw [← heq, SymbolSet.mem_singleton.1 ht]
      exact hb
    · exact absurd ht (SymbolSet.not_mem_empty t)

theorem computeFollow_inv (hb : FollowBound g first bound) :
    FollowInv g bound (computeFollow g first) :=
  saturate_inv (fun _ h => h.pass hb) _ (.seed hb.start)

def followers (g : Grammar) : List Symbol := Symbol.eof :: g.terminals.toList

theorem followBound_followers (g : Grammar) :
    FollowBound g (computeFirst g) fun _ t => t ∈ followers g where
  start := List.mem_cons_self
  next rule before s rest hp _ t ht hne := by
    apply List.mem_cons_of_mem
    exact mem_terminals_of_mem_firstOfSequence (before ++ [s]) (by simpa using hp) ht hne
  inherit _ _ _ _ _ _ _ _ h := h

theorem followPass_computeFollow (g : Grammar) :
    followPass g (computeFirst g) (computeFollow g (computeFirst g)) =
      computeFollow g (computeFirst g) := by
  refine saturate_fixed (FollowInv g fun _ t => t ∈ followers g) (weight g)
    (g.rules.length * (followers g).length) ?_ ?_ ?_ (.seed (followBound_followers g).start) ?_
  · exact fun _ h => h.pass (followBound_followers g)
  · exact fun follow h hne => weight_lt h.rules (extends_followPass h.rules) hne
  · exact fun follow h => weight_le h.within
  · rw [followers, List.length_cons]
    omega

theorem eof_mem_followSeed (g : Grammar) : Symbol.eof ∈ setOf (followSeed g) g.start := by
  rw [setOf, followSeed, Dict.get?_insert, if_pos rfl]
  exact SymbolSet.mem_singleton.2 rfl

theorem extends_computeFollow (g : Grammar) (first : Dict SymbolSet) :
    Extends g (followSeed g) (computeFollow g first) := by
  have hseed : FollowInv g (fun _ _ => True) (followSeed g) := .seed trivial
  exact extends_saturate (fun _ h => extends_followPass h) _ hseed.rules

theorem eof_mem_computeFollow (g : Grammar) :
    Symbol.eof ∈ setOf (computeFollow g first) g.start :=
  (extends_computeFollow g first).subset _ _ (eof_mem_followSeed g)

theorem closed_compute (g : Grammar) : Closed g (compute g) := by
  have hrules := (computeFollow_inv (followBound_followers g)).rules
  have hfix := followPass_computeFollow g
  rw [followPass_eq] at hfix
  have hstep := step_eq_self (fun e _ d hd => extends_followStep hd e) hrules hfix
  -- each use of a rule `s` leaves the set of `s` as it is
  have huse (rule : Symbol) (before : List Symbol) (s : Symbol) (rest : List Symbol)
      (hp : before ++ s :: rest ∈ g.productions rule) (hs : g.isRule s = true) (t : Symbol)
      (ht : t ∈ (firstOfSequence (computeFirst g) rest).withoutEpsilon ∪
        if Symbol.epsilon ∈ firstOfSequence (computeFirst g) rest then
          setOf (computeFollow g (computeFirst g)) rule else ∅) :
      t ∈ setOf (computeFollow g (computeFirst g)) s := by
    have h := hstep (rule, s, rest) (mem_uses.2 ⟨before, hp⟩)
    rw [followStep, if_pos hs] at h
    rw [← h, setOf_grow, if_pos rfl]
    exact SymbolSet.mem_union.2 (.inr ht)
  refine ⟨?_, ?_, eof_mem_computeFollow g, ?_, ?_⟩
  · exact fun s hs => mem_firstOf_of_isTerminal hs
  · exact fun rule p hp t ht => mem_firstOf_of_production hp ht
  · intro rule before s rest hp hs t ht hne
    refine huse rule before s rest hp hs t (SymbolSet.mem_union.2 (.inl ?_))
    exact SymbolSet.mem_withoutEpsilon.2 ⟨ht, hne⟩
  · intro rule before s rest hp hs hn t ht
    refine huse rule before s rest hp hs t (SymbolSet.mem_union.2 (.inr ?_))
    rw [if_pos (by exact hn)]
    exact ht

theorem exists_build_compute (g : Grammar) : ∃ t, Table.build g (compute g) = .ok t :=
  Table.exists_build (computeFirst_inv (firstBound_alphabet g)).rules
    (computeFollow_inv (followBound_followers g)).rules

end Lookahead.FirstFollow
