import Lookahead.Proofs.FirstFollow.Follow

namespace Lookahead.FirstFollow

variable {g : Grammar}

/-- What a sequence begins with by the lists, and `EPSILON` if it can be empty. -/
def beginnings (g : Grammar) (first : Symbol → List Symbol) : List Symbol → List Symbol
  | [] => [Symbol.epsilon]
  | s :: rest =>
    if s = Symbol.epsilon then beginnings g first rest
    else if g.isRule s then
      (first s).filter (· ≠ Symbol.epsilon) ++
        if Symbol.epsilon ∈ first s then beginnings g first rest else []
    else [s]

theorem mem_beginnings {first : Symbol → List Symbol} {p : List Symbol} {t : Symbol}
    (h : Begins g (fun s t => t ∈ first s) p t) : t ∈ beginnings g first p := by
  induction p with
  | nil => exact List.mem_singleton.2 h
  | cons s rest ih =>
    rw [Begins] at h
    rw [beginnings]
    split at h
    · next hs =>
      rw [if_pos hs]
      exact ih h
    · next hs =>
      rw [if_neg hs]
      split at h
      · next hr =>
        rw [if_pos hr, List.mem_append]
        rcases h with ⟨hne, ht⟩ | ⟨hε, ht⟩
        · left
          rw [List.mem_filter]
          exact ⟨ht, decide_eq_true hne⟩
        · right
          rw [if_pos hε]
          exact ih ht
      · next hr =>
        rw [if_neg hr]
        exact List.mem_singleton.2 h

/-- Lists for the rules of a grammar that hold all that its productions ask for. -/
structure Certificate (g : Grammar) where
  first : Symbol → List Symbol
  follow : Symbol → List Symbol
  production : ∀ e ∈ Table.ruleProductions g, ∀ t ∈ beginnings g first e.2, t ∈ first e.1
  start : Symbol.eof ∈ follow g.start
  next : ∀ u ∈ uses g, g.isRule u.2.1 = true →
    ∀ t ∈ beginnings g first u.2.2, t ≠ Symbol.epsilon → t ∈ follow u.2.1
  inherit : ∀ u ∈ uses g, g.isRule u.2.1 = true → Symbol.epsilon ∈ beginnings g first u.2.2 →
    ∀ t ∈ follow u.1, t ∈ follow u.2.1

namespace Certificate

variable (cert : Certificate g)

theorem firstInv : FirstInv g (fun s t => t ∈ cert.first s) (compute g).first := by
  apply computeFirst_inv
  intro rule p hp t ht
  exact cert.production (rule, p) (Table.mem_ruleProductions.2 hp) t (mem_beginnings ht)

theorem mem_beginnings_of_mem {p : List Symbol} {t : Symbol}
    (h : t ∈ firstOfSequence (compute g).first p) : t ∈ beginnings g cert.first p :=
  mem_beginnings (cert.firstInv.begins h)

theorem followInv : FollowInv g (fun s t => t ∈ cert.follow s) (compute g).follow := by
  apply computeFollow_inv
  constructor
  · exact cert.start
  · intro rule before s rest hp hs t ht hne
    exact cert.next (rule, s, rest) (mem_uses.2 ⟨before, hp⟩) hs t (cert.mem_beginnings_of_mem ht)
      hne
  · intro rule before s rest hp hs hε t ht
    exact cert.inherit (rule, s, rest) (mem_uses.2 ⟨before, hp⟩) hs
      (cert.mem_beginnings_of_mem hε) t ht

def claimed (e : Symbol × Production) : List Symbol :=
  (beginnings g cert.first e.2).filter (· ≠ Symbol.epsilon) ++
    if Symbol.epsilon ∈ beginnings g cert.first e.2 then cert.follow e.1 else []

theorem mem_claimed {rule : Symbol} {p : Production} {t : Symbol} (hp : p ∈ g.productions rule)
    (h : (compute g).Claims rule p t) : t ∈ cert.claimed (rule, p) := by
  obtain ⟨hne, h⟩ := h
  rw [claimed, List.mem_append]
  rcases h with ht | ⟨hε, ht⟩
  · left
    rw [List.mem_filter]
    exact ⟨cert.mem_beginnings_of_mem ht, decide_eq_true hne⟩
  · right
    rw [if_pos (cert.mem_beginnings_of_mem hε)]
    exact cert.followInv.within rule (Grammar.isRule_of_mem_productions hp) t ht

def Separates : Prop :=
  ∀ rule ∈ g.rules, ∀ p ∈ rule.productions, ∀ q ∈ rule.productions,
    p = q ∨ ∀ t ∈ cert.claimed (rule.name, p), t ∉ cert.claimed (rule.name, q)

instance : Decidable cert.Separates :=
  inferInstanceAs (Decidable (∀ rule ∈ g.rules, _))

theorem conflicts_eq_nil {table : Table} (hbuild : Table.build g (compute g) = .ok table)
    (h : cert.Separates) : table.conflicts = [] := by
  apply Table.conflicts_eq_nil hbuild
  intro rule p hp q hq t hpt hqt
  obtain ⟨r, hr, rfl, hp'⟩ := Grammar.mem_productions.1 hp
  have hq' : q ∈ r.productions := Grammar.productions_of_mem hr ▸ hq
  rcases h r hr p hp' q hq' with heq | hdisjoint
  · exact heq
  · exact absurd (cert.mem_claimed hq hqt) (hdisjoint t (cert.mem_claimed hp hpt))

end Certificate

end Lookahead.FirstFollow
