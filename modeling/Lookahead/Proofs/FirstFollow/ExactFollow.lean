import Lookahead.Proofs.FirstFollow.ExactFirst
import Lookahead.Proofs.FirstFollow.Follow

namespace Lookahead.FirstFollow

open Grammar (replacement)

variable {g : Grammar}

/-- Some rule derives a form in which `t` stands right behind `s`. -/
def Adjoins (g : Grammar) (s t : Symbol) : Prop :=
  ∃ rule before after, g.isRule rule = true ∧ g.Derives [rule] (before ++ s :: t :: after)

def Closes (g : Grammar) (s : Symbol) : Prop :=
  ∃ before, g.Derives [g.start] (before ++ [s])

def Follows (g : Grammar) (s t : Symbol) : Prop :=
  g.isTerminal t = true ∧ Adjoins g s t ∨ t = Symbol.eof ∧ Closes g s

/-- Where a rule stands in a form, a symbol of its production may stand, with what the rest of the
production derives behind it. -/
theorem derives_use {u before rest left right w : List Symbol} {rule s : Symbol}
    (hp : before ++ s :: rest ∈ g.productions rule) (hs : s ≠ Symbol.epsilon)
    (hu : g.Derives u (left ++ rule :: right)) (hrest : g.Derives (replacement rest) w) :
    g.Derives u ((left ++ replacement before) ++ s :: (w ++ right)) := by
  have hrow : g.Derives [rule] (replacement before ++ ([s] ++ w)) :=
    (Grammar.derives_of_row hp hs .refl .refl).trans
      (Grammar.Derives.append .refl (Grammar.Derives.append .refl hrest))
  have hstep := hrow.context left right
  simp only [List.append_assoc, List.cons_append] at hstep ⊢
  exact hu.trans hstep

theorem followBound_follows (hε : g.isRule Symbol.epsilon = false) :
    FollowBound g (computeFirst g) (Follows g) where
  start := .inr ⟨rfl, [], .refl⟩
  next rule before s rest hp hs t ht hne := by
    have hterminal : t ∈ g.terminals :=
      mem_terminals_of_mem_firstOfSequence (before ++ [s]) (by simpa using hp) ht hne
    obtain ⟨w, hw⟩ := (Grammar.leads_iff hne).1 (leads_of_mem_firstOfSequence ht)
    have huse : g.Derives [rule] (([] ++ replacement before) ++ s :: (t :: w ++ [])) :=
      derives_use hp (Grammar.ne_epsilon_of_isRule hε hs) .refl hw
    rw [List.append_nil] at huse
    have hrule := Grammar.isRule_of_mem_productions hp
    exact .inl ⟨(mem_terminals.1 hterminal).1, rule, _, w, hrule, huse⟩
  inherit rule before s rest hp hs hrest t ht := by
    have hne := Grammar.ne_epsilon_of_isRule hε hs
    have hvanish : g.Derives (replacement rest) [] :=
      (Grammar.leads_epsilon_iff fun x hx => of_decide_eq_true (List.mem_filter.1 hx).2).1
        (leads_of_mem_firstOfSequence hrest)
    rcases ht with ⟨hterminal, root, left, right, hroot, hd⟩ | ⟨rfl, left, hd⟩
    · exact .inl ⟨hterminal, root, _, right, hroot, derives_use hp hne hd hvanish⟩
    · exact .inr ⟨rfl, _, derives_use hp hne hd hvanish⟩

theorem eq_append_of_cons_mid {α : Type} {before after l r : List α} {s : α}
    (h : before ++ s :: after = l ++ r) :
    (∃ mid, l = before ++ s :: mid ∧ after = mid ++ r) ∨
      ∃ mid, before = l ++ mid ∧ r = mid ++ s :: after := by
  rcases List.append_eq_append_iff.1 h with ⟨mid, hl, hr⟩ | ⟨mid, hb, hr⟩
  · cases mid with
    | nil => exact .inr ⟨[], by simpa using hl.symm, by simpa using hr.symm⟩
    | cons a mid =>
      obtain ⟨rfl, rfl⟩ := List.cons.inj hr
      exact .inl ⟨mid, hl, rfl⟩
  · exact .inr ⟨mid, hb, hr⟩

/-- FOLLOW of the rules in a form that `root` derives: it holds what comes behind them, and all that
may follow the root if nothing does. -/
def Followed (g : Grammar) (root : Symbol) (u : List Symbol) : Prop :=
  ∀ before s after, u = before ++ s :: after → g.isRule s = true →
    (∀ t ∈ firstOfSequence (compute g).first after, t ≠ Symbol.epsilon →
      t ∈ (compute g).followOf s) ∧
    (Symbol.epsilon ∈ firstOfSequence (compute g).first after →
      ∀ t ∈ (compute g).followOf root, t ∈ (compute g).followOf s)

theorem followed_root (g : Grammar) (root : Symbol) : Followed g root [root] := by
  intro before s after heq hs
  obtain ⟨rfl, hcons⟩ := List.append_eq_singleton_iff.1 heq.symm |>.resolve_right (by simp)
  obtain ⟨rfl, rfl⟩ := List.cons.inj hcons
  exact ⟨fun t ht hne => absurd (SymbolSet.mem_singleton.1 ht) hne, fun _ t ht => ht⟩

/-- A production that puts something in the place of its rule puts itself there. -/
theorem replacement_eq_self {rule : Symbol} {p : Production} (hp : p ∈ g.productions rule)
    (h : replacement p ≠ []) : replacement p = p := by
  apply List.filter_eq_self.2
  intro s hs
  apply decide_eq_true
  rintro rfl
  rw [Grammar.eq_epsilon_of_mem hp hs] at h
  exact h (by simp [replacement])

theorem Followed.rewrites (hε : g.isRule Symbol.epsilon = false) {root : Symbol}
    {u v : List Symbol} (h : Followed g root u) (hr : g.Rewrites u v) : Followed g root v := by
  obtain ⟨left, right, hp⟩ := hr
  rename_i rule p
  have hrule := Grammar.isRule_of_mem_productions hp
  intro before s after heq hs
  rcases eq_append_of_cons_mid heq.symm with ⟨mid, hmid, rfl⟩ | ⟨mid, rfl, rfl⟩
  · rcases eq_append_of_cons_mid hmid.symm with ⟨inner, rfl, rfl⟩ | ⟨inner, rfl, hinner⟩
    · -- The symbol stands before the place: what is behind it begins with less than it did.
      obtain ⟨hnext, hend⟩ := h before s (inner ++ rule :: right) (by simp) hs
      have hback := Grammar.Rewrites.replace (g := g) inner right hp
      refine ⟨fun t ht => hnext t ?_, fun ht => hend ?_⟩
      · exact mem_firstOfSequence_of_rewrites hε hback ht
      · exact mem_firstOfSequence_of_rewrites hε hback ht
    · -- It is a symbol of the production.
      obtain ⟨hnext, hend⟩ := h left rule right rfl hrule
      have hself : inner ++ s :: mid = p :=
        hinner.symm.trans (replacement_eq_self hp (by simp [hinner]))
      subst hself
      have hclosed := closed_compute g
      refine ⟨fun t ht hne => ?_, fun ht t hroot => ?_⟩
      · rcases (mem_firstOfSequence_append_iff hne).1 ht with ht | ⟨hvanish, ht⟩
        · exact hclosed.next rule inner s mid hp hs t ht hne
        · exact hclosed.inherit rule inner s mid hp hs hvanish t (hnext t ht hne)
      · obtain ⟨hvanish, hright⟩ := epsilon_mem_firstOfSequence_append.1 ht
        exact hclosed.inherit rule inner s mid hp hs hvanish t (hend hright t hroot)
  · -- It stands behind the place, and so does all that follows it.
    exact h (left ++ rule :: mid) s after (by simp) hs

theorem followed_of_derives (hε : g.isRule Symbol.epsilon = false) {root : Symbol}
    {u : List Symbol} (h : g.Derives [root] u) : Followed g root u := by
  induction h with
  | refl => exact followed_root g root
  | tail _ hstep ih => exact ih.rewrites hε hstep

theorem mem_followOf_iff (hε : g.isRule Symbol.epsilon = false) {s t : Symbol}
    (hs : g.isRule s = true) : t ∈ (compute g).followOf s ↔ Follows g s t := by
  constructor
  · exact (computeFollow_inv (followBound_follows hε)).within s hs t
  · rintro (⟨ht, root, before, after, -, hd⟩ | ⟨rfl, before, hd⟩)
    · exact (followed_of_derives hε hd before s (t :: after) rfl hs).1 t
        (mem_firstOfSequence_cons_of_isTerminal ht after) (Grammar.isTerminal_iff.1 ht).2
    · exact (followed_of_derives hε hd before s [] rfl hs).2 (SymbolSet.mem_singleton.2 rfl) _
        (closed_compute g).start

theorem get?_computeFollow {first : Dict SymbolSet} {s : Symbol} (hs : g.isRule s = false) :
    (computeFollow g first).get? s = none := by
  have hstart : g.start ≠ s := by
    rintro rfl
    rw [Grammar.isRule_start] at hs
    contradiction
  rw [(extends_computeFollow g first).other s hs, followSeed, Dict.get?_insert, if_neg hstart,
    get?_withRules, if_neg (by simp [hs])]
  rfl

/-- The sets hold what stands right behind a rule in derivations, and there is one for each rule. -/
structure FollowExact (g : Grammar) (follow : Dict SymbolSet) : Prop where
  keys : ∀ s, s ∈ follow.keys ↔ g.isRule s = true
  epsilon : ∀ s set, follow.get? s = some set → Symbol.epsilon ∉ set
  rule : ∀ s, g.isRule s = true → ∃ set, follow.get? s = some set ∧
    (∀ t ∈ set, t = Symbol.eof ∨ t ∈ g.terminals) ∧
    ∀ t, t ∈ set ↔ g.isTerminal t = true ∧ Adjoins g s t ∨ t = Symbol.eof ∧ Closes g s

theorem ne_epsilon_of_mem_followers {t : Symbol} (h : t ∈ followers g) : t ≠ Symbol.epsilon := by
  rcases List.mem_cons.1 h with rfl | h
  · decide
  · exact (Grammar.isTerminal_iff.1 (mem_terminals.1 h).1).2

/-- The passes over the uses of rules come to an end, with exact sets. -/
theorem computeFollow_exact (hε : g.isRule Symbol.epsilon = false) :
    Settles (followPass g (computeFirst g)) (followSeed g) (computeFollow g (computeFirst g)) ∧
      FollowExact g (computeFollow g (computeFirst g)) := by
  have hinv := computeFollow_inv (followBound_followers g)
  refine ⟨settles_saturate (followPass_computeFollow g), ?_, ?_, ?_⟩
  · intro s
    rw [Dict.mem_keys]
    cases hs : g.isRule s with
    | true => simp [hinv.rules s hs]
    | false => simp [get?_computeFollow hs]
  · intro s set hset
    cases hs : g.isRule s with
    | true =>
      rw [get?_eq_some_setOf hinv.rules hs] at hset
      obtain rfl := Option.some.inj hset
      exact fun hmem => ne_epsilon_of_mem_followers (hinv.within s hs _ hmem) rfl
    | false =>
      rw [get?_computeFollow hs] at hset
      contradiction
  · intro s hs
    refine ⟨setOf (computeFollow g (computeFirst g)) s, get?_eq_some_setOf hinv.rules hs, ?_, ?_⟩
    · exact fun t ht => List.mem_cons.1 (hinv.within s hs t ht)
    · exact fun t => mem_followOf_iff hε hs

theorem computeFollow_exact_entangled :
    entangled.isRule Symbol.epsilon = false ∧ Adjoins entangled "S" "b" ∧
      ¬Adjoins entangled "B" "b" ∧ ¬Closes entangled "B" := by
  have hε : entangled.isRule Symbol.epsilon = false := by decide +kernel
  obtain ⟨-, hexact⟩ := computeFollow_exact hε
  obtain ⟨_, hS, -, hSmem⟩ := hexact.rule "S" (by decide +kernel)
  obtain ⟨_, hB, -, hBmem⟩ := hexact.rule "B" (by decide +kernel)
  have hS' : (computeFollow entangled (computeFirst entangled)).get? "S" =
      some (.ofList [Symbol.eof, "a", "b", "c"]) := by decide +kernel
  have hB' : (computeFollow entangled (computeFirst entangled)).get? "B" =
      some (.ofList ["a", "c"]) := by decide +kernel
  obtain rfl := Option.some.inj (hS.symm.trans hS')
  obtain rfl := Option.some.inj (hB.symm.trans hB')
  refine ⟨hε, ?_, fun h => ?_, fun h => ?_⟩
  · have hb := ((hSmem "b").1 (by decide +kernel)).resolve_right fun h => by simp [Symbol.eof] at h
    exact hb.2
  · exact absurd ((hBmem "b").2 (.inl ⟨by decide +kernel, h⟩)) (by decide +kernel)
  · exact absurd ((hBmem Symbol.eof).2 (.inr ⟨rfl, h⟩)) (by decide +kernel)

end Lookahead.FirstFollow
