import Mathlib.Data.List.Find
import Lookahead.Proofs.FirstFollow.Follow

namespace Lookahead

/-- The first rule in declaration order with the property. -/
def Grammar.IsFirst (g : Grammar) (P : Symbol → Prop) (rule : Symbol) : Prop :=
  ∃ before after, g.names = before ++ rule :: after ∧ P rule ∧ ∀ s ∈ before, ¬P s

theorem Grammar.isFirst_iff {g : Grammar} {P : Symbol → Prop} [DecidablePred P] {rule : Symbol} :
    g.IsFirst P rule ↔ g.names.find? (fun s => P s) = some rule := by
  simp only [List.find?_eq_some_iff_append, Grammar.IsFirst, decide_eq_true_eq,
    Bool.not_eq_true', decide_eq_false_iff_not]
  constructor
  · rintro ⟨before, after, hnames, hP, hbefore⟩
    exact ⟨hP, before, after, hnames, hbefore⟩
  · rintro ⟨hP, before, after, hnames, hbefore⟩
    exact ⟨before, after, hnames, hP, hbefore⟩

namespace FirstFollow

variable {g : Grammar} {sets : FirstFollow}

/-- By the sets the rule can be empty, and nothing is known of what follows it. -/
def Stuck (g : Grammar) (sets : FirstFollow) (rule : Symbol) : Prop :=
  sets.follow.get? rule = none ∧
    ∃ p ∈ g.productions rule, Symbol.epsilon ∈ firstOfSequence sets.first p

instance : DecidablePred (Stuck g sets) := fun _ => inferInstanceAs (Decidable (_ ∧ _))

/-- An entry that says of a terminal what holds without one changes nothing. -/
theorem lookup_insert_singleton {t : Symbol} (ht : g.isRule t = false)
    (h : sets.first.get? t = none) :
    lookup { sets with first := sets.first.insert t (.singleton t) } g = sets.lookup g := by
  funext s
  unfold lookup
  rw [Dict.get?_insert]
  by_cases hs : t = s
  · subst hs
    simp [h, ht]
  · rw [if_neg hs]

end FirstFollow

namespace Table

open FirstFollow (HasFirsts Stuck firstOfSequence)

variable {g : Grammar} {sets : FirstFollow}

/-- The claims end at the first production that can be empty and whose rule has no FOLLOW set. -/
theorem claims_snd (h : HasFirsts g sets) (l : List (Symbol × Production)) :
    (claims g sets l).2 =
      (l.find? fun e => (sets.follow.get? e.1).isNone &&
        Symbol.epsilon ∈ firstOfSequence sets.first e.2).map fun e => .missingFollow e.1 := by
  induction l with
  | nil => rfl
  | cons e rest ih =>
    by_cases he : Symbol.epsilon ∈ firstOfSequence sets.first e.2
    · cases hf : sets.follow.get? e.1 <;> simp [claims_cons h, he, hf, ih]
    · simp [claims_cons h, he, ih]

theorem decide_stuck (sets : FirstFollow) {rule : Rule} (h : rule ∈ g.rules) :
    decide (Stuck g sets rule.name) = rule.productions.any fun p =>
      (sets.follow.get? rule.name).isNone && Symbol.epsilon ∈ firstOfSequence sets.first p := by
  have hmem (p : Production) : p ∈ g.productions rule.name ↔ p ∈ rule.productions := by
    rw [Grammar.mem_productions]
    constructor
    · rintro ⟨r, hr, hname, hp⟩
      rwa [← List.inj_on_of_nodup_map g.nodup hr h hname]
    · exact fun hp => ⟨rule, h, rfl, hp⟩
  rw [Bool.eq_iff_iff, decide_eq_true_iff, List.any_eq_true]
  simp only [Stuck, hmem, Bool.and_eq_true, Option.isNone_iff_eq_none, decide_eq_true_iff]
  exact ⟨fun ⟨hf, p, hp, he⟩ => ⟨p, hp, hf, he⟩, fun ⟨p, hp, hf, he⟩ => ⟨hf, p, hp, he⟩⟩

/-- The first production that stops the claims belongs to the first stuck rule. -/
theorem find?_ruleProductions (g : Grammar) (sets : FirstFollow) :
    ((ruleProductions g).find? fun e => (sets.follow.get? e.1).isNone &&
        Symbol.epsilon ∈ firstOfSequence sets.first e.2).map (·.1) =
      g.names.find? (fun s => Stuck g sets s) := by
  have hstuck := fun rule (h : rule ∈ g.rules) => decide_stuck sets h
  unfold ruleProductions Grammar.names
  generalize g.rules = rules at hstuck
  induction rules with
  | nil => rfl
  | cons rule rest ih =>
    obtain ⟨hrule, hrest⟩ := List.forall_mem_cons.1 hstuck
    rw [List.flatMap_cons, List.find?_append, List.map_cons, List.find?_cons, hrule,
      ← ih hrest, List.find?_map]
    cases hany : rule.productions.any fun p => (sets.follow.get? rule.name).isNone &&
        Symbol.epsilon ∈ firstOfSequence sets.first p with
    | true =>
      obtain ⟨p, hp⟩ := Option.isSome_iff_exists.1 (List.find?_isSome.2 (List.any_eq_true.1 hany))
      simp [hp]
    | false =>
      have hnone := List.find?_eq_none.2 fun p hp => List.any_eq_false.1 hany p hp
      simp [Function.comp_def, hnone]

theorem find?_lacks_eq_none :
    g.names.find? (fun s => sets.first.get? s = none) = none ↔ HasFirsts g sets := by
  simp [List.find?_eq_none, HasFirsts, Option.isSome_iff_ne_none]

/-- FIRST sets are asked for before anything is claimed, FOLLOW sets while claims are made. -/
theorem build_eq (g : Grammar) (sets : FirstFollow) :
    build g sets = match g.names.find? (fun s => sets.first.get? s = none) with
      | some s => .error (.missingFirst s)
      | none => match g.names.find? (fun s => Stuck g sets s) with
        | some s => .error (.missingFollow s)
        | none => .ok ((claims g sets (ruleProductions g)).1.foldl claim ⟨g.names, ∅, []⟩) := by
  have hlacks : (fun s => (sets.first.get? s).isNone) =
      fun s => decide (sets.first.get? s = none) := by
    funext s
    rw [Bool.eq_iff_iff, Option.isNone_iff_eq_none, decide_eq_true_iff]
  unfold build fill
  rw [hlacks]
  cases hfirst : g.names.find? (fun s => sets.first.get? s = none) with
  | some s => rfl
  | none =>
    have hclaims : (claims g sets (ruleProductions g)).2 =
        (g.names.find? (fun s => Stuck g sets s)).map .missingFollow := by
      rw [claims_snd (find?_lacks_eq_none.1 hfirst), ← find?_ruleProductions, Option.map_map]
      rfl
    simp only [hclaims]
    cases g.names.find? (fun s => Stuck g sets s) <;> rfl

theorem find?_stuck_eq_none :
    g.names.find? (fun s => Stuck g sets s) = none ↔ ∀ s ∈ g.names, ¬Stuck g sets s := by
  simp [List.find?_eq_none]

theorem build_eq_missingFirst_iff {rule : Symbol} :
    build g sets = .error (.missingFirst rule) ↔
      g.IsFirst (fun s => sets.first.get? s = none) rule := by
  rw [build_eq, Grammar.isFirst_iff]
  cases g.names.find? (fun s => sets.first.get? s = none) with
  | some s => simp
  | none => cases g.names.find? (fun s => Stuck g sets s) <;> simp

theorem build_eq_missingFollow_iff {rule : Symbol} :
    build g sets = .error (.missingFollow rule) ↔
      HasFirsts g sets ∧ g.IsFirst (Stuck g sets) rule := by
  rw [build_eq, Grammar.isFirst_iff, ← find?_lacks_eq_none]
  cases g.names.find? (fun s => sets.first.get? s = none) with
  | some s => simp
  | none => cases g.names.find? (fun s => Stuck g sets s) <;> simp

theorem exists_build_eq_ok_iff :
    (∃ table, build g sets = .ok table) ↔
      HasFirsts g sets ∧ ∀ s ∈ g.names, ¬Stuck g sets s := by
  rw [build_eq, ← find?_lacks_eq_none, ← find?_stuck_eq_none]
  cases g.names.find? (fun s => sets.first.get? s = none) with
  | some s => simp
  | none => cases g.names.find? (fun s => Stuck g sets s) <;> simp

theorem claims_congr {sets' : FirstFollow} (h : sets'.lookup g = sets.lookup g)
    (hfollow : sets'.follow = sets.follow) (l : List (Symbol × Production)) :
    claims g sets' l = claims g sets l := by
  induction l with
  | nil => rfl
  | cons e rest ih => simp only [claims, h, hfollow, ih]

/-- The entry of a terminal says no more than what holds without it. -/
theorem build_insert_terminal {t : Symbol} (ht : g.isRule t = false)
    (hfirst : sets.first.get? t = none) :
    build g { sets with first := sets.first.insert t (.singleton t) } = build g sets := by
  have hnames : g.names.find? (fun s => ((sets.first.insert t (.singleton t)).get? s).isNone) =
      g.names.find? fun s => (sets.first.get? s).isNone := by
    refine List.find?_congr fun s hs => ?_
    have hne : t ≠ s := by
      rintro rfl
      rw [Grammar.isRule_iff.2 hs] at ht
      cases ht
    rw [Dict.get?_insert, if_neg hne]
  unfold build fill
  simp only [hnames, claims_congr (FirstFollow.lookup_insert_singleton ht hfirst)]

/-- Which errors there are, and for which sets. -/
structure FailsExactly (g : Grammar) (sets : FirstFollow) : Prop where
  missingFirst : ∀ rule, build g sets = .error (.missingFirst rule) ↔
    g.IsFirst (fun s => sets.first.get? s = none) rule
  missingFollow : ∀ rule, build g sets = .error (.missingFollow rule) ↔
    HasFirsts g sets ∧ g.IsFirst (Stuck g sets) rule
  succeeds : (∃ table, build g sets = .ok table) ↔
    HasFirsts g sets ∧ ∀ s ∈ g.names, ¬Stuck g sets s
  sequence : HasFirsts g sets → ∀ p,
    FirstFollow.ofSequence (sets.lookup g) p = .ok (firstOfSequence sets.first p)
  terminal : ∀ t, g.isRule t = false → sets.first.get? t = none →
    build g { sets with first := sets.first.insert t (.singleton t) } = build g sets
  computed : ∃ table, build g (.compute g) = .ok table

theorem failsExactly (g : Grammar) (sets : FirstFollow) : FailsExactly g sets where
  missingFirst _ := build_eq_missingFirst_iff
  missingFollow _ := build_eq_missingFollow_iff
  succeeds := exists_build_eq_ok_iff
  sequence := FirstFollow.ofSequence_lookup
  terminal _ := build_insert_terminal
  computed := FirstFollow.exists_build_compute g

end Table

end Lookahead
