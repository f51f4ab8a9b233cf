import Lookahead.Proofs.FirstFollow.Sequence
import Mathlib.Algebra.Order.BigOperators.Group.List
import Mathlib.Algebra.Order.Group.Nat
import Mathlib.Algebra.Ring.Nat
import Mathlib.Data.List.Sort

namespace Lookahead

namespace Dict

variable {β : Type}

theorem mem_entries {d : Dict β} {k : Symbol} {v : β} :
    (k, v) ∈ d.entries ↔ d.get? k = some v := by
  constructor
  · intro h
    have hinj : (d.entries.map (·.1)).Nodup := by
      have hlt : (d.entries.map (·.1)).Pairwise (· < ·) := List.pairwise_map.2 d.sorted
      exact hlt.imp fun hab heq => absurd (heq ▸ hab) (String.lt_irrefl _)
    cases hf : d.entries.find? (·.1 = k) with
    | none => exact absurd (List.find?_eq_none.1 hf _ h) (by simp)
    | some e =>
      have he := List.inj_on_of_nodup_map hinj (List.mem_of_find?_eq_some hf) h
        (by simpa using List.find?_some hf)
      rw [get?, hf, he]
      rfl
  · intro h
    obtain ⟨e, he, rfl⟩ := Option.map_eq_some_iff.1 h
    have hk : e.1 = k := by simpa using List.find?_some he
    exact hk ▸ List.mem_of_find?_eq_some he

theorem mem_keys {d : Dict β} {k : Symbol} : k ∈ d.keys ↔ (d.get? k).isSome = true := by
  rw [keys, List.mem_map, Option.isSome_iff_exists]
  constructor
  · rintro ⟨⟨k, v⟩, he, rfl⟩
    exact ⟨v, mem_entries.1 he⟩
  · rintro ⟨v, hv⟩
    exact ⟨(k, v), mem_entries.2 hv, rfl⟩

theorem ext {d d' : Dict β} (h : ∀ k, d.get? k = d'.get? k) : d = d' := by
  have hmem : ∀ e, e ∈ d.entries ↔ e ∈ d'.entries := by
    rintro ⟨k, v⟩
    rw [mem_entries, mem_entries, h]
  have hnodup (d : Dict β) : d.entries.Nodup :=
    d.sorted.imp fun hab heq => absurd (heq ▸ hab) (String.lt_irrefl _)
  have hperm := (List.perm_ext_iff_of_nodup (hnodup d) (hnodup d')).2 hmem
  cases d; cases d'
  rw [mk.injEq]
  refine hperm.eq_of_pairwise (fun a b _ _ hab hba => ?_) ‹_› ‹_›
  exact absurd hab (String.lt_asymm hba)

theorem get?_foldl_insert (f : Symbol → β) (l : List Symbol) (d : Dict β) (x : Symbol) :
    (l.foldl (fun d s => d.insert s (f s)) d).get? x = if x ∈ l then some (f x) else d.get? x := by
  induction l generalizing d with
  | nil => simp
  | cons s l ih =>
    rw [List.foldl_cons, ih, get?_insert]
    by_cases hx : x ∈ l
    · simp [hx]
    · by_cases hs : s = x
      · simp [hs]
      · simp [hx, hs, Ne.symm hs]

end Dict

theorem SymbolSet.nodup (set : SymbolSet) : set.toList.Nodup :=
  set.sorted.imp fun hab heq => absurd (heq ▸ hab) (String.lt_irrefl _)

namespace FirstFollow

variable {g : Grammar} {d d' d'' : Dict SymbolSet}

def setOf (d : Dict SymbolSet) (s : Symbol) : SymbolSet := (d.get? s).getD ∅

def HasRules (g : Grammar) (d : Dict SymbolSet) : Prop :=
  ∀ s, g.isRule s = true → (d.get? s).isSome = true

/-- Members were added to sets of rules, and nothing else was changed. -/
structure Extends (g : Grammar) (d d' : Dict SymbolSet) : Prop where
  other : ∀ s, g.isRule s = false → d'.get? s = d.get? s
  rule : ∀ s, g.isRule s = true → (d'.get? s).isSome = true
  subset : ∀ s, ∀ x ∈ setOf d s, x ∈ setOf d' s

theorem get?_eq_some_setOf (h : HasRules g d) {s : Symbol} (hs : g.isRule s = true) :
    d.get? s = some (setOf d s) := by
  obtain ⟨a, ha⟩ := Option.isSome_iff_exists.1 (h s hs)
  rw [setOf, ha]
  rfl

theorem firstOf_eq_setOf (h : HasRules g d) {s : Symbol} (hs : g.isRule s = true) :
    firstOf d s = setOf d s := by
  rw [firstOf, get?_eq_some_setOf h hs]
  rfl

theorem get?_grow (d : Dict SymbolSet) (s : Symbol) (set : SymbolSet) (x : Symbol) :
    (grow d s set).get? x = if s = x then some (setOf d s ∪ set) else d.get? x :=
  Dict.get?_insert

theorem setOf_grow (d : Dict SymbolSet) (s : Symbol) (set : SymbolSet) (x : Symbol) :
    setOf (grow d s set) x = if s = x then setOf d s ∪ set else setOf d x := by
  rw [setOf, get?_grow]
  split <;> rfl

theorem extends_grow (h : HasRules g d) {s : Symbol} (hs : g.isRule s = true) (set : SymbolSet) :
    Extends g d (grow d s set) where
  other x hx := by
    rw [get?_grow, if_neg]
    rintro rfl
    rw [hs] at hx
    contradiction
  rule x hx := by
    rw [get?_grow]
    split
    · rfl
    · exact h x hx
  subset x y hy := by
    rw [setOf_grow]
    split
    · next heq => exact SymbolSet.mem_union.2 (.inl (heq ▸ hy))
    · exact hy

namespace Extends

theorem refl (h : HasRules g d) : Extends g d d := ⟨fun _ _ => rfl, h, fun _ _ hx => hx⟩

theorem trans (h : Extends g d d') (h' : Extends g d' d'') : Extends g d d'' where
  other s hs := (h'.other s hs).trans (h.other s hs)
  rule := h'.rule
  subset s x hx := h'.subset s x (h.subset s x hx)

theorem antisymm (h : Extends g d d') (h' : Extends g d' d) : d = d' := by
  refine Dict.ext fun s => ?_
  by_cases hs : g.isRule s = true
  · rw [get?_eq_some_setOf h'.rule hs, get?_eq_some_setOf h.rule hs]
    exact congrArg some (SymbolSet.ext fun x => ⟨h.subset s x, h'.subset s x⟩)
  · exact (h.other s (by simpa using hs)).symm

end Extends

section Steps

variable {α : Type} {step : Dict SymbolSet → α → Dict SymbolSet} {l : List α}

theorem extends_foldl (h : ∀ a ∈ l, ∀ d, HasRules g d → Extends g d (step d a))
    (hd : HasRules g d) : Extends g d (l.foldl step d) := by
  induction l generalizing d with
  | nil => exact .refl hd
  | cons a l ih =>
    have ha := h a (.head _) d hd
    exact ha.trans (ih (fun b hb => h b (.tail _ hb)) ha.rule)

/-- A pass that changes nothing has no step that does. -/
theorem step_eq_self (h : ∀ a ∈ l, ∀ d, HasRules g d → Extends g d (step d a))
    (hd : HasRules g d) (hfix : l.foldl step d = d) : ∀ a ∈ l, step d a = d := by
  induction l with
  | nil => exact fun a ha => absurd ha List.not_mem_nil
  | cons a l ih =>
    have ha := h a (.head _) d hd
    have hl := extends_foldl (fun b hb => h b (.tail _ hb)) ha.rule
    have hback : Extends g (step d a) d := by
      rwa [← List.foldl_cons, hfix] at hl
    have heq : step d a = d := (ha.antisymm hback).symm
    rw [List.foldl_cons, heq] at hfix
    exact List.forall_mem_cons.2 ⟨heq, ih (fun b hb => h b (.tail _ hb)) hfix⟩

end Steps

def weight (g : Grammar) (d : Dict SymbolSet) : Nat :=
  (g.names.map fun s => (setOf d s).toList.length).sum

theorem weight_lt (hd : HasRules g d) (h : Extends g d d') (hne : d' ≠ d) :
    weight g d < weight g d' := by
  have hle (s : Symbol) : (setOf d s).toList.length ≤ (setOf d' s).toList.length :=
    (setOf d s).nodup.length_le_of_subset (h.subset s)
  refine List.sum_lt_sum _ _ (fun s _ => hle s) ?_
  -- if no set had more members, the sets would be the same
  by_contra! hno
  refine hne (h.antisymm ⟨fun s hs => (h.other s hs).symm, hd, fun s x hx => ?_⟩).symm
  by_cases hs : g.isRule s = true
  · have hsub := List.subperm_of_subset (setOf d s).nodup (h.subset s)
    exact (hsub.perm_of_length_le (hno s (Grammar.isRule_iff.1 hs))).mem_iff.2 hx
  · rwa [setOf, h.other s (by simpa using hs)] at hx

theorem weight_le {bound : List Symbol}
    (h : ∀ s, g.isRule s = true → ∀ x ∈ setOf d s, x ∈ bound) :
    weight g d ≤ g.rules.length * bound.length := by
  have hle : weight g d ≤ (g.names.map fun _ => bound.length).sum :=
    List.sum_le_sum fun s hs =>
      (setOf d s).nodup.length_le_of_subset (h s (Grammar.isRule_iff.2 hs))
  rw [List.map_const', List.sum_replicate, Grammar.names, List.length_map] at hle
  exact hle

section Saturate

variable {α : Type} [DecidableEq α] {f : α → α}

theorem saturate_inv {inv : α → Prop} (hf : ∀ a, inv a → inv (f a)) (bound : Nat) {a : α}
    (ha : inv a) : inv (saturate f bound a) := by
  fun_induction saturate f bound a with
  | case1 => exact ha
  | case2 => exact ha
  | case3 bound a hne ih => exact ih (hf a ha)

/-- Enough passes reach one that changes nothing. -/
theorem saturate_fixed (inv : α → Prop) (measure : α → Nat) (limit : Nat)
    (hf : ∀ a, inv a → inv (f a))
    (hlt : ∀ a, inv a → f a ≠ a → measure a < measure (f a)) (hle : ∀ a, inv a → measure a ≤ limit)
    {bound : Nat} {a : α} (ha : inv a) (hb : limit < bound + measure a) :
    f (saturate f bound a) = saturate f bound a := by
  induction bound generalizing a with
  | zero => have := hle a ha; omega
  | succ bound ih =>
    unfold saturate
    split
    · next heq => exact heq
    · next hne =>
      have := hlt a ha hne
      exact ih (hf a ha) (by omega)

/-- Passes go on as long as they change something, and end with `b`. -/
inductive Settles (f : α → α) : α → α → Prop
  | done {a : α} (h : f a = a) : Settles f a a
  | pass {a b : α} (h : f a ≠ a) (rest : Settles f (f a) b) : Settles f a b

/-- A bound that is enough is no part of the result. -/
theorem settles_saturate {bound : Nat} {a : α}
    (h : f (saturate f bound a) = saturate f bound a) : Settles f a (saturate f bound a) := by
  fun_induction saturate f bound a with
  | case1 a => exact .done h
  | case2 bound a heq => exact .done heq
  | case3 bound a hne ih => exact .pass hne (ih h)

end Saturate

theorem extends_saturate {pass : Dict SymbolSet → Dict SymbolSet}
    (h : ∀ d, HasRules g d → Extends g d (pass d)) (bound : Nat) (hd : HasRules g d) :
    Extends g d (saturate pass bound d) :=
  saturate_inv (fun d' (hd' : Extends g d d') => hd'.trans (h d' hd'.rule)) bound (.refl hd)

end FirstFollow

end Lookahead
