import Lookahead.Proofs.FirstFollow.Follow

namespace Lookahead.FirstFollow

variable {g : Grammar} {bound bound' : Symbol → Symbol → Prop} {p : List Symbol} {s t : Symbol}

def Fades (g : Grammar) (bound : Symbol → Symbol → Prop) (s : Symbol) : Prop :=
  s = Symbol.epsilon ∨ g.isRule s = true ∧ bound s Symbol.epsilon

theorem Begins.mono (hle : ∀ s t, bound s t → bound' s t) (h : Begins g bound p t) :
    Begins g bound' p t := by
  induction p with
  | nil => exact h
  | cons s rest ih =>
    rw [Begins] at h ⊢
    split
    · next hs => exact ih (by rwa [if_pos hs] at h)
    · next hs =>
      rw [if_neg hs] at h
      split
      · next hr =>
        rw [if_pos hr] at h
        exact h.imp (fun h => ⟨h.1, hle _ _ h.2⟩) fun h => ⟨hle _ _ h.1, ih h.2⟩
      · next hr => rwa [if_neg hr] at h

theorem Begins.fades (h : Begins g bound p Symbol.epsilon) : ∀ s ∈ p, Fades g bound s := by
  induction p with
  | nil => exact fun _ h => absurd h List.not_mem_nil
  | cons s rest ih =>
    rw [Begins] at h
    split at h
    · next hs => exact List.forall_mem_cons.2 ⟨.inl hs, ih h⟩
    · next hs =>
      split at h
      · next hr =>
        rcases h with h | h
        · exact absurd rfl h.1
        · exact List.forall_mem_cons.2 ⟨.inr ⟨hr, h.1⟩, ih h.2⟩
      · exact absurd h.symm hs

def Starts (g : Grammar) (bound : Symbol → Symbol → Prop) (s t : Symbol) : Prop :=
  g.isRule s = true ∧ bound s t ∨ g.isRule s = false ∧ s = t

/-- A sequence that begins with `t` does so at one of its symbols, and those before it are passed
over. -/
theorem Begins.exists_head (h : Begins g bound p t) (ht : t ≠ Symbol.epsilon) :
    ∃ before s rest, p = before ++ s :: rest ∧ s ≠ Symbol.epsilon ∧
      (∀ x ∈ before, Fades g bound x) ∧ Starts g bound s t := by
  induction p with
  | nil => exact absurd h ht
  | cons s rest ih =>
    have hlater : Fades g bound s → Begins g bound rest t → ∃ before x after,
        s :: rest = before ++ x :: after ∧ x ≠ Symbol.epsilon ∧
          (∀ y ∈ before, Fades g bound y) ∧ Starts g bound x t := by
      intro hs hrest
      obtain ⟨before, x, after, rfl, hx, hbefore, hhead⟩ := ih hrest
      exact ⟨s :: before, x, after, rfl, hx, List.forall_mem_cons.2 ⟨hs, hbefore⟩, hhead⟩
    rw [Begins] at h
    split at h
    · next hs => exact hlater (.inl hs) h
    · next hs =>
      have hnone : ∀ x ∈ ([] : List Symbol), Fades g bound x :=
        fun _ h => absurd h List.not_mem_nil
      split at h
      · next hr =>
        rcases h with h | h
        · exact ⟨[], s, rest, rfl, hs, hnone, .inl ⟨hr, h.2⟩⟩
        · exact hlater (.inr ⟨hr, h.1⟩) h.2
      · next hr => exact ⟨[], s, rest, rfl, hs, hnone, .inr ⟨by simpa using hr, h.symm⟩⟩

/-- The rule begins with `t`, or can be empty if `t` is `EPSILON`, by productions that are stacked
at most `n` high. -/
def Within (g : Grammar) : Nat → Symbol → Symbol → Prop
  | 0, _, _ => False
  | n + 1, s, t => ∃ p ∈ g.productions s, Begins g (Within g n) p t

theorem Within.succ {n : Nat} (h : Within g n s t) : Within g (n + 1) s t := by
  induction n generalizing s t with
  | zero => exact h.elim
  | succ n ih =>
    obtain ⟨p, hp, hb⟩ := h
    exact ⟨p, hp, hb.mono fun _ _ => ih⟩

theorem Within.mono {n m : Nat} (hle : n ≤ m) (h : Within g n s t) : Within g m s t := by
  induction hle with
  | refl => exact h
  | step _ ih => exact ih.succ

/-- The heights that the symbols of a sequence need have a maximum. -/
theorem Begins.exists_within (h : Begins g (fun s t => ∃ n, Within g n s t) p t) :
    ∃ n, Begins g (Within g n) p t := by
  induction p with
  | nil => exact ⟨0, h⟩
  | cons s rest ih =>
    rw [Begins] at h
    split at h
    · next hs =>
      obtain ⟨n, hn⟩ := ih h
      exact ⟨n, by rwa [Begins, if_pos hs]⟩
    · next hs =>
      split at h
      · next hr =>
        rcases h with ⟨ht, n, hn⟩ | ⟨⟨n, hn⟩, hrest⟩
        · exact ⟨n, by rw [Begins, if_neg hs, if_pos hr]; exact .inl ⟨ht, hn⟩⟩
        · obtain ⟨m, hm⟩ := ih hrest
          refine ⟨max n m, ?_⟩
          rw [Begins, if_neg hs, if_pos hr]
          exact .inr ⟨hn.mono (Nat.le_max_left n m),
            hm.mono fun _ _ h => h.mono (Nat.le_max_right n m)⟩
      · next hr => exact ⟨0, by rwa [Begins, if_neg hs, if_neg hr]⟩

theorem firstInv_within (g : Grammar) :
    FirstInv g (fun s t => ∃ n, Within g n s t) (compute g).first := by
  apply computeFirst_inv
  intro rule p hp t hb
  obtain ⟨n, hn⟩ := hb.exists_within
  exact ⟨n + 1, p, hp, hn⟩

theorem Begins.mem (hb : ∀ s t, bound s t → t ∈ firstOf (compute g).first s)
    (h : Begins g bound p t) : t ∈ firstOfSequence (compute g).first p := by
  induction p with
  | nil => exact SymbolSet.mem_singleton.2 h
  | cons s rest ih =>
    rw [Begins] at h
    by_cases hs : s = Symbol.epsilon
    · rw [if_pos hs] at h
      rw [firstOfSequence_cons, if_pos hs]
      exact ih h
    rw [if_neg hs] at h
    by_cases hr : g.isRule s = true
    · rw [if_pos hr] at h
      rcases h with ⟨ht, h⟩ | ⟨hvanish, hrest⟩
      · exact (mem_firstOfSequence_cons ht).2 (.inl ⟨hs, hb s t h⟩)
      · by_cases ht : t = Symbol.epsilon
        · subst ht
          exact epsilon_mem_firstOfSequence_cons.2 ⟨.inr (hb s _ hvanish), ih hrest⟩
        · exact (mem_firstOfSequence_cons ht).2 (.inr ⟨.inr (hb s _ hvanish), ih hrest⟩)
    · rw [if_neg hr] at h
      subst h
      refine (mem_firstOfSequence_cons hs).2 (.inl ⟨hs, ?_⟩)
      rw [(firstInv_within g).other t (by simpa using hr)]
      exact SymbolSet.mem_singleton.2 rfl

theorem Within.mem {n : Nat} (h : Within g n s t) : t ∈ firstOf (compute g).first s := by
  induction n generalizing s t with
  | zero => exact h.elim
  | succ n ih =>
    obtain ⟨p, hp, hb⟩ := h
    exact (closed_compute g).production s p hp t (hb.mem fun _ _ => ih)

theorem exists_within (hr : g.isRule s = true) (h : t ∈ firstOf (compute g).first s) :
    ∃ n, Within g n s t :=
  (firstInv_within g).within s hr t h

theorem Fades.vanishes {n : Nat} (h : Fades g (Within g n) s) : Vanishes (compute g).first s :=
  h.imp id fun h => h.2.mem

theorem Starts.mem {n : Nat} (h : Starts g (Within g n) s t) :
    t ∈ firstOf (compute g).first s := by
  rcases h with ⟨-, h⟩ | ⟨hr, rfl⟩
  · exact h.mem
  · rw [(firstInv_within g).other s hr]
    exact SymbolSet.mem_singleton.2 rfl

/-- A rule that can be empty begins with nothing that may also follow it. -/
theorem Distinct.not_overlap (hd : Distinct g (compute g)) {n : Nat} (hr : g.isRule s = true)
    (ht : t ≠ Symbol.epsilon) (hempty : Symbol.epsilon ∈ firstOf (compute g).first s)
    (hfollow : t ∈ (compute g).followOf s) : ¬Within g n s t := by
  induction n generalizing s with
  | zero => exact id
  | succ n ih =>
    rintro ⟨p, hp, hb⟩
    obtain ⟨m, hm⟩ := exists_within hr hempty
    cases m with
    | zero => exact hm
    | succ m =>
      obtain ⟨q, hq, hnone⟩ := hm
      have hnone' := hnone.mem fun _ _ h => h.mem
      -- Both productions claim `t`, so they are the same.
      obtain rfl : p = q := hd s p hp q hq t ⟨ht, .inl (hb.mem fun _ _ h => h.mem)⟩
        ⟨ht, .inr ⟨hnone', hfollow⟩⟩
      obtain ⟨before, x, rest, rfl, hx, -, hhead⟩ := hb.exists_head ht
      have hfades := hnone.fades x (by simp)
      obtain ⟨hxr, hxempty⟩ := hfades.resolve_left hx
      rcases hhead with ⟨-, hwithin⟩ | ⟨hxr', -⟩
      · refine ih hxr hxempty.mem ?_ hwithin
        have hrest : Symbol.epsilon ∈ firstOfSequence (compute g).first rest :=
          epsilon_mem_firstOfSequence.2 fun y hy => (hnone.fades y (by simp [hy])).vanishes
        exact (closed_compute g).inherit s before x rest hp hxr hrest t hfollow
      · rw [hxr] at hxr'
        contradiction

end Lookahead.FirstFollow
