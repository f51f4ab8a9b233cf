import Lookahead.Proofs.Derivation.Run
import Mathlib.Data.Finset.Card
import Mathlib.Data.Finset.Prod
import Mathlib.Data.Finset.Range

namespace Lookahead.Derivation

variable {table : Table} {f f' : Symbol → Nat → Derivation Tree} {s : Symbol} {id : Nat}
  {c c' : Cursor}

def Exhausted {α : Type} (r : Except ParseError α × Cursor) : Prop := r.1 = .error .endless

theorem exhausted_attach {t : Tree} {r : Except ParseError (List Tree) × Cursor} :
    Exhausted (attach t r) ↔ Exhausted r := by
  rcases r with ⟨_ | _, _⟩ <;> simp [Exhausted, attach, Except.map]

theorem exhausted_close {r : Except ParseError (List Tree) × Cursor} :
    Exhausted (close id s r) ↔ Exhausted r := by
  rcases r with ⟨_ | _, _⟩ <;> simp [Exhausted, close, Except.map]

section Monotone

theorem not_exhausted_of_cons (hs : s ≠ Symbol.epsilon) {rest : List Symbol}
    (h : ¬Exhausted (deriveAll f (s :: rest) id c)) : ¬Exhausted (f s id c) := by
  intro he
  apply h
  rw [deriveAll_cons hs]
  rcases hf : f s id c with ⟨_ | t, d⟩
  · rw [hf] at he
    exact congrArg Except.error (Except.error.inj he)
  · rw [hf] at he
    cases he

theorem deriveAll_mono (hf : ∀ s id c, ¬Exhausted (f s id c) → f' s id c = f s id c)
    {p : List Symbol} (h : ¬Exhausted (deriveAll f p id c)) :
    deriveAll f' p id c = deriveAll f p id c := by
  induction p generalizing id c with
  | nil => rfl
  | cons s rest ih =>
    by_cases hs : s = Symbol.epsilon
    · subst hs
      rw [deriveAll_epsilon, exhausted_attach] at h
      rw [deriveAll_epsilon, deriveAll_epsilon, ih h]
    · have hfirst := hf s id c (not_exhausted_of_cons hs h)
      rw [deriveAll_cons hs] at h
      rw [deriveAll_cons hs, deriveAll_cons hs, hfirst]
      generalize f s id c = r at h ⊢
      rcases r with ⟨_ | t, d⟩
      · rfl
      · exact congrArg (attach t) (ih (mt exhausted_attach.2 h))

theorem derive_succ {depth : Nat} (h : ¬Exhausted (derive table depth s id c)) :
    derive table (depth + 1) s id c = derive table depth s id c := by
  induction depth generalizing s id c with
  | zero => exact absurd rfl h
  | succ depth ih =>
    by_cases hs : s = c.lookahead.kind
    · rw [derive_matched hs, derive_matched hs]
    · cases hr : table.isRule s with
      | false => rw [derive_mismatch hs hr, derive_mismatch hs hr]
      | true =>
        cases hl : table.lookup s c.lookahead.kind with
        | none => rw [derive_noProduction hs hr hl, derive_noProduction hs hr hl]
        | some p =>
          rw [derive_expand hs hr hl, exhausted_close] at h
          rw [derive_expand hs hr hl, derive_expand hs hr hl,
            deriveAll_mono (fun s id c h => ih h) h]

theorem derive_mono {depth depth' : Nat} (hle : depth ≤ depth')
    (h : ¬Exhausted (derive table depth s id c)) :
    derive table depth' s id c = derive table depth s id c := by
  induction depth', hle using Nat.le_induction with
  | base => rfl
  | succ depth' _ ih => rw [derive_succ (ih ▸ h), ih]

section Moves

variable {R : Cursor → Cursor → Prop}

theorem cursor_deriveAll_mono (refl : ∀ c, R c c) (trans : ∀ {c d e}, R c d → R d e → R c e)
    (hf : ∀ s id c, ¬Exhausted (f s id c) → f' s id c = f s id c)
    (hmove : ∀ s id c, R c (f' s id c).2) (hmono : ∀ s id c, R (f s id c).2 (f' s id c).2)
    (p : List Symbol) (id : Nat) (c : Cursor) :
    R (deriveAll f p id c).2 (deriveAll f' p id c).2 := by
  induction p generalizing id c with
  | nil => exact refl c
  | cons s rest ih =>
    by_cases hs : s = Symbol.epsilon
    · subst hs
      rw [deriveAll_epsilon, deriveAll_epsilon]
      exact ih (id + 1) c
    · have hsame := hf s id c
      have hfirst := hmono s id c
      rw [deriveAll_cons hs, deriveAll_cons hs]
      rcases hd : f s id c with ⟨e | t, d⟩
      · rw [hd] at hsame hfirst
        rcases hd' : f' s id c with ⟨e' | t', d'⟩
        · rw [hd'] at hfirst
          exact hfirst
        · -- The run had too few levels here; with more it goes on behind this symbol.
          rw [hd'] at hfirst
          exact trans hfirst (cursor_deriveAll refl trans hmove rest (id + 1) d')
      · rw [hsame (by rw [hd]; exact nofun), hd]
        exact ih (id + 1) d

/-- With more levels a run goes on from where it ended. -/
theorem cursor_derive_succ (refl : ∀ c, R c c) (trans : ∀ {c d e}, R c d → R d e → R c e)
    (opened : ∀ c s p, R c (c.opened s p))
    (matched : ∀ c token, R c { c.asked with lookahead := token })
    (depth : Nat) (s : Symbol) (id : Nat) (c : Cursor) :
    R (derive table depth s id c).2 (derive table (depth + 1) s id c).2 := by
  induction depth generalizing s id c with
  | zero => exact cursor_derive refl trans opened matched 1 s id c
  | succ depth ih =>
    by_cases he : Exhausted (derive table (depth + 1) s id c)
    · obtain ⟨hs, hr, p, hl, -⟩ := derive_endless he
      rw [derive_expand hs hr hl, derive_expand hs hr hl]
      exact cursor_deriveAll_mono refl trans (fun s id c => derive_succ)
        (cursor_derive refl trans opened matched (depth + 1)) ih p c.size (c.opened s p)
    · rw [derive_succ he]
      exact refl _

theorem cursor_derive_mono (refl : ∀ c, R c c) (trans : ∀ {c d e}, R c d → R d e → R c e)
    (opened : ∀ c s p, R c (c.opened s p))
    (matched : ∀ c token, R c { c.asked with lookahead := token })
    {depth depth' : Nat} (hle : depth ≤ depth') (s : Symbol) (id : Nat) (c : Cursor) :
    R (derive table depth s id c).2 (derive table depth' s id c).2 := by
  induction depth', hle using Nat.le_induction with
  | base => exact refl _
  | succ depth' _ ih =>
    exact trans ih (cursor_derive_succ refl trans opened matched depth' s id c)

end Moves

/-- A run over a production that is exhausted is so in one of its calls. -/
theorem exists_exhausted {p : List Symbol} (h : Exhausted (deriveAll f p id c)) :
    ∃ before s rest trees c', p = before ++ s :: rest ∧ s ≠ Symbol.epsilon ∧
      deriveAll f before id c = (.ok trees, c') ∧ Exhausted (f s (id + before.length) c') := by
  rcases hd : deriveAll f p id c with ⟨e | trees, d⟩
  · rw [hd] at h
    cases h
    obtain ⟨before, s, rest, trees, c', rfl, hs, hbefore, hcall⟩ := deriveAll_error hd
    exact ⟨before, s, rest, trees, c', rfl, hs, hbefore, by rw [Exhausted, hcall]⟩
  · rw [hd] at h
    cases h

theorem not_exhausted_of_append {before rest : List Symbol} {trees : List Tree}
    (hb : deriveAll f before id c = (.ok trees, c')) (hs : s ≠ Symbol.epsilon)
    (h : ¬Exhausted (deriveAll f (before ++ s :: rest) id c)) :
    ¬Exhausted (f s (id + before.length) c') := by
  induction before generalizing id c trees with
  | nil =>
    cases hb
    exact not_exhausted_of_cons hs h
  | cons x before ih =>
    obtain ⟨t, ts, d, -, hrest, hx⟩ := deriveAll_ok hb
    rw [List.length_cons, Nat.add_comm before.length, ← Nat.add_assoc]
    apply ih hrest
    rw [List.cons_append] at h
    rcases hx with ⟨rfl, -, rfl⟩ | ⟨hx, hd⟩
    · rwa [deriveAll_epsilon, exhausted_attach] at h
    · rw [deriveAll_cons hx, hd] at h
      exact mt exhausted_attach.2 h

end Monotone

section Similar

def Cursor.Agrees (c c' : Cursor) : Prop := ∀ i, c.get i = c'.get i

/-- Two runs that end alike: both with a result and the same tokens ahead, or with the same
error. -/
inductive Similar {α : Type} :
    Except ParseError α × Cursor → Except ParseError α × Cursor → Prop
  | ok {a a' : α} {c c' : Cursor} (h : c.Agrees c') : Similar (.ok a, c) (.ok a', c')
  | error (e : ParseError) (c c' : Cursor) : Similar (.error e, c) (.error e, c')

theorem Similar.exhausted {α : Type} {r r' : Except ParseError α × Cursor} (h : Similar r r') :
    Exhausted r ↔ Exhausted r' := by
  cases h <;> simp [Exhausted]

theorem Similar.map {α β : Type} {r r' : Except ParseError α × Cursor} (h : Similar r r')
    (g g' : α → β) : Similar (r.1.map g, r.2) (r'.1.map g', r'.2) := by
  cases h with
  | ok h => exact .ok h
  | error e c c' => exact .error e c c'

theorem similar_deriveAll (hf : ∀ s id id' c c', c.Agrees c' → Similar (f s id c) (f s id' c'))
    {p : List Symbol} {id' : Nat} (h : c.Agrees c') :
    Similar (deriveAll f p id c) (deriveAll f p id' c') := by
  induction p generalizing id id' c c' with
  | nil => exact .ok h
  | cons s rest ih =>
    by_cases hs : s = Symbol.epsilon
    · subst hs
      rw [deriveAll_epsilon, deriveAll_epsilon]
      exact (ih h).map _ _
    · rw [deriveAll_cons hs, deriveAll_cons hs]
      have hfirst := hf s id id' c c' h
      generalize f s id c = r at hfirst ⊢
      generalize f s id' c' = r' at hfirst ⊢
      cases hfirst with
      | ok hd => exact (ih hd).map _ _
      | error e d d' => exact .error e d d'

theorem similar_derive {depth id' : Nat} (h : c.Agrees c') :
    Similar (derive table depth s id c) (derive table depth s id' c') := by
  induction depth generalizing s id id' c c' with
  | zero => exact .error _ _ _
  | succ depth ih =>
    have hlook : c'.lookahead = c.lookahead := Except.ok.inj (h 0).symm
    by_cases hs : s = c.lookahead.kind
    · rw [derive_matched hs, derive_matched (hlook ▸ hs), ← h 1]
      cases hg : c.get 1 with
      | error e => exact .error _ _ _
      | ok token =>
        apply Similar.ok
        intro i
        rw [(Cursor.reads_asked hg).rest, (Cursor.reads_asked ((h 1).symm.trans hg)).rest]
        exact h _
    · cases hr : table.isRule s with
      | false =>
        rw [derive_mismatch hs hr, derive_mismatch (hlook ▸ hs) hr, hlook]
        exact .error _ _ _
      | true =>
        cases hl : table.lookup s c.lookahead.kind with
        | none =>
          rw [derive_noProduction hs hr hl, derive_noProduction (hlook ▸ hs) hr (hlook ▸ hl), hlook]
          exact .error _ _ _
        | some p =>
          rw [derive_expand hs hr hl, derive_expand (hlook ▸ hs) hr (hlook ▸ hl)]
          refine (similar_deriveAll (f := derive table depth) (fun _ _ _ _ _ h => ih h) ?_).map _ _
          intro i
          rw [Cursor.get_opened, Cursor.get_opened]
          exact h i

end Similar

section Bound

variable {stream : TokenStream}

/-- The cursor has the results of the stream ahead, from number `j` on. -/
def Cursor.At (stream : TokenStream) (j : Nat) (c : Cursor) : Prop :=
  ∀ i, c.get i = stream.get (j + i)

theorem Cursor.At.of_reads {j : Nat} {ts : List Token} (h : c.At stream j) (hr : c.Reads ts c') :
    c'.At stream (j + ts.length) := by
  intro i
  rw [hr.rest, h, Nat.add_assoc]

theorem Cursor.at_first {rest : TokenStream} {token : Token}
    (h : stream.next = (.ok token, rest)) : (first token rest).At stream 0 := by
  intro i
  rw [Nat.zero_add]
  exact Cursor.get_first h i

/-- Past the items all places look the same. -/
theorem Cursor.At.cap {j : Nat} (h : c.At stream j) : c.At stream (min j stream.items.length) := by
  intro i
  rw [h i]
  by_cases hj : j ≤ stream.items.length
  · rw [Nat.min_eq_left hj]
  · rw [TokenStream.get_of_le (by omega), TokenStream.get_of_le (by omega)]

/-- Deriving `s` at place `j` of the stream takes exactly `d + 1` levels. -/
def Needs (table : Table) (stream : TokenStream) (d : Nat) (s : Symbol) (j : Nat) : Prop :=
  ∃ c id, c.At stream j ∧ Exhausted (derive table d s id c) ∧
    ¬Exhausted (derive table (d + 1) s id c)

theorem Needs.unique {d d' j : Nat} (h : Needs table stream d s j)
    (h' : Needs table stream d' s j) : d = d' := by
  have hlt : ∀ d d', Needs table stream d s j → Needs table stream d' s j → ¬d < d' := by
    rintro d d' ⟨c, id, hat, -, hsome⟩ ⟨c', id', hat', hnone, -⟩ hlt
    have hagree : c.Agrees c' := fun i => (hat i).trans (hat' i).symm
    have hsome' : ¬Exhausted (derive table (d + 1) s id' c') :=
      mt (similar_derive hagree).exhausted.2 hsome
    rw [derive_mono hlt hsome'] at hnone
    exact hsome' hnone
  have h₁ := hlt d d' h h'
  have h₂ := hlt d' d h' h
  omega

theorem Needs.step {d j : Nat} (h : Needs table stream (d + 1) s j) :
    s ∈ table.rules ∧ ∃ s' j', Needs table stream d s' j' := by
  obtain ⟨c, id, hat, hnone, hsome⟩ := h
  obtain ⟨hs, hr, p, hl, hall⟩ := derive_endless hnone
  rw [derive_expand hs hr hl, exhausted_close] at hsome
  obtain ⟨before, s', rest, trees, c', rfl, hs', hbefore, hcall⟩ := exists_exhausted hall
  obtain ⟨ts, hreads⟩ := reads_deriveAll hbefore
  have hbefore' : deriveAll (derive table (d + 1)) before c.size _ = _ :=
    (deriveAll_mono (fun s id c => derive_succ) (by rw [hbefore]; exact nofun)).trans hbefore
  exact ⟨of_decide_eq_true hr, s', j + ts.length, c', _, hat.of_reads hreads.of_opened, hcall,
    not_exhausted_of_append hbefore' hs' hsome⟩

theorem Needs.exists_of_le {d i j : Nat} (h : Needs table stream d s j) (hle : i ≤ d) :
    ∃ s' j', Needs table stream i s' j' := by
  induction d generalizing s j with
  | zero =>
    obtain rfl := Nat.le_zero.1 hle
    exact ⟨s, j, h⟩
  | succ d ih =>
    rcases Nat.le_succ_iff.1 hle with hle | rfl
    · obtain ⟨-, s', j', h'⟩ := h.step
      exact ih h' hle
    · exact ⟨s, j, h⟩

/-- The levels that are needed point to different rules or places. -/
theorem Needs.le {d j : Nat} (h : Needs table stream d s j) :
    d ≤ table.rules.length * (stream.items.length + 1) := by
  have hpoint : ∀ i : Nat, ∃ place : Symbol × Nat, i < d →
      Needs table stream (i + 1) place.1 place.2 ∧
        place ∈ table.rules.toFinset ×ˢ Finset.range (stream.items.length + 1) := by
    intro i
    by_cases hi : i < d
    · obtain ⟨s', j', h'⟩ := h.exists_of_le hi
      obtain ⟨c, id, hat, hneeds⟩ := h'
      refine ⟨(s', min j' stream.items.length), fun _ => ⟨⟨c, id, hat.cap, hneeds⟩, ?_⟩⟩
      rw [Finset.mem_product, List.mem_toFinset, Finset.mem_range]
      have hr : s' ∈ table.rules := (Needs.step ⟨c, id, hat, hneeds⟩).1
      exact ⟨hr, by omega⟩
    · exact ⟨(s, 0), fun h => absurd h hi⟩
  choose place hplace using hpoint
  calc d = (Finset.range d).card := (Finset.card_range d).symm
    _ ≤ (table.rules.toFinset ×ˢ Finset.range (stream.items.length + 1)).card := by
      apply Finset.card_le_card_of_injOn place
      · intro i hi
        exact (hplace i (Finset.mem_range.1 hi)).2
      · intro i hi i' hi' heq
        have h₁ := (hplace i (Finset.mem_range.1 hi)).1
        have h₂ := (hplace i' (Finset.mem_range.1 hi')).1
        rw [heq] at h₁
        exact Nat.succ.inj (h₁.unique h₂)
    _ = table.rules.toFinset.card * (stream.items.length + 1) := by
      rw [Finset.card_product, Finset.card_range]
    _ ≤ table.rules.length * (stream.items.length + 1) :=
      Nat.mul_le_mul_right _ (List.toFinset_card_le _)

/-- If any number of levels is enough, the bound is. -/
theorem derive_depthBound {depth : Nat} (hat : c.At stream 0)
    (h : ¬Exhausted (derive table depth s id c)) :
    derive table (depthBound table stream) s id c = derive table depth s id c := by
  rcases Nat.le_total depth (depthBound table stream) with hle | hle
  · exact derive_mono hle h
  · suffices hsome : ¬Exhausted (derive table (depthBound table stream) s id c) from
      (derive_mono hle hsome).symm
    intro hnone
    -- Between the bound and `depth` there is the number of levels that is just too small.
    obtain ⟨d, hd, hneeds⟩ : ∃ d, depthBound table stream ≤ d ∧ Needs table stream d s 0 := by
      induction depth, hle using Nat.le_induction with
      | base => exact absurd hnone h
      | succ depth hle ih =>
        by_cases hdepth : Exhausted (derive table depth s id c)
        · exact ⟨depth, hle, c, id, hat, hdepth, h⟩
        · exact ih hdepth
    have hbound := hneeds.le
    have hlt : table.rules.length * (stream.items.length + 1) < depthBound table stream := by
      rw [depthBound, Nat.mul_comm]
      exact Nat.mul_lt_mul'' (by omega) (by omega)
    omega

theorem parse_eq_endless_iff {rest : TokenStream} {token : Token} {start : Symbol}
    (h : stream.next = (.ok token, rest)) :
    (parse table start stream).result = .error .endless ↔
      Exhausted (derive table (depthBound table stream) start 1 (.first token rest)) := by
  rw [parse_eq h, Exhausted]
  rcases derive table (depthBound table stream) start 1 (.first token rest) with ⟨e | t, c⟩ <;>
    simp [Except.map]

end Bound

end Lookahead.Derivation
