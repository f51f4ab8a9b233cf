import Lookahead.Derivation
import Lookahead.Proofs.Failing
import Mathlib.Data.List.GetD

namespace Lookahead

namespace TokenStream

/-- The result number `i`. Past the items it is the end marker. -/
def get (s : TokenStream) (i : Nat) : Except LexicalError Token :=
  s.items.getD i (.ok (.eof s.eofLine))

theorem get_of_le {s : TokenStream} {i : Nat} (h : s.items.length ≤ i) :
    s.get i = .ok (.eof s.eofLine) :=
  List.getD_eq_default _ _ h

theorem next_fst (s : TokenStream) : s.next.1 = s.get 0 := by
  cases s with
  | mk items eofLine => cases items <;> rfl

theorem get_next (s : TokenStream) (i : Nat) : s.next.2.get i = s.get (i + 1) := by
  cases s with
  | mk items eofLine => cases items <;> simp [next, get]

theorem take_eq (s : TokenStream) (count : Nat) : s.take count = (List.range count).map s.get := by
  refine List.ext_getElem (by simp [take]; omega) fun i h₁ h₂ => ?_
  have hi : i < count := by simpa using h₂
  simp only [take, get, List.getElem_map, List.getElem_range, List.getElem_append,
    List.length_take, List.getElem_take, List.getElem_replicate]
  split
  · next h => rw [List.getD_eq_getElem _ _ (by omega)]
  · next h => rw [List.getD_eq_default _ _ (by omega)]

def Shows (s : TokenStream) (ts : List Token) : Prop := ∀ i (h : i < ts.length), s.get i = .ok ts[i]

theorem Shows.take {s : TokenStream} {ts : List Token} (h : s.Shows ts) :
    s.take ts.length = ts.map .ok := by
  rw [take_eq]
  refine List.ext_getElem (by simp) fun i h₁ h₂ => ?_
  rw [List.getElem_map, List.getElem_map, List.getElem_range]
  exact h i (by simpa using h₂)

theorem Shows.append_singleton {s : TokenStream} {ts : List Token} {x : Token} (h : s.Shows ts)
    (hx : s.get ts.length = .ok x) : s.Shows (ts ++ [x]) := by
  intro i hi
  by_cases hlt : i < ts.length
  · rw [List.getElem_append_left hlt]
    exact h i hlt
  · obtain rfl : i = ts.length := by
      rw [List.length_append, List.length_singleton] at hi
      omega
    rw [hx, List.getElem_append_right (Nat.le_refl _)]
    simp

theorem get_ofTokens_of_lt {tokens : List Token} {i : Nat} (h : i < tokens.length) :
    (ofTokens tokens).get i = .ok tokens[i] := by
  rw [get, ofTokens, List.getD_eq_getElem _ _ (by simpa using h), List.getElem_map]

theorem get_ofTokens_of_le {tokens : List Token} {i : Nat} (h : tokens.length ≤ i) :
    ∃ line, (ofTokens tokens).get i = .ok (.eof line) := by
  exact ⟨_, get_of_le (by simpa [ofTokens] using h)⟩

theorem shows_ofTokens (tokens : List Token) : (ofTokens tokens).Shows tokens :=
  fun _ h => get_ofTokens_of_lt h

end TokenStream

namespace Derivation

variable {table : Table}

def matchCount (steps : List Step) : Nat :=
  steps.countP fun
    | .matched .. => true
    | .expand .. => false

namespace Cursor

def get (c : Cursor) : Nat → Except LexicalError Token
  | 0 => .ok c.lookahead
  | i + 1 => c.stream.get i

/-- The cursor `c'` comes from `c` by matching the tokens `ts`. -/
structure Reads (c : Cursor) (ts : List Token) (c' : Cursor) : Prop where
  tokens : ∀ i (h : i < ts.length), c.get i = .ok ts[i]
  rest : ∀ i, c'.get i = c.get (ts.length + i)
  pulled : c'.pulled = c.pulled + ts.length
  matched : matchCount c'.steps = matchCount c.steps + ts.length

theorem Reads.refl (c : Cursor) : c.Reads [] c :=
  ⟨fun _ h => absurd h (Nat.not_lt_zero _), fun i => by simp, rfl, rfl⟩

theorem Reads.append {c c' c'' : Cursor} {ts ts' : List Token} (h : c.Reads ts c')
    (h' : c'.Reads ts' c'') : c.Reads (ts ++ ts') c'' where
  tokens i hi := by
    by_cases hlt : i < ts.length
    · rw [List.getElem_append_left hlt]
      exact h.tokens i hlt
    · have hi' : i - ts.length < ts'.length := by rw [List.length_append] at hi; omega
      have ht := h'.tokens (i - ts.length) hi'
      rw [h.rest, Nat.add_sub_cancel' (by omega)] at ht
      rw [List.getElem_append_right (by omega)]
      exact ht
  rest i := by rw [h'.rest, h.rest, List.length_append, Nat.add_assoc]
  pulled := by rw [h'.pulled, h.pulled, List.length_append]; omega
  matched := by rw [h'.matched, h.matched, List.length_append]; omega

def opened (c : Cursor) (rule : Symbol) (p : Production) : Cursor :=
  { c with
    size := c.size + p.length
    steps := .expand rule p c.lookahead.kind :: c.steps }

def asked (c : Cursor) : Cursor :=
  { c with
    stream := c.stream.next.2
    pulled := c.pulled + 1
    steps := .matched c.lookahead.kind c.lookahead.line :: c.steps }

theorem get_opened (c : Cursor) (rule : Symbol) (p : Production) (i : Nat) :
    (c.opened rule p).get i = c.get i := by
  cases i <;> rfl

theorem Reads.of_opened {c c' : Cursor} {rule : Symbol} {p : Production} {ts : List Token}
    (h : (c.opened rule p).Reads ts c') : c.Reads ts c' where
  tokens i hi := get_opened c rule p i ▸ h.tokens i hi
  rest i := (h.rest i).trans (get_opened c rule p _)
  pulled := h.pulled
  matched := h.matched

theorem reads_asked {c : Cursor} {token : Token} (h : c.get 1 = .ok token) :
    c.Reads [c.lookahead] { c.asked with lookahead := token } where
  tokens i hi := by
    obtain rfl : i = 0 := by simpa using hi
    rfl
  rest i := by
    cases i with
    | zero => exact h.symm
    | succ i =>
      rw [List.length_singleton, Nat.add_comm 1]
      exact TokenStream.get_next c.stream i
  pulled := rfl
  matched := by simp [matchCount, asked]

/-- Where a derivation begins: the first token is asked for, and the root and the start symbol
have their nodes. -/
def first (token : Token) (rest : TokenStream) : Cursor := ⟨token, rest, 1, 2, []⟩

theorem get_first {stream rest : TokenStream} {token : Token}
    (h : stream.next = (.ok token, rest)) (i : Nat) : (first token rest).get i = stream.get i := by
  cases i with
  | zero =>
    have hfst := stream.next_fst
    rw [h] at hfst
    exact hfst
  | succ i =>
    have hnext := stream.get_next i
    rw [h] at hnext
    exact hnext

end Cursor

def close (id : Nat) (rule : Symbol) (r : Except ParseError (List Tree) × Cursor) :
    Except ParseError Tree × Cursor :=
  (r.1.map (Tree.node ⟨id, rule, none, none⟩), r.2)

def attach (t : Tree) (r : Except ParseError (List Tree) × Cursor) :
    Except ParseError (List Tree) × Cursor :=
  (r.1.map (t :: ·), r.2)

theorem record_apply (step : Step) (c : Cursor) :
    record step c = (.ok (), { c with steps := step :: c.steps }) := rfl

theorem pull_apply (c : Cursor) :
    pull c =
      match c.get 1 with
      | .ok token => (.ok (), { c with
          lookahead := token
          stream := c.stream.next.2
          pulled := c.pulled + 1 })
      | .error e => (.error (.lexical e), { c with
          stream := c.stream.next.2
          pulled := c.pulled + 1 }) := by
  have hnext : c.get 1 = c.stream.next.1 := (TokenStream.next_fst c.stream).symm
  rw [hnext, pull, Failing.bind_ok (Failing.get_apply c)]
  rcases c.stream.next with ⟨_ | token, rest⟩ <;> rfl

theorem derive_matched {s : Symbol} {c : Cursor} (h : s = c.lookahead.kind) (depth id : Nat) :
    derive table (depth + 1) s id c =
      match c.get 1 with
      | .ok token =>
        (.ok (.node ⟨id, s, c.lookahead.literal, some c.lookahead.line⟩ []),
          { c.asked with lookahead := token })
      | .error e => (.error (.lexical e), c.asked) := by
  have hget : ∀ steps, ({ c with steps := steps } : Cursor).get 1 = c.get 1 := fun _ => rfl
  rw [derive, Failing.bind_ok (Failing.get_apply c)]
  simp only [h, if_pos]
  rw [Failing.bind_ok (record_apply _ c), Failing.bind_apply, pull_apply, hget]
  cases c.get 1 <;> rfl

theorem derive_mismatch {s : Symbol} {c : Cursor} (h : s ≠ c.lookahead.kind)
    (hr : table.isRule s = false) (depth id : Nat) :
    derive table (depth + 1) s id c = (.error (.rejected (.mismatch s c.lookahead)), c) := by
  rw [derive, Failing.bind_ok (Failing.get_apply c)]
  simp only [h, if_false, hr, Bool.not_false, if_true]
  rfl

theorem derive_noProduction {s : Symbol} {c : Cursor} (h : s ≠ c.lookahead.kind)
    (hr : table.isRule s = true) (hl : table.lookup s c.lookahead.kind = none) (depth id : Nat) :
    derive table (depth + 1) s id c = (.error (.rejected (.noProduction s c.lookahead)), c) := by
  rw [derive, Failing.bind_ok (Failing.get_apply c)]
  simp only [h, if_false, hr, Bool.not_true, hl]
  rfl

theorem derive_expand {s : Symbol} {c : Cursor} {p : Production} (h : s ≠ c.lookahead.kind)
    (hr : table.isRule s = true) (hl : table.lookup s c.lookahead.kind = some p)
    (depth id : Nat) :
    derive table (depth + 1) s id c =
      close id s (deriveAll (derive table depth) p c.size (c.opened s p)) := by
  rw [derive, Failing.bind_ok (Failing.get_apply c)]
  simp only [h, if_false, hr, Bool.not_true, hl]
  change ((deriveAll (derive table depth) p c.size) >>= _) (c.opened s p) = _
  rw [Failing.bind_apply]
  rcases deriveAll (derive table depth) p c.size (c.opened s p) with ⟨_ | children, c'⟩ <;> rfl

/-- A tree comes from a match or from a production. -/
theorem derive_ok {depth id : Nat} {s : Symbol} {c c' : Cursor} {t : Tree}
    (h : derive table depth s id c = (.ok t, c')) :
    (s = c.lookahead.kind ∧ c.Reads [c.lookahead] c' ∧
      t = .node ⟨id, s, c.lookahead.literal, some c.lookahead.line⟩ []) ∨
    ∃ d p children, depth = d + 1 ∧ table.lookup s c.lookahead.kind = some p ∧
      deriveAll (derive table d) p c.size (c.opened s p) = (.ok children, c') ∧
      t = .node ⟨id, s, none, none⟩ children := by
  cases depth with
  | zero => cases h
  | succ d =>
    by_cases hs : s = c.lookahead.kind
    · rw [derive_matched hs] at h
      cases hg : c.get 1 with
      | error e =>
        rw [hg] at h
        cases h
      | ok token =>
        rw [hg] at h
        cases h
        exact .inl ⟨hs, Cursor.reads_asked hg, rfl⟩
    · cases hr : table.isRule s with
      | false =>
        rw [derive_mismatch hs hr] at h
        cases h
      | true =>
        cases hl : table.lookup s c.lookahead.kind with
        | none =>
          rw [derive_noProduction hs hr hl] at h
          cases h
        | some p =>
          rw [derive_expand hs hr hl] at h
          rcases hd : deriveAll (derive table d) p c.size (c.opened s p) with ⟨_ | children, e⟩
          · rw [hd] at h
            cases h
          · rw [hd] at h
            cases h
            exact .inr ⟨d, p, children, rfl, rfl, hd, rfl⟩

/-- Only a production whose symbols cannot be derived in the levels left makes one run out of
them. -/
theorem derive_endless {d id : Nat} {s : Symbol} {c : Cursor}
    (h : (derive table (d + 1) s id c).1 = .error .endless) :
    s ≠ c.lookahead.kind ∧ table.isRule s = true ∧
      ∃ p, table.lookup s c.lookahead.kind = some p ∧
        (deriveAll (derive table d) p c.size (c.opened s p)).1 = .error .endless := by
  by_cases hs : s = c.lookahead.kind
  · rw [derive_matched hs] at h
    cases hg : c.get 1 <;> simp [hg] at h
  · cases hr : table.isRule s with
    | false => simp [derive_mismatch hs hr] at h
    | true =>
      cases hl : table.lookup s c.lookahead.kind with
      | none => simp [derive_noProduction hs hr hl] at h
      | some p =>
        rw [derive_expand hs hr hl] at h
        refine ⟨hs, rfl, p, rfl, ?_⟩
        rcases hd : deriveAll (derive table d) p c.size (c.opened s p) with ⟨_ | children, e⟩
        · simpa [hd, close, Except.map] using h
        · simp [hd, close, Except.map] at h

variable {f : Symbol → Nat → Derivation Tree}

theorem deriveAll_epsilon (rest : List Symbol) (id : Nat) (c : Cursor) :
    deriveAll f (Symbol.epsilon :: rest) id c =
      attach (.leaf id Symbol.epsilon) (deriveAll f rest (id + 1) c) := by
  rw [deriveAll, if_pos rfl, Failing.bind_ok (Failing.pure_apply _ c)]
  dsimp only
  rw [Failing.bind_apply]
  rcases deriveAll f rest (id + 1) c with ⟨_ | ts, c'⟩ <;> rfl

theorem deriveAll_cons {s : Symbol} (h : s ≠ Symbol.epsilon) (rest : List Symbol) (id : Nat)
    (c : Cursor) :
    deriveAll f (s :: rest) id c =
      match f s id c with
      | (.error e, c') => (.error e, c')
      | (.ok t, c') => attach t (deriveAll f rest (id + 1) c') := by
  rw [deriveAll, if_neg h, Failing.bind_apply]
  rcases f s id c with ⟨_ | t, c'⟩
  · rfl
  · dsimp only
    rw [Failing.bind_apply]
    rcases deriveAll f rest (id + 1) c' with ⟨_ | ts, c''⟩ <;> rfl

theorem deriveAll_ok {s : Symbol} {rest : List Symbol} {id : Nat} {c c' : Cursor}
    {trees : List Tree} (h : deriveAll f (s :: rest) id c = (.ok trees, c')) :
    ∃ t ts d, trees = t :: ts ∧ deriveAll f rest (id + 1) d = (.ok ts, c') ∧
      (s = Symbol.epsilon ∧ t = .leaf id Symbol.epsilon ∧ d = c ∨
        s ≠ Symbol.epsilon ∧ f s id c = (.ok t, d)) := by
  have hattach : ∀ t d, attach t (deriveAll f rest (id + 1) d) = (.ok trees, c') →
      ∃ ts, trees = t :: ts ∧ deriveAll f rest (id + 1) d = (.ok ts, c') := by
    intro t d ha
    rcases hd : deriveAll f rest (id + 1) d with ⟨_ | ts, e⟩
    · rw [hd] at ha
      cases ha
    · rw [hd] at ha
      cases ha
      exact ⟨ts, rfl, rfl⟩
  by_cases hs : s = Symbol.epsilon
  · subst hs
    rw [deriveAll_epsilon] at h
    obtain ⟨ts, rfl, hts⟩ := hattach _ _ h
    exact ⟨_, ts, c, rfl, hts, .inl ⟨rfl, rfl, rfl⟩⟩
  · rw [deriveAll_cons hs] at h
    rcases hf : f s id c with ⟨_ | t, d⟩
    · rw [hf] at h
      cases h
    · rw [hf] at h
      obtain ⟨ts, rfl, hts⟩ := hattach _ _ h
      exact ⟨t, ts, d, rfl, hts, .inr ⟨hs, rfl⟩⟩

/-- A row that is derived has a place between any two parts of it. -/
theorem deriveAll_append_ok {p q : List Symbol} {id : Nat} {c c' : Cursor} {trees : List Tree}
    (h : deriveAll f (p ++ q) id c = (.ok trees, c')) :
    ∃ ts us d, deriveAll f p id c = (.ok ts, d) ∧
      deriveAll f q (id + p.length) d = (.ok us, c') := by
  induction p generalizing id c trees with
  | nil => exact ⟨[], trees, c, rfl, h⟩
  | cons s p ih =>
    obtain ⟨t, trees, d, rfl, hrest, hs⟩ := deriveAll_ok h
    obtain ⟨ts, us, d', hp, hq⟩ := ih hrest
    refine ⟨t :: ts, us, d', ?_, by rwa [List.length_cons, Nat.add_comm p.length, ← Nat.add_assoc]⟩
    rcases hs with ⟨rfl, rfl, rfl⟩ | ⟨hs, hd⟩
    · rw [deriveAll_epsilon, hp]
      rfl
    · rw [deriveAll_cons hs, hd]
      exact congrArg (attach t) hp

theorem attach_eq_error {t : Tree} {r : Except ParseError (List Tree) × Cursor} {e : ParseError}
    {c : Cursor} : attach t r = (.error e, c) ↔ r = (.error e, c) := by
  rcases r with ⟨_ | _, _⟩ <;> simp [attach, Except.map]

/-- A row that fails does so at one of its symbols, with those before it derived. -/
theorem deriveAll_error {p : List Symbol} {id : Nat} {c c' : Cursor} {e : ParseError}
    (h : deriveAll f p id c = (.error e, c')) :
    ∃ before s rest trees d, p = before ++ s :: rest ∧ s ≠ Symbol.epsilon ∧
      deriveAll f before id c = (.ok trees, d) ∧
      f s (id + before.length) d = (.error e, c') := by
  induction p generalizing id c with
  | nil => cases h
  | cons s p ih =>
    by_cases hs : s = Symbol.epsilon
    · subst hs
      rw [deriveAll_epsilon, attach_eq_error] at h
      obtain ⟨before, s, rest, trees, d, rfl, hs, hbefore, hcall⟩ := ih h
      refine ⟨Symbol.epsilon :: before, s, rest, .leaf id Symbol.epsilon :: trees, d, rfl, hs,
        ?_, ?_⟩
      · rw [deriveAll_epsilon, hbefore]
        rfl
      · rwa [List.length_cons, Nat.add_comm before.length, ← Nat.add_assoc]
    · rcases hd : f s id c with ⟨e' | t, d⟩
      · rw [deriveAll_cons hs, hd] at h
        cases h
        exact ⟨[], s, p, [], c, rfl, hs, rfl, hd⟩
      · rw [deriveAll_cons hs, hd] at h
        obtain ⟨before, s', rest, trees, d', rfl, hs', hbefore, hcall⟩ := ih (attach_eq_error.1 h)
        refine ⟨s :: before, s', rest, t :: trees, d', rfl, hs', ?_, ?_⟩
        · rw [deriveAll_cons hs, hd]
          exact congrArg (attach t) hbefore
        · rwa [List.length_cons, Nat.add_comm before.length, ← Nat.add_assoc]

section Moves

variable {R : Cursor → Cursor → Prop}

theorem cursor_deriveAll (refl : ∀ c, R c c) (trans : ∀ {c d e}, R c d → R d e → R c e)
    (hf : ∀ s id c, R c (f s id c).2) (p : List Symbol) (id : Nat) (c : Cursor) :
    R c (deriveAll f p id c).2 := by
  induction p generalizing id c with
  | nil => exact refl c
  | cons s rest ih =>
    by_cases hs : s = Symbol.epsilon
    · subst hs
      rw [deriveAll_epsilon]
      exact ih (id + 1) c
    · have hfirst := hf s id c
      rw [deriveAll_cons hs]
      rcases hd : f s id c with ⟨e | t, d⟩
      · rw [hd] at hfirst
        exact hfirst
      · rw [hd] at hfirst
        exact trans hfirst (ih (id + 1) d)

/-- What each step does to the cursor, a whole derivation does, whether it succeeds or fails. -/
theorem cursor_derive (refl : ∀ c, R c c) (trans : ∀ {c d e}, R c d → R d e → R c e)
    (opened : ∀ c s p, R c (c.opened s p))
    (matched : ∀ c token, R c { c.asked with lookahead := token })
    (depth : Nat) (s : Symbol) (id : Nat) (c : Cursor) :
    R c (derive table depth s id c).2 := by
  induction depth generalizing s id c with
  | zero => exact refl c
  | succ depth ih =>
    by_cases hs : s = c.lookahead.kind
    · rw [derive_matched hs]
      cases c.get 1 with
      | error e => exact matched c c.lookahead
      | ok token => exact matched c token
    · cases hr : table.isRule s with
      | false =>
        rw [derive_mismatch hs hr]
        exact refl c
      | true =>
        cases hl : table.lookup s c.lookahead.kind with
        | none =>
          rw [derive_noProduction hs hr hl]
          exact refl c
        | some p =>
          rw [derive_expand hs hr hl]
          exact trans (opened c s p) (cursor_deriveAll refl trans ih p c.size _)

end Moves

theorem pulled_le_derive (table : Table) (depth : Nat) (s : Symbol) (id : Nat) (c : Cursor) :
    c.pulled ≤ (derive table depth s id c).2.pulled :=
  cursor_derive (R := fun c d => c.pulled ≤ d.pulled) (fun _ => Nat.le_refl _) Nat.le_trans
    (fun _ _ _ => Nat.le_refl _) (fun _ _ => Nat.le_succ _) depth s id c

section Induction

variable {R : Cursor → List Symbol → List Tree → Cursor → Prop}

theorem deriveAll_induct (nil : ∀ c, R c [] [] c)
    (epsilon : ∀ c id, R c [Symbol.epsilon] [.leaf id Symbol.epsilon] c)
    (append : ∀ c p trees c' p' trees' c'', R c p trees c' → R c' p' trees' c'' →
      R c (p ++ p') (trees ++ trees') c'')
    (single : ∀ s id c t c', s ≠ Symbol.epsilon → f s id c = (.ok t, c') → R c [s] [t] c')
    {p : List Symbol} {id : Nat} {c c' : Cursor} {trees : List Tree}
    (h : deriveAll f p id c = (.ok trees, c')) : R c p trees c' := by
  induction p generalizing id c trees with
  | nil =>
    cases h
    exact nil _
  | cons s rest ih =>
    obtain ⟨t, trees, d, rfl, hrest, ht⟩ := deriveAll_ok h
    refine append c [s] [t] d rest trees c' ?_ (ih hrest)
    rcases ht with ⟨rfl, rfl, rfl⟩ | ⟨hs, ht⟩
    · exact epsilon _ id
    · exact single s id c t d hs ht

/-- What holds of a match and carries over from the symbols of a production to its rule holds of
every symbol that is derived. -/
theorem derive_induct (nil : ∀ c, R c [] [] c)
    (epsilon : ∀ c id, R c [Symbol.epsilon] [.leaf id Symbol.epsilon] c)
    (append : ∀ c p trees c' p' trees' c'', R c p trees c' → R c' p' trees' c'' →
      R c (p ++ p') (trees ++ trees') c'')
    (matched : ∀ c c' id, c.lookahead.kind ≠ Symbol.epsilon → c.Reads [c.lookahead] c' →
      R c [c.lookahead.kind]
        [.node ⟨id, c.lookahead.kind, c.lookahead.literal, some c.lookahead.line⟩ []] c')
    (expand : ∀ c c' id s p children, table.lookup s c.lookahead.kind = some p →
      R (c.opened s p) p children c' → R c [s] [.node ⟨id, s, none, none⟩ children] c')
    {depth id : Nat} {s : Symbol} {c c' : Cursor} {t : Tree} (hs : s ≠ Symbol.epsilon)
    (h : derive table depth s id c = (.ok t, c')) : R c [s] [t] c' := by
  induction depth generalizing s id c c' t with
  | zero => cases h
  | succ depth ih =>
    rcases derive_ok h with ⟨rfl, hreads, rfl⟩ | ⟨d, p, children, hd, hl, hall, rfl⟩
    · exact matched c c' id hs hreads
    · obtain rfl := Nat.succ.inj hd
      exact expand c c' id s p children hl
        (deriveAll_induct nil epsilon append (fun s id c t c' hs ht => ih hs ht) hall)

end Induction

theorem reads_derive {depth id : Nat} {s : Symbol} {c c' : Cursor} {t : Tree}
    (hs : s ≠ Symbol.epsilon) (h : derive table depth s id c = (.ok t, c')) :
    ∃ ts, c.Reads ts c' := by
  refine derive_induct (R := fun c _ _ c' => ∃ ts, c.Reads ts c') (fun c => ⟨[], .refl c⟩)
    (fun c _ => ⟨[], .refl c⟩) ?_ (fun c c' _ _ hreads => ⟨_, hreads⟩) ?_ hs h
  · rintro c - - c' - - c'' ⟨ts, hreads⟩ ⟨ts', hreads'⟩
    exact ⟨ts ++ ts', hreads.append hreads'⟩
  · rintro c c' - s p - - ⟨ts, hreads⟩
    exact ⟨ts, hreads.of_opened⟩

theorem reads_deriveAll {depth id : Nat} {p : List Symbol} {c c' : Cursor} {trees : List Tree}
    (h : deriveAll (derive table depth) p id c = (.ok trees, c')) : ∃ ts, c.Reads ts c' := by
  refine deriveAll_induct (R := fun c _ _ c' => ∃ ts, c.Reads ts c') (fun c => ⟨[], .refl c⟩)
    (fun c _ => ⟨[], .refl c⟩) ?_ (fun s id c t c' hs ht => reads_derive hs ht) h
  rintro c - - c' - - c'' ⟨ts, hreads⟩ ⟨ts', hreads'⟩
  exact ⟨ts ++ ts', hreads.append hreads'⟩

theorem parse_of_error {stream rest : TokenStream} {e : LexicalError}
    (h : stream.next = (.error e, rest)) (start : Symbol) :
    parse table start stream = ⟨.error (.lexical e), 1, []⟩ := by
  unfold parse
  rw [h]

theorem parse_eq {stream rest : TokenStream} {token : Token} (h : stream.next = (.ok token, rest))
    (start : Symbol) :
    parse table start stream =
      let r := derive table (depthBound table stream) start 1 (.first token rest)
      ⟨r.1.map Tree.rooted, r.2.pulled, r.2.steps.reverse⟩ := by
  unfold parse
  rw [h]
  rfl

theorem parse_ok {stream : TokenStream} {start : Symbol} {tree : Tree} {pulled : Nat}
    {steps : List Step} (h : parse table start stream = ⟨.ok tree, pulled, steps⟩) :
    ∃ token rest t c, stream.next = (.ok token, rest) ∧
      derive table (depthBound table stream) start 1 (.first token rest) = (.ok t, c) ∧
      tree = .rooted t ∧ pulled = c.pulled ∧ steps = c.steps.reverse := by
  rcases hn : stream.next with ⟨_ | token, rest⟩
  · rw [parse_of_error hn] at h
    cases h
  · rw [parse_eq hn] at h
    rcases hd : derive table (depthBound table stream) start 1 (.first token rest) with ⟨_ | t, c⟩
    · rw [hd] at h
      cases h
    · rw [hd] at h
      cases h
      exact ⟨token, rest, t, c, rfl, hd, rfl, rfl, rfl⟩

end Derivation

end Lookahead
