import Lookahead.Proofs.Derivation.Depth

namespace Lookahead

def SyntaxError.found : SyntaxError → Token
  | mismatch _ found => found
  | noProduction _ found => found

namespace Derivation

variable {table : Table} {f : Symbol → Nat → Derivation Tree} {n : Nat}

/-- The cursors differ at most in what their streams give after the first `n` results. -/
structure Cursor.Alike (n : Nat) (c c' : Cursor) : Prop where
  lookahead : c'.lookahead = c.lookahead
  pulled : c'.pulled = c.pulled
  size : c'.size = c.size
  steps : c'.steps = c.steps
  ahead : ∀ i, c.pulled + i < n → c'.stream.get i = c.stream.get i

namespace Cursor.Alike

variable {c c' : Cursor}

theorem opened (h : c.Alike n c') (s : Symbol) (p : Production) :
    (c.opened s p).Alike n (c'.opened s p) where
  lookahead := h.lookahead
  pulled := h.pulled
  size := congrArg (· + p.length) h.size
  steps := by rw [Cursor.opened, Cursor.opened, h.lookahead, h.steps]
  ahead := h.ahead

theorem asked (h : c.Alike n c') : c.asked.Alike n c'.asked where
  lookahead := h.lookahead
  pulled := congrArg (· + 1) h.pulled
  size := h.size
  steps := by rw [Cursor.asked, Cursor.asked, h.lookahead, h.steps]
  ahead i hi := by
    have hi' : c.pulled + 1 + i < n := hi
    simp only [Cursor.asked, TokenStream.get_next]
    apply h.ahead
    omega

theorem facing (h : c.Alike n c') (token : Token) :
    Cursor.Alike n { c with lookahead := token } { c' with lookahead := token } :=
  ⟨rfl, h.pulled, h.size, h.steps, h.ahead⟩

end Cursor.Alike

def Alike {α : Type} (n : Nat) (r r' : Except ParseError α × Cursor) : Prop :=
  r'.1 = r.1 ∧ r.2.Alike n r'.2

theorem Alike.map {α β : Type} {r r' : Except ParseError α × Cursor} (h : Alike n r r')
    (g : α → β) : Alike n (r.1.map g, r.2) (r'.1.map g, r'.2) :=
  ⟨congrArg (Except.map g) h.1, h.2⟩

theorem alike_deriveAll (hmono : ∀ s id c, c.pulled ≤ (f s id c).2.pulled)
    (hf : ∀ s id c c', c.Alike n c' → (f s id c).2.pulled ≤ n → Alike n (f s id c) (f s id c'))
    {p : List Symbol} {id : Nat} {c c' : Cursor} (h : c.Alike n c')
    (hn : (deriveAll f p id c).2.pulled ≤ n) :
    Alike n (deriveAll f p id c) (deriveAll f p id c') := by
  induction p generalizing id c c' with
  | nil => exact ⟨rfl, h⟩
  | cons s rest ih =>
    by_cases hs : s = Symbol.epsilon
    · subst hs
      rw [deriveAll_epsilon] at hn ⊢
      rw [deriveAll_epsilon]
      exact (ih h hn).map _
    · have hfirst := hf s id c c' h
      rw [deriveAll_cons hs] at hn ⊢
      rw [deriveAll_cons hs]
      generalize f s id c = r at hn hfirst ⊢
      generalize f s id c' = r' at hfirst ⊢
      rcases r with ⟨e | t, d⟩
      · obtain ⟨hresult, halike⟩ := hfirst hn
        rcases r' with ⟨e' | t', d'⟩
        · cases hresult
          exact ⟨rfl, halike⟩
        · cases hresult
      · -- The rest of the row only asks for more, so the first symbol stays below `n` too.
        have hle : d.pulled ≤ (deriveAll f rest (id + 1) d).2.pulled :=
          cursor_deriveAll (R := fun c d => c.pulled ≤ d.pulled) (fun _ => Nat.le_refl _)
            Nat.le_trans hmono rest (id + 1) d
        obtain ⟨hresult, halike⟩ := hfirst (hle.trans hn)
        rcases r' with ⟨e' | t', d'⟩
        · cases hresult
        · cases hresult
          exact (ih halike hn).map _

/-- A derivation that asks for no more than `n` results is the same on cursors that are alike up to
there. -/
theorem alike_derive {depth id : Nat} {s : Symbol} {c c' : Cursor} (h : c.Alike n c')
    (hn : (derive table depth s id c).2.pulled ≤ n) :
    Alike n (derive table depth s id c) (derive table depth s id c') := by
  induction depth generalizing s id c c' with
  | zero => exact ⟨rfl, h⟩
  | succ depth ih =>
    by_cases hs : s = c.lookahead.kind
    · -- A match asks for one result, which is still among those that agree.
      have hpulled : c.pulled + 0 < n := by
        rw [derive_matched hs] at hn
        cases hg : c.get 1 <;> rw [hg] at hn <;> exact hn
      have hget : c'.get 1 = c.get 1 := h.ahead 0 hpulled
      rw [derive_matched hs, derive_matched (h.lookahead ▸ hs), hget, h.lookahead]
      cases c.get 1 with
      | error e => exact ⟨rfl, h.asked⟩
      | ok token => exact ⟨rfl, h.asked.facing token⟩
    · have hs' : s ≠ c'.lookahead.kind := h.lookahead ▸ hs
      cases hr : table.isRule s with
      | false =>
        rw [derive_mismatch hs hr, derive_mismatch hs' hr, h.lookahead]
        exact ⟨rfl, h⟩
      | true =>
        cases hl : table.lookup s c.lookahead.kind with
        | none =>
          rw [derive_noProduction hs hr hl, derive_noProduction hs' hr (h.lookahead ▸ hl),
            h.lookahead]
          exact ⟨rfl, h⟩
        | some p =>
          rw [derive_expand hs hr hl] at hn ⊢
          rw [derive_expand hs' hr (h.lookahead ▸ hl), h.size]
          exact (alike_deriveAll (pulled_le_derive table depth) (fun s id c c' => ih) (h.opened s p)
            hn).map _

theorem pulled_parse_pos (start : Symbol) (stream : TokenStream) :
    0 < (parse table start stream).pulled := by
  rcases hnext : stream.next with ⟨e | token, rest⟩
  · rw [parse_of_error hnext]
    exact Nat.one_pos
  · rw [parse_eq hnext]
    exact pulled_le_derive _ _ _ _ (.first token rest)

/-- The outcome of a derivation that ends is a function of the results it asked for. -/
theorem parse_eq_of_agree {start : Symbol} {stream stream' : TokenStream}
    (hend : (parse table start stream).result ≠ .error .endless)
    (hagree : ∀ i < (parse table start stream).pulled, stream'.get i = stream.get i) :
    parse table start stream' = parse table start stream := by
  have hget := hagree 0 (pulled_parse_pos start stream)
  rw [← TokenStream.next_fst, ← TokenStream.next_fst] at hget
  rcases hnext : stream.next with ⟨e | token, rest⟩
  · have hnext' : stream'.next = (.error e, stream'.next.2) := Prod.ext (by rw [hget, hnext]) rfl
    rw [parse_of_error hnext, parse_of_error hnext']
  · obtain ⟨rest', hnext'⟩ : ∃ rest', stream'.next = (.ok token, rest') :=
      ⟨_, Prod.ext (by rw [hget, hnext]) rfl⟩
    rw [Ne, parse_eq_endless_iff hnext] at hend
    rw [parse_eq hnext] at hagree
    have hfirst : (Cursor.first token rest).Alike
        (derive table (depthBound table stream) start 1 (.first token rest)).2.pulled
        (.first token rest') := by
      refine ⟨rfl, rfl, rfl, rfl, fun i hi => ?_⟩
      have h := hagree (1 + i) hi
      rw [← Cursor.get_first hnext', ← Cursor.get_first hnext, Nat.add_comm] at h
      exact h
    obtain ⟨hresult, halike⟩ := alike_derive hfirst (Nat.le_refl _)
    -- The two bounds on the levels differ, but the levels of one are enough for both.
    have henough : ¬Exhausted
        (derive table (depthBound table stream) start 1 (.first token rest')) := by
      rwa [Exhausted, hresult]
    rw [parse_eq hnext, parse_eq hnext', derive_depthBound (Cursor.at_first hnext') henough]
    dsimp only
    rw [hresult, halike.pulled, halike.steps]

section Failure

/-- The result is the one that the error is about. -/
def IsCause (result : Except LexicalError Token) : ParseError → Prop
  | .lexical e => result = .error e
  | .rejected e => result = .ok e.found
  | .endless => True

variable {stream : TokenStream}

theorem isCause_derive {depth id j : Nat} {s : Symbol} {c c' : Cursor} {e : ParseError}
    (hat : c.At stream j) (h : derive table depth s id c = (.error e, c')) :
    ∃ k, c'.pulled = c.pulled + k ∧ IsCause (stream.get (j + k)) e := by
  induction depth generalizing s id j c c' with
  | zero =>
    cases h
    exact ⟨0, rfl, trivial⟩
  | succ depth ih =>
    by_cases hs : s = c.lookahead.kind
    · rw [derive_matched hs] at h
      cases hg : c.get 1 with
      | ok token =>
        rw [hg] at h
        cases h
      | error e =>
        rw [hg] at h
        cases h
        exact ⟨1, rfl, (hat 1).symm.trans hg⟩
    · have hfound : stream.get (j + 0) = .ok c.lookahead := (hat 0).symm
      cases hr : table.isRule s with
      | false =>
        rw [derive_mismatch hs hr] at h
        cases h
        exact ⟨0, rfl, hfound⟩
      | true =>
        cases hl : table.lookup s c.lookahead.kind with
        | none =>
          rw [derive_noProduction hs hr hl] at h
          cases h
          exact ⟨0, rfl, hfound⟩
        | some p =>
          rw [derive_expand hs hr hl] at h
          rcases hd : deriveAll (derive table depth) p c.size (c.opened s p) with ⟨e' | ts, d⟩ <;>
            rw [hd] at h <;> cases h
          -- The symbols before the one that fails take the cursor to where it stands.
          obtain ⟨before, s', rest, trees, d', -, -, hbefore, hcall⟩ := deriveAll_error hd
          obtain ⟨ts, hreads⟩ := reads_deriveAll hbefore
          have hreads := hreads.of_opened
          obtain ⟨k, hpulled, hcause⟩ := ih (hat.of_reads hreads) hcall
          refine ⟨ts.length + k, ?_, ?_⟩
          · rw [hpulled, hreads.pulled, Nat.add_assoc]
          · rwa [← Nat.add_assoc]

/-- The last result that a failing derivation asked for is what it fails at. -/
theorem isCause_parse {start : Symbol} {e : ParseError}
    (h : (parse table start stream).result = .error e) :
    IsCause (stream.get ((parse table start stream).pulled - 1)) e := by
  rcases hnext : stream.next with ⟨e' | token, rest⟩
  · have hfirst := stream.next_fst
    rw [hnext] at hfirst
    rw [parse_of_error hnext] at h ⊢
    cases h
    exact hfirst.symm
  · rw [parse_eq hnext] at h ⊢
    rcases hd : derive table (depthBound table stream) start 1 (.first token rest) with ⟨e' | t, c⟩
    · rw [hd] at h
      cases h
      obtain ⟨k, hpulled, hcause⟩ := isCause_derive (Cursor.at_first hnext) hd
      have hlast : c.pulled - 1 = 0 + k := by
        rw [hpulled]
        change 1 + k - 1 = 0 + k
        omega
      rwa [← hlast] at hcause
    · rw [hd] at h
      cases h

end Failure

end Derivation

end Lookahead
