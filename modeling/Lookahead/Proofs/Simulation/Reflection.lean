import Lookahead.Proofs.Simulation.Control

namespace Lookahead.Machine

open Source

variable {V : Type}

/-- Wherever the code stands, if the run from there ends then the execution of the piece ends. -/
def Reflected (I : Interpretation V) (code : List Quad) (x : Emission Unit) (piece : Piece) :
    Prop :=
  ∀ p n l after m fuel out, m.queue = [] → (quads x p n l ++ after) <:+ code →
    run I code fuel (quads x p n l ++ after) m = some out → ∃ env r, Runs I piece m.names env r

def ArmsReflected (I : Interpretation V) (code : List Quad) (arms : Arms) : Prop :=
  ∀ finish p n l after m fuel out, m.queue = [] →
    (quads (arms.lower finish) p n l ++ after) <:+ code → fromLabel finish code = some after →
    run I code fuel (quads (arms.lower finish) p n l ++ after) m = some out →
    ∃ env r, Runs I (.arms arms) m.names env r

section Loops

variable {I : Interpretation V} {code : List Quad} {body : Block}

theorem Reflected.round (h : Reflected I code body.lower (.block body)) (step : Option Update) :
    Reflected I code (roundOf body step) (.block body) := by
  cases step with
  | none => exact h
  | some u =>
    intro p n l after m fuel out hq hsuffix hrun
    rw [roundOf, quads_bind, List.append_assoc] at hsuffix hrun
    exact h p n l _ m fuel out hq hsuffix hrun

variable (hcode : (labelNames code).Nodup)

include hcode

theorem reflected_loop (condition : Expr) (step : Option Update)
    (hbody : Reflected I code body.lower (.block body)) :
    Reflected I code (Emission.loop condition (roundOf body step)) (.loop condition body step) := by
  intro p n l after m fuel out hq h hrun
  induction fuel using Nat.strongRecOn generalizing m with
  | _ fuel ih =>
    obtain ⟨m₁, hnames, hq₁, htrue, -⟩ := loop_test hcode condition (roundOf body step) hq h
    cases hc : I.truth (condition.eval I m.names) with
    | false => exact ⟨_, _, .loopExit hc⟩
    | true =>
      obtain ⟨k, hleads⟩ := htrue hc
      obtain ⟨left, -, hleft⟩ := (hleads fuel out).1 hrun
      obtain ⟨env₁, r, hround⟩ := hbody.round step _ _ _ _ m₁ left out hq₁ (round_suffix h) hleft
      rw [hnames] at hround
      cases r with
      | returned value => exact ⟨_, _, .loopReturned hc hround⟩
      | done =>
        obtain ⟨j, m₂, hnames₂, hq₂, hleads₂⟩ :=
          loop_round hcode hc (simulated_round step (simulated hcode hround)) rfl hq h
        obtain ⟨last, rfl, hlast⟩ := (hleads₂ fuel out).1 hrun
        obtain ⟨env', r, hrest⟩ := ih last (by omega) m₂ hq₂ hlast
        rw [hnames₂] at hrest
        exact ⟨_, _, .loopAgain hc hround hrest⟩

theorem reflected_doUntil (line : Option Nat) (condition : Expr)
    (hbody : Reflected I code body.lower (.block body)) :
    Reflected I code (Stmt.doUntil body line condition).lower
      (.stmt (.doUntil body line condition)) := by
  intro p n l after m fuel out hq h hrun
  induction fuel using Nat.strongRecOn generalizing m with
  | _ fuel ih =>
    have hsuffix := h
    have hstart := hrun
    rw [quads_doUntil_append] at hsuffix hstart
    obtain ⟨left, -, hleft⟩ := (leads_next (act_label _) fuel out).1 hstart
    obtain ⟨env₁, r, hround⟩ :=
      hbody _ _ _ _ m left out hq ((List.suffix_cons _ _).trans hsuffix) hleft
    cases r with
    | returned value => exact ⟨_, _, .doReturned hround⟩
    | done =>
      obtain ⟨k, m₁, hnames, hq₁, -, hfalse⟩ :=
        do_round hcode (simulated hcode hround) line condition rfl hq h
      cases hc : I.truth (condition.eval I env₁) with
      | true => exact ⟨_, _, .doUntil hround hc⟩
      | false =>
        obtain ⟨last, rfl, hlast⟩ := (hfalse hc fuel out).1 hrun
        obtain ⟨env', r, hrest⟩ := ih last (by omega) m₁ hq₁ hlast
        rw [hnames] at hrest
        exact ⟨_, _, .doAgain hround hc hrest⟩

end Loops

section Statements

variable {I : Interpretation V} {code : List Quad} (hcode : (labelNames code).Nodup)

include hcode

mutual

theorem reflected_stmt : ∀ s : Stmt, Reflected I code s.lower (.stmt s)
  | .simple _ => fun _ _ _ _ _ _ _ _ _ _ => ⟨_, _, .simple⟩
  | .cond arms => by
    intro p n l after m fuel out hq h hrun
    rw [quads_cond, List.append_assoc] at h hrun
    have hfinish := fromLabel_of_suffix hcode ((List.suffix_append _ _).trans h)
    obtain ⟨env, r, harms⟩ := reflected_arms arms _ p n (l + 1) _ m fuel out hq h hfinish hrun
    exact ⟨env, r, .cond harms⟩
  | .whileLoop condition body => by
    intro p n l after m fuel out hq h hrun
    obtain ⟨env, r, hloop⟩ :=
      reflected_loop hcode condition none (reflected_block body) p n l after m fuel out hq h hrun
    exact ⟨env, r, .whileLoop hloop⟩
  | .forLoop init condition step body => by
    intro p n l after m fuel out hq h hrun
    rw [Stmt.lower, quads_bind, List.append_assoc] at h hrun
    obtain ⟨k, m₁, hleads, hnames, hq₁⟩ := (settles_decl init hq).leads n code
      (quads (Emission.loop condition (roundOf body (some step))) p (init.lower n).temps l ++ after)
    rw [quads_straight] at hrun
    obtain ⟨left, rfl, hleft⟩ := (hleads fuel out).1 hrun
    obtain ⟨env, r, hloop⟩ := reflected_loop hcode condition (some step) (reflected_block body)
      p _ l after m₁ left out hq₁ ((List.suffix_append _ _).trans h) hleft
    rw [hnames] at hloop
    exact ⟨env, r, .forLoop hloop⟩
  | .doUntil body line condition => reflected_doUntil hcode line condition (reflected_block body)

theorem reflected_block : ∀ b : Block, Reflected I code b.lower (.block b)
  | .nil => fun _ _ _ _ _ _ _ _ _ _ => ⟨_, _, .nil⟩
  | .cons line s rest => by
    intro p n l after m fuel out hq h hrun
    rw [Block.lower, quads_bind, quads_withLine, List.append_assoc] at h hrun
    obtain ⟨env, r, hs⟩ := reflected_stmt s _ _ _ _ m fuel out hq h hrun
    cases r with
    | returned value => exact ⟨_, _, .consReturned hs⟩
    | done =>
      obtain ⟨k, m₁, hleads, rfl, hq₁⟩ := simulated hcode hs _ _ _ _ m rfl hq h
      obtain ⟨left, rfl, hleft⟩ := (hleads fuel out).1 hrun
      obtain ⟨env', r, hrest⟩ := reflected_block rest _ _ _ after m₁ left out hq₁
        ((List.suffix_append _ _).trans h) hleft
      exact ⟨env', r, .cons hs hrest⟩

theorem reflected_arms : ∀ a : Arms, ArmsReflected I code a
  | .done => fun _ _ _ _ _ _ _ _ _ _ _ _ => ⟨_, _, .armsDone⟩
  | .otherwise body => by
    intro finish p n l after m fuel out hq h _ hrun
    obtain ⟨env, r, hbody⟩ :=
      reflected_block body ⟨p.line, some .elseBranch⟩ n l after m fuel out hq h hrun
    exact ⟨env, r, .otherwise hbody⟩
  | .arm line condition body rest => by
    intro finish p n l after m fuel out hq h hfinish hrun
    obtain ⟨m₁, p₁, n₁, l₁, tail, p₂, n₂, l₂, hnames, hq₁, hbody, hrest, htrue, hfalse⟩ :=
      arm_test hcode finish line condition body rest hq h hfinish
    cases hc : I.truth (condition.eval I m.names) with
    | true =>
      obtain ⟨k, hleads⟩ := htrue hc
      obtain ⟨left, rfl, hleft⟩ := (hleads fuel out).1 hrun
      obtain ⟨env, r, hruns⟩ := reflected_block body p₁ n₁ l₁ _ m₁ left out hq₁ hbody hleft
      rw [hnames] at hruns
      exact ⟨env, r, .armTrue hc hruns⟩
    | false =>
      obtain ⟨k, hleads⟩ := hfalse hc
      obtain ⟨left, rfl, hleft⟩ := (hleads fuel out).1 hrun
      obtain ⟨env, r, hruns⟩ :=
        reflected_arms rest finish p₂ n₂ l₂ after m₁ left out hq₁ hrest hfinish hleft
      rw [hnames] at hruns
      exact ⟨env, r, .armFalse hc hruns⟩

end

end Statements

end Lookahead.Machine
