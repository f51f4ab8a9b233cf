import Lookahead.Proofs.Simulation.Straight

namespace Lookahead.Machine

open Source

variable {V : Type}

def quads (x : Emission Unit) (p : Provenance) (n l : Nat) : List Quad :=
  (x p n l).code.map Prod.fst

def labelNames (code : List Quad) : List String := code.filterMap Quad.labelName?

/-- A jump to a label that has a single place goes there. -/
theorem fromLabel_of_suffix {code rest : List Quad} {target : String}
    (hcode : (labelNames code).Nodup) (h : (.label target :: rest) <:+ code) :
    fromLabel target code = some (.label target :: rest) := by
  obtain ⟨before, rfl⟩ := h
  induction before with
  | nil => exact if_pos rfl
  | cons q before ih =>
    rw [List.cons_append] at hcode ⊢
    have hne : q.labelName? ≠ some target := by
      intro hq
      rw [labelNames, List.filterMap_cons_some hq] at hcode
      apply (List.nodup_cons.1 hcode).1
      exact List.mem_filterMap.2 ⟨.label target, List.mem_append_right _ List.mem_cons_self, rfl⟩
    rw [fromLabel, if_neg hne]
    apply ih
    rw [labelNames] at hcode ⊢
    exact hcode.sublist ((List.sublist_cons_self q _).filterMap _)

/-- How a run of `rest` from `m` ends: at `after` with the given variables, or with a return. -/
def Ends (I : Interpretation V) (code rest : List Quad) (m : Memory V) (after : List Quad)
    (env : Env V) : Ending V → Prop
  | .done => ∃ k m', Leads I code k rest m after m' ∧ m'.names = env ∧ m'.queue = []
  | .returned value => ∃ k, Stops I code k rest m (env, .returned value)

section Ends

variable {I : Interpretation V} {code rest rest' after after' : List Quad} {m m' : Memory V}
  {k : Nat} {env : Env V} {r : Ending V}

theorem Leads.ends (h : Leads I code k rest m rest' m') (h' : Ends I code rest' m' after env r) :
    Ends I code rest m after env r := by
  cases r with
  | done =>
    obtain ⟨k', m'', hleads, hnames⟩ := h'
    exact ⟨_, m'', h.trans hleads, hnames⟩
  | returned value =>
    obtain ⟨k', hstops⟩ := h'
    exact ⟨_, h.stops hstops⟩

/-- What comes behind the end of one piece may lead on. -/
theorem Ends.trans (h : Ends I code rest m after env r)
    (h' : ∀ m', ∃ k, Leads I code k after m' after' m') : Ends I code rest m after' env r := by
  cases r with
  | done =>
    obtain ⟨k, m', hleads, hnames⟩ := h
    obtain ⟨k', hleads'⟩ := h' m'
    exact ⟨_, m', hleads.trans hleads', hnames⟩
  | returned value => exact h

end Ends

section Layout

variable (p : Provenance) (n l : Nat)

theorem quads_straight (x : Emit Unit) : quads (Emission.straight x) p n l = (x n).code :=
  Emission.map_fst_straight p n l x

theorem quads_bind (x y : Emission Unit) :
    quads (x >>= fun _ => y) p n l =
      quads x p n l ++ quads y p (x p n l).temps (x p n l).labels :=
  Emission.map_fst_bind p n l x fun _ => y

theorem quads_pure_bind (name : String) (f : String → Emission Unit) :
    quads (pure name >>= f) p n l = quads (f name) p n l := rfl

theorem quads_newLabel_bind (f : String → Emission Unit) :
    quads (Emission.newLabel >>= f) p n l = quads (f (labelText l)) p n (l + 1) := rfl

theorem quads_withLine (line : Option Nat) (x : Emission Unit) :
    quads (Emission.withLine line x) p n l = quads x ⟨line <|> p.line, p.component⟩ n l := rfl

theorem quads_withComponent (component : Component) (x : Emission Unit) :
    quads (Emission.withComponent component x) p n l = quads x ⟨p.line, some component⟩ n l := rfl

theorem quads_glue (q : Quad) : quads (Emission.glue q) p n l = [q] := rfl

theorem quads_test (condition : Expr) (target : String) :
    quads (Emission.test condition target) p n l =
      (condition.lower n).code ++ [.ifFalse (condition.lower n).result target] :=
  quads_straight _ n l _

theorem quads_loop (condition : Expr) (body : Emission Unit) :
    quads (Emission.loop condition body) p n l =
      .label (labelText l) :: ((condition.lower n).code ++
        .ifFalse (condition.lower n).result (labelText (l + 1)) ::
        (quads body ⟨p.line, some .loopBody⟩ (condition.lower n).temps (l + 2) ++
          [.goto (labelText l), .label (labelText (l + 1))])) := by
  simp only [Emission.loop, quads_newLabel_bind, quads_bind, quads_glue, quads_test,
    quads_withComponent, List.append_assoc]
  rfl

theorem quads_doUntil (body : Block) (line : Option Nat) (condition : Expr) :
    quads (Stmt.doUntil body line condition).lower p n l =
      let c := body.lower ⟨p.line, some .loopBody⟩ n (l + 1)
      .label (labelText l) :: (quads body.lower ⟨p.line, some .loopBody⟩ n (l + 1) ++
        ((condition.lower c.temps).code ++
          [.ifFalse (condition.lower c.temps).result (labelText l)])) := by
  simp only [Stmt.lower, quads_newLabel_bind, quads_bind, quads_glue, quads_test,
    quads_withComponent, quads_withLine]
  rfl

theorem quads_cond (arms : Arms) :
    quads (Stmt.cond arms).lower p n l =
      quads (arms.lower (labelText l)) p n (l + 1) ++ [.label (labelText l)] := by
  simp only [Stmt.lower, quads_newLabel_bind, quads_bind, quads_glue]

theorem quads_arm_last (finish : String) (line : Option Nat) (condition : Expr)
    (body : Emission Unit) :
    quads (Emission.arm true finish line condition body) p n l =
      (condition.lower n).code ++ .ifFalse (condition.lower n).result finish ::
        (quads body ⟨p.line, some .thenBranch⟩ (condition.lower n).temps l ++ [.goto finish]) := by
  simp only [Emission.arm, if_true, quads_pure_bind, quads_bind, quads_withLine, quads_test,
    quads_withComponent, quads_glue, List.append_assoc]
  rfl

theorem quads_arm (finish : String) (line : Option Nat) (condition : Expr)
    (body : Emission Unit) :
    quads (Emission.arm false finish line condition body) p n l =
      (condition.lower n).code ++ .ifFalse (condition.lower n).result (labelText l) ::
        (quads body ⟨p.line, some .thenBranch⟩ (condition.lower n).temps (l + 1) ++
          [.goto finish, .label (labelText l)]) := by
  simp only [Emission.arm, Bool.false_eq_true, if_false, quads_newLabel_bind, quads_bind,
    quads_withLine, quads_test, quads_withComponent, quads_glue, List.append_assoc]
  rfl

theorem quads_arms (finish : String) (line : Option Nat) (condition : Expr) (body : Block)
    (rest : Arms) :
    quads ((Arms.arm line condition body rest).lower finish) p n l =
      let c := Emission.arm rest.isDone finish line condition body.lower p n l
      quads (Emission.arm rest.isDone finish line condition body.lower) p n l ++
        quads (rest.lower finish) p c.temps c.labels := by
  rw [Arms.lower, quads_bind]

theorem quads_simple (s : Simple) : quads (Stmt.simple s).lower p n l = (s.lower n).code := by
  rw [Stmt.lower, quads_bind, quads_straight]
  exact List.append_nil _

end Layout

def roundOf (body : Block) (step : Option Update) : Emission Unit :=
  match step with
  | none => body.lower
  | some u => do
    body.lower
    Emission.straight u.lower

section Suffix

variable {code after : List Quad} {p : Provenance} {n l : Nat}

/-- A round of a loop stands before the jump back and the end of the loop. -/
theorem round_suffix {condition : Expr} {round : Emission Unit}
    (h : (quads (Emission.loop condition round) p n l ++ after) <:+ code) :
    (quads round ⟨p.line, some .loopBody⟩ (condition.lower n).temps (l + 2) ++
      .goto (labelText l) :: .label (labelText (l + 1)) :: after) <:+ code := by
  simp only [quads_loop, List.cons_append, List.append_assoc, List.nil_append] at h
  refine List.IsSuffix.trans ?_ h
  exact (List.suffix_cons _ _).trans ((List.suffix_append _ _).trans (List.suffix_cons _ _))

/-- What comes behind the start of a loop that tests last: its body and its test. -/
def doRest (body : Block) (condition : Expr) (p : Provenance) (n l : Nat) (after : List Quad) :
    List Quad :=
  let k := (body.lower ⟨p.line, some .loopBody⟩ n (l + 1)).temps
  quads body.lower ⟨p.line, some .loopBody⟩ n (l + 1) ++
    ((condition.lower k).code ++ .ifFalse (condition.lower k).result (labelText l) :: after)

theorem quads_doUntil_append (body : Block) (line : Option Nat) (condition : Expr) :
    quads (Stmt.doUntil body line condition).lower p n l ++ after =
      .label (labelText l) :: doRest body condition p n l after := by
  simp only [quads_doUntil, doRest, List.cons_append, List.append_assoc, List.nil_append]

end Suffix

section Steps

variable {I : Interpretation V} {code : List Quad} (hcode : (labelNames code).Nodup)
  {p : Provenance} {n l : Nat} {after : List Quad} {m : Memory V}

include hcode

/-- A loop tests its condition and goes on with a round or behind its end. -/
theorem loop_test (condition : Expr) (round : Emission Unit) (hq : m.queue = [])
    (h : (quads (Emission.loop condition round) p n l ++ after) <:+ code) :
    ∃ m', m'.names = m.names ∧ m'.queue = [] ∧
      (I.truth (condition.eval I m.names) = true →
        ∃ k, Leads I code k (quads (Emission.loop condition round) p n l ++ after) m
          (quads round ⟨p.line, some .loopBody⟩ (condition.lower n).temps (l + 2) ++
            .goto (labelText l) :: .label (labelText (l + 1)) :: after) m') ∧
      (I.truth (condition.eval I m.names) = false →
        ∃ k, Leads I code k (quads (Emission.loop condition round) p n l ++ after) m after m') := by
  simp only [quads_loop, List.cons_append, List.append_assoc, List.nil_append]
  obtain ⟨k, m', hnames, hq', htrue, hfalse⟩ := exists_leads_test (I := I) condition n hq code
    (quads round ⟨p.line, some .loopBody⟩ (condition.lower n).temps (l + 2) ++
      .goto (labelText l) :: .label (labelText (l + 1)) :: after) (labelText (l + 1))
  have hend : fromLabel (labelText (l + 1)) code = some (.label (labelText (l + 1)) :: after) :=
    fromLabel_of_suffix hcode
      (((List.suffix_cons _ _).trans (List.suffix_append _ _)).trans (round_suffix h))
  exact ⟨m', hnames, hq', fun hc => ⟨_, (leads_next (act_label _)).trans (htrue hc)⟩, fun hc =>
    ⟨_, (leads_next (act_label _)).trans ((hfalse _ hc hend).trans (leads_next (act_label _)))⟩⟩

/-- The end of a round goes back to the test. -/
theorem loop_back (condition : Expr) (round : Emission Unit) (rest : List Quad)
    (h : (quads (Emission.loop condition round) p n l ++ after) <:+ code) :
    Leads I code 1 (.goto (labelText l) :: rest) m
      (quads (Emission.loop condition round) p n l ++ after) m := by
  apply leads_jump (act_goto _)
  rw [quads_loop] at h ⊢
  exact fromLabel_of_suffix hcode h

/-- Behind the body of the loop, a false condition goes back to its start. -/
theorem do_test (body : Block) (line : Option Nat) (condition : Expr) (k : Nat)
    (hq : m.queue = [])
    (h : (quads (Stmt.doUntil body line condition).lower p n l ++ after) <:+ code) :
    ∃ j m', m'.names = m.names ∧ m'.queue = [] ∧
      (I.truth (condition.eval I m.names) = true →
        Leads I code j ((condition.lower k).code ++
          .ifFalse (condition.lower k).result (labelText l) :: after) m after m') ∧
      (I.truth (condition.eval I m.names) = false →
        Leads I code j ((condition.lower k).code ++
          .ifFalse (condition.lower k).result (labelText l) :: after) m
          (quads (Stmt.doUntil body line condition).lower p n l ++ after) m') := by
  obtain ⟨j, m', hnames, hq', htrue, hfalse⟩ :=
    exists_leads_test (I := I) condition k hq code after (labelText l)
  refine ⟨j, m', hnames, hq', htrue, fun hc => hfalse _ hc ?_⟩
  rw [quads_doUntil_append] at h ⊢
  exact fromLabel_of_suffix hcode h

/-- An arm tests its condition and goes on with its block, behind which it goes to the end, or with
the arms that are left. -/
theorem arm_test (finish : String) (line : Option Nat) (condition : Expr) (body : Block)
    (rest : Arms) (hq : m.queue = [])
    (h : (quads ((Arms.arm line condition body rest).lower finish) p n l ++ after) <:+ code)
    (hfinish : fromLabel finish code = some after) :
    ∃ m' p₁ n₁ l₁ tail p₂ n₂ l₂, m'.names = m.names ∧ m'.queue = [] ∧
      (quads body.lower p₁ n₁ l₁ ++ .goto finish :: tail) <:+ code ∧
      (quads (rest.lower finish) p₂ n₂ l₂ ++ after) <:+ code ∧
      (I.truth (condition.eval I m.names) = true →
        ∃ k, Leads I code k
          (quads ((Arms.arm line condition body rest).lower finish) p n l ++ after) m
          (quads body.lower p₁ n₁ l₁ ++ .goto finish :: tail) m') ∧
      (I.truth (condition.eval I m.names) = false →
        ∃ k, Leads I code k
          (quads ((Arms.arm line condition body rest).lower finish) p n l ++ after) m
          (quads (rest.lower finish) p₂ n₂ l₂ ++ after) m') := by
  rw [quads_arms] at h ⊢
  dsimp only at h ⊢
  cases hdone : rest.isDone with
  | true =>
    obtain rfl : rest = .done := by
      cases rest with
      | done => rfl
      | otherwise | arm => cases hdone
    rw [hdone] at h
    simp only [quads_arm_last, List.cons_append, List.append_assoc, List.nil_append] at h ⊢
    obtain ⟨k, m', hnames, hq', htrue, hfalse⟩ := exists_leads_test (I := I) condition n hq code
      (quads body.lower ⟨p.line, some .thenBranch⟩ (condition.lower n).temps l ++
        .goto finish :: after) finish
    exact ⟨m', _, _, _, after, p, n, l, hnames, hq',
      ((List.suffix_cons _ _).trans (List.suffix_append _ _)).trans h,
      (List.suffix_cons _ _).trans ((List.suffix_append _ _).trans
        (((List.suffix_cons _ _).trans (List.suffix_append _ _)).trans h)),
      fun hc => ⟨k, htrue hc⟩, fun hc => ⟨k, hfalse after hc hfinish⟩⟩
  | false =>
    rw [hdone] at h
    simp only [quads_arm, List.cons_append, List.append_assoc, List.nil_append] at h ⊢
    have hnext := ((List.suffix_cons _ _).trans (List.suffix_append _ _)).trans h
    have hlabel := ((List.suffix_cons _ _).trans (List.suffix_append _ _)).trans hnext
    obtain ⟨k, m', hnames, hq', htrue, hfalse⟩ := exists_leads_test (I := I) condition n hq code
      _ (labelText l)
    exact ⟨m', _, _, _, _, p, _, _, hnames, hq', hnext, (List.suffix_cons _ _).trans hlabel,
      fun hc => ⟨k, htrue hc⟩,
      fun hc => ⟨_, (hfalse _ hc (fromLabel_of_suffix hcode hlabel)).trans
        (leads_next (act_label _))⟩⟩

end Steps

/-- Wherever the code stands, running it from `env` ends as the source says. -/
def Simulated (I : Interpretation V) (code : List Quad) (x : Emission Unit) (env env' : Env V)
    (r : Ending V) : Prop :=
  ∀ p n l after m, m.names = env → m.queue = [] → (quads x p n l ++ after) <:+ code →
    Ends I code (quads x p n l ++ after) m after env' r

/-- The code of the pieces. The arms of a conditional end at the label behind them. -/
def PieceSimulated (I : Interpretation V) (code : List Quad) :
    Piece → Env V → Env V → Ending V → Prop
  | .stmt s => Simulated I code s.lower
  | .block b => Simulated I code b.lower
  | .loop condition body step => Simulated I code (Emission.loop condition (roundOf body step))
  | .arms arms => fun env env' r => ∀ finish p n l after m, m.names = env → m.queue = [] →
      (quads (arms.lower finish) p n l ++ after) <:+ code → fromLabel finish code = some after →
      Ends I code (quads (arms.lower finish) p n l ++ after) m after env' r

section Simulated

variable {I : Interpretation V} {code : List Quad} {x y : Emission Unit} {env env₁ env' : Env V}
  {r : Ending V}

theorem Simulated.bind (hx : Simulated I code x env env₁ .done)
    (hy : Simulated I code y env₁ env' r) :
    Simulated I code (x >>= fun _ => y) env env' r := by
  intro p n l after m hm hq h
  rw [quads_bind, List.append_assoc] at h ⊢
  obtain ⟨k, m', hleads, hnames, hq'⟩ := hx p n l _ m hm hq h
  exact hleads.ends (hy _ _ _ after m' hnames hq' ((List.suffix_append _ _).trans h))

theorem Simulated.bind_returned {value : Option V}
    (hx : Simulated I code x env env' (.returned value)) :
    Simulated I code (x >>= fun _ => y) env env' (.returned value) := by
  intro p n l after m hm hq h
  rw [quads_bind, List.append_assoc] at h ⊢
  exact hx p n l _ m hm hq h

theorem simulated_straight {u : Emit Unit}
    (h : ∀ m : Memory V, m.names = env → m.queue = [] → Settles I u m env') :
    Simulated I code (Emission.straight u) env env' .done := by
  intro p n l after m hm hq _
  rw [quads_straight]
  exact (h m hm hq).leads n code after

theorem simulated_pure : Simulated I code (pure ()) env env .done :=
  fun _ _ _ after m hm hq _ => ⟨0, m, .refl after m, hm, hq⟩

theorem simulated_simple (s : Simple) :
    Simulated I code (Stmt.simple s).lower env (s.exec I env).1 (s.exec I env).2 := by
  intro p n l after m hm hq _
  subst hm
  rw [quads_simple]
  cases s with
  | ret value => exact stops_ret value n hq code after
  | declare d => exact (settles_decl d hq).leads n code after
  | update u => exact (settles_update u hq).leads n code after
  | call callee args => exact (settles_call callee args hq).leads n code after

theorem simulated_round {body : Block} (step : Option Update)
    (h : Simulated I code body.lower env env₁ .done) :
    Simulated I code (roundOf body step) env (step.elim env₁ (·.exec I env₁)) .done := by
  cases step with
  | none => exact h
  | some u =>
    refine h.bind (simulated_straight fun m hm hq => ?_)
    subst hm
    exact settles_update u hq

theorem simulated_round_returned {body : Block} {value : Option V} (step : Option Update)
    (h : Simulated I code body.lower env env' (.returned value)) :
    Simulated I code (roundOf body step) env env' (.returned value) := by
  cases step with
  | none => exact h
  | some u => exact h.bind_returned

end Simulated

section Forward

variable {I : Interpretation V} {code : List Quad} (hcode : (labelNames code).Nodup)
  {env env₁ env' : Env V} {r : Ending V} {condition : Expr} {body : Block} {step : Option Update}

include hcode

theorem simulated_loop_exit (hc : I.truth (condition.eval I env) = false) :
    Simulated I code (Emission.loop condition (roundOf body step)) env env .done := by
  intro p n l after m hm hq h
  subst hm
  obtain ⟨m', hnames, hq', -, hfalse⟩ := loop_test hcode condition (roundOf body step) hq h
  obtain ⟨k, hleads⟩ := hfalse hc
  exact ⟨k, m', hleads, hnames, hq'⟩

/-- A whole round of a loop, from its start to its start. -/
theorem loop_round {p : Provenance} {n l : Nat} {after : List Quad} {m : Memory V}
    (hc : I.truth (condition.eval I env) = true)
    (hround : Simulated I code (roundOf body step) env env₁ .done) (hm : m.names = env)
    (hq : m.queue = [])
    (h : (quads (Emission.loop condition (roundOf body step)) p n l ++ after) <:+ code) :
    ∃ k m', m'.names = env₁ ∧ m'.queue = [] ∧
      Leads I code (k + 1) (quads (Emission.loop condition (roundOf body step)) p n l ++ after) m
        (quads (Emission.loop condition (roundOf body step)) p n l ++ after) m' := by
  subst hm
  obtain ⟨m₁, hnames, hq₁, htrue, -⟩ := loop_test hcode condition (roundOf body step) hq h
  obtain ⟨k, hleads⟩ := htrue hc
  obtain ⟨j, m₂, hleads₂, hnames₂, hq₂⟩ := hround _ _ _ _ m₁ hnames hq₁ (round_suffix h)
  have hback := loop_back hcode (I := I) (m := m₂) condition (roundOf body step)
    (.label (labelText (l + 1)) :: after) h
  refine ⟨j + k, m₂, hnames₂, hq₂, ?_⟩
  rw [show j + k + 1 = 1 + j + k by omega]
  exact hleads.trans (hleads₂.trans hback)

theorem simulated_loop_again (hc : I.truth (condition.eval I env) = true)
    (hround : Simulated I code (roundOf body step) env env₁ .done)
    (hrest : Simulated I code (Emission.loop condition (roundOf body step)) env₁ env' r) :
    Simulated I code (Emission.loop condition (roundOf body step)) env env' r := by
  intro p n l after m hm hq h
  obtain ⟨k, m', hnames, hq', hleads⟩ := loop_round hcode hc hround hm hq h
  exact hleads.ends (hrest p n l after m' hnames hq' h)

theorem simulated_loop_returned {value : Option V} (hc : I.truth (condition.eval I env) = true)
    (hround : Simulated I code (roundOf body step) env env' (.returned value)) :
    Simulated I code (Emission.loop condition (roundOf body step)) env env' (.returned value) := by
  intro p n l after m hm hq h
  subst hm
  obtain ⟨m₁, hnames, hq₁, htrue, -⟩ := loop_test hcode condition (roundOf body step) hq h
  obtain ⟨k, hleads⟩ := htrue hc
  exact hleads.ends (hround _ _ _ _ m₁ hnames hq₁ (round_suffix h))

/-- A round of a loop that tests last, from its start behind its end or back to its start. -/
theorem do_round {p : Provenance} {n l : Nat} {after : List Quad} {m : Memory V}
    (hbody : Simulated I code body.lower env env₁ .done) (line : Option Nat) (condition : Expr)
    (hm : m.names = env) (hq : m.queue = [])
    (h : (quads (Stmt.doUntil body line condition).lower p n l ++ after) <:+ code) :
    ∃ k m', m'.names = env₁ ∧ m'.queue = [] ∧
      (I.truth (condition.eval I env₁) = true → Leads I code (k + 1)
        (quads (Stmt.doUntil body line condition).lower p n l ++ after) m after m') ∧
      (I.truth (condition.eval I env₁) = false → Leads I code (k + 1)
        (quads (Stmt.doUntil body line condition).lower p n l ++ after) m
        (quads (Stmt.doUntil body line condition).lower p n l ++ after) m') := by
  have hsuffix := h
  rw [quads_doUntil_append] at hsuffix
  obtain ⟨k, m₁, hleads, rfl, hq₁⟩ :=
    hbody _ _ _ _ m hm hq ((List.suffix_cons _ _).trans hsuffix)
  have hlabel : Leads I code 1 (.label (labelText l) :: doRest body condition p n l after) m
      (doRest body condition p n l after) m := leads_next (act_label _)
  rw [← quads_doUntil_append body line condition] at hlabel
  have hstart := hlabel.trans hleads
  obtain ⟨j, m₂, hnames, hq₂, htrue, hfalse⟩ := do_test (I := I) hcode body line condition
    (body.lower ⟨p.line, some .loopBody⟩ n (l + 1)).temps hq₁ h
  exact ⟨j + k, m₂, hnames, hq₂, fun hc => hstart.trans (htrue hc),
    fun hc => hstart.trans (hfalse hc)⟩

theorem simulated_do_again {line : Option Nat}
    (hbody : Simulated I code body.lower env env₁ .done)
    (hc : I.truth (condition.eval I env₁) = false)
    (hrest : Simulated I code (Stmt.doUntil body line condition).lower env₁ env' r) :
    Simulated I code (Stmt.doUntil body line condition).lower env env' r := by
  intro p n l after m hm hq h
  obtain ⟨k, m', hnames, hq', -, hfalse⟩ := do_round hcode hbody line condition hm hq h
  exact (hfalse hc).ends (hrest p n l after m' hnames hq' h)

theorem simulated_do_until {line : Option Nat}
    (hbody : Simulated I code body.lower env env' .done)
    (hc : I.truth (condition.eval I env') = true) :
    Simulated I code (Stmt.doUntil body line condition).lower env env' .done := by
  intro p n l after m hm hq h
  obtain ⟨k, m', hnames, hq', htrue, -⟩ := do_round hcode hbody line condition hm hq h
  exact ⟨_, m', htrue hc, hnames, hq'⟩

omit hcode in
theorem simulated_do_returned {line : Option Nat} {value : Option V}
    (hbody : Simulated I code body.lower env env' (.returned value)) :
    Simulated I code (Stmt.doUntil body line condition).lower env env' (.returned value) := by
  intro p n l after m hm hq h
  rw [quads_doUntil_append] at h ⊢
  exact (leads_next (act_label _)).ends
    (hbody _ _ _ _ m hm hq ((List.suffix_cons _ _).trans h))

/-- Code simulates every execution of its piece that ends. -/
theorem simulated {piece : Piece} (h : Runs I piece env env' r) :
    PieceSimulated I code piece env env' r := by
  induction h with
  | simple => exact simulated_simple _
  | cond _ ih =>
    intro p n l after m hm hq h
    rw [quads_cond, List.append_assoc] at h ⊢
    have hfinish := fromLabel_of_suffix hcode ((List.suffix_append _ _).trans h)
    exact (ih _ p n (l + 1) _ m hm hq h hfinish).trans fun m' => ⟨1, leads_next (act_label _)⟩
  | whileLoop _ ih => exact ih
  | forLoop _ ih =>
    refine Simulated.bind (simulated_straight fun m hm hq => ?_) ih
    subst hm
    exact settles_decl _ hq
  | doAgain _ hc _ ihbody ihrest => exact simulated_do_again hcode ihbody hc ihrest
  | doUntil _ hc ihbody => exact simulated_do_until hcode ihbody hc
  | doReturned _ ihbody => exact simulated_do_returned ihbody
  | loopExit hc => exact simulated_loop_exit hcode hc
  | loopAgain hc _ _ ihbody ihrest =>
    exact simulated_loop_again hcode hc (simulated_round _ ihbody) ihrest
  | loopReturned hc _ ihbody =>
    exact simulated_loop_returned hcode hc (simulated_round_returned _ ihbody)
  | nil => exact simulated_pure
  | @cons line s rest env env₁ env' r _ _ ihs ihrest =>
    exact Simulated.bind (x := Emission.withLine line s.lower) (fun p => ihs _) ihrest
  | @consReturned line s rest env env' value _ ihs =>
    exact Simulated.bind_returned (x := Emission.withLine line s.lower) fun p => ihs _
  | armsDone => exact fun finish p n l after m hm hq _ _ => ⟨0, m, .refl after m, hm, hq⟩
  | otherwise _ ih => exact fun finish p n l after m hm hq h _ => ih _ n l after m hm hq h
  | armTrue hc _ ih =>
    intro finish p n l after m hm hq h hfinish
    subst hm
    obtain ⟨m', p₁, n₁, l₁, tail, p₂, n₂, l₂, hnames, hq', hbody, -, htrue, -⟩ :=
      arm_test hcode finish _ _ _ _ hq h hfinish
    obtain ⟨k, hleads⟩ := htrue hc
    exact hleads.ends ((ih p₁ n₁ l₁ _ m' hnames hq' hbody).trans fun m' =>
      ⟨1, leads_jump (act_goto _) hfinish⟩)
  | armFalse hc _ ih =>
    intro finish p n l after m hm hq h hfinish
    subst hm
    obtain ⟨m', p₁, n₁, l₁, tail, p₂, n₂, l₂, hnames, hq', -, hrest, -, hfalse⟩ :=
      arm_test hcode finish _ _ _ _ hq h hfinish
    obtain ⟨k, hleads⟩ := hfalse hc
    exact hleads.ends (ih finish p₂ n₂ l₂ after m' hnames hq' hrest hfinish)

end Forward

end Lookahead.Machine
