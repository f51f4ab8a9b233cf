import Lookahead.Proofs.Lowering.Stmt

namespace Lookahead.Lowering

open Source
open Lookahead.Tree (Parsed Unrolls)
open Failing (lift_ok)

section Params

theorem paramLowered {t : Tree} (h : Parsed .param t) (context : String) :
    ∃ x : Name, readParam t = some x ∧ t.ident 1 context = .ok x.text := by
  obtain ⟨info, children⟩ := t
  obtain ⟨p, hp, hf⟩ := h.forall₂ (List.cons_ne_nil _ _) fun c _ k hc => hc
  fin_cases hp
  rcases hf with _ | ⟨-, _ | ⟨hx, _ | _⟩⟩
  rename_i a b
  obtain ⟨x, hname, hliteral⟩ := hx.ident
  obtain ⟨found, h₁, hfound⟩ :=
    Tree.exists_expect (t := .node info [a, b]) (i := 1) rfl hx.kind_eq context
  refine ⟨x, hname, ?_⟩
  rw [Tree.ident, h₁]
  change found.tree.literal = _
  rw [hfound, hliteral]

def paramAt (node : Tree) : Except LoweringError String := do
  (← node.expect 1 .param "parameter list").tree.ident 1 "parameter"

theorem moreParamsLowered (t : Tree) (h : Parsed .paramTail t) :
    ∃ nodes xs, t.Unrolls nodes ∧ readMoreParams t = some xs ∧
      nodes.mapM paramAt = .ok (xs.map Name.text) := by
  induction t using Tree.induct with
  | node info children ih =>
    obtain ⟨p, hp, hf⟩ := h.forall₂ (List.cons_ne_nil _ _) fun c hc k hk => And.intro hc hk
    fin_cases hp
    · rcases hf with _ | ⟨ha, _ | ⟨hb, _ | ⟨hc, _ | _⟩⟩⟩
      rename_i a b c
      obtain ⟨x, hx, hident⟩ := paramLowered hb.2 "parameter"
      obtain ⟨nodes, xs, hnodes, hread, hmap⟩ := ih c hc.1 hc.2
      refine ⟨_, x :: xs,
        Tree.unrolls_cons h.kind_eq ha.2.kind_eq nofun rfl hc.2.kind_eq hnodes, ?_, ?_⟩
      · rw [readMoreParams, hx, hread]
        rfl
      · obtain ⟨found, h₁, hfound⟩ := Tree.exists_expect (t := .node info [a, b, c]) (i := 1) rfl
          hb.2.kind_eq "parameter list"
        have hparam : paramAt (.node info [a, b, c]) = .ok x.text := by
          rw [paramAt, h₁]
          change found.tree.ident 1 "parameter" = _
          rw [hfound, hident]
        rw [List.mapM_cons, hparam, hmap]
        rfl
    · rcases hf with _ | ⟨ha, _ | _⟩
      exact ⟨[], [], Tree.unrolls_nil h.kind_eq ha.2.kind_eq, rfl, rfl⟩

theorem paramsLowered {t : Tree} (h : Parsed .params t) :
    ∃ xs, readParams t = some xs ∧ paramNames t = .ok (xs.map Name.text) := by
  obtain ⟨info, children⟩ := t
  obtain ⟨p, hp, hf⟩ := h.forall₂ (List.cons_ne_nil _ _) fun c _ k hc => hc
  fin_cases hp
  · rcases hf with _ | ⟨ha, _ | ⟨hb, _ | _⟩⟩
    rename_i a b
    obtain ⟨x, hx, hident⟩ := paramLowered ha "parameter"
    obtain ⟨nodes, xs, ⟨links, hlinks, rfl⟩, hread, hmap⟩ := moreParamsLowered b hb
    obtain ⟨first, h₀, hfirst⟩ :=
      Tree.exists_expect (t := .node info [a, b]) (i := 0) rfl ha.kind_eq "parameter list"
    obtain ⟨⟨tail, hlt⟩, h₁, htail⟩ :=
      Tree.exists_expect (t := .node info [a, b]) (i := 1) rfl hb.kind_eq "parameter list"
    change tail = b at htail
    subst htail
    refine ⟨x :: xs, ?_, ?_⟩
    · rw [readParams, hx, hread]
      rfl
    · rw [paramNames, Tree.isEmpty_node ha.kind_eq, h₀, h₁]
      change (first.tree.ident 1 "parameter" >>= fun first => tail.unroll >>= fun links =>
        links.mapM (fun link => paramAt link.tree) >>= fun rest => _) = _
      rw [hfirst, hident, hlinks]
      change (links.mapM (fun link => paramAt link.tree) >>= fun rest => _) = _
      change (links.mapM (paramAt ∘ fun link => link.tree) >>= fun rest => _) = _
      rw [← List.mapM_map, hmap]
      rfl
  · rcases hf with _ | ⟨ha, _ | _⟩
    refine ⟨[], rfl, ?_⟩
    rw [paramNames, Tree.isEmpty_node ha.kind_eq]
    rfl

end Params

/-- From a state between two functions, adds exactly the code, and maybe notes. -/
def Emits (act : Lowering Unit) (x : Emission Unit) : Prop :=
  ∀ s, s.scope = none → ∃ notes, act s = (.ok (), { (x.run s).2 with notes := notes })

theorem Emits.bind {act more : Lowering Unit} {x y : Emission Unit} (hx : Emits act x)
    (hy : Emits more y) : Emits (act >>= fun _ => more) (x >>= fun _ => y) := by
  intro s hs
  obtain ⟨notes, hact⟩ := hx s hs
  obtain ⟨notes', hmore⟩ := hy { (x.run s).2 with notes := notes } (by
    simp only [Emission.run, State.marked, hs, Option.map_none])
  refine ⟨notes', ?_⟩
  rw [Failing.bind_ok hact, hmore, Emission.run_bind, Failing.bind_ok (x := x.run) rfl]
  rfl

theorem run_moves (names : List Name) (n : Nat) :
    (moves n names).run = ((names.map Name.text).zipIdx n).forM fun entry =>
      emit (.assign (.name entry.1) (.param (entry.2 + 1))) := by
  induction names generalizing n with
  | nil => exact Emit.run_pure ()
  | cons x rest ih =>
    rw [moves, Emit.run_bind, Emit.run_emit, List.map_cons, List.zipIdx_cons, List.forM]
    exact bind_congr fun _ => ih (n + 1)

def lowerRead (entry : String) (f : Function) : Lowering Unit := do
  note (.entered f.name.text)
  let start := (← get).program.size
  emit (.label f.name.text)
  modify fun s => { s with scope := some ⟨f.name.text, start, false⟩ }
  f.inner.run
  let s ← get
  set { s with scope := none }
  if f.name.text ≠ entry && !s.scope.any (·.hasReturn) then
    let value := defaultReturn (s.program.code.toList.drop start)
    note (.defaultReturn f.name.text value)
    emit (.ret (some value))
  emit (.label (Program.endLabel f.name.text))

theorem lowerFunction_eq {info : Node} {a b c d e f : Tree} {x : Name} {params : List Name}
    {body : Block} (line : Option Nat) (entry : String) (hb : b.kind = .ok (.terminal .ident))
    (hx : b.literal = .ok x.text) (hd : d.kind = .ok .params)
    (hparams : paramNames d = .ok (params.map Name.text)) (hf : f.kind = .ok .block)
    (hbody : lowerBlock f = body.lower.run) :
    lowerFunction entry (.node info [a, b, c, d, e, f]) =
      lowerRead entry ⟨line, x, params, body⟩ := by
  rw [lowerFunction, Tree.ident_bind rfl hb hx]
  refine bind_congr fun _ => bind_congr fun s₁ => bind_congr fun _ => bind_congr fun _ => ?_
  refine Tree.expect_bind rfl hd fun _ => ?_
  rw [hparams, lift_ok, pure_bind, Function.inner, Emission.run_bind, Emission.run_straight,
    run_moves, bind_assoc]
  refine bind_congr fun _ => ?_
  refine Tree.expect_bind rfl hf fun _ => ?_
  rw [hbody]

/-- The code since the label of a function. -/
theorem drop_extend_emit (program : Program) (q : Quad) (p : Provenance)
    (code : List (Quad × Provenance)) :
    ((program.emit q p).extend code).code.toList.drop program.size = q :: code.map Prod.fst := by
  rw [Program.extend_code, Program.emit_code, List.append_assoc]
  exact List.drop_left' Array.length_toList

theorem emits_lowerRead {f : Function} {t : Tree} (hline : f.line = t.firstLine) (entry : String) :
    Emits (withLine t (lowerRead entry f)) (f.lower entry) := by
  intro s hs
  let p : Provenance := ⟨t.firstLine <|> s.line, s.component⟩
  let c := f.inner p s.temps s.labels
  let value := defaultReturn (.label f.name.text :: c.code.map Prod.fst)
  let final : State := { s with
    line := p.line
    program := (s.program.emit (.label f.name.text) p).extend c.code
    temps := c.temps
    labels := c.labels
    notes := .entered f.name.text :: s.notes }
  have hdrop : final.program.code.toList.drop s.program.size =
      .label f.name.text :: c.code.map Prod.fst := drop_extend_emit _ _ _ _
  have hrun : withLine t (lowerRead entry f) s =
      (let r := (if (decide (f.name.text ≠ entry) && !(false || c.returns)) = true then (do
          note (.defaultReturn f.name.text
            (defaultReturn (final.program.code.toList.drop s.program.size)))
          emit (.ret (some (defaultReturn (final.program.code.toList.drop s.program.size))))
          emit (.label (Program.endLabel f.name.text)))
        else emit (.label (Program.endLabel f.name.text)) : Lowering Unit)
          { final with scope := none }
      (r.1, { r.2 with line := s.line })) := rfl
  have hemit : (f.lower entry).run s = (.ok (), { s.marked (false || c.returns) with
      program := s.program.extend (((Quad.label f.name.text, p) :: c.code) ++
        ((if (decide (f.name.text ≠ entry) && !(false || c.returns)) = true then
          [Quad.ret (some value)] else []) ++ [Quad.label (Program.endLabel f.name.text)]).map
            fun q => (q, p))
      temps := c.temps
      labels := c.labels }) := by
    rw [Function.lower, hline]
    rfl
  rw [hrun, hemit, hdrop, State.marked, hs]
  split
  · refine ⟨.defaultReturn f.name.text value :: final.notes, ?_⟩
    rw [Program.extend_append]
    rfl
  · refine ⟨final.notes, ?_⟩
    rw [Program.extend_append]
    rfl

theorem functionLowered {t : Tree} (h : Parsed .funcDef t) :
    ∃ f, readFunction t = some f ∧
      ∀ entry, Emits (withLine t (lowerFunction entry t)) (f.lower entry) := by
  obtain ⟨info, children⟩ := t
  obtain ⟨p, hp, hf⟩ := h.forall₂ (List.cons_ne_nil _ _) fun c _ k hc => hc
  fin_cases hp
  rcases hf with _ | ⟨-, _ | ⟨hb, _ | ⟨-, _ | ⟨hd, _ | ⟨-, _ | ⟨hf, _ | _⟩⟩⟩⟩⟩⟩
  rename_i a b c d e f
  obtain ⟨x, hname, hliteral⟩ := hb.ident
  obtain ⟨params, hparams, hnames⟩ := paramsLowered hd
  obtain ⟨body, hbody, hblock⟩ := stmtLowered f .block hf
  refine ⟨⟨Tree.firstLine (.node info [a, b, c, d, e, f]), x, params, body⟩, ?_, fun entry => ?_⟩
  · rw [readFunction, hname, hparams, hbody]
    rfl
  · rw [lowerFunction_eq _ entry hb.kind_eq hliteral hd.kind_eq hnames hf.kind_eq hblock]
    exact emits_lowerRead rfl entry

def lowerDefinition (entry : String) (node : Tree) : Lowering Unit := do
  let definition ← node.expect 0 .funcDef "function list"
  withLine definition.tree (lowerFunction entry definition.tree)

theorem functionsLowered (t : Tree) (h : Parsed .funcList t) :
    ∃ nodes fs, t.Unrolls nodes ∧ readFunctions t = some fs ∧
      ∀ entry, Emits (nodes.forM (lowerDefinition entry)) (lowerFunctions entry fs) := by
  induction t using Tree.induct with
  | node info children ih =>
    obtain ⟨p, hp, hf⟩ := h.forall₂ (List.cons_ne_nil _ _) fun c hc k hk => And.intro hc hk
    fin_cases hp
    · rcases hf with _ | ⟨ha, _ | ⟨hb, _ | _⟩⟩
      rename_i a b
      obtain ⟨f, hread, hfunction⟩ := functionLowered ha.2
      obtain ⟨nodes, fs, hnodes, hreads, hrest⟩ := ih b hb.1 hb.2
      refine ⟨_, f :: fs,
        Tree.unrolls_cons h.kind_eq ha.2.kind_eq nofun rfl hb.2.kind_eq hnodes, ?_, fun entry => ?_⟩
      · rw [readFunctions, hread, hreads]
        rfl
      · have hfirst : lowerDefinition entry (.node info [a, b]) =
            withLine a (lowerFunction entry a) :=
          Tree.expect_bind rfl ha.2.kind_eq fun _ => rfl
        rw [List.forM, hfirst]
        exact (hfunction entry).bind (hrest entry)
    · rcases hf with _ | ⟨ha, _ | _⟩
      refine ⟨[], [], Tree.unrolls_nil h.kind_eq ha.2.kind_eq, rfl, fun entry s hs => ⟨s.notes, ?_⟩⟩
      rw [lowerFunctions, Emission.run_pure]
      rfl

def codeOf (entry : String) (fs : List Function) : List (Quad × Provenance) :=
  (lowerFunctions entry fs ⟨none, none⟩ 0 0).code

/-- A tree that was derived from a source is lowered to the code of the functions read from it. -/
theorem lower_eq {t : Tree} (h : Parsed .program t) :
    ∃ fs, readProgram (.rooted t) = some fs ∧
      ∀ entry, (lower entry (.rooted t)).1 = .ok (Program.empty.extend (codeOf entry fs)) := by
  obtain ⟨info, children⟩ := t
  obtain ⟨p, hp, hf⟩ := h.forall₂ (List.cons_ne_nil _ _) fun c _ k hc => hc
  fin_cases hp
  rcases hf with _ | ⟨ha, _ | ⟨-, _ | _⟩⟩
  rename_i a b
  obtain ⟨nodes, fs, hnodes, hread, hlower⟩ := functionsLowered a ha
  refine ⟨fs, hread, fun entry => ?_⟩
  have hprogram : lowerProgram entry (.rooted (.node info [a, b])) =
      nodes.forM (lowerDefinition entry) := by
    rw [lowerProgram, Tree.rooted]
    refine Tree.expect_bind rfl h.kind_eq fun _ => ?_
    refine Tree.expect_bind rfl ha.kind_eq fun _ => ?_
    refine hnodes.bind (k := fun nodes => nodes.forM (lowerDefinition entry)) fun links => ?_
    change links.forM (fun link => lowerDefinition entry link.tree) = _
    exact List.forM_map.symm
  obtain ⟨notes, hrun⟩ := hlower entry .initial rfl
  rw [lower, hprogram, hrun]
  rfl

end Lookahead.Lowering
