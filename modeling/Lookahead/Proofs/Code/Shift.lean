import Lookahead.Proofs.Simulation.Function
import Lookahead.Proofs.Source.Moved

namespace Lookahead

open Source (labelText)

section Labels

/-- The number of a label that lowering makes up. -/
def labelIndex? (name : String) : Option Nat :=
  match name.toList with
  | 'L' :: digits =>
    if !digits.isEmpty && digits.all Char.isDigit then some (Nat.ofDigitChars 10 digits 0) else none
  | _ => none

theorem labelIndex?_labelText (i : Nat) : labelIndex? (labelText i) = some i := by
  rw [labelIndex?, Machine.labelText_toList]
  exact (if_pos (Machine.isNumber_toDigits i)).trans
    (congrArg some (Machine.ofDigitChars_toDigits i))

theorem labelIndex?_name (x : Source.Name) : labelIndex? x.text = none := by
  have hunreserved := x.unreserved
  unfold labelIndex?
  split
  · next digits heq =>
    rw [if_neg]
    intro hdigits
    rw [heq, Lexeme.isReserved, List.any_eq_false] at hunreserved
    exact hunreserved ['L'] (by simp) (by simpa [List.isPrefixOf] using hdigits)
  · rfl

theorem labelIndex?_endLabel (name : String) : labelIndex? (Program.endLabel name) = none := by
  unfold labelIndex?
  rw [Program.endLabel, String.toList_append]
  rfl

/-- The same label among `k` more that lowering makes up. -/
def shiftLabel (k : Nat) (name : String) : String :=
  match labelIndex? name with
  | some i => labelText (i + k)
  | none => name

theorem shiftLabel_labelText (k i : Nat) : shiftLabel k (labelText i) = labelText (i + k) := by
  rw [shiftLabel, labelIndex?_labelText]

theorem shiftLabel_name (k : Nat) (x : Source.Name) : shiftLabel k x.text = x.text := by
  rw [shiftLabel, labelIndex?_name]

theorem shiftLabel_endLabel (k : Nat) (name : String) :
    shiftLabel k (Program.endLabel name) = Program.endLabel name := by
  rw [shiftLabel, labelIndex?_endLabel]

end Labels

def Operand.shift (m k : Nat) : Operand → Operand
  | .temp i => .temp (i + m)
  | .label text => .label (shiftLabel k text)
  | operand => operand

def Quad.shift (m k : Nat) (q : Quad) : Quad :=
  ⟨q.op, q.arg1.map (.shift m k), q.arg2.map (.shift m k), q.result.map (.shift m k)⟩

def Provenance.mapLine (f : Nat → Nat) (p : Provenance) : Provenance :=
  { p with line := p.line.map f }

namespace Source

variable {m k : Nat} {α β : Type} {g : α → α} {h : β → β}

section Straight

open Emit

def Computation.shift (m k : Nat) (g : α → α) (c : Computation α) : Computation α :=
  ⟨c.code.map (.shift m k), g c.result, c.temps + m⟩

/-- From shifted numbers on, `x'` comes to what `x` comes to, shifted. -/
def Emit.Shifts (m k : Nat) (g : α → α) (x x' : Emit α) : Prop :=
  ∀ n, x' (n + m) = (x n).shift m k g

theorem Emit.Shifts.pure (a : α) : Shifts m k g (pure a) (pure (g a)) := fun _ => rfl

theorem Emit.Shifts.bind {x x' : Emit α} {y y' : α → Emit β} (hx : Shifts m k g x x')
    (hy : ∀ a, Shifts m k h (y a) (y' (g a))) : Shifts m k h (x >>= y) (x' >>= y') := by
  intro n
  have hnext := hy (x n).result (x n).temps
  change (⟨_, _, _⟩ : Computation β) = _
  rw [hx n]
  simp only [Computation.shift] at hnext ⊢
  rw [hnext]
  simp only [Bind.bind, List.map_append]

theorem shifts_emit (q : Quad) : Shifts m k id (emit q) (emit (q.shift m k)) := fun _ => rfl

theorem shifts_newTemp : Shifts m k (.shift m k) newTemp newTemp := by
  intro n
  simp only [newTemp, Computation.shift, Operand.shift, List.map_nil, Nat.add_right_comm]

theorem shifts_apply (op : Op) (lhs rhs : Operand) :
    Shifts m k (.shift m k) (apply op lhs rhs) (apply op (lhs.shift m k) (rhs.shift m k)) :=
  shifts_newTemp.bind fun t => (shifts_emit (.binary op lhs rhs t)).bind fun _ => Shifts.pure t

theorem shifts_params (places : List Operand) :
    Shifts m k id (params places) (params (places.map (.shift m k))) := by
  induction places with
  | nil => exact Shifts.pure ()
  | cons place rest ih => exact (shifts_emit (.param place)).bind fun _ => ih

theorem shifts_close (left : Option (Operand × ChainOp)) (value : Operand) :
    Shifts m k (.shift m k) (close left value)
      (close (left.map (Prod.map (.shift m k) id)) (value.shift m k)) := by
  cases left with
  | none => exact Shifts.pure value
  | some waiting => exact shifts_apply waiting.2.1 waiting.1 value

theorem shifts_chain (links : List (ChainOp × Operand)) (left : Option (Operand × ChainOp))
    (value : Operand) :
    Shifts m k (.shift m k) (chain left value links)
      (chain (left.map (Prod.map (.shift m k) id)) (value.shift m k)
        (links.map (Prod.map id (.shift m k)))) := by
  induction links generalizing left value with
  | nil => exact shifts_close left value
  | cons link rest ih =>
    obtain ⟨op, rhs⟩ := link
    change Shifts m k _ _ (chain _ _ ((op, rhs.shift m k) :: rest.map _))
    rw [chain, chain]
    by_cases hop : op.1.strength = 2
    · rw [if_pos hop, if_pos hop]
      refine (shifts_apply op.1 value rhs).bind fun place => ?_
      exact ih left place
    · rw [if_neg hop, if_neg hop]
      refine (shifts_close left value).bind fun place => ?_
      exact ih (some (place, op)) rhs

mutual

theorem shifts_expr : ∀ e : Expr, Shifts m k (.shift m k) e.lower e.lower
  | .name x => Shifts.pure (Operand.name x.text)
  | .num digits => Shifts.pure (Operand.num digits)
  | .char c => Shifts.pure (Operand.char c)
  | .call callee args => by
    refine (shifts_args args).bind fun places => (shifts_params places).bind fun _ =>
      shifts_newTemp.bind fun t => ?_
    rw [List.length_map]
    exact (shifts_emit (.call callee.text places.length (some t))).bind fun _ => Shifts.pure t
  | .not e => (shifts_expr e).bind fun place => shifts_newTemp.bind fun t =>
    (shifts_emit (.not place t)).bind fun _ => Shifts.pure t
  | .binary op lhs rhs => (shifts_expr lhs).bind fun left => (shifts_expr rhs).bind fun right =>
    shifts_apply op.1 left right
  | .chain first rest => (shifts_expr first).bind fun place => (shifts_links rest).bind fun links =>
    shifts_chain links none place

theorem shifts_args : ∀ args : Args, Shifts m k (List.map (.shift m k)) args.lower args.lower
  | .nil => Shifts.pure []
  | .cons e rest => (shifts_expr e).bind fun place => (shifts_args rest).bind fun places =>
    Shifts.pure (place :: places)

theorem shifts_links : ∀ links : Links,
    Shifts m k (List.map (Prod.map id (.shift m k))) links.lower links.lower
  | .nil => Shifts.pure []
  | .cons op e rest => (shifts_expr e).bind fun place => (shifts_links rest).bind fun links =>
    Shifts.pure ((op, place) :: links)

end

theorem shifts_decl (d : Decl) : Shifts m k id d.lower d.lower := by
  obtain ⟨target, _ | e⟩ := d
  · exact Shifts.pure ()
  · exact (shifts_expr e).bind fun place => shifts_emit (.assign (.name target.text) place)

theorem shifts_update (u : Update) : Shifts m k id u.lower u.lower := by
  cases u with
  | assign target e =>
    exact (shifts_expr e).bind fun place => shifts_emit (.assign (.name target.text) place)
  | step target op =>
    exact (shifts_apply op.1 (.name target.text) (.imm 1)).bind fun place =>
      shifts_emit (.assign (.name target.text) place)

theorem shifts_simple (s : Simple) : Shifts m k id s.lower s.lower := by
  cases s with
  | declare d => exact shifts_decl d
  | update u => exact shifts_update u
  | call callee args =>
    refine (shifts_args args).bind fun places => (shifts_params places).bind fun _ => ?_
    rw [List.length_map]
    exact shifts_emit (.call callee.text places.length none)
  | ret value =>
    cases value with
    | none => exact shifts_emit (.ret none)
    | some e => exact (shifts_expr e).bind fun place => shifts_emit (.ret (some place))

theorem shifts_moves (params : List Name) (n : Nat) :
    Shifts m k id (moves n params) (moves n params) := by
  induction params generalizing n with
  | nil => exact Shifts.pure ()
  | cons x rest ih =>
    exact (shifts_emit (.assign (.name x.text) (.param (n + 1)))).bind fun _ => ih (n + 1)

end Straight

section Chunks

open Emission

variable {f : Nat → Nat}

def Chunk.shift (m k : Nat) (f : Nat → Nat) (g : α → α) (c : Chunk α) : Chunk α :=
  ⟨c.code.map (Prod.map (.shift m k) (.mapLine f)), g c.result, c.temps + m, c.labels + k,
    c.returns⟩

/-- From shifted numbers and a moved line on, `x'` comes to what `x` comes to, shifted. -/
def Emission.Shifts (m k : Nat) (f : Nat → Nat) (g : α → α) (x x' : Emission α) : Prop :=
  ∀ p n l, x' (p.mapLine f) (n + m) (l + k) = (x p n l).shift m k f g

theorem Emission.Shifts.pure (a : α) : Emission.Shifts m k f g (pure a) (pure (g a)) :=
  fun _ _ _ => rfl

theorem Emission.Shifts.bind {x x' : Emission α} {y y' : α → Emission β}
    (hx : Emission.Shifts m k f g x x') (hy : ∀ a, Emission.Shifts m k f h (y a) (y' (g a))) :
    Emission.Shifts m k f h (x >>= y) (x' >>= y') := by
  intro p n l
  have hnext := hy (x p n l).result p (x p n l).temps (x p n l).labels
  change (⟨_, _, _, _, _⟩ : Chunk β) = _
  rw [hx p n l]
  simp only [Chunk.shift] at hnext ⊢
  rw [hnext]
  simp only [Bind.bind, List.map_append]

theorem Emission.Shifts.withLine {x x' : Emission α} (hx : Emission.Shifts m k f g x x')
    (line : Option Nat) :
    Emission.Shifts m k f g (withLine line x) (withLine (line.map f) x') := by
  intro p n l
  have hline : (⟨line.map f <|> (p.mapLine f).line, p.component⟩ : Provenance) =
      Provenance.mapLine f ⟨line <|> p.line, p.component⟩ := by
    cases line <;> rfl
  change x' ⟨line.map f <|> (p.mapLine f).line, p.component⟩ _ _ = _
  rw [hline]
  exact hx _ n l

theorem Emission.Shifts.withComponent {x x' : Emission α} (hx : Emission.Shifts m k f g x x')
    (component : Component) :
    Emission.Shifts m k f g (withComponent component x) (withComponent component x') :=
  fun p n l => hx ⟨p.line, some component⟩ n l

theorem shifts_straight {x x' : Emit α} (hx : Emit.Shifts m k g x x') :
    Emission.Shifts m k f g (straight x) (straight x') := by
  intro p n l
  simp only [straight, hx n, Chunk.shift, Computation.shift, List.map_map]
  rfl

theorem shifts_newLabel : Emission.Shifts m k f (shiftLabel k) newLabel newLabel := by
  intro p n l
  simp only [newLabel, Chunk.shift, shiftLabel_labelText, List.map_nil, Nat.add_right_comm]

theorem shifts_markReturn (returns : Bool) :
    Emission.Shifts m k f id (markReturn returns) (markReturn returns) := fun _ _ _ => rfl

theorem shifts_glue (q : Quad) : Emission.Shifts m k f id (glue q) (glue (q.shift m k)) :=
  (shifts_straight (shifts_emit q)).withComponent .glue

theorem shifts_test (condition : Expr) (target : String) :
    Emission.Shifts m k f id (test condition target) (test condition (shiftLabel k target)) := by
  refine (shifts_straight ?_).withComponent .condition
  exact (shifts_expr condition).bind fun place => shifts_emit (.ifFalse place target)

theorem shifts_loop (condition : Expr) {body body' : Emission Unit}
    (hbody : Emission.Shifts m k f id body body') :
    Emission.Shifts m k f id (loop condition body) (loop condition body') := by
  refine shifts_newLabel.bind fun start => shifts_newLabel.bind fun finish => ?_
  refine (shifts_glue (.label start)).bind fun _ => (shifts_test condition finish).bind fun _ => ?_
  refine (hbody.withComponent .loopBody).bind fun _ => (shifts_glue (.goto start)).bind fun _ => ?_
  exact shifts_glue (.label finish)

theorem shifts_arm (isLast : Bool) (finish : String) (line : Option Nat) (condition : Expr)
    {body body' : Emission Unit} (hbody : Emission.Shifts m k f id body body') :
    Emission.Shifts m k f id (arm isLast finish line condition body)
      (arm isLast (shiftLabel k finish) (line.map f) condition body') := by
  have hbranch {last last' : Emission Unit} (hlast : Emission.Shifts m k f id last last')
      (next : String) :
      Emission.Shifts m k f id
        (withLine line (test condition next) >>= fun _ =>
          withComponent .thenBranch body >>= fun _ =>
            glue (.goto finish) >>= fun _ => last)
        (withLine (line.map f) (test condition (shiftLabel k next)) >>= fun _ =>
          withComponent .thenBranch body' >>= fun _ =>
            glue (.goto (shiftLabel k finish)) >>= fun _ => last') :=
    ((shifts_test condition next).withLine line).bind fun _ =>
      (hbody.withComponent .thenBranch).bind fun _ =>
        (shifts_glue (.goto finish)).bind fun _ => hlast
  cases isLast with
  | true => exact (Emission.Shifts.pure finish).bind fun next => hbranch (.pure ()) next
  | false => exact shifts_newLabel.bind fun next => hbranch (shifts_glue (.label next)) next

theorem isDone_mapLines (a : Arms) : (a.mapLines f).isDone = a.isDone := by cases a <;> rfl

mutual

theorem shifts_stmt : ∀ s : Stmt, Emission.Shifts m k f id s.lower (s.mapLines f).lower
  | .simple s => (shifts_straight (shifts_simple s)).bind fun _ => shifts_markReturn s.returns
  | .cond arms => by
    refine shifts_newLabel.bind fun finish => (shifts_arms arms finish).bind fun _ => ?_
    exact shifts_glue (.label finish)
  | .whileLoop condition body => shifts_loop condition (shifts_block body)
  | .forLoop init condition step body => by
    refine (shifts_straight (shifts_decl init)).bind fun _ => shifts_loop condition ?_
    exact (shifts_block body).bind fun _ => shifts_straight (shifts_update step)
  | .doUntil body line condition => by
    refine shifts_newLabel.bind fun start => (shifts_glue (.label start)).bind fun _ => ?_
    refine ((shifts_block body).withComponent .loopBody).bind fun _ => ?_
    exact (shifts_test condition start).withLine line

theorem shifts_block : ∀ b : Block, Emission.Shifts m k f id b.lower (b.mapLines f).lower
  | .nil => Emission.Shifts.pure ()
  | .cons line s rest => ((shifts_stmt s).withLine line).bind fun _ => shifts_block rest

theorem shifts_arms : ∀ (a : Arms) (finish : String),
    Emission.Shifts m k f id (a.lower finish) ((a.mapLines f).lower (shiftLabel k finish))
  | .done, _ => Emission.Shifts.pure ()
  | .otherwise body, _ => (shifts_block body).withComponent .elseBranch
  | .arm line condition body rest, finish => by
    refine Emission.Shifts.bind (g := id) ?_ fun _ => shifts_arms rest finish
    rw [isDone_mapLines]
    exact shifts_arm rest.isDone finish line condition (shifts_block body)

end

end Chunks

section Functions

variable {f : Nat → Nat}

/-- What a function returns by default is a name or a constant, found in the code. -/
theorem defaultReturn_shift (code : List Quad) :
    Lowering.defaultReturn (code.map (.shift m k)) = (Lowering.defaultReturn code).shift m k := by
  rw [Lowering.defaultReturn, Lowering.defaultReturn, ← List.map_reverse, List.findSome?_map]
  induction code.reverse with
  | nil => rfl
  | cons q rest ih =>
    obtain ⟨op, arg1, arg2, result⟩ := q
    rw [List.findSome?_cons, List.findSome?_cons]
    cases op with
    | assign =>
      cases result with
      | none => exact ih
      | some target =>
        cases target with
        | name x => rfl
        | _ => exact ih
    | _ => exact ih

theorem closing_shift (g : Function) (entry : String) (c : Chunk Unit) :
    (g.mapLines f).closing entry (c.shift m k f id) = (g.closing entry c).map (.shift m k) := by
  have hcode : (c.shift m k f id).code.map Prod.fst = (c.code.map Prod.fst).map (.shift m k) := by
    rw [Chunk.shift, List.map_map, List.map_map]
    rfl
  have hend : (Quad.label (Program.endLabel g.name.text)).shift m k =
      .label (Program.endLabel g.name.text) :=
    congrArg Quad.label (shiftLabel_endLabel k g.name.text)
  rw [Function.closing, Function.closing, hcode, defaultReturn_shift, List.map_append,
    List.map_singleton, hend, apply_ite (List.map (Quad.shift m k))]
  rfl

theorem shifts_opening (g : Function) :
    Emission.Shifts m k f id g.opening (g.mapLines f).opening := by
  have hlabel := shifts_emit (m := m) (k := k) (.label g.name.text)
  rw [show (Quad.label g.name.text).shift m k = .label g.name.text from
    congrArg Quad.label (shiftLabel_name k g.name)] at hlabel
  refine (shifts_straight hlabel).bind fun _ => ?_
  exact (shifts_straight (shifts_moves g.params 0)).bind fun _ => shifts_block g.body

theorem shifts_function (g : Function) (entry : String) :
    Emission.Shifts m k f id (g.lower entry) ((g.mapLines f).lower entry) := by
  refine Emission.Shifts.withLine (fun p n l => ?_) g.line
  simp only [shifts_opening g p n l, closing_shift]
  simp only [Chunk.shift, List.map_append, List.map_map]
  rfl

theorem shifts_functions (entry : String) (fs : List Function) :
    Emission.Shifts m k f id (lowerFunctions entry fs)
      (lowerFunctions entry (fs.map (Function.mapLines f))) := by
  induction fs with
  | nil => exact Emission.Shifts.pure ()
  | cons g rest ih => exact (shifts_function g entry).bind fun _ => ih

theorem code_lowerFunctions_append (entry : String) (fs gs : List Function) (p : Provenance)
    (n l : Nat) :
    (lowerFunctions entry (fs ++ gs) p n l).code = (lowerFunctions entry fs p n l).code ++
      (lowerFunctions entry gs p (lowerFunctions entry fs p n l).temps
        (lowerFunctions entry fs p n l).labels).code := by
  induction fs generalizing n l with
  | nil => rfl
  | cons g rest ih =>
    change _ ++ (lowerFunctions entry (rest ++ gs) p _ _).code = (_ ++ _) ++ _
    rw [ih, List.append_assoc]
    rfl

end Functions

end Source

end Lookahead
