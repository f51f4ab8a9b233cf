import Lookahead.Proofs.Lowering.Run
import Lookahead.Proofs.Simulation.Labels

namespace Lookahead.Lowering

open Source (labelText)

/-- What lowering does that is never undone: it hands out a name, or adds an instruction. -/
inductive Event
  | temp (place : Operand)
  | label (name : String)
  | code (q : Quad) (provenance : Provenance)

namespace Event

def temp? : Event → Option Operand
  | temp place => some place
  | _ => none

def label? : Event → Option String
  | label name => some name
  | _ => none

def code? : Event → Option (Quad × Provenance)
  | code q provenance => some (q, provenance)
  | _ => none

end Event

/-- From `s` to `s'` by the events in order. In between, notes are taken and the scope changes; the
line and the component change for a while only. -/
inductive Trace : State → List Event → State → Prop
  | refl (s : State) : Trace s [] s
  | trans {s t u : State} {es fs : List Event} :
      Trace s es t → Trace t fs u → Trace s (es ++ fs) u
  | newTemp {s t : State} {place : Operand} :
      newTemp s = (.ok place, t) → Trace s [.temp place] t
  | newLabel {s t : State} {name : String} :
      newLabel s = (.ok name, t) → Trace s [.label name] t
  | emit {s t : State} {q : Quad} :
      emit q s = (.ok (), t) → Trace s [.code q ⟨s.line, s.component⟩] t
  | aside (s : State) (scope : Option Scope) (notes : List Note) :
      Trace s [] { s with scope := scope, notes := notes }
  | onLine {s t : State} {es : List Event} (line : Option Nat) :
      Trace { s with line := line } es t → Trace s es { t with line := s.line }
  | inComponent {s t : State} {es : List Event} (component : Option Component) :
      Trace { s with component := component } es t → Trace s es { t with component := s.component }

section Effect

variable {s t u : State} {es fs : List Event}

def numbered {α : Type} (name : Nat → α) (n m : Nat) : List α := (List.range' n (m - n)).map name

theorem numbered_append {α : Type} (name : Nat → α) {n m k : Nat} (h : n ≤ m) (h' : m ≤ k) :
    numbered name n m ++ numbered name m k = numbered name n k := by
  have hm : m = n + 1 * (m - n) := by omega
  have hk : (m - n) + (k - m) = k - n := by omega
  rw [numbered, numbered, numbered, ← List.map_append, ← hk, ← List.range'_append, ← hm]

theorem numbered_self {α : Type} (name : Nat → α) (n : Nat) : numbered name n n = [] := by
  rw [numbered, Nat.sub_self]
  rfl

theorem numbered_succ {α : Type} (name : Nat → α) (n : Nat) :
    numbered name n (n + 1) = [name n] := by
  rw [numbered, Nat.add_sub_cancel_left]
  rfl

/-- What a trace says about the states at its ends. -/
structure Effect (s : State) (es : List Event) (t : State) : Prop where
  line : t.line = s.line
  component : t.component = s.component
  program : t.program = s.program.extend (es.filterMap Event.code?)
  temps_le : s.temps ≤ t.temps
  temps : es.filterMap Event.temp? = numbered .temp s.temps t.temps
  labels_le : s.labels ≤ t.labels
  labels : es.filterMap Event.label? = numbered labelText s.labels t.labels

theorem Effect.trans (h : Effect s es t) (h' : Effect t fs u) : Effect s (es ++ fs) u where
  line := h'.line.trans h.line
  component := h'.component.trans h.component
  program := by rw [h'.program, h.program, List.filterMap_append, Program.extend_append]
  temps_le := Nat.le_trans h.temps_le h'.temps_le
  temps := by
    rw [List.filterMap_append, h.temps, h'.temps, numbered_append _ h.temps_le h'.temps_le]
  labels_le := Nat.le_trans h.labels_le h'.labels_le
  labels := by
    rw [List.filterMap_append, h.labels, h'.labels, numbered_append _ h.labels_le h'.labels_le]

/-- Nothing but the scope and the notes has changed. -/
theorem effect_aside (s : State) (scope : Option Scope) (notes : List Note) :
    Effect s [] { s with scope := scope, notes := notes } where
  line := rfl
  component := rfl
  program := rfl
  temps_le := Nat.le_refl _
  temps := (numbered_self _ _).symm
  labels_le := Nat.le_refl _
  labels := (numbered_self _ _).symm

theorem Trace.effect (h : Trace s es t) : Effect s es t := by
  induction h with
  | refl s => exact effect_aside s s.scope s.notes
  | trans _ _ ih ih' => exact ih.trans ih'
  | @newTemp s t place h =>
    cases h
    exact { effect_aside s s.scope s.notes with
      temps_le := Nat.le_succ _
      temps := (numbered_succ _ _).symm }
  | @newLabel s t name h =>
    cases h
    exact { effect_aside s s.scope s.notes with
      labels_le := Nat.le_succ _
      labels := (numbered_succ labelText s.labels).symm }
  | @emit s t q h =>
    cases h
    exact { effect_aside s s.scope s.notes with program := rfl }
  | aside s scope notes => exact effect_aside s scope notes
  | onLine line _ ih => exact { ih with line := rfl }
  | inComponent component _ ih => exact { ih with component := rfl }

end Effect

section Traced

variable {α β : Type} {x : Lowering α} {f : α → Lowering β}

/-- From every state, and whether it succeeds or fails, the state is changed along a trace. A
malformed chain is no reason to fail. -/
def Traced (x : Lowering α) : Prop := ∀ s, ∃ es, Trace s es (x s).2 ∧ Orderly (x s).1

theorem Traced.exists_trace (hx : Traced x) (s : State) : ∃ es, Trace s es (x s).2 :=
  (hx s).imp fun _ h => h.1

theorem Traced.ne_malformedChain (hx : Traced x) (s : State) (operands ops : Nat) :
    (x s).1 ≠ .error (.malformedChain operands ops) := by
  obtain ⟨-, -, horderly⟩ := hx s
  exact horderly.ne operands ops

theorem traced_lift (r : Except LoweringError α) [Orderly r] : Traced (liftM r) :=
  fun s => ⟨[], .refl s, ‹Orderly r›⟩

theorem traced_pure (a : α) : Traced (pure a) := traced_lift (.ok a)

theorem Traced.bind (hx : Traced x) (hf : ∀ a, Traced (f a)) : Traced (x >>= f) := by
  intro s
  obtain ⟨es, hes, horderly⟩ := hx s
  rw [Failing.bind_apply]
  rcases hxs : x s with ⟨e | a, t⟩
  · rw [hxs] at hes horderly
    refine ⟨es, hes, ⟨fun operands ops h => ?_⟩⟩
    exact horderly.ne operands ops (congrArg _ (Except.error.inj h))
  · rw [hxs] at hes
    obtain ⟨fs, hfs, horderly⟩ := hf a t
    exact ⟨es ++ fs, hes.trans hfs, horderly⟩

theorem traced_newTemp : Traced newTemp := fun _ => ⟨_, .newTemp rfl, orderly_ok _⟩

theorem traced_newLabel : Traced newLabel := fun _ => ⟨_, .newLabel rfl, orderly_ok _⟩

theorem traced_emit (q : Quad) : Traced (emit q) := fun _ => ⟨_, .emit rfl, orderly_ok _⟩

theorem traced_get : Traced (get : Lowering State) := fun s => ⟨_, .refl s, orderly_ok s⟩

theorem traced_note (n : Note) : Traced (note n) :=
  fun s => ⟨_, .aside s s.scope (n :: s.notes), orderly_ok _⟩

theorem traced_scope (g : State → Option Scope) :
    Traced (modify fun s => { s with scope := g s } : Lowering Unit) :=
  fun s => ⟨_, .aside s (g s) s.notes, orderly_ok _⟩

/-- Leaving a scope, with what was there before still at hand. -/
theorem traced_leave {k : State → Lowering α} (hk : ∀ s, Traced (k s)) :
    Traced (do let s ← get; set { s with scope := none }; k s) := by
  intro s
  obtain ⟨es, hes, horderly⟩ := hk s { s with scope := none }
  exact ⟨[] ++ es, (Trace.aside s none s.notes).trans hes, horderly⟩

theorem Traced.withLine (hx : Traced x) (t : Tree) : Traced (withLine t x) := by
  intro s
  obtain ⟨es, hes, horderly⟩ := hx { s with line := t.firstLine <|> s.line }
  exact ⟨es, .onLine _ hes, horderly⟩

theorem Traced.withComponent (hx : Traced x) (component : Component) :
    Traced (withComponent component x) := by
  intro s
  obtain ⟨es, hes, horderly⟩ := hx { s with component := some component }
  exact ⟨es, .inComponent _ hes, horderly⟩

theorem traced_mapM {f : α → Lowering β} (hf : ∀ a, Traced (f a)) (l : List α) :
    Traced (l.mapM f) := by
  induction l with
  | nil => exact traced_pure []
  | cons a l ih =>
    rw [List.mapM_cons]
    exact (hf a).bind fun b => ih.bind fun bs => traced_pure (b :: bs)

theorem traced_foldlM {f : β → α → Lowering β} (hf : ∀ b a, Traced (f b a)) (l : List α) (b : β) :
    Traced (l.foldlM f b) := by
  induction l generalizing b with
  | nil => exact traced_pure b
  | cons a l ih =>
    rw [List.foldlM_cons]
    exact (hf b a).bind ih

theorem traced_forM {f : α → Lowering Unit} (hf : ∀ a, Traced (f a)) (l : List α) :
    Traced (l.forM f) := by
  induction l with
  | nil => exact traced_pure ()
  | cons a l ih => exact (hf a).bind fun _ => ih

end Traced

section Expressions

theorem traced_combine (op : Op) (lhs rhs : Operand) : Traced (combine op lhs rhs) :=
  traced_newTemp.bind fun t => (traced_emit _).bind fun _ => traced_pure t

theorem traced_reduceWaiting (limit : Nat) (waiting : List (Operand × Op)) (value : Operand) :
    Traced (reduceWaiting limit waiting value) := by
  induction waiting generalizing value with
  | nil => exact traced_pure _
  | cons entry waiting ih =>
    rw [reduceWaiting]
    split
    · exact traced_pure _
    · exact (traced_combine entry.2 entry.1 value).bind ih

theorem traced_reduceLinks (waiting : List (Operand × Op)) (value : Operand)
    (links : List (Op × Operand)) : Traced (reduceLinks waiting value links) := by
  induction links generalizing waiting value with
  | nil => exact (traced_reduceWaiting 0 waiting value).bind fun r => traced_pure r.2
  | cons link rest ih =>
    exact (traced_reduceWaiting link.1.strength waiting value).bind fun r => ih _ link.2

theorem traced_emitParams (places : List Operand) : Traced (emitParams places) :=
  traced_forM (fun place => traced_emit (.param place)) places

theorem traced_emitValueCall (callee : String) (places : List Operand) :
    Traced (emitValueCall callee places) :=
  (traced_emitParams places).bind fun _ => traced_newTemp.bind fun t =>
    (traced_emit _).bind fun _ => traced_pure t

mutual

theorem traced_lowerExpr (expr : Tree) : Traced (lowerExpr expr) := by
  rw [lowerExpr_eq]
  refine (traced_lift _).bind fun head => (traced_lift _).bind fun tail => ?_
  refine (traced_lowerArith head.tree).bind fun first => (traced_lift _).bind fun links => ?_
  refine (traced_mapM (fun link => ?_) links).bind fun rest => traced_reduceLinks [] first rest
  refine (traced_lift _).bind fun rel => (traced_lift _).bind fun op => ?_
  exact (traced_lift _).bind fun rhs => (traced_lowerArith rhs.tree).bind fun _ => traced_pure _
termination_by sizeOf expr
decreasing_by
  · exact head.lt
  · exact Nat.lt_trans rhs.lt (Nat.lt_of_le_of_lt link.le tail.lt)

theorem traced_lowerArith (arith : Tree) : Traced (lowerArith arith) := by
  rw [lowerArith]
  refine (traced_lift _).bind fun head => (traced_lift _).bind fun tail => ?_
  refine (traced_lowerTerm head.tree).bind fun first => (traced_lift _).bind fun links => ?_
  refine traced_foldlM (fun lhs link => ?_) links first
  refine (traced_lift _).bind fun add => (traced_lift _).bind fun op => ?_
  refine (traced_lift _).bind fun term => (traced_lowerTerm term.tree).bind fun rhs => ?_
  exact traced_combine op lhs rhs
termination_by sizeOf arith
decreasing_by
  · exact head.lt
  · exact Nat.lt_trans term.lt (Nat.lt_of_le_of_lt link.le tail.lt)

theorem traced_lowerTerm (term : Tree) : Traced (lowerTerm term) := by
  rw [lowerTerm]
  refine (traced_lift _).bind fun head => (traced_lift _).bind fun tail => ?_
  refine (traced_lowerFactor head.tree).bind fun first => (traced_lift _).bind fun links => ?_
  refine traced_foldlM (fun lhs link => ?_) links first
  refine (traced_lift _).bind fun mul => (traced_lift _).bind fun op => ?_
  refine (traced_lift _).bind fun factor => (traced_lowerFactor factor.tree).bind fun rhs => ?_
  exact traced_combine op lhs rhs
termination_by sizeOf term
decreasing_by
  · exact head.lt
  · exact Nat.lt_trans factor.lt (Nat.lt_of_le_of_lt link.le tail.lt)

theorem traced_lowerFactor (factor : Tree) : Traced (lowerFactor factor) := by
  rw [lowerFactor]
  refine (traced_lift _).bind fun first => (traced_lift _).bind fun kind => ?_
  split
  · refine (traced_lift _).bind fun name => (traced_lift _).bind fun tail => ?_
    refine (traced_lift _).bind fun empty => ?_
    split
    · exact traced_pure _
    · refine (traced_lift _).bind fun args => (traced_lowerArgs args.tree).bind fun places => ?_
      exact traced_emitValueCall name places
  · exact (traced_lift _).bind fun digits => traced_pure _
  · exact (traced_lift _).bind fun text => traced_lift _
  · exact (traced_lift _).bind fun inner => traced_lowerExpr inner.tree
  · refine (traced_lift _).bind fun operand => ?_
    refine (traced_lowerFactor operand.tree).bind fun place => ?_
    exact traced_newTemp.bind fun t => (traced_emit _).bind fun _ => traced_pure t
  · exact traced_lift _
termination_by sizeOf factor
decreasing_by
  · exact Nat.lt_trans args.lt tail.lt
  · exact inner.lt
  · exact operand.lt

theorem traced_lowerArgs (args : Tree) : Traced (lowerArgs args) := by
  rw [lowerArgs]
  refine (traced_lift _).bind fun empty => ?_
  split
  · exact traced_pure []
  · refine (traced_lift _).bind fun head => (traced_lowerExpr head.tree).bind fun first => ?_
    refine (traced_lift _).bind fun tail => (traced_lift _).bind fun links => ?_
    refine (traced_mapM (fun link => ?_) links).bind fun rest => traced_pure (first :: rest)
    exact (traced_lift _).bind fun expr => traced_lowerExpr expr.tree
termination_by sizeOf args
decreasing_by
  · exact head.lt
  · exact Nat.lt_trans expr.lt (Nat.lt_of_le_of_lt link.le tail.lt)

end

theorem traced_lowerCallStmt (callee : String) (args : Tree) : Traced (lowerCallStmt callee args) :=
  (traced_lowerArgs args).bind fun places => (traced_emitParams places).bind fun _ => traced_emit _

end Expressions

section Statements

theorem traced_emitGlue (q : Quad) : Traced (emitGlue q) := (traced_emit q).withComponent .glue

theorem traced_emitStep (target : String) (op : Op) : Traced (emitStep target op) :=
  (traced_combine op _ _).bind fun _ => traced_emit _

theorem traced_lowerDecl (decl : Tree) : Traced (lowerDecl decl) := by
  rw [lowerDecl]
  refine (traced_lift _).bind fun name => (traced_lift _).bind fun init => ?_
  refine (traced_lift _).bind fun empty => ?_
  split
  · exact traced_pure ()
  · exact (traced_lift _).bind fun expr => (traced_lowerExpr expr.tree).bind fun _ => traced_emit _

theorem traced_lowerAssignOp (target : String) (suffix : Tree) :
    Traced (lowerAssignOp target suffix) := by
  rw [lowerAssignOp]
  refine (traced_lift _).bind fun first => (traced_lift _).bind fun kind => ?_
  split
  · exact (traced_lift _).bind fun expr => (traced_lowerExpr expr.tree).bind fun _ => traced_emit _
  · exact traced_emitStep target .add
  · exact traced_emitStep target .sub
  · exact traced_lift _

theorem traced_lowerReturn (stmt : Tree) : Traced (lowerReturn stmt) := by
  rw [lowerReturn]
  refine (traced_lift _).bind fun value => (traced_lift _).bind fun empty => ?_
  split
  · exact (traced_emit _).bind fun _ => traced_scope _
  · refine (traced_lift _).bind fun expr => (traced_lowerExpr expr.tree).bind fun place => ?_
    exact (traced_emit _).bind fun _ => traced_scope _

theorem traced_lowerSimpleStmt (stmt : Tree) : Traced (lowerSimpleStmt stmt) := by
  rw [lowerSimpleStmt]
  refine (traced_lift _).bind fun first => (traced_lift _).bind fun kind => ?_
  split
  · exact traced_lowerDecl first.tree
  · exact traced_lowerReturn first.tree
  · refine (traced_lift _).bind fun name => (traced_lift _).bind fun suffix => ?_
    refine (traced_lift _).bind fun inner => (traced_lift _).bind fun kind => ?_
    split
    · exact traced_lowerAssignOp name inner.tree
    · exact (traced_lift _).bind fun args => traced_lowerCallStmt name args.tree
    · exact traced_lift _
  · exact traced_lift _

theorem traced_lowerTest (condition : Tree) (target : String) :
    Traced (lowerTest condition target) :=
  ((traced_lowerExpr condition).bind fun _ => traced_emit _).withComponent .condition

theorem traced_emitArm (isLast : Bool) (finish : String) (condition : Tree) {body : Lowering Unit}
    (hbody : Traced body) : Traced (emitArm isLast finish condition body) := by
  have hrest (next : String) : Traced (do
      withLine condition (lowerTest condition next)
      withComponent .thenBranch body
      emitGlue (.goto finish)
      if !isLast then
        emitGlue (.label next) : Lowering Unit) := by
    refine ((traced_lowerTest condition next).withLine condition).bind fun _ => ?_
    refine (hbody.withComponent .thenBranch).bind fun _ => (traced_emitGlue _).bind fun _ => ?_
    split
    · exact traced_emitGlue _
    · exact traced_pure ()
  rw [emitArm]
  cases isLast
  · exact traced_newLabel.bind hrest
  · exact hrest finish

mutual

theorem traced_lowerBlock (block : Tree) : Traced (lowerBlock block) := by
  rw [lowerBlock]
  refine (traced_lift _).bind fun body => (traced_lift _).bind fun first => ?_
  refine (traced_lift _).bind fun kind => ?_
  split
  · refine (traced_lift _).bind fun list => (traced_lift _).bind fun links => ?_
    refine traced_forM (fun link => (traced_lift _).bind fun stmt => ?_) links
    exact (traced_lowerStmt stmt.tree).withLine stmt.tree
  · exact (traced_lowerSimpleStmt first.tree).withLine first.tree
  · exact traced_lift _
termination_by sizeOf block
decreasing_by
  exact Nat.lt_trans stmt.lt (Nat.lt_of_le_of_lt link.le (Nat.lt_trans list.lt body.lt))

theorem traced_lowerStmt (stmt : Tree) : Traced (lowerStmt stmt) := by
  rw [lowerStmt]
  refine (traced_lift _).bind fun inner => (traced_lift _).bind fun kind => ?_
  split
  · exact traced_lowerSimpleStmt inner.tree
  · exact traced_lowerIf inner.tree
  · exact traced_lowerWhile inner.tree
  · exact traced_lowerFor inner.tree
  · exact traced_lowerDo inner.tree
  · exact traced_lift _
termination_by sizeOf stmt
decreasing_by all_goals exact inner.lt

theorem traced_lowerIf (stmt : Tree) : Traced (lowerIf stmt) := by
  rw [lowerIf]
  refine traced_newLabel.bind fun finish => (traced_lift _).bind fun arms => ?_
  refine (traced_lift _).bind fun otherwise => ?_
  refine (traced_forM (fun arm => ?_) _).bind fun _ => ?_
  · exact traced_emitArm _ finish _ (traced_lowerBlock arm.1.2.tree)
  · cases otherwise with
    | none => exact traced_emitGlue _
    | some block =>
      refine ((traced_lowerBlock block.tree).withComponent .elseBranch).bind fun _ => ?_
      exact traced_emitGlue _
termination_by sizeOf stmt
decreasing_by
  · exact arm.1.2.lt
  · exact block.lt

theorem traced_lowerWhile (stmt : Tree) : Traced (lowerWhile stmt) := by
  rw [lowerWhile]
  refine (traced_lift _).bind fun condition => (traced_lift _).bind fun body => ?_
  refine traced_newLabel.bind fun start => traced_newLabel.bind fun finish => ?_
  refine (traced_emitGlue _).bind fun _ => (traced_lowerTest _ _).bind fun _ => ?_
  refine ((traced_lowerBlock body.tree).withComponent .loopBody).bind fun _ => ?_
  exact (traced_emitGlue _).bind fun _ => traced_emitGlue _
termination_by sizeOf stmt
decreasing_by exact body.lt

theorem traced_lowerFor (stmt : Tree) : Traced (lowerFor stmt) := by
  rw [lowerFor]
  refine (traced_lift _).bind fun init => (traced_lift _).bind fun condition => ?_
  refine (traced_lift _).bind fun step => (traced_lift _).bind fun body => ?_
  refine (traced_lowerDecl init.tree).bind fun _ => ?_
  refine traced_newLabel.bind fun start => traced_newLabel.bind fun finish => ?_
  refine (traced_emitGlue _).bind fun _ => (traced_lowerTest _ _).bind fun _ => ?_
  refine Traced.bind (.withComponent ?_ .loopBody) fun _ => ?_
  · refine (traced_lowerBlock body.tree).bind fun _ => (traced_lift _).bind fun target => ?_
    exact (traced_lift _).bind fun suffix => traced_lowerAssignOp target suffix.tree
  · exact (traced_emitGlue _).bind fun _ => traced_emitGlue _
termination_by sizeOf stmt
decreasing_by exact body.lt

theorem traced_lowerDo (stmt : Tree) : Traced (lowerDo stmt) := by
  rw [lowerDo]
  refine (traced_lift _).bind fun body => (traced_lift _).bind fun condition => ?_
  refine traced_newLabel.bind fun start => (traced_emitGlue _).bind fun _ => ?_
  refine ((traced_lowerBlock body.tree).withComponent .loopBody).bind fun _ => ?_
  exact (traced_lowerTest condition.tree start).withLine condition.tree
termination_by sizeOf stmt
decreasing_by exact body.lt

end

theorem traced_lowerFunction (entry : String) (definition : Tree) :
    Traced (lowerFunction entry definition) := by
  rw [lowerFunction]
  refine (traced_lift _).bind fun name => (traced_note _).bind fun _ => ?_
  refine traced_get.bind fun s => (traced_emit _).bind fun _ => (traced_scope _).bind fun _ => ?_
  refine (traced_lift _).bind fun params => (traced_lift _).bind fun names => ?_
  refine (traced_forM (fun _ => traced_emit _) _).bind fun _ => (traced_lift _).bind fun block => ?_
  refine (traced_lowerBlock block.tree).bind fun _ => traced_leave fun s => ?_
  dsimp only
  split
  · exact (traced_note _).bind fun _ => (traced_emit _).bind fun _ => traced_emit _
  · exact traced_emit _

theorem traced_lowerProgram (entry : String) (root : Tree) : Traced (lowerProgram entry root) := by
  rw [lowerProgram]
  refine (traced_lift _).bind fun program => (traced_lift _).bind fun list => ?_
  refine (traced_lift _).bind fun links => traced_forM (fun link => ?_) links
  refine (traced_lift _).bind fun definition => ?_
  exact (traced_lowerFunction entry definition.tree).withLine definition.tree

end Statements

end Lookahead.Lowering
