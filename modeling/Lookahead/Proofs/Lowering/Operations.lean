import Lookahead.Proofs.Lowering.Trace
import Mathlib.Data.List.Nodup

namespace Lookahead.Lowering

open Source (labelText)

/-- A node that is to be lowered, and as what. -/
inductive Task
  | program (root : Tree)
  | function (definition : Tree)
  | block (node : Tree)
  | stmt (node : Tree)
  | simpleStmt (node : Tree)
  | decl (node : Tree)
  | assignOp (target : String) (node : Tree)
  | ret (node : Tree)
  | cond (node : Tree)
  | whileLoop (node : Tree)
  | forLoop (node : Tree)
  | doLoop (node : Tree)
  | test (condition : Tree) (target : String)
  | expr (node : Tree)
  | arith (node : Tree)
  | term (node : Tree)
  | factor (node : Tree)
  | args (node : Tree)
  | params (node : Tree)
  | call (callee : String) (node : Tree)
  | callStmt (callee : String) (node : Tree)

def Task.run (entry : String) : Task → Lowering Unit
  | program root => lowerProgram entry root
  | function definition => lowerFunction entry definition
  | block node => lowerBlock node
  | stmt node => lowerStmt node
  | simpleStmt node => lowerSimpleStmt node
  | decl node => lowerDecl node
  | assignOp target node => lowerAssignOp target node
  | ret node => lowerReturn node
  | cond node => lowerIf node
  | whileLoop node => lowerWhile node
  | forLoop node => lowerFor node
  | doLoop node => lowerDo node
  | test condition target => lowerTest condition target
  | expr node => do let _ ← lowerExpr node
  | arith node => do let _ ← lowerArith node
  | term node => do let _ ← lowerTerm node
  | factor node => do let _ ← lowerFactor node
  | args node => do let _ ← lowerArgs node
  | params node => do emitParams (← lowerArgs node)
  | call callee node => do let _ ← lowerCall callee node
  | callStmt callee node => lowerCallStmt callee node

theorem Task.traced_run (entry : String) (task : Task) : Traced (task.run entry) := by
  have hdrop {α : Type} {x : Lowering α} (hx : Traced x) : Traced (do let _ ← x) :=
    hx.bind fun _ => traced_pure ()
  cases task with
  | program root => exact traced_lowerProgram entry root
  | function definition => exact traced_lowerFunction entry definition
  | block node => exact traced_lowerBlock node
  | stmt node => exact traced_lowerStmt node
  | simpleStmt node => exact traced_lowerSimpleStmt node
  | decl node => exact traced_lowerDecl node
  | assignOp target node => exact traced_lowerAssignOp target node
  | ret node => exact traced_lowerReturn node
  | cond node => exact traced_lowerIf node
  | whileLoop node => exact traced_lowerWhile node
  | forLoop node => exact traced_lowerFor node
  | doLoop node => exact traced_lowerDo node
  | test condition target => exact traced_lowerTest condition target
  | expr node => exact hdrop (traced_lowerExpr node)
  | arith node => exact hdrop (traced_lowerArith node)
  | term node => exact hdrop (traced_lowerTerm node)
  | factor node => exact hdrop (traced_lowerFactor node)
  | args node => exact hdrop (traced_lowerArgs node)
  | params node => exact (traced_lowerArgs node).bind traced_emitParams
  | call callee node => exact hdrop ((traced_lowerArgs node).bind (traced_emitValueCall callee))
  | callStmt callee node => exact traced_lowerCallStmt callee node

inductive Operation
  | newTemp
  | newLabel
  | emit (q : Quad)
  | withLine (node : Tree) (body : List Operation)
  | withComponent (component : Component) (body : List Operation)
  | lower (task : Task)

mutual

/-- The state that an operation leaves, whether it succeeds or fails. -/
def Operation.after (entry : String) : Operation → State → State
  | .newTemp, s => (Lowering.newTemp s).2
  | .newLabel, s => (Lowering.newLabel s).2
  | .emit q, s => (Lowering.emit q s).2
  | .withLine node body, s =>
    (Lowering.withLine node (fun s => (.ok (), afterAll entry body s)) s).2
  | .withComponent component body, s =>
    (Lowering.withComponent component (fun s => (.ok (), afterAll entry body s)) s).2
  | .lower task, s => (task.run entry s).2

/-- The state after several operations. One that fails does not keep the next from being run: where
it should, the operations behind it are left out. -/
def Operation.afterAll (entry : String) : List Operation → State → State
  | [], s => s
  | op :: rest, s => afterAll entry rest (op.after entry s)

end

namespace Operation

mutual

theorem exists_trace_after (entry : String) :
    ∀ (op : Operation) (s : State), ∃ es, Trace s es (op.after entry s)
  | .newTemp, s => traced_newTemp.exists_trace s
  | .newLabel, s => traced_newLabel.exists_trace s
  | .emit q, s => (traced_emit q).exists_trace s
  | .withLine node body, s => by
    rw [after]
    obtain ⟨es, hes⟩ :=
      exists_trace_afterAll entry body { s with line := node.firstLine <|> s.line }
    exact ⟨es, .onLine _ hes⟩
  | .withComponent component body, s => by
    rw [after]
    obtain ⟨es, hes⟩ := exists_trace_afterAll entry body { s with component := some component }
    exact ⟨es, .inComponent _ hes⟩
  | .lower task, s => (task.traced_run entry).exists_trace s

theorem exists_trace_afterAll (entry : String) :
    ∀ (ops : List Operation) (s : State), ∃ es, Trace s es (afterAll entry ops s)
  | [], s => ⟨[], .refl s⟩
  | op :: rest, s => by
    obtain ⟨es, hes⟩ := exists_trace_after entry op s
    obtain ⟨fs, hfs⟩ := exists_trace_afterAll entry rest (op.after entry s)
    exact ⟨es ++ fs, hes.trans hfs⟩

end

end Operation

section Discipline

/-- In the course of the operations, begun in a state, `op` is run from `t`: as one of them, or in
the body of one. -/
inductive Operation.Runs (entry : String) : List Operation → State → Operation → State → Prop
  | here {op : Operation} {rest : List Operation} {s : State} : Runs entry (op :: rest) s op s
  | later {op op' : Operation} {rest : List Operation} {s t : State} :
      Runs entry rest (op.after entry s) op' t → Runs entry (op :: rest) s op' t
  | onLine {node : Tree} {body rest : List Operation} {op : Operation} {s t : State} :
      Runs entry body { s with line := node.firstLine <|> s.line } op t →
        Runs entry (.withLine node body :: rest) s op t
  | inComponent {component : Component} {body rest : List Operation} {op : Operation}
      {s t : State} :
      Runs entry body { s with component := some component } op t →
        Runs entry (.withComponent component body :: rest) s op t

/-- The events since the beginning, whatever line and component are in force by now. -/
inductive Past : List Event → State → Prop
  | initial : Past [] .initial
  | trace {past es : List Event} {s t : State} : Past past s → Trace s es t → Past (past ++ es) t
  | place {past : List Event} {s : State} (line : Option Nat) (component : Option Component) :
      Past past s → Past past { s with line := line, component := component }

/-- What an operation that takes one state to another keeps to. -/
structure Disciplined (s t : State) : Prop where
  /-- The state is changed by handing out names and by adding code, now and before. -/
  traced : (∃ past, Past past s) ∧ ∃ es, Trace s es t
  /-- No temporary and no label is handed out twice, now or since the beginning. -/
  fresh : ∀ past es, Past past s → Trace s es t →
    ((past ++ es).filterMap Event.temp?).Nodup ∧ ((past ++ es).filterMap Event.label?).Nodup
  /-- Each instruction has its line of the dump and its provenance. -/
  lengths : t.program.dump.size = t.program.size ∧ t.program.sourceMap.size = t.program.size
  dumpLines : ∀ i : Nat, t.program.dump[i]? = t.program.code[i]?.map Quad.dumpLine
  /-- What was there before stays in its place. -/
  code : s.program.code.toList <+: t.program.code.toList
  dump : s.program.dump.toList <+: t.program.dump.toList
  provenances : s.program.sourceMap.entries.toList <+: t.program.sourceMap.entries.toList
  line : t.line = s.line
  component : t.component = s.component

variable {s t : State} {past es : List Event}

theorem Past.program_eq (h : Past past s) :
    s.program = Program.empty.extend (past.filterMap Event.code?) := by
  induction h with
  | initial => rfl
  | trace _ h ih => rw [h.effect.program, ih, List.filterMap_append, Program.extend_append]
  | place _ _ _ ih => exact ih

theorem Past.temps_eq (h : Past past s) :
    past.filterMap Event.temp? = numbered .temp 0 s.temps := by
  induction h with
  | initial => rfl
  | trace _ h ih =>
    rw [List.filterMap_append, ih, h.effect.temps,
      numbered_append _ (Nat.zero_le _) h.effect.temps_le]
  | place _ _ _ ih => exact ih

theorem Past.labels_eq (h : Past past s) :
    past.filterMap Event.label? = numbered labelText 0 s.labels := by
  induction h with
  | initial => rfl
  | trace _ h ih =>
    rw [List.filterMap_append, ih, h.effect.labels,
      numbered_append _ (Nat.zero_le _) h.effect.labels_le]
  | place _ _ _ ih => exact ih

/-- Every instruction has its entry in the source map. -/
theorem Past.entries_size (h : Past past s) :
    s.program.sourceMap.entries.size = s.program.code.size := by
  have hentries := Program.extend_entries (p := .empty) rfl (past.filterMap Event.code?)
  have hcode := Program.extend_code .empty (past.filterMap Event.code?)
  rw [h.program_eq, ← Array.length_toList, ← Array.length_toList, hentries, hcode]
  simp [Program.empty, SourceMap.empty]

/-- Every instruction has its line in the dump. -/
theorem Past.dump_eq (h : Past past s) :
    s.program.dump.toList = s.program.code.toList.map Quad.dumpLine := by
  rw [h.program_eq, Program.extend_dump, Program.extend_code]
  simp [Program.empty]

theorem nodup_numbered {α : Type} {name : Nat → α} (h : Function.Injective name) (n m : Nat) :
    (numbered name n m).Nodup :=
  List.Nodup.map h (List.nodup_range' 1)

theorem Past.disciplined (h : Past past s) (h' : Trace s es t) : Disciplined s t where
  traced := ⟨⟨past, h⟩, es, h'⟩
  fresh past es h h' := by
    rw [(h.trace h').temps_eq, (h.trace h').labels_eq]
    exact ⟨nodup_numbered (fun _ _ h => Operand.temp.inj h) _ _,
      nodup_numbered Machine.labelText_injective _ _⟩
  lengths := by
    refine ⟨?_, (h.trace h').entries_size⟩
    rw [← Array.length_toList, (h.trace h').dump_eq, List.length_map, Array.length_toList,
      Program.size]
  dumpLines i := by
    rw [← Array.getElem?_toList, (h.trace h').dump_eq, List.getElem?_map, Array.getElem?_toList]
  code := by
    rw [h'.effect.program, Program.extend_code]
    exact List.prefix_append _ _
  dump := by
    rw [h'.effect.program, Program.extend_dump]
    exact List.prefix_append _ _
  provenances := by
    rw [h'.effect.program, Program.extend_entries h.entries_size]
    exact List.prefix_append _ _
  line := h'.effect.line
  component := h'.effect.component

theorem Operation.Runs.exists_past {entry : String} {ops : List Operation} {op : Operation}
    (h : Runs entry ops s op t) (hs : ∃ past, Past past s) : ∃ past, Past past t := by
  induction h with
  | here => exact hs
  | @later op _ _ s _ _ ih =>
    obtain ⟨past, hpast⟩ := hs
    obtain ⟨es, hes⟩ := op.exists_trace_after entry s
    exact ih ⟨_, hpast.trace hes⟩
  | onLine _ ih =>
    obtain ⟨past, hpast⟩ := hs
    exact ih ⟨past, hpast.place _ _⟩
  | inComponent _ ih =>
    obtain ⟨past, hpast⟩ := hs
    exact ih ⟨past, hpast.place _ _⟩

/-- Every operation of a sequence, also one in the body of another, and whether it succeeds or
fails midway, only adds to the program, hands out names that are new, and leaves the line and the
component as they were. -/
theorem disciplined_after {entry : String} {ops : List Operation} {op : Operation} {s : State}
    (h : Operation.Runs entry ops .initial op s) : Disciplined s (op.after entry s) := by
  obtain ⟨past, hpast⟩ := h.exists_past ⟨[], .initial⟩
  obtain ⟨es, hes⟩ := op.exists_trace_after entry s
  exact hpast.disciplined hes

/-- A loop without a condition, found below a line, is given up after a name was handed out. -/
theorem disciplined_after_failure :
    ∃ s : State, Operation.Runs "main"
      [.newTemp, .withLine (.leaf 1 "WhileStmt")
        [.newLabel, .lower (.whileLoop (.leaf 1 "WhileStmt"))]]
      .initial (.lower (.whileLoop (.leaf 1 "WhileStmt"))) s ∧
      Disciplined s ((Operation.lower (.whileLoop (.leaf 1 "WhileStmt"))).after "main" s) := by
  refine Exists.imp (fun _ run => ⟨run, disciplined_after run⟩) ?_
  exact ⟨_, .later (.onLine (.later .here))⟩

end Discipline

end Lookahead.Lowering
