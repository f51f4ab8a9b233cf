import Lookahead.Proofs.Lowering.Stacks
import Lookahead.Proofs.Source.Code

namespace Lookahead

theorem Program.emit_code (p : Program) (q : Quad) (provenance : Provenance) :
    (p.emit q provenance).code.toList = p.code.toList ++ [q] :=
  Array.toList_push

def Program.extend (p : Program) (code : List (Quad × Provenance)) : Program :=
  code.foldl (fun p entry => p.emit entry.1 entry.2) p

theorem Program.extend_append (p : Program) (code more : List (Quad × Provenance)) :
    p.extend (code ++ more) = (p.extend code).extend more :=
  List.foldl_append

theorem Program.extend_code (p : Program) (code : List (Quad × Provenance)) :
    (p.extend code).code.toList = p.code.toList ++ code.map Prod.fst := by
  induction code generalizing p with
  | nil => exact (List.append_nil _).symm
  | cons entry code ih =>
    rw [show p.extend (entry :: code) = (p.emit entry.1 entry.2).extend code from rfl, ih,
      emit_code, List.append_assoc]
    rfl

theorem Program.extend_dump (p : Program) (code : List (Quad × Provenance)) :
    (p.extend code).dump.toList = p.dump.toList ++ code.map fun entry => entry.1.dumpLine := by
  induction code generalizing p with
  | nil => exact (List.append_nil _).symm
  | cons entry code ih =>
    rw [show p.extend (entry :: code) = (p.emit entry.1 entry.2).extend code from rfl, ih, emit,
      Array.toList_push, List.append_assoc]
    rfl

theorem Program.emit_entries {p : Program} (h : p.sourceMap.entries.size = p.code.size) (q : Quad)
    (provenance : Provenance) :
    (p.emit q provenance).sourceMap.entries = p.sourceMap.entries.push provenance := by
  have hcount : p.sourceMap.entries.size + 1 - p.sourceMap.entries.size = 1 := by omega
  simp only [emit, SourceMap.insert, ← h, hcount]
  rw [← Array.toList_inj]
  simp

/-- Every instruction has its entry in the source map. -/
theorem Program.extend_entries {p : Program} (h : p.sourceMap.entries.size = p.code.size)
    (code : List (Quad × Provenance)) :
    (p.extend code).sourceMap.entries.toList =
      p.sourceMap.entries.toList ++ code.map Prod.snd := by
  induction code generalizing p with
  | nil => exact (List.append_nil _).symm
  | cons entry code ih =>
    have hentries := emit_entries h entry.1 entry.2
    have hsize : (p.emit entry.1 entry.2).sourceMap.entries.size =
        (p.emit entry.1 entry.2).code.size := by
      rw [hentries, Array.size_push, h]
      exact (Array.size_push _).symm
    rw [show p.extend (entry :: code) = (p.emit entry.1 entry.2).extend code from rfl, ih hsize,
      hentries, Array.toList_push, List.append_assoc]
    rfl

def Lowering.State.marked (s : Lowering.State) (returns : Bool) : Lowering.State :=
  { s with scope := s.scope.map fun scope =>
      { scope with hasReturn := scope.hasReturn || returns } }

theorem Lowering.State.marked_false (s : Lowering.State) : s.marked false = s := by
  simp only [marked, Bool.or_false, Option.map_id_fun', id_eq]

namespace Source.Emission

variable {α β : Type}

def run (x : Emission α) : Lowering α := fun s =>
  let c := x ⟨s.line, s.component⟩ s.temps s.labels
  (.ok c.result, { s.marked c.returns with
    program := s.program.extend c.code
    temps := c.temps
    labels := c.labels })

theorem run_pure (a : α) : (pure a : Emission α).run = pure a := by
  funext s
  exact congrArg (Prod.mk (Except.ok a)) s.marked_false

theorem run_bind (x : Emission α) (f : α → Emission β) :
    (x >>= f).run = x.run >>= fun a => (f a).run := by
  funext s
  rw [Failing.bind_ok (x := x.run) rfl]
  simp only [run, bind, Program.extend_append, Lowering.State.marked, Option.map_map,
    Function.comp_def, Bool.or_assoc]

theorem run_newLabel : newLabel.run = Lowering.newLabel := by
  funext s
  simp only [run, newLabel, Lowering.State.marked_false]
  rfl

theorem run_withLine (t : Tree) (x : Emission α) :
    (withLine t.firstLine x).run = Lowering.withLine t x.run := rfl

theorem run_withComponent (component : Component) (x : Emission α) :
    (withComponent component x).run = Lowering.withComponent component x.run := rfl

end Source.Emission

namespace Source.Emit

open Emission (straight)

variable {α β : Type}

def run (x : Emit α) : Lowering α := (straight x).run

theorem straight_pure (a : α) : straight (pure a) = pure a := rfl

theorem straight_bind (x : Emit α) (f : α → Emit β) :
    straight (x >>= f) = straight x >>= fun a => straight (f a) := by
  funext p n l
  simp only [straight, bind, List.map_append, Bool.or_false]

theorem run_pure (a : α) : (pure a : Emit α).run = pure a := by
  rw [run, straight_pure, Emission.run_pure]

theorem run_bind (x : Emit α) (f : α → Emit β) :
    (x >>= f).run = x.run >>= fun a => (f a).run := by
  rw [run, straight_bind, Emission.run_bind]
  rfl

theorem run_newTemp : newTemp.run = Lowering.newTemp := by
  funext s
  simp only [run, Emission.run, straight, newTemp, Lowering.State.marked_false]
  rfl

theorem run_emit (q : Quad) : (emit q).run = Lowering.emit q := by
  funext s
  simp only [run, Emission.run, straight, emit, Lowering.State.marked_false]
  rfl

theorem run_apply (op : Op) (lhs rhs : Operand) :
    (apply op lhs rhs).run = Lowering.combine op lhs rhs := by
  simp only [apply, Lowering.combine, run_bind, run_newTemp, run_emit, run_pure]

theorem run_params (places : List Operand) : (params places).run = Lowering.emitParams places := by
  induction places with
  | nil => exact run_pure ()
  | cons place rest ih =>
    rw [params, run_bind, run_emit, ih]
    rfl

end Source.Emit

namespace Source.Emission

theorem run_straight {α : Type} (x : Emit α) : (straight x).run = x.run := rfl

theorem run_glue (q : Quad) : (glue q).run = Lowering.emitGlue q := by
  rw [glue, run_withComponent, run_straight, Emit.run_emit]
  rfl

theorem run_markReturn_false : (markReturn false).run = pure () := by
  funext s
  exact congrArg (Prod.mk (Except.ok ())) s.marked_false

theorem run_markReturn_true : (markReturn true).run = Lowering.markReturn := by
  funext s
  simp only [run, markReturn, Lowering.State.marked, Bool.or_true]
  rfl

variable {t : Tree} {e : Expr}

theorem run_test (h : Lowering.lowerExpr t = e.lower.run) (target : String) :
    (test e target).run = Lowering.lowerTest t target := by
  rw [test, run_withComponent, run_straight, Emit.run_bind, ← h]
  simp only [Emit.run_emit]
  rfl

theorem run_arm (h : Lowering.lowerExpr t = e.lower.run) (isLast : Bool) (finish : String)
    (body : Emission Unit) :
    (arm isLast finish t.firstLine e body).run = Lowering.emitArm isLast finish t body.run := by
  cases isLast <;>
    simp only [arm, Lowering.emitArm, run_bind, run_pure, run_newLabel, run_withLine, run_test h,
      run_withComponent, run_glue, Bool.not_true, Bool.not_false, Bool.false_eq_true, if_true,
      if_false]

end Source.Emission

namespace Lowering

open Source (ChainOp)
open Source.Emit

theorem strength_le (op : Op) : op.strength ≤ 2 := by
  cases op <;> decide

theorem strength_chainOp (op : ChainOp) (h : op.1.strength ≠ 2) : op.1.strength = 1 := by
  obtain ⟨op, hop⟩ := op
  cases op <;> revert h hop <;> decide

theorem reduceWaiting_of_lt {limit : Nat} {op : Op} (h : op.strength < limit) (lhs value : Operand)
    (waiting : List (Operand × Op)) :
    reduceWaiting limit ((lhs, op) :: waiting) value = pure ((lhs, op) :: waiting, value) := by
  rw [reduceWaiting, if_pos h]

theorem reduceWaiting_of_le {limit : Nat} {op : Op} (h : limit ≤ op.strength) (lhs value : Operand)
    (waiting : List (Operand × Op)) :
    reduceWaiting limit ((lhs, op) :: waiting) value =
      combine op lhs value >>= reduceWaiting limit waiting := by
  rw [reduceWaiting, if_neg (Nat.not_lt.2 h)]

/-- A comparison waits for nothing: it may be applied as soon as its right side is there. -/
theorem reduceLinks_comparison {op : Op} (h : op.strength = 2) (lhs value : Operand)
    (waiting : List (Operand × Op)) (links : List (Op × Operand)) :
    reduceLinks ((lhs, op) :: waiting) value links =
      combine op lhs value >>= fun t => reduceLinks waiting t links := by
  cases links with
  | nil => rw [reduceLinks, reduceWaiting_of_le (Nat.zero_le _), bind_assoc]; rfl
  | cons link rest =>
    rw [reduceLinks, reduceWaiting_of_le (h ▸ strength_le link.1), bind_assoc]
    rfl

/-- At most one logical operator waits at any time. -/
def waiting (left : Option (Operand × ChainOp)) : List (Operand × Op) :=
  left.toList.map fun entry => (entry.1, entry.2.1)

theorem reduceWaiting_waiting_of_lt {limit : Nat} {left : Option (Operand × ChainOp)}
    (h : ∀ entry ∈ left, entry.2.1.strength < limit) (value : Operand) :
    reduceWaiting limit (waiting left) value = pure (waiting left, value) := by
  cases left with
  | none => rfl
  | some entry => exact reduceWaiting_of_lt (h entry rfl) _ _ _

theorem reduceWaiting_waiting_of_le {limit : Nat} {left : Option (Operand × ChainOp)}
    (h : ∀ entry ∈ left, limit ≤ entry.2.1.strength) (value : Operand) :
    reduceWaiting limit (waiting left) value =
      (close left value).run >>= fun value => pure ([], value) := by
  cases left with
  | none => rw [close, run_pure, pure_bind]; rfl
  | some entry =>
    rw [close, run_apply]
    exact reduceWaiting_of_le (h entry rfl) _ _ _

theorem reduceLinks_eq (left : Option (Operand × ChainOp))
    (hleft : ∀ entry ∈ left, entry.2.1.strength = 1) (value : Operand)
    (links : List (ChainOp × Operand)) :
    reduceLinks (waiting left) value (links.map fun link => (link.1.1, link.2)) =
      (chain left value links).run := by
  induction links generalizing left value with
  | nil =>
    rw [List.map_nil, reduceLinks, reduceWaiting_waiting_of_le (fun _ _ => Nat.zero_le _), chain]
    simp only [bind_assoc, pure_bind, bind_pure]
  | cons link rest ih =>
    obtain ⟨op, rhs⟩ := link
    rw [List.map_cons, reduceLinks, chain]
    by_cases hop : op.1.strength = 2
    · rw [if_pos hop, run_bind, run_apply, reduceWaiting_waiting_of_lt, pure_bind]
      · exact (reduceLinks_comparison hop _ _ _ _).trans (bind_congr fun t => ih left hleft t)
      · intro entry hentry
        simp only [hop, hleft entry hentry]
        decide
    · have hop := strength_chainOp op hop
      rw [if_neg (by rw [hop]; decide), run_bind, reduceWaiting_waiting_of_le, bind_assoc]
      · exact bind_congr fun v => ih (some (v, op)) (fun _ h => by cases h; exact hop) rhs
      · intro entry hentry
        simp only [hop, hleft entry hentry]
        decide

end Lowering

end Lookahead
