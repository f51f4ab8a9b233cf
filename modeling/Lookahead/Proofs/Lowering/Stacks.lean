import Lookahead.Lowering.Stmt
import Lookahead.Proofs.Failing

namespace Lookahead.Lowering

section Waiting

/-- The two stacks as one: an operator waits with the value to its left. Those that wait are
applied, the latest first, down to one that binds less than `limit`. -/
def reduceWaiting (limit : Nat) :
    List (Operand × Op) → Operand → Lowering (List (Operand × Op) × Operand)
  | [], value => return ([], value)
  | (lhs, op) :: waiting, value => do
    if op.strength < limit then return ((lhs, op) :: waiting, value)
    reduceWaiting limit waiting (← combine op lhs value)

def reduceLinks (waiting : List (Operand × Op)) (value : Operand) :
    List (Op × Operand) → Lowering Operand
  | [] => return (← reduceWaiting 0 waiting value).2
  | (op, rhs) :: rest => do
    let (waiting, value) ← reduceWaiting op.strength waiting value
    reduceLinks ((value, op) :: waiting) rhs rest

variable {malformed : LoweringError}

/-- The stacks are in step: there is one value more than there are operators, and this stays so. -/
theorem unwind_eq (limit : Nat) (waiting : List (Operand × Op)) (value : Operand) :
    unwind malformed limit (waiting.map (·.2)) (value :: waiting.map (·.1)) =
      reduceWaiting limit waiting value >>= fun r =>
        pure (r.1.map (·.2), r.2 :: r.1.map (·.1)) := by
  induction waiting generalizing value with
  | nil => rw [reduceWaiting, pure_bind]; rfl
  | cons entry waiting ih =>
    obtain ⟨lhs, op⟩ := entry
    simp only [List.map_cons, unwind, reduceWaiting]
    split
    · rw [pure_bind]; rfl
    · simp only [apply, bind_assoc, pure_bind, ih]

/-- With no limit nothing is left waiting. -/
theorem unwind_zero (waiting : List (Operand × Op)) (value : Operand) :
    unwind malformed 0 (waiting.map (·.2)) (value :: waiting.map (·.1)) =
      reduceWaiting 0 waiting value >>= fun r => pure ([], [r.2]) := by
  induction waiting generalizing value with
  | nil => rw [reduceWaiting, pure_bind]; rfl
  | cons entry waiting ih =>
    obtain ⟨lhs, op⟩ := entry
    simp only [List.map_cons, unwind, reduceWaiting, if_neg (Nat.not_lt_zero _), apply, bind_assoc,
      pure_bind, ih]

theorem climb_eq (waiting : List (Operand × Op)) (value : Operand) (links : List (Op × Operand)) :
    climb malformed (waiting.map (·.2)) (value :: waiting.map (·.1)) links =
      reduceLinks waiting value links := by
  induction links generalizing waiting value with
  | nil => simp only [climb, reduceLinks, unwind_zero, bind_assoc, pure_bind]
  | cons link rest ih =>
    obtain ⟨op, rhs⟩ := link
    simp only [climb, reduceLinks, unwind_eq, bind_assoc, pure_bind]
    exact bind_congr fun r => ih ((r.2, op) :: r.1) rhs

/-- With one operand more than operators, no branch of the reduction fails. -/
theorem reduceChain_eq_reduceLinks (first : Operand) (links : List (Op × Operand)) :
    reduceChain (first :: links.map (·.2)) (links.map (·.1)) = reduceLinks [] first links := by
  rw [reduceChain, if_pos (by simp)]
  have hzip : (links.map (·.1)).zip (links.map (·.2)) = links := by
    induction links with
    | nil => rfl
    | cons link links ih => simp [ih]
  exact (congrArg (climb _ [] [first]) hzip).trans (climb_eq [] first links)

theorem exists_reduceWaiting (limit : Nat) (waiting : List (Operand × Op)) (value : Operand)
    (s : State) : ∃ r s', reduceWaiting limit waiting value s = (.ok r, s') := by
  induction waiting generalizing value s with
  | nil => exact ⟨_, _, rfl⟩
  | cons entry waiting ih =>
    rw [reduceWaiting]
    split
    · exact ⟨_, _, rfl⟩
    · rw [Failing.bind_apply]
      exact ih _ _

theorem exists_reduceLinks (waiting : List (Operand × Op)) (value : Operand)
    (links : List (Op × Operand)) (s : State) :
    ∃ place s', reduceLinks waiting value links s = (.ok place, s') := by
  induction links generalizing waiting value s with
  | nil =>
    obtain ⟨r, s', hr⟩ := exists_reduceWaiting 0 waiting value s
    rw [reduceLinks, Failing.bind_ok hr]
    exact ⟨_, _, rfl⟩
  | cons link rest ih =>
    obtain ⟨r, s', hr⟩ := exists_reduceWaiting link.1.strength waiting value s
    rw [reduceLinks, Failing.bind_ok hr]
    exact ih _ _ _

/-- A chain is malformed if and only if its counts do not fit, and then nothing is emitted. -/
theorem reduceChain_eq_error_iff {operands : List Operand} {ops : List Op} {s s' : State}
    {e : LoweringError} :
    reduceChain operands ops s = (.error e, s') ↔ operands.length ≠ ops.length + 1 ∧
      e = .malformedChain operands.length ops.length ∧ s' = s := by
  by_cases hlength : operands.length = ops.length + 1
  · obtain ⟨first, rest, rfl⟩ := List.exists_cons_of_length_eq_add_one hlength
    have hrest : ops.length = rest.length := (Nat.succ.inj hlength).symm
    have hchain := reduceChain_eq_reduceLinks first (ops.zip rest)
    rw [List.map_snd_zip (Nat.le_of_eq hrest.symm), List.map_fst_zip (Nat.le_of_eq hrest)] at hchain
    obtain ⟨place, t, ht⟩ := exists_reduceLinks [] first (ops.zip rest) s
    rw [hchain, ht]
    constructor
    · intro h
      cases h
    · exact fun h => absurd hlength h.1
  · rw [reduceChain, if_neg hlength]
    constructor
    · intro h
      cases h
      exact ⟨hlength, rfl, rfl⟩
    · rintro ⟨-, rfl, rfl⟩
      rfl

end Waiting

section Operands

def lowerLink (link : Tree) : Lowering (Op × Operand) := do
  let rel ← link.expect 0 .relOp "relational chain"
  let op ← rel.tree.operator "relational operator"
  let rhs ← link.expect 1 .arithExpr "relational chain"
  return (op, ← lowerArith rhs.tree)

/-- The operands and the operators that are collected on the way, in two lists. -/
theorem foldlM_push {α : Type} (f : α → Lowering (Op × Operand)) (l : List α)
    (operands : List Operand) (ops : List Op) :
    l.foldlM (fun acc a => do
      let link ← f a
      return (acc.1 ++ [link.2], acc.2 ++ [link.1])) (operands, ops) =
      l.mapM f >>= fun links =>
        pure (operands ++ links.map (·.2), ops ++ links.map (·.1)) := by
  induction l generalizing operands ops with
  | nil => simp
  | cons a l ih =>
    simp only [List.foldlM_cons, List.mapM_cons, bind_assoc, pure_bind, ih, List.map_cons,
      List.append_assoc, List.singleton_append]

/-- An expression's operators are reduced with one operand more than there are operators. -/
theorem lowerExpr_eq (expr : Tree) : lowerExpr expr = (do
    let head ← expr.expect 0 .arithExpr "expression"
    let tail ← expr.expect 1 .exprTail "expression"
    let first ← lowerArith head.tree
    let links ← tail.tree.unroll
    let rest ← links.mapM fun link => lowerLink link.tree
    reduceLinks [] first rest) := by
  rw [lowerExpr]
  refine bind_congr fun head => bind_congr fun tail => bind_congr fun first => ?_
  refine bind_congr fun links => ?_
  have hpush := foldlM_push (fun link : tail.tree.Within => lowerLink link.tree) links [first] []
  simp only [lowerLink, bind_assoc, pure_bind] at hpush
  rw [hpush]
  simp only [bind_assoc, pure_bind]
  exact bind_congr fun rest => reduceChain_eq_reduceLinks first rest

end Operands

section Orderly

variable {α β : Type}

/-- No malformed chain is reported. -/
class Orderly (r : Except LoweringError α) : Prop where
  ne : ∀ operands ops, r ≠ .error (.malformedChain operands ops)

instance orderly_ok (a : α) : Orderly (.ok a) := ⟨fun _ _ h => by cases h⟩

theorem Orderly.bind {r : Except LoweringError α} {f : α → Except LoweringError β}
    (hr : Orderly r) (hf : ∀ a, Orderly (f a)) : Orderly (r >>= f) := by
  cases r with
  | error e => exact ⟨fun operands ops h => hr.ne operands ops (congrArg _ (Except.error.inj h))⟩
  | ok a => exact hf a

theorem orderly_mapM {f : α → Except LoweringError β} (hf : ∀ a, Orderly (f a)) (l : List α) :
    Orderly (l.mapM f) := by
  induction l with
  | nil => exact orderly_ok []
  | cons a l ih =>
    rw [List.mapM_cons]
    exact (hf a).bind fun b => ih.bind fun bs => orderly_ok (b :: bs)

instance orderly_unexpected (t : Tree) (context : String) :
    Orderly (t.unexpected context : Except LoweringError α) := ⟨fun _ _ h => by cases h⟩

instance orderly_kind (t : Tree) : Orderly t.kind := by
  unfold Tree.kind
  split
  · exact orderly_ok _
  · exact orderly_unexpected t _

instance orderly_child (t : Tree) (index : Nat) (context : String) :
    Orderly (t.child index context) := by
  unfold Tree.child
  split
  · exact orderly_ok _
  · exact ⟨fun _ _ h => by cases h⟩

instance orderly_expect (t : Tree) (index : Nat) (kind : NodeKind) (context : String) :
    Orderly (t.expect index kind context) := by
  refine (orderly_child t index context).bind fun c => (orderly_kind c.tree).bind fun found => ?_
  split
  · exact orderly_ok c
  · exact orderly_unexpected c.tree context

instance orderly_literal (t : Tree) : Orderly t.literal := by
  unfold Tree.literal
  split
  · exact orderly_ok _
  · exact ⟨fun _ _ h => by cases h⟩

instance orderly_ident (t : Tree) (index : Nat) (context : String) :
    Orderly (t.ident index context) :=
  (orderly_expect t index _ context).bind fun c => orderly_literal c.tree

instance orderly_isEmpty (t : Tree) : Orderly t.isEmpty := by
  unfold Tree.isEmpty
  split
  · exact orderly_ok _
  · exact (orderly_kind _).bind fun _ => orderly_ok _

instance orderly_operator (t : Tree) (context : String) : Orderly (t.operator context) := by
  refine (orderly_child t 0 context).bind fun token => (orderly_kind token.tree).bind fun kind => ?_
  split
  · split
    · exact orderly_ok _
    · exact orderly_unexpected token.tree context
  · exact orderly_unexpected token.tree context

theorem orderly_unrollAs (kind : NodeKind) (t : Tree) : Orderly (t.unrollAs kind) := by
  rw [Tree.unrollAs]
  refine (orderly_isEmpty t).bind fun empty => ?_
  split
  · exact orderly_ok _
  · split
    · exact orderly_ok _
    · next last hlast =>
      have hlt : sizeOf last < sizeOf t :=
        Tree.sizeOf_lt_of_mem_children (List.mem_of_getLast? hlast)
      refine (orderly_kind last).bind fun found => ?_
      split
      · exact (orderly_unrollAs kind last).bind fun more => orderly_ok _
      · exact orderly_ok _
termination_by sizeOf t
decreasing_by exact hlt

instance orderly_unroll (t : Tree) : Orderly t.unroll :=
  (orderly_kind t).bind fun kind => orderly_unrollAs kind t

instance orderly_charOperand (text : String) : Orderly (charOperand text) := by
  unfold charOperand
  split
  · exact orderly_ok _
  · exact ⟨fun _ _ h => by cases h⟩

instance orderly_arms (stmt : Tree) : Orderly (arms stmt) := by
  refine (orderly_expect stmt _ _ _).bind fun condition => ?_
  refine (orderly_expect stmt _ _ _).bind fun block => ?_
  refine (orderly_expect stmt _ _ _).bind fun elifs => ?_
  refine (orderly_unroll elifs.tree).bind fun links => ?_
  refine Orderly.bind (orderly_mapM (fun link => ?_) links) fun more => orderly_ok _
  refine (orderly_expect _ _ _ _).bind fun condition => ?_
  exact (orderly_expect _ _ _ _).bind fun block => orderly_ok _

instance orderly_elseBlock? (stmt : Tree) : Orderly (elseBlock? stmt) := by
  refine (orderly_expect stmt _ _ _).bind fun last => ?_
  refine (orderly_isEmpty last.tree).bind fun empty => ?_
  split
  · exact orderly_ok _
  · exact (orderly_expect _ _ _ _).bind fun block => orderly_ok _

instance orderly_paramNames (params : Tree) : Orderly (paramNames params) := by
  refine (orderly_isEmpty params).bind fun empty => ?_
  split
  · exact orderly_ok _
  · refine (orderly_expect params _ _ _).bind fun head => ?_
    refine (orderly_ident head.tree _ _).bind fun first => ?_
    refine (orderly_expect params _ _ _).bind fun tail => ?_
    refine (orderly_unroll tail.tree).bind fun links => ?_
    refine Orderly.bind (orderly_mapM (fun link => ?_) links) fun rest => orderly_ok _
    exact (orderly_expect _ _ _ _).bind fun param => orderly_ident param.tree _ _

end Orderly

end Lookahead.Lowering
