import Lookahead.Lowering.Stmt
import Lookahead.Proofs.Source.Syntax

namespace Lookahead.Source

structure Computation (α : Type) where
  code : List Quad
  result : α
  temps : Nat

/-- Straight-line code whose temporaries are numbered from the argument on. -/
def Emit (α : Type) : Type := Nat → Computation α

namespace Emit

instance : Monad Emit where
  pure a := fun n => ⟨[], a, n⟩
  bind x f := fun n =>
    let c := x n
    let d := f c.result c.temps
    ⟨c.code ++ d.code, d.result, d.temps⟩

def emit (q : Quad) : Emit Unit := fun n => ⟨[q], (), n⟩

def newTemp : Emit Operand := fun n => ⟨[], .temp n, n + 1⟩

def apply (op : Op) (lhs rhs : Operand) : Emit Operand := do
  let t ← newTemp
  emit (.binary op lhs rhs t)
  return t

def params : List Operand → Emit Unit
  | [] => return
  | place :: rest => do
    emit (.param place)
    params rest

/-- Applies the operator that waits for `value`, if there is one. -/
def close (left : Option (Operand × ChainOp)) (value : Operand) : Emit Operand :=
  match left with
  | none => return value
  | some (lhs, op) => apply op.1 lhs value

/-- Comparisons are applied as they come. A logical operator waits for its right side, which goes
up to the next logical operator. -/
def chain (left : Option (Operand × ChainOp)) (value : Operand) :
    List (ChainOp × Operand) → Emit Operand
  | [] => close left value
  | (op, rhs) :: rest =>
    if op.1.strength = 2 then do chain left (← apply op.1 value rhs) rest
    else do chain (some (← close left value, op)) rhs rest

end Emit

open Emit in
mutual

def Expr.lower : Expr → Emit Operand
  | .name x => return .name x.text
  | .num digits => return .num digits
  | .char c => return .char c
  | .call callee args => do
    let places ← args.lower
    params places
    let t ← newTemp
    emit (.call callee.text places.length (some t))
    return t
  | .not e => do
    let place ← e.lower
    let t ← newTemp
    emit (.not place t)
    return t
  | .binary op lhs rhs => do
    let left ← lhs.lower
    let right ← rhs.lower
    apply op.1 left right
  | .chain first rest => do
    let place ← first.lower
    let links ← rest.lower
    chain none place links

def Args.lower : Args → Emit (List Operand)
  | .nil => return []
  | .cons e rest => do
    let place ← e.lower
    let places ← rest.lower
    return place :: places

def Links.lower : Links → Emit (List (ChainOp × Operand))
  | .nil => return []
  | .cons op e rest => do
    let place ← e.lower
    let links ← rest.lower
    return (op, place) :: links

end

open Emit

def Decl.lower (d : Decl) : Emit Unit :=
  match d.init with
  | none => return
  | some e => do emit (.assign (.name d.target.text) (← e.lower))

def Update.lower : Update → Emit Unit
  | .assign target e => do emit (.assign (.name target.text) (← e.lower))
  | .step target op => do
    emit (.assign (.name target.text) (← apply op.1 (.name target.text) (.imm 1)))

def Simple.lower : Simple → Emit Unit
  | .declare d => d.lower
  | .update u => u.lower
  | .call callee args => do
    let places ← args.lower
    params places
    emit (.call callee.text places.length none)
  | .ret none => emit (.ret none)
  | .ret (some e) => do emit (.ret (some (← e.lower)))

/-- Code with its provenance, the numbers of the next temporary and the next label, and whether a
return was among it. -/
structure Chunk (α : Type) where
  code : List (Quad × Provenance)
  result : α
  temps : Nat
  labels : Nat
  returns : Bool

/-- Code that is put down to a place of the source and takes its temporaries and its labels from
the numbers given. -/
def Emission (α : Type) : Type := Provenance → Nat → Nat → Chunk α

/-- The labels that lowering makes up. -/
def labelText (i : Nat) : String := s!"L{i}"

namespace Emission

instance : Monad Emission where
  pure a := fun _ n l => ⟨[], a, n, l, false⟩
  bind x f := fun p n l =>
    let c := x p n l
    let d := f c.result p c.temps c.labels
    ⟨c.code ++ d.code, d.result, d.temps, d.labels, c.returns || d.returns⟩

def straight {α : Type} (x : Emit α) : Emission α := fun p n l =>
  let c := x n
  ⟨c.code.map fun q => (q, p), c.result, c.temps, l, false⟩

section Instructions

variable {α β : Type} (p : Provenance) (n l : Nat)

theorem map_fst_bind (x : Emission α) (f : α → Emission β) :
    ((x >>= f) p n l).code.map Prod.fst = (x p n l).code.map Prod.fst ++
      (f (x p n l).result p (x p n l).temps (x p n l).labels).code.map Prod.fst :=
  List.map_append

theorem map_fst_straight (x : Emit α) :
    (straight x p n l).code.map Prod.fst = (x n).code := by
  rw [straight, List.map_map]
  exact List.map_id _

end Instructions

def newLabel : Emission String := fun _ n l => ⟨[], labelText l, n, l + 1, false⟩

def markReturn (returns : Bool) : Emission Unit := fun _ n l => ⟨[], (), n, l, returns⟩

def withLine {α : Type} (line : Option Nat) (x : Emission α) : Emission α := fun p =>
  x ⟨line <|> p.line, p.component⟩

def withComponent {α : Type} (component : Component) (x : Emission α) : Emission α := fun p =>
  x ⟨p.line, some component⟩

def glue (q : Quad) : Emission Unit := withComponent .glue (straight (emit q))

/-- Jumps to `target` when the condition is false. -/
def test (condition : Expr) (target : String) : Emission Unit :=
  withComponent .condition (straight do emit (.ifFalse (← condition.lower) target))

def loop (condition : Expr) (body : Emission Unit) : Emission Unit := do
  let start ← newLabel
  let finish ← newLabel
  glue (.label start)
  test condition finish
  withComponent .loopBody body
  glue (.goto start)
  glue (.label finish)

/-- One arm of a conditional. A false condition goes on behind its block, or to the end if nothing
is left to try. -/
def arm (isLast : Bool) (finish : String) (line : Option Nat) (condition : Expr)
    (body : Emission Unit) : Emission Unit := do
  let next ← if isLast then pure finish else newLabel
  withLine line (test condition next)
  withComponent .thenBranch body
  glue (.goto finish)
  if !isLast then
    glue (.label next)

end Emission

def Arms.isDone : Arms → Bool
  | .done => true
  | _ => false

open Emission in
mutual

def Stmt.lower : Stmt → Emission Unit
  | .simple s => do
    straight s.lower
    markReturn s.returns
  | .cond arms => do
    let finish ← newLabel
    arms.lower finish
    glue (.label finish)
  | .whileLoop condition body => loop condition body.lower
  | .forLoop init condition step body => do
    straight init.lower
    loop condition do
      body.lower
      straight step.lower
  | .doUntil body line condition => do
    let start ← newLabel
    glue (.label start)
    withComponent .loopBody body.lower
    withLine line (test condition start)

def Block.lower : Block → Emission Unit
  | .nil => return
  | .cons line s rest => do
    withLine line s.lower
    rest.lower

def Arms.lower (finish : String) : Arms → Emission Unit
  | .done => return
  | .otherwise body => withComponent .elseBranch body.lower
  | .arm line condition body rest => do
    Emission.arm rest.isDone finish line condition body.lower
    rest.lower finish

end

/-- Moves the parameters from their slots, the first of which comes after slot `n`. -/
def moves (n : Nat) : List Name → Emit Unit
  | [] => return
  | x :: rest => do
    emit (.assign (.name x.text) (.param (n + 1)))
    moves (n + 1) rest

def Function.inner (f : Function) : Emission Unit := do
  Emission.straight (moves 0 f.params)
  f.body.lower

def Function.opening (f : Function) : Emission Unit := do
  Emission.straight (emit (.label f.name.text))
  f.inner

/-- A function without a return gets one, unless it is the entry. -/
def Function.closing (f : Function) (entry : String) (c : Chunk Unit) : List Quad :=
  (if f.name.text ≠ entry && !c.returns then
    [.ret (some (Lowering.defaultReturn (c.code.map Prod.fst)))]
  else []) ++ [.label (Program.endLabel f.name.text)]

def Function.lower (f : Function) (entry : String) : Emission Unit :=
  Emission.withLine f.line fun p n l =>
    let c := f.opening p n l
    { c with code := c.code ++ (f.closing entry c).map fun q => (q, p) }

def lowerFunctions (entry : String) : List Function → Emission Unit
  | [] => return
  | f :: rest => do
    f.lower entry
    lowerFunctions entry rest

end Lookahead.Source
