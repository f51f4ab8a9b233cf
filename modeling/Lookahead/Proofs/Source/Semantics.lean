import Lookahead.Proofs.Source.Syntax
import Mathlib.Logic.Function.Basic

namespace Lookahead.Source

/-- Numbers are read from their spelling. The constants are those that no source spells. -/
structure Interpretation (V : Type) where
  binary : Op → V → V → V
  not : V → V
  number : String → V
  constant : Int → V
  char : Char → V
  truth : V → Bool
  call : String → List V → V

abbrev Env (V : Type) := String → V

inductive Ending (V : Type)
  | done
  | returned (value : Option V)

section Values

variable {V : Type} (I : Interpretation V)

/-- The value of an operator and its sides, if one waits for its right side. -/
def closeValue (left : Option (V × ChainOp)) (value : V) : V :=
  match left with
  | none => value
  | some (lhs, op) => I.binary op.1 lhs value

/-- Both kinds of operators group from the left. A comparison applies to what was compared before
it and to the next operand; a logical operator applies to all that comes before it and to what
comes up to the next logical operator. -/
def chainValue (left : Option (V × ChainOp)) (value : V) : List (ChainOp × V) → V
  | [] => closeValue I left value
  | (op, rhs) :: rest =>
    if op.1.strength = 2 then chainValue left (I.binary op.1 value rhs) rest
    else chainValue (some (closeValue I left value, op)) rhs rest

variable (env : Env V)

mutual

def Expr.eval : Expr → V
  | .name x => env x.text
  | .num digits => I.number digits
  | .char c => I.char c
  | .call callee args => I.call callee.text args.eval
  | .not e => I.not e.eval
  | .binary op lhs rhs => I.binary op.1 lhs.eval rhs.eval
  | .chain first rest => chainValue I none first.eval rest.eval

def Args.eval : Args → List V
  | .nil => []
  | .cons e rest => e.eval :: rest.eval

def Links.eval : Links → List (ChainOp × V)
  | .nil => []
  | .cons op e rest => (op, e.eval) :: rest.eval

end

def Decl.exec (d : Decl) : Env V :=
  match d.init with
  | none => env
  | some e => Function.update env d.target.text (e.eval I env)

def Update.exec : Update → Env V
  | .assign target e => Function.update env target.text (e.eval I env)
  | .step target op =>
    Function.update env target.text (I.binary op.1 (env target.text) (I.constant 1))

def Simple.exec : Simple → Env V × Ending V
  | .declare d => (d.exec I env, .done)
  | .update u => (u.exec I env, .done)
  | .call _ _ => (env, .done)
  | .ret value => (env, .returned (value.map (·.eval I env)))

end Values

/-- The pieces of a body that have an execution of their own. A loop tests its condition before
each round, and may end each round with a step. -/
inductive Piece
  | stmt (s : Stmt)
  | block (b : Block)
  | arms (a : Arms)
  | loop (condition : Expr) (body : Block) (step : Option Update)

def Piece.returns : Piece → Bool
  | .stmt s => s.returns
  | .block b => b.returns
  | .arms a => a.returns
  | .loop _ body _ => body.returns

/-- `Runs I piece env env' r`: executing the piece from `env` ends, with `env'` and as `r` says. -/
inductive Runs {V : Type} (I : Interpretation V) : Piece → Env V → Env V → Ending V → Prop
  | simple {s : Simple} {env : Env V} :
      Runs I (.stmt (.simple s)) env (s.exec I env).1 (s.exec I env).2
  | cond {arms : Arms} {env env' : Env V} {r : Ending V} (h : Runs I (.arms arms) env env' r) :
      Runs I (.stmt (.cond arms)) env env' r
  | whileLoop {condition : Expr} {body : Block} {env env' : Env V} {r : Ending V}
      (h : Runs I (.loop condition body none) env env' r) :
      Runs I (.stmt (.whileLoop condition body)) env env' r
  | forLoop {init : Decl} {condition : Expr} {step : Update} {body : Block} {env env' : Env V}
      {r : Ending V} (h : Runs I (.loop condition body (some step)) (init.exec I env) env' r) :
      Runs I (.stmt (.forLoop init condition step body)) env env' r
  | doAgain {body : Block} {line : Option Nat} {condition : Expr} {env env₁ env' : Env V}
      {r : Ending V} (hbody : Runs I (.block body) env env₁ .done)
      (hc : I.truth (condition.eval I env₁) = false)
      (hrest : Runs I (.stmt (.doUntil body line condition)) env₁ env' r) :
      Runs I (.stmt (.doUntil body line condition)) env env' r
  | doUntil {body : Block} {line : Option Nat} {condition : Expr} {env env' : Env V}
      (hbody : Runs I (.block body) env env' .done)
      (hc : I.truth (condition.eval I env') = true) :
      Runs I (.stmt (.doUntil body line condition)) env env' .done
  | doReturned {body : Block} {line : Option Nat} {condition : Expr} {env env' : Env V}
      {value : Option V} (hbody : Runs I (.block body) env env' (.returned value)) :
      Runs I (.stmt (.doUntil body line condition)) env env' (.returned value)
  | loopExit {condition : Expr} {body : Block} {step : Option Update} {env : Env V}
      (hc : I.truth (condition.eval I env) = false) :
      Runs I (.loop condition body step) env env .done
  | loopAgain {condition : Expr} {body : Block} {step : Option Update} {env env₁ env' : Env V}
      {r : Ending V} (hc : I.truth (condition.eval I env) = true)
      (hbody : Runs I (.block body) env env₁ .done)
      (hrest : Runs I (.loop condition body step) (step.elim env₁ (·.exec I env₁)) env' r) :
      Runs I (.loop condition body step) env env' r
  | loopReturned {condition : Expr} {body : Block} {step : Option Update} {env env' : Env V}
      {value : Option V} (hc : I.truth (condition.eval I env) = true)
      (hbody : Runs I (.block body) env env' (.returned value)) :
      Runs I (.loop condition body step) env env' (.returned value)
  | nil {env : Env V} : Runs I (.block .nil) env env .done
  | cons {line : Option Nat} {s : Stmt} {rest : Block} {env env₁ env' : Env V} {r : Ending V}
      (hs : Runs I (.stmt s) env env₁ .done) (hrest : Runs I (.block rest) env₁ env' r) :
      Runs I (.block (.cons line s rest)) env env' r
  | consReturned {line : Option Nat} {s : Stmt} {rest : Block} {env env' : Env V}
      {value : Option V} (hs : Runs I (.stmt s) env env' (.returned value)) :
      Runs I (.block (.cons line s rest)) env env' (.returned value)
  | armsDone {env : Env V} : Runs I (.arms .done) env env .done
  | otherwise {body : Block} {env env' : Env V} {r : Ending V}
      (hbody : Runs I (.block body) env env' r) : Runs I (.arms (.otherwise body)) env env' r
  | armTrue {line : Option Nat} {condition : Expr} {body : Block} {rest : Arms} {env env' : Env V}
      {r : Ending V} (hc : I.truth (condition.eval I env) = true)
      (hbody : Runs I (.block body) env env' r) :
      Runs I (.arms (.arm line condition body rest)) env env' r
  | armFalse {line : Option Nat} {condition : Expr} {body : Block} {rest : Arms}
      {env env' : Env V} {r : Ending V} (hc : I.truth (condition.eval I env) = false)
      (hrest : Runs I (.arms rest) env env' r) :
      Runs I (.arms (.arm line condition body rest)) env env' r

/-- The parameters get the incoming values in order, the first of them that after position `n`. -/
def bindParams {V : Type} (incoming : Nat → V) (n : Nat) : List Name → Env V → Env V
  | [], env => env
  | x :: rest, env =>
    bindParams incoming (n + 1) rest (Function.update env x.text (incoming (n + 1)))

/-- The execution of a whole function, with its arguments at the positions from one on. -/
def Function.Runs {V : Type} (f : Function) (I : Interpretation V) (incoming : Nat → V)
    (env env' : Env V) (r : Ending V) : Prop :=
  Source.Runs I (.block f.body) (bindParams incoming 0 f.params env) env' r

end Lookahead.Source
