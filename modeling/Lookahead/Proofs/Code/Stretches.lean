import Lookahead.Proofs.Simulation.Function

namespace Lookahead

namespace Source

inductive Stretch
  | test (e : Expr)
  | simple (s : Simple)

def Stretch.code (n : Nat) : Stretch → List Quad
  | .test e => (e.lower n).code
  | .simple s => (s.lower n).code

mutual

/-- The stretches of a statement. The step of a loop comes behind the body. -/
def Stmt.stretches : Stmt → List Stretch
  | .simple s => [.simple s]
  | .cond arms => arms.stretches
  | .whileLoop test body => .test test :: body.stretches
  | .forLoop init test step body =>
    .simple (.declare init) :: .test test :: (body.stretches ++ [.simple (.update step)])
  | .doUntil body _ test => body.stretches ++ [.test test]

def Block.stretches : Block → List Stretch
  | .nil => []
  | .cons _ s rest => s.stretches ++ rest.stretches

def Arms.stretches : Arms → List Stretch
  | .done => []
  | .otherwise body => body.stretches
  | .arm _ test body rest => .test test :: (body.stretches ++ rest.stretches)

end

end Source

def Op.isGlue : Op → Bool
  | label | goto | ifFalse => true
  | _ => false

namespace Machine

open Source

/-- The code is that of the stretches, in their order, with labels and jumps around them. -/
inductive Assembled : List Stretch → List Quad → Prop
  | nil : Assembled [] []
  | glue {q : Quad} {stretches : List Stretch} {code : List Quad} (hq : q.op.isGlue = true)
      (h : Assembled stretches code) : Assembled stretches (q :: code)
  | stretch (s : Stretch) (n : Nat) {stretches : List Stretch} {code : List Quad}
      (h : Assembled stretches code) : Assembled (s :: stretches) (s.code n ++ code)

namespace Assembled

variable {stretches more : List Stretch} {code rest : List Quad}

theorem append (h : Assembled stretches code) (hrest : Assembled more rest) :
    Assembled (stretches ++ more) (code ++ rest) := by
  induction h with
  | nil => exact hrest
  | glue hq _ ih => exact .glue hq ih
  | stretch s n _ ih =>
    rw [List.cons_append, List.append_assoc]
    exact .stretch s n ih

theorem single (s : Stretch) (n : Nat) : Assembled [s] (s.code n) := by
  have h := Assembled.stretch s n .nil
  rwa [List.append_nil] at h

/-- A test and the jump that depends on it. -/
theorem test (e : Expr) (n : Nat) (target : String) (h : Assembled stretches code) :
    Assembled (.test e :: stretches)
      ((e.lower n).code ++ .ifFalse (e.lower n).result target :: code) :=
  .stretch (.test e) n (.glue rfl h)

theorem loop (e : Expr) {x : Emission Unit} (h : ∀ p n l, Assembled stretches (quads x p n l))
    (p : Provenance) (n l : Nat) :
    Assembled (.test e :: stretches) (quads (Emission.loop e x) p n l) := by
  rw [quads_loop]
  refine .glue rfl (.test e n _ ?_)
  have h := (h ⟨p.line, some .loopBody⟩ (e.lower n).temps (l + 2)).append
    (.glue (q := .goto (labelText l)) rfl (.glue (q := .label (labelText (l + 1))) rfl .nil))
  rwa [List.append_nil] at h

theorem arm (isLast : Bool) (finish : String) (line : Option Nat) (e : Expr) {x : Emission Unit}
    (h : ∀ p n l, Assembled stretches (quads x p n l)) (p : Provenance) (n l : Nat) :
    Assembled (.test e :: stretches) (quads (Emission.arm isLast finish line e x) p n l) := by
  cases isLast with
  | true =>
    rw [quads_arm_last]
    have h := (h ⟨p.line, some .thenBranch⟩ (e.lower n).temps l).append
      (.glue (q := .goto finish) rfl .nil)
    rw [List.append_nil] at h
    exact .test e n _ h
  | false =>
    rw [quads_arm]
    have h := (h ⟨p.line, some .thenBranch⟩ (e.lower n).temps (l + 1)).append
      (.glue (q := .goto finish) rfl (.glue (q := .label (labelText l)) rfl .nil))
    rw [List.append_nil] at h
    exact .test e n _ h

end Assembled

mutual

theorem assembled_stmt : ∀ (s : Stmt) (p : Provenance) (n l : Nat),
    Assembled s.stretches (quads s.lower p n l)
  | .simple s, p, n, l => by
    rw [quads_simple]
    exact .single (.simple s) n
  | .cond arms, p, n, l => by
    rw [quads_cond]
    have h := (assembled_arms arms (labelText l) p n (l + 1)).append
      (.glue (q := .label (labelText l)) rfl .nil)
    rwa [List.append_nil] at h
  | .whileLoop test body, p, n, l => .loop test (assembled_block body) p n l
  | .forLoop init test step body, p, n, l => by
    rw [Stmt.lower, quads_bind, quads_straight]
    -- The step belongs to what the loop repeats, behind the body.
    refine .stretch (.simple (.declare init)) n (.loop test (fun p n l => ?_) _ _ _)
    rw [quads_bind, quads_straight]
    exact (assembled_block body p n l).append (.single (.simple (.update step)) _)
  | .doUntil body line test, p, n, l => by
    rw [quads_doUntil]
    refine .glue rfl ((assembled_block body _ _ _).append ?_)
    exact .test test _ _ .nil

theorem assembled_block : ∀ (b : Block) (p : Provenance) (n l : Nat),
    Assembled b.stretches (quads b.lower p n l)
  | .nil, _, _, _ => .nil
  | .cons line s rest, p, n, l => by
    rw [Block.lower, quads_bind, quads_withLine]
    exact (assembled_stmt s _ n l).append (assembled_block rest p _ _)

theorem assembled_arms : ∀ (a : Arms) (finish : String) (p : Provenance) (n l : Nat),
    Assembled a.stretches (quads (a.lower finish) p n l)
  | .done, _, _, _, _ => .nil
  | .otherwise body, _, p, n, l => assembled_block body ⟨p.line, some .elseBranch⟩ n l
  | .arm line test body rest, finish, p, n, l => by
    rw [quads_arms]
    exact (Assembled.arm rest.isDone finish line test (assembled_block body) p n l).append
      (assembled_arms rest finish p _ _)

end

end Machine

end Lookahead
