import Lookahead.Proofs.Code.Returns
import Lookahead.Proofs.Source.Grouping

namespace Lookahead

namespace Source

structure Call where
  callee : Name
  args : Args

def Args.length : Args → Nat
  | .nil => 0
  | .cons _ rest => rest.length + 1

mutual

/-- The calls of an expression from left to right. Those among the arguments of a call come before
the call itself. -/
def Expr.calls : Expr → List Call
  | .name _ | .num _ | .char _ => []
  | .call callee args => args.calls ++ [⟨callee, args⟩]
  | .not e => e.calls
  | .binary _ lhs rhs => lhs.calls ++ rhs.calls
  | .chain first rest => first.calls ++ rest.calls

def Args.calls : Args → List Call
  | .nil => []
  | .cons e rest => e.calls ++ rest.calls

def Links.calls : Links → List Call
  | .nil => []
  | .cons _ e rest => e.calls ++ rest.calls

end

def Decl.calls (d : Decl) : List Call := d.init.elim [] Expr.calls

def Update.calls : Update → List Call
  | .assign _ e => e.calls
  | .step _ _ => []

def Simple.calls : Simple → List Call
  | .declare d => d.calls
  | .update u => u.calls
  | .call callee args => args.calls ++ [⟨callee, args⟩]
  | .ret value => value.elim [] Expr.calls

def Stretch.calls : Stretch → List Call
  | .test e => e.calls
  | .simple s => s.calls

def Function.calls (f : Function) : List Call := f.body.stretches.flatMap Stretch.calls

end Source

def invocation (callee : String) (places : List Operand) (result : Option Operand) : List Quad :=
  places.map .param ++ [.call callee places.length result]

section Delivers

open Source

mutual

inductive Delivers : Expr → List Quad → Operand → Prop
  | name (x : Name) : Delivers (.name x) [] (.name x.text)
  | num (digits : String) : Delivers (.num digits) [] (.num digits)
  | char (c : Char) : Delivers (.char c) [] (.char c)
  | call (callee : Name) {args : Args} {code : List Quad} {places : List Operand} (t : Nat)
      (h : DeliversAll args code places) :
      Delivers (.call callee args) (code ++ invocation callee.text places (some (.temp t)))
        (.temp t)
  | not {e : Expr} {code : List Quad} {place : Operand} (t : Nat) (h : Delivers e code place) :
      Delivers (.not e) (code ++ [.not place (.temp t)]) (.temp t)
  | binary (op : ArithOp) {lhs rhs : Expr} {code more : List Quad} {left right : Operand} (t : Nat)
      (hl : Delivers lhs code left) (hr : Delivers rhs more right) :
      Delivers (.binary op lhs rhs) (code ++ (more ++ [.binary op.1 left right (.temp t)]))
        (.temp t)
  | chain {first : Expr} {rest : Links} {code more operators : List Quad} {place root : Operand}
      {links : List (ChainOp × Operand)} (t : Nat) (hfirst : Delivers first code place)
      (hrest : DeliversLinks rest more links)
      (h : Realizes (group place (links.map fun l => (l.1.1, l.2))) t operators root)
      (hops : ∀ q ∈ operators, q.op.precedence?.isSome = true) :
      Delivers (.chain first rest) (code ++ (more ++ operators)) root

inductive DeliversAll : Args → List Quad → List Operand → Prop
  | nil : DeliversAll .nil [] []
  | cons {e : Expr} {rest : Args} {code more : List Quad} {place : Operand}
      {places : List Operand} (h : Delivers e code place) (hrest : DeliversAll rest more places) :
      DeliversAll (.cons e rest) (code ++ more) (place :: places)

inductive DeliversLinks : Links → List Quad → List (ChainOp × Operand) → Prop
  | nil : DeliversLinks .nil [] []
  | cons (op : ChainOp) {e : Expr} {rest : Links} {code more : List Quad} {place : Operand}
      {links : List (ChainOp × Operand)} (h : Delivers e code place)
      (hrest : DeliversLinks rest more links) :
      DeliversLinks (.cons op e rest) (code ++ more) ((op, place) :: links)

end

theorem DeliversAll.length_eq : ∀ {args : Args} {code : List Quad} {places : List Operand},
    DeliversAll args code places → places.length = args.length
  | .nil, _, _, h => by
    cases h
    rfl
  | .cons _ rest, _, _, h => by
    cases h with
    | cons _ hrest => exact congrArg (· + 1) hrest.length_eq

theorem params_eq (places : List Operand) (n : Nat) :
    Emit.params places n = ⟨places.map .param, (), n⟩ := by
  induction places with
  | nil => rfl
  | cons place rest ih =>
    show (⟨.param place :: (Emit.params rest n).code, _, (Emit.params rest n).temps⟩ :
      Source.Computation Unit) = _
    rw [ih]
    rfl

theorem lower_call (callee : Name) (args : Args) (n : Nat) :
    (Expr.call callee args).lower n =
      ⟨(args.lower n).code ++ invocation callee.text (args.lower n).result
        (some (.temp (args.lower n).temps)), .temp (args.lower n).temps,
        (args.lower n).temps + 1⟩ := by
  rw [Expr.lower]
  simp only [bind, params_eq]
  rfl

mutual

theorem delivers_expr : ∀ (e : Expr) (n : Nat), Delivers e (e.lower n).code (e.lower n).result
  | .name x, _ => .name x
  | .num digits, _ => .num digits
  | .char c, _ => .char c
  | .call callee args, n => by
    rw [lower_call]
    exact .call callee _ (delivers_args args n)
  | .not e, n => .not _ (delivers_expr e n)
  | .binary op lhs rhs, n => .binary op _ (delivers_expr lhs n) (delivers_expr rhs _)
  | .chain first rest, n => by
    let c := first.lower n
    let d := rest.lower c.temps
    -- The operators are applied after all operands, so no call stands between them.
    have hchain := (realizes_emit (group c.result (d.result.map fun l => (l.1.1, l.2))) d.temps).1
    have hops : Emits (fun op => op.precedence?.isSome) (Emit.chain none c.result d.result) :=
      emits_chain (fun op => op.2) _ _ _
    rw [← chain_eq] at hchain
    exact .chain _ (delivers_expr first n) (delivers_links rest _) hchain (hops _)

theorem delivers_args : ∀ (args : Args) (n : Nat),
    DeliversAll args (args.lower n).code (args.lower n).result
  | .nil, _ => .nil
  | .cons e rest, n => by
    have h := DeliversAll.cons (delivers_expr e n) (delivers_args rest (e.lower n).temps)
    rw [← List.append_nil (rest.lower _).code] at h
    exact h

theorem delivers_links : ∀ (links : Links) (n : Nat),
    DeliversLinks links (links.lower n).code (links.lower n).result
  | .nil, _ => .nil
  | .cons op e rest, n => by
    have h := DeliversLinks.cons op (delivers_expr e n) (delivers_links rest (e.lower n).temps)
    rw [← List.append_nil (rest.lower _).code] at h
    exact h

end

end Delivers

def Op.isPassing : Op → Bool
  | param | call => true
  | _ => false

open Source in
/-- Behind `before`, the code makes the calls in their order. Each of them passes the places of its
arguments right behind the code that computes them, and nothing else is passed. -/
inductive Conforms : List Quad → List Call → List Quad → Prop
  | nil {before : List Quad} : Conforms before [] []
  | plain {before : List Quad} {q : Quad} {calls : List Call} {code : List Quad}
      (hq : q.op.isPassing = false) (h : Conforms (before ++ [q]) calls code) :
      Conforms before calls (q :: code)
  | call (c : Call) {earlier argsCode code : List Quad} {places : List Operand}
      {result : Option Operand} {calls : List Call} (hargs : DeliversAll c.args argsCode places)
      (h : Conforms (earlier ++ argsCode ++ invocation c.callee.text places result) calls code) :
      Conforms (earlier ++ argsCode) (c :: calls) (invocation c.callee.text places result ++ code)

section Conforms

open Source Machine

variable {before code rest : List Quad} {calls more : List Call}

theorem Conforms.append (h : Conforms before calls code)
    (hrest : Conforms (before ++ code) more rest) :
    Conforms before (calls ++ more) (code ++ rest) := by
  induction h with
  | nil => simpa using hrest
  | plain hq _ ih =>
    refine .plain hq (ih ?_)
    rwa [List.append_assoc, List.singleton_append]
  | call c hargs _ ih =>
    rw [List.cons_append, List.append_assoc]
    refine .call c hargs (ih ?_)
    rwa [List.append_assoc _ (invocation _ _ _)]

theorem conforms_of_plain (h : ∀ q ∈ code, q.op.isPassing = false) : Conforms before [] code := by
  induction code generalizing before with
  | nil => exact .nil
  | cons q code ih =>
    rw [List.forall_mem_cons] at h
    exact .plain h.1 (ih h.2)

/-- Code that makes calls, and code behind it that makes none. -/
theorem Conforms.append_plain (h : Conforms before calls code)
    (hrest : ∀ q ∈ rest, q.op.isPassing = false) : Conforms before calls (code ++ rest) := by
  have happend := h.append (conforms_of_plain hrest)
  rwa [List.append_nil] at happend

theorem Conforms.append_single (h : Conforms before calls code) {q : Quad}
    (hq : q.op.isPassing = false) : Conforms before calls (code ++ [q]) :=
  h.append_plain (List.forall_mem_singleton.2 hq)

/-- The arguments of a call, and the call. -/
theorem Conforms.invoke (callee : Name) {args : Args} {places : List Operand}
    (result : Option Operand) (h : Conforms before args.calls code)
    (hargs : DeliversAll args code places) :
    Conforms before (args.calls ++ [⟨callee, args⟩])
      (code ++ invocation callee.text places result) := by
  have hcall : Conforms (before ++ code) [⟨callee, args⟩]
      (invocation callee.text places result ++ []) := .call ⟨callee, args⟩ hargs .nil
  rw [List.append_nil] at hcall
  exact h.append hcall

theorem isPassing_arithOp (op : ArithOp) : op.1.isPassing = false := by
  obtain ⟨op, hop⟩ := op
  cases op <;> first | rfl | cases hop

theorem isPassing_of_precedence {op : Op} (h : op.precedence?.isSome = true) :
    op.isPassing = false := by
  cases op <;> first | rfl | cases h

mutual

theorem conforms_expr : ∀ (e : Expr) {code : List Quad} {place : Operand} (before : List Quad),
    Delivers e code place → Conforms before e.calls code
  | .name _, _, _, _, h => by
    cases h
    exact .nil
  | .num _, _, _, _, h => by
    cases h
    exact .nil
  | .char _, _, _, _, h => by
    cases h
    exact .nil
  | .call callee args, _, _, before, h => by
    cases h with
    -- The calls among the arguments are made in the code that the run comes behind.
    | call _ t h => exact (conforms_args args before h).invoke callee _ h
  | .not e, _, _, before, h => by
    cases h with
    | not t h => exact (conforms_expr e before h).append_single rfl
  | .binary op lhs rhs, _, _, before, h => by
    cases h with
    | binary _ t hl hr =>
      refine (conforms_expr lhs before hl).append ?_
      exact (conforms_expr rhs _ hr).append_single (isPassing_arithOp op)
  | .chain first rest, _, _, before, h => by
    cases h with
    | chain t hfirst hrest _ hops =>
      have hoperators := fun q hq => isPassing_of_precedence (hops q hq)
      exact (conforms_expr first before hfirst).append
        ((conforms_links rest _ hrest).append_plain hoperators)

theorem conforms_args : ∀ (args : Args) {code : List Quad} {places : List Operand}
    (before : List Quad), DeliversAll args code places → Conforms before args.calls code
  | .nil, _, _, _, h => by
    cases h
    exact .nil
  | .cons e rest, _, _, before, h => by
    cases h with
    | cons h hrest => exact (conforms_expr e before h).append (conforms_args rest _ hrest)

theorem conforms_links : ∀ (links : Links) {code : List Quad} {places : List (ChainOp × Operand)}
    (before : List Quad), DeliversLinks links code places → Conforms before links.calls code
  | .nil, _, _, _, h => by
    cases h
    exact .nil
  | .cons _ e rest, _, _, before, h => by
    cases h with
    | cons _ h hrest => exact (conforms_expr e before h).append (conforms_links rest _ hrest)

end

/-- An expression, and one instruction that uses its place. -/
theorem conforms_use (e : Expr) (n : Nat) {use : Operand → Quad}
    (huse : ∀ place, (use place).op.isPassing = false) :
    Conforms before e.calls ((e.lower >>= fun place => Emit.emit (use place)) n).code :=
  (conforms_expr e before (delivers_expr e n)).append_single (huse _)

theorem conforms_simple (s : Simple) (n : Nat) : Conforms before s.calls (s.lower n).code := by
  cases s with
  | declare d =>
    obtain ⟨target, _ | e⟩ := d
    · exact .nil
    · exact conforms_use e n fun _ => rfl
  | update u =>
    cases u with
    | assign target e => exact conforms_use e n fun _ => rfl
    | step target op => exact .plain (isPassing_arithOp op) (.plain rfl .nil)
  | call callee args =>
    have h := (conforms_args args before (delivers_args args n)).invoke callee none
      (delivers_args args n)
    rw [Simple.lower]
    simp only [bind, params_eq]
    exact h
  | ret value =>
    cases value with
    | none => exact .plain rfl .nil
    | some e => exact conforms_use e n fun _ => rfl

theorem conforms_stretch (s : Stretch) (n : Nat) : Conforms before s.calls (s.code n) := by
  cases s with
  | test e => exact conforms_expr e before (delivers_expr e n)
  | simple s => exact conforms_simple s n

/-- Labels and jumps pass nothing. -/
theorem Machine.Assembled.conforms {stretches : List Stretch} (h : Assembled stretches code) :
    Conforms before (stretches.flatMap Stretch.calls) code := by
  induction h generalizing before with
  | nil => exact .nil
  | @glue q _ _ hq _ ih =>
    refine .plain ?_ ih
    cases hop : q.op <;> first | rfl | (rw [hop] at hq; cases hq)
  | stretch s n _ ih =>
    rw [List.flatMap_cons]
    exact (conforms_stretch s n).append ih

theorem plain_moves (params : List Name) (i n : Nat) :
    ∀ q ∈ (moves i params n).code, q.op.isPassing = false := by
  have h : Emits (fun op => !op.isPassing) (moves i params) := emits_moves rfl params i
  exact fun q hq => by simpa using h n q hq

theorem plain_closing (f : Source.Function) (isDefaulted : Bool) (place : Operand) :
    ∀ q ∈ closing f isDefaulted place, q.op.isPassing = false := by
  cases isDefaulted <;> simp [closing, Quad.ret, Quad.label, Op.isPassing]

theorem conforms_function (f : Source.Function) (entry : String) (p : Provenance) (n l : Nat) :
    Conforms before f.calls (quads (f.lower entry) p n l) := by
  obtain ⟨opening, body, rfl, hbody, hcode⟩ := exists_opening f entry p n l
  rw [hcode]
  refine Conforms.append_plain (.plain rfl ?_) (plain_closing f _ _)
  exact (conforms_of_plain (plain_moves f.params 0 n)).append hbody.conforms

theorem conforms_functions (fs : List Source.Function) (entry : String) (p : Provenance)
    (n l : Nat) :
    Conforms before (fs.flatMap Function.calls) (quads (lowerFunctions entry fs) p n l) := by
  induction fs generalizing before n l with
  | nil => exact .nil
  | cons f fs ih =>
    rw [lowerFunctions, quads_bind, List.flatMap_cons]
    exact (conforms_function f entry p n l).append (ih _ _)

end Conforms

end Lookahead
