import Lookahead.Proofs.Code.Stretches

namespace Lookahead

def Op.isValue : Op → Bool
  | add | sub | mul | div | mod | lt | le | gt | ge | eq | ne | and | or | not => true
  | param | call => true
  | _ => false

def Quad.assigned? (q : Quad) : Option String :=
  match q.op, q.result with
  | .assign, some (.name name) => some name
  | _, _ => none

def returnCount (code : List Quad) : Nat := code.countP (·.op = .ret)

def lastAssigned (code : List Quad) : Operand :=
  ((code.filterMap Quad.assigned?).getLast?.map .name).getD (.imm 0)

namespace Source

/-- Straight-line code whose operators are all among those allowed. -/
def Emits (allowed : Op → Bool) {α : Type} (x : Emit α) : Prop :=
  ∀ n, ∀ q ∈ (x n).code, allowed q.op = true

section Emits

variable {allowed : Op → Bool} {α β : Type}

theorem emits_pure (a : α) : Emits allowed (pure a : Emit α) := fun _ => List.forall_mem_nil _

theorem emits_emit {q : Quad} (h : allowed q.op = true) : Emits allowed (Emit.emit q) :=
  fun _ => List.forall_mem_singleton.2 h

theorem Emits.bind {x : Emit α} {f : α → Emit β} (hx : Emits allowed x)
    (hf : ∀ a, Emits allowed (f a)) : Emits allowed (x >>= f) :=
  fun n => List.forall_mem_append.2 ⟨hx n, hf _ _⟩

theorem emits_newTemp : Emits allowed Emit.newTemp := fun _ => List.forall_mem_nil _

theorem emits_apply {op : Op} (hop : allowed op = true) (lhs rhs : Operand) :
    Emits allowed (Emit.apply op lhs rhs) :=
  emits_newTemp.bind fun _ => (emits_emit hop).bind fun _ => emits_pure _

theorem emits_params (h : allowed .param = true) (places : List Operand) :
    Emits allowed (Emit.params places) := by
  induction places with
  | nil => exact emits_pure ()
  | cons place rest ih => exact (emits_emit h).bind fun _ => ih

theorem emits_moves (h : allowed .assign = true) (params : List Name) (i : Nat) :
    Emits allowed (moves i params) := by
  induction params generalizing i with
  | nil => exact emits_pure ()
  | cons x rest ih => exact (emits_emit h).bind fun _ => ih (i + 1)

section Chain

variable (hops : ∀ op : ChainOp, allowed op.1 = true)

include hops

theorem emits_close (left : Option (Operand × ChainOp)) (value : Operand) :
    Emits allowed (Emit.close left value) := by
  cases left with
  | none => exact emits_pure value
  | some entry => exact emits_apply (hops _) _ _

theorem emits_chain (links : List (ChainOp × Operand)) (left : Option (Operand × ChainOp))
    (value : Operand) : Emits allowed (Emit.chain left value links) := by
  induction links generalizing left value with
  | nil => exact emits_close hops left value
  | cons link rest ih =>
    rw [Emit.chain]
    split
    · exact (emits_apply (hops _) _ _).bind fun _ => ih _ _
    · exact (emits_close hops _ _).bind fun _ => ih _ _

end Chain

theorem isValue_arithOp (op : ArithOp) : op.1.isValue = true := by
  obtain ⟨op, hop⟩ := op
  cases op <;> first | rfl | cases hop

theorem isValue_chainOp (op : ChainOp) : op.1.isValue = true := by
  obtain ⟨op, hop⟩ := op
  cases op <;> first | rfl | cases hop

mutual

/-- Expressions only compute values. -/
theorem emits_expr : ∀ e : Expr, Emits Op.isValue e.lower
  | .name _ | .num _ | .char _ => emits_pure _
  | .call _ args => (emits_args args).bind fun _ => (emits_params rfl _).bind fun _ =>
    emits_newTemp.bind fun _ => (emits_emit rfl).bind fun _ => emits_pure _
  | .not e => (emits_expr e).bind fun _ => emits_newTemp.bind fun _ =>
    (emits_emit rfl).bind fun _ => emits_pure _
  | .binary _ lhs rhs => (emits_expr lhs).bind fun _ => (emits_expr rhs).bind fun _ =>
    emits_apply (isValue_arithOp _) _ _
  | .chain first rest => (emits_expr first).bind fun _ => (emits_links rest).bind fun _ =>
    emits_chain isValue_chainOp _ _ _

theorem emits_args : ∀ args : Args, Emits Op.isValue args.lower
  | .nil => emits_pure _
  | .cons e rest => (emits_expr e).bind fun _ => (emits_args rest).bind fun _ => emits_pure _

theorem emits_links : ∀ links : Links, Emits Op.isValue links.lower
  | .nil => emits_pure _
  | .cons _ e rest => (emits_expr e).bind fun _ => (emits_links rest).bind fun _ => emits_pure _

end

end Emits

end Source

section Counts

open Source

theorem returnCount_append (code more : List Quad) :
    returnCount (code ++ more) = returnCount code + returnCount more := List.countP_append

theorem returnCount_eq_zero {code : List Quad} (h : ∀ q ∈ code, q.op ≠ .ret) :
    returnCount code = 0 := List.countP_eq_zero.2 fun q hq => by simpa using h q hq

theorem Source.Emits.returnCount_eq {allowed : Op → Bool} {α : Type} {x : Emit α}
    (h : Emits allowed x) (hallowed : allowed .ret = false) (n : Nat) :
    returnCount (x n).code = 0 := by
  apply returnCount_eq_zero
  intro q hq hret
  have hop := h n q hq
  rw [hret, hallowed] at hop
  cases hop

/-- Value code, and one instruction that uses what it comes to. -/
theorem returnCount_bind_emit {α : Type} {x : Emit α} (h : Emits Op.isValue x)
    (f : α → Quad) (n : Nat) :
    returnCount ((x >>= fun a => Emit.emit (f a)) n).code = returnCount [f (x n).result] :=
  (returnCount_append _ _).trans (by rw [h.returnCount_eq rfl, Nat.zero_add]; rfl)

def Source.Stretch.returns : Stretch → Bool
  | .test _ => false
  | .simple s => s.returns

theorem returnCount_decl (d : Decl) (n : Nat) : returnCount (d.lower n).code = 0 := by
  rw [Decl.lower]
  cases d.init with
  | none => rfl
  | some e => exact returnCount_bind_emit (emits_expr e) _ n

theorem returnCount_update (u : Update) (n : Nat) : returnCount (u.lower n).code = 0 := by
  cases u with
  | assign target e => exact returnCount_bind_emit (emits_expr e) _ n
  | step target op => exact returnCount_bind_emit (emits_apply (isValue_arithOp op) _ _) _ n

theorem returnCount_stretch (s : Stretch) (n : Nat) :
    returnCount (s.code n) = if s.returns then 1 else 0 := by
  cases s with
  | test e => exact (emits_expr e).returnCount_eq rfl n
  | simple s =>
    cases s with
    | declare d => exact returnCount_decl d n
    | update u => exact returnCount_update u n
    | call callee args =>
      have hcall : Emits Op.isValue (Simple.call callee args).lower :=
        (emits_args args).bind fun _ => (emits_params rfl _).bind fun _ => emits_emit rfl
      exact hcall.returnCount_eq rfl n
    | ret value =>
      cases value with
      | none => rfl
      | some e => exact returnCount_bind_emit (emits_expr e) _ n

theorem Machine.Assembled.returnCount_eq {stretches : List Stretch} {code : List Quad}
    (h : Machine.Assembled stretches code) :
    returnCount code = stretches.countP Stretch.returns := by
  induction h with
  | nil => rfl
  | @glue q stretches code hq _ ih =>
    have hret : q.op ≠ .ret := by
      intro hret
      rw [hret] at hq
      cases hq
    rw [← ih]
    exact List.countP_cons_of_neg (by simpa using hret)
  | stretch s n _ ih =>
    rw [returnCount_append, ih, returnCount_stretch, List.countP_cons, Nat.add_comm]

mutual

theorem Source.Stmt.returns_eq : ∀ s : Stmt, s.returns = s.stretches.any Stretch.returns
  | .simple s => (Bool.or_false _).symm
  | .cond arms => arms.returns_eq
  | .whileLoop _ body => body.returns_eq
  | .forLoop _ _ _ body => by
    rw [Stmt.returns, Stmt.stretches, body.returns_eq]
    simp [Stretch.returns, Simple.returns]
  | .doUntil body _ _ => by
    rw [Stmt.returns, Stmt.stretches, body.returns_eq]
    simp [Stretch.returns]

theorem Source.Block.returns_eq : ∀ b : Block, b.returns = b.stretches.any Stretch.returns
  | .nil => rfl
  | .cons _ s rest => by
    rw [Block.returns, Block.stretches, List.any_append, s.returns_eq, rest.returns_eq]

theorem Source.Arms.returns_eq : ∀ a : Arms, a.returns = a.stretches.any Stretch.returns
  | .done => rfl
  | .otherwise body => body.returns_eq
  | .arm _ _ body rest => by
    rw [Arms.returns, Arms.stretches, List.any_cons, List.any_append, body.returns_eq,
      rest.returns_eq]
    rfl

end

end Counts

section Function

open Source Machine

theorem defaultReturn_eq (code : List Quad) : Lowering.defaultReturn code = lastAssigned code := by
  -- The first hit of the search from the end is the last of all hits.
  rw [Lowering.defaultReturn, lastAssigned, List.getLast?_filterMap, List.map_findSome?]
  congr 2
  funext q
  obtain ⟨op, arg1, arg2, result⟩ := q
  cases op
  case assign => rcases result with _ | _ | _ <;> rfl
  all_goals rfl

/-- What closes a function assigns nothing. -/
theorem lastAssigned_closing (f : Source.Function) (isDefaulted : Bool) (place : Operand)
    (code : List Quad) :
    lastAssigned (code ++ closing f isDefaulted place) = lastAssigned code := by
  have hclosing : (closing f isDefaulted place).filterMap Quad.assigned? = [] := by
    cases isDefaulted <;> rfl
  rw [lastAssigned, List.filterMap_append, hclosing, List.append_nil]
  rfl

variable (f : Source.Function) (entry : String) (p : Provenance) (n l : Nat)

/-- The code of a function up to its closing, and the closing, which depends on all before it. -/
theorem exists_opening :
    ∃ opening body, opening = .label f.name.text :: ((moves 0 f.params n).code ++ body) ∧
      Assembled f.body.stretches body ∧
      quads (f.lower entry) p n l =
        opening ++ closing f (f.isDefaulted entry) (Lowering.defaultReturn opening) := by
  have hopening : quads f.opening (place f p) n l = .label f.name.text ::
      ((moves 0 f.params n).code ++
        quads f.body.lower (place f p) (moves 0 f.params n).temps l) := by
    rw [Function.opening, quads_bind, quads_straight, Function.inner, quads_bind, quads_straight]
    rfl
  refine ⟨_, _, hopening, assembled_block f.body _ _ _, ?_⟩
  rw [← closing_opening]
  show ((f.opening (place f p) n l).code ++ _).map Prod.fst = _
  rw [List.map_append, List.map_map]
  exact congrArg _ (List.map_id _)

/-- What the code of a function with `count` returns in its source has. -/
structure ReturnsAs (entry name : String) (count : Nat) (code : List Quad) : Prop where
  written : 0 < count ∨ name = entry → returnCount code = count
  defaulted : count = 0 → name ≠ entry → returnCount code = 1 ∧ ∃ before,
    code = before ++ [.ret (some (lastAssigned code)), .label (Program.endLabel name)]

theorem returnCount_moves (params : List Name) (i n : Nat) :
    returnCount (moves i params n).code = 0 := by
  have h : Emits (fun op => decide (op = .assign)) (moves i params) := emits_moves rfl params i
  exact h.returnCount_eq rfl n

theorem isDefaulted_iff : f.isDefaulted entry = true ↔
    f.body.stretches.countP Stretch.returns = 0 ∧ f.name.text ≠ entry := by
  rw [Function.isDefaulted, f.body.returns_eq, List.countP_eq_zero]
  simp [and_comm]

theorem returnsAs_function :
    ReturnsAs entry f.name.text (f.body.stretches.countP Stretch.returns)
      (quads (f.lower entry) p n l) := by
  obtain ⟨opening, body, hopening, hbody, hcode⟩ := exists_opening f entry p n l
  have hcount : returnCount opening = f.body.stretches.countP Stretch.returns := by
    rw [hopening, ← List.singleton_append, returnCount_append, returnCount_append,
      returnCount_moves, hbody.returnCount_eq]
    exact (Nat.zero_add _).trans (Nat.zero_add _)
  have hdefaulted := isDefaulted_iff f entry
  have hlast :=
    lastAssigned_closing f (f.isDefaulted entry) (Lowering.defaultReturn opening) opening
  rw [← hcode, ← defaultReturn_eq opening] at hlast
  constructor
  · intro hwritten
    have hnot : f.isDefaulted entry = false := by
      rw [Bool.eq_false_iff, Ne, hdefaulted]
      rintro ⟨hnone, hentry⟩
      rcases hwritten with hsome | heq
      · omega
      · exact hentry heq
    rw [hcode, returnCount_append, hcount, hnot]
    rfl
  · intro hnone hentry
    have hyes : f.isDefaulted entry = true := hdefaulted.2 ⟨hnone, hentry⟩
    rw [hlast, hcode, hyes]
    refine ⟨?_, opening, rfl⟩
    rw [returnCount_append, hcount, hnone]
    rfl

end Function

end Lookahead
